import ShardedCCF.Lib.TreeMap

/-! The part of the store that `Store::commit` works on: versions and terms, the
transactions that wait for an earlier one, and the leaves of the history. -/
namespace CCF.Kv
open Std (ExtTreeMap)

variable {D : Type}

structure TxID where
  term : Nat := 0
  version : Nat := 0
  deriving DecidableEq, Repr

inductive CommitResult where
  | success | failConflict | failNoReplicate
  deriving DecidableEq, Repr

/-- An entry handed to consensus: its version, its data, and whether it is
globally committable. -/
abbrev BatchEntry (D : Type) := Nat × D × Bool

structure Consensus (D : Type) where
  isPrimary : Bool
  replicate : List (BatchEntry D) → Nat → Bool

structure Replication (D : Type) where
  version : Nat := 0
  termOfNextVersion : Nat := 0
  termOfLastVersion : Nat := 0
  lastReplicated : Nat := 0
  /-- The latest committable entry of this term and this store. -/
  lastCommittable : Nat := 0
  rollbackCount : Nat := 0
  pendingTxs : ExtTreeMap Nat (D × Bool) := ∅
  leaves : List D := []

namespace Replication

/-- Further transactions read in the term of this version. -/
def nextVersion (s : Replication D) : Nat × Replication D :=
  (s.version + 1,
    { s with version := s.version + 1, termOfLastVersion := s.termOfNextVersion })

def nextTxid (s : Replication D) : TxID × Replication D :=
  (⟨s.termOfNextVersion, s.version + 1⟩, s.nextVersion.2)

/-- The pending transactions from version `next` on, up to the first gap, and
what stays pending. -/
def takeBatch : Nat → Nat → ExtTreeMap Nat (D × Bool) → List (BatchEntry D) × ExtTreeMap Nat (D × Bool)
  | 0, _, pending => ([], pending)
  | fuel + 1, next, pending =>
    match pending[next]? with
    | none => ([], pending)
    | some (data, committable) =>
      let (batch, pending) := takeBatch fuel (next + 1) (pending.erase next)
      ((next, data, committable) :: batch, pending)

/-- A transaction is submitted. The second component is the batch that was
handed to consensus, with its view. -/
def commit (s : Replication D) (c : Consensus D) (txid : TxID) (data : D) (globallyCommittable : Bool) :
    CommitResult × Option (List (BatchEntry D) × Nat) × Replication D :=
  if txid.term ≠ s.termOfNextVersion ∧ c.isPrimary then (.failNoReplicate, none, s)
  else
    let lastCommittable :=
      if globallyCommittable ∧ txid.version > s.lastCommittable then txid.version
      else s.lastCommittable
    let pending := s.pendingTxs.insertIfNew txid.version (data, globallyCommittable)
    let (batch, pendingTxs) := takeBatch pending.size (s.lastReplicated + 1) pending
    let s := { s with lastCommittable, pendingTxs, leaves := s.leaves ++ batch.map (·.2.1) }
    if batch = [] then (.success, none, s)
    else if c.replicate batch s.termOfNextVersion then
      (.success, some (batch, s.termOfNextVersion),
        { s with lastReplicated := s.lastReplicated + batch.length })
    else (.failNoReplicate, some (batch, s.termOfNextVersion), s)

@[simp] theorem commit_version (s : Replication D) (c : Consensus D) (txid : TxID) (data : D)
    (globallyCommittable : Bool) : (s.commit c txid data globallyCommittable).2.2.version = s.version := by
  unfold commit
  split
  · rfl
  dsimp only
  split
  · rfl
  · split <;> rfl

/-- A batch on its way to consensus, with what `Store::commit` remembers while
it has released the versions. -/
structure Handed (D : Type) where
  batch : List (BatchEntry D)
  view : Nat
  previousLastReplicated : Nat
  previousRollbackCount : Nat

/-- `Store::commit` up to its call of consensus. -/
def prepare (s : Replication D) (isPrimary : Bool) (txid : TxID) (data : D) (globallyCommittable : Bool) :
    CommitResult × Option (Handed D) × Replication D :=
  if txid.term ≠ s.termOfNextVersion ∧ isPrimary then (.failNoReplicate, none, s)
  else
    let lastCommittable :=
      if globallyCommittable ∧ txid.version > s.lastCommittable then txid.version
      else s.lastCommittable
    let pending := s.pendingTxs.insertIfNew txid.version (data, globallyCommittable)
    let (batch, pendingTxs) := takeBatch pending.size (s.lastReplicated + 1) pending
    let s := { s with lastCommittable, pendingTxs, leaves := s.leaves ++ batch.map (·.2.1) }
    if batch = [] then (.success, none, s)
    else
      (.success,
        some
          { batch
            view := s.termOfNextVersion
            previousLastReplicated := s.lastReplicated
            previousRollbackCount := s.rollbackCount },
        s)

/-- `Store::commit` after consensus has accepted the batch. -/
def settle (s : Replication D) (h : Handed D) : Replication D :=
  if s.lastReplicated = h.previousLastReplicated ∧ h.previousRollbackCount = s.rollbackCount then
    { s with lastReplicated := h.previousLastReplicated + h.batch.length }
  else s

/-- A commit that nothing disturbs is its two halves around the call of consensus. -/
theorem commit_eq_prepare (s : Replication D) (c : Consensus D) (txid : TxID) (data : D)
    (globallyCommittable : Bool) :
    s.commit c txid data globallyCommittable =
      match s.prepare c.isPrimary txid data globallyCommittable with
      | (result, none, t) => (result, none, t)
      | (_, some h, t) =>
        if c.replicate h.batch h.view then (.success, some (h.batch, h.view), t.settle h)
        else (.failNoReplicate, some (h.batch, h.view), t) := by
  unfold commit prepare
  split
  · rfl
  dsimp only
  split
  · rfl
  dsimp only
  split
  · simp only [settle, and_self, if_true]
  · rfl

/-- The history is rolled back with the store. -/
def rollback (s : Replication D) (txid : TxID) (termOfNextVersion : Nat) : Replication D :=
  let s := { s with termOfNextVersion, termOfLastVersion := txid.term }
  -- The pending transactions stay when there is no version to take back.
  if txid.version ≥ s.version then s
  else
    { s with
      version := txid.version
      lastReplicated := txid.version
      rollbackCount := s.rollbackCount + 1
      pendingTxs := ∅ }

theorem rollback_of_le (s : Replication D) (reached : s.version ≤ txid.version) :
    s.rollback txid term = { s with termOfNextVersion := term, termOfLastVersion := txid.term } :=
  if_pos reached

theorem rollback_of_lt (s : Replication D) (below : txid.version < s.version) :
    s.rollback txid term =
      { s with
        termOfNextVersion := term
        termOfLastVersion := txid.term
        version := txid.version
        lastReplicated := txid.version
        rollbackCount := s.rollbackCount + 1
        pendingTxs := ∅ } :=
  if_neg (Nat.not_le_of_lt below)

@[simp] theorem rollback_termOfNextVersion (s : Replication D) (txid : TxID) (term : Nat) :
    (s.rollback txid term).termOfNextVersion = term := by
  rcases Nat.lt_or_ge txid.version s.version with below | reached
  · rw [rollback_of_lt s below]
  · rw [rollback_of_le s reached]

/-- Throws if the term is known. -/
def initialiseTerm (s : Replication D) (term : Nat) : Option (Replication D) :=
  if s.termOfNextVersion ≠ 0 then none else some { s with termOfNextVersion := term }

/-- An entry from the primary replaces what the store has from its version on.
It fails if it is not the next one. -/
def commitDeserialised (s : Replication D) (txid : TxID) : Option (Replication D) :=
  let s := s.rollback ⟨s.termOfLastVersion, txid.version - 1⟩ s.termOfNextVersion
  if txid.version = s.version + 1 then
    some { s with version := txid.version, lastReplicated := txid.version, termOfLastVersion := txid.term }
  else none

end Replication
end CCF.Kv
