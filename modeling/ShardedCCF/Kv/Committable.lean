import ShardedCCF.Kv.Replication
import ShardedCCF.Lib.Run

/-! The number of transactions since the last signature, which decides when the
history asks for the next one. `Store::commit` moves the mark of the last
signature forward; nothing moves it back. -/
namespace CCF.Kv
open List
open Std (ExtTreeMap)

variable {D : Type}

def maxVersion : Nat := 2 ^ 63 - 1

namespace Replication

/-- A version that is too large starts again at 0. -/
def nextVersionUnsafe (s : Replication D) : Replication D :=
  { s with
    version := if s.version + 1 > maxVersion then 0 else s.version + 1
    termOfLastVersion := s.termOfNextVersion }

/-- The subtraction is on 64 bits. -/
def committableGap (s : Replication D) : Nat := (s.version + 2 ^ 64 - s.lastCommittable) % 2 ^ 64

end Replication

/-- The versions of a store, with the signatures that are still in it as a ghost. -/
structure Signed (D : Type) where
  store : Replication D := {}
  compacted : Nat := 0
  signatures : List Nat := []

inductive SignedAction (D : Type) where
  /-- `next_version` or `next_txid`. -/
  | next
  /-- Without a consensus nothing is done. -/
  | commit (consensus : Option (Consensus D)) (txid : TxID) (data : D) (globallyCommittable : Bool)
  | rollback (txid : TxID) (term : Nat)
  | compact (v : Nat)

namespace Signed

/-- A commit is refused on a primary in another term. -/
def accepts (s : Replication D) (c : Consensus D) (txid : TxID) : Bool :=
  !(txid.term ≠ s.termOfNextVersion && c.isPrimary)

def step (s : Signed D) : SignedAction D → Option (Signed D)
  | .next => some { s with store := s.store.nextVersionUnsafe }
  | .commit none _ _ _ => some s
  | .commit (some c) txid data globallyCommittable =>
    some { s with
      store := (s.store.commit c txid data globallyCommittable).2.2
      signatures :=
        if globallyCommittable && accepts s.store c txid then txid.version :: s.signatures else s.signatures }
  | .rollback txid term =>
    if txid.version < s.compacted then none
    else some { s with
      store := s.store.rollback txid term
      signatures := if txid.version ≥ s.store.version then s.signatures
        else s.signatures.filter (· ≤ txid.version) }
  | .compact v => some (if v > s.store.version then s else { s with compacted := v })

/-- What a step has to spare: the version does not start again, a signature is made at
a version the store has, and the store is not rolled back behind its last signature. -/
def Spares (s : Signed D) : SignedAction D → Prop
  | .next => s.store.version < maxVersion ∨ s.store.lastCommittable = 0
  | .commit (some c) txid _ true => accepts s.store c txid = true → txid.version ≤ s.store.version
  | .rollback txid _ => txid.version < s.store.version → s.store.lastCommittable ≤ txid.version
  | _ => True

instance (s : Signed D) (a : SignedAction D) : Decidable (s.Spares a) :=
  match a with
  | .next => inferInstanceAs (Decidable (_ ∨ _))
  | .commit (some _) _ _ true | .rollback _ _ => inferInstanceAs (Decidable (_ → _))
  | .commit none _ _ _ | .commit (some _) _ _ false | .compact _ => isTrue trivial

/-- The number of versions of the store after all its signatures. -/
def sinceSignature (s : Signed D) : Nat :=
  ((List.range' 1 s.store.version).filter fun v => s.signatures.all (· < v)).length

theorem commit_lastCommittable (s : Replication D) (c : Consensus D) (txid : TxID) (data : D) (committable : Bool) :
    (s.commit c txid data committable).2.2.lastCommittable =
      if committable && accepts s c txid then max txid.version s.lastCommittable else s.lastCommittable := by
  unfold Replication.commit accepts
  split
  · rename_i refused
    simp [refused.1, refused.2]
  rename_i allowed
  have accepted : (!(decide (txid.term ≠ s.termOfNextVersion) && c.isPrimary)) = true := by
    rw [not_and] at allowed
    by_cases same : txid.term = s.termOfNextVersion
    · simp [same]
    · simp [allowed same]
  rw [accepted, Bool.and_true]
  have raised : (if committable = true ∧ txid.version > s.lastCommittable then txid.version else s.lastCommittable) =
      if committable = true then max txid.version s.lastCommittable else s.lastCommittable := by
    cases committable with
    | false => simp
    | true =>
      simp only [true_and, if_true]
      split <;> omega
  dsimp only
  split
  · exact raised
  split
  · exact raised
  · exact raised

/-- A step keeps the mark within the store if and only if it spares it. -/
theorem step_le_iff {s t : Signed D} (le : s.store.lastCommittable ≤ s.store.version) (moved : s.step a = some t) :
    t.store.lastCommittable ≤ t.store.version ↔ s.Spares a := by
  cases a with
  | next =>
    cases moved
    show s.store.lastCommittable ≤ (if s.store.version + 1 > maxVersion then 0 else s.store.version + 1) ↔
      s.store.version < maxVersion ∨ s.store.lastCommittable = 0
    split <;> omega
  | commit c txid data committable =>
    cases c with
    | none =>
      cases moved
      exact iff_of_true le trivial
    | some c =>
      cases moved
      show (s.store.commit c txid data committable).2.2.lastCommittable ≤
        (s.store.commit c txid data committable).2.2.version ↔ _
      rw [commit_lastCommittable, Replication.commit_version]
      cases committable with
      | false => exact iff_of_true le trivial
      | true =>
        split
        · rename_i accepted
          rw [max_le_iff, and_iff_left le]
          exact ⟨fun bound _ => bound, fun bound => bound accepted⟩
        · rename_i refused
          exact iff_of_true le fun accepted => absurd accepted refused
  | rollback txid term =>
    rw [step] at moved
    split at moved
    · cases moved
    cases moved
    show (s.store.rollback txid term).lastCommittable ≤ (s.store.rollback txid term).version ↔
      (txid.version < s.store.version → s.store.lastCommittable ≤ txid.version)
    rcases Nat.lt_or_ge txid.version s.store.version with below | reached
    · rw [Replication.rollback_of_lt _ below]
      exact ⟨fun bound _ => bound, fun bound => bound below⟩
    · rw [Replication.rollback_of_le _ reached]
      exact iff_of_true le fun below => absurd reached (Nat.not_le_of_lt below)
  | compact v =>
    cases moved
    refine iff_of_true ?_ trivial
    split <;> exact le

/-- The mark is the last signature in the store, which is at most its version. -/
structure Marked (s : Signed D) : Prop where
  bounded : s.store.version ≤ maxVersion
  le : s.store.lastCommittable ≤ s.store.version
  upper : ∀ v ∈ s.signatures, v ≤ s.store.lastCommittable
  attained : s.store.lastCommittable = 0 ∨ s.store.lastCommittable ∈ s.signatures

theorem step_bounded {s t : Signed D} (bounded : s.store.version ≤ maxVersion) (moved : s.step a = some t) :
    t.store.version ≤ maxVersion := by
  cases a with
  | next =>
    cases moved
    show (if s.store.version + 1 > maxVersion then 0 else s.store.version + 1) ≤ maxVersion
    split <;> omega
  | commit c txid data committable =>
    cases c with
    | none =>
      cases moved
      exact bounded
    | some c =>
      cases moved
      rw [Replication.commit_version]
      exact bounded
  | rollback txid term =>
    rw [step] at moved
    split at moved
    · cases moved
    cases moved
    rcases Nat.lt_or_ge txid.version s.store.version with below | reached
    · rw [Replication.rollback_of_lt _ below]
      exact below.le.trans bounded
    · rw [Replication.rollback_of_le _ reached]
      exact bounded
  | compact v =>
    cases moved
    split <;> exact bounded

theorem Marked.step {s t : Signed D} (marked : s.Marked) (moved : s.step a = some t) (spares : s.Spares a) :
    t.Marked := by
  have le := (step_le_iff marked.le moved).mpr spares
  have bounded := step_bounded marked.bounded moved
  cases a with
  | next =>
    cases moved
    exact ⟨bounded, le, marked.upper, marked.attained⟩
  | commit c txid data committable =>
    cases c with
    | none =>
      cases moved
      exact marked
    | some c =>
      cases moved
      refine ⟨bounded, le, ?_, ?_⟩
      · intro v member
        rw [commit_lastCommittable]
        split at member
        · rename_i signed
          rw [if_pos signed]
          rcases mem_cons.mp member with rfl | old
          · exact le_max_left ..
          · exact (marked.upper v old).trans (le_max_right ..)
        rename_i unsigned
        rw [if_neg unsigned]
        exact marked.upper v member
      · rw [commit_lastCommittable]
        split
        · rcases Nat.le_total s.store.lastCommittable txid.version with higher | lower
          · rw [max_eq_left higher]
            exact .inr mem_cons_self
          · rw [max_eq_right lower]
            exact marked.attained.imp_right (mem_cons_of_mem _)
        · exact marked.attained
  | rollback txid term =>
    rw [Signed.step] at moved
    split at moved
    · cases moved
    cases moved
    have same : (s.store.rollback txid term).lastCommittable = s.store.lastCommittable := by
      rcases Nat.lt_or_ge txid.version s.store.version with below | reached
      · rw [Replication.rollback_of_lt _ below]
      · rw [Replication.rollback_of_le _ reached]
    refine ⟨bounded, le, ?_, ?_⟩
    · intro v member
      rw [same]
      split at member
      · exact marked.upper v member
      · exact marked.upper v (mem_of_mem_filter member)
    · rw [same]
      refine marked.attained.imp_right fun member => ?_
      split
      · exact member
      rename_i below
      refine mem_filter.mpr ⟨member, decide_eq_true ?_⟩
      exact spares (not_le.mp below)
  | compact v =>
    cases moved
    split
    · exact marked
    · exact ⟨marked.bounded, marked.le, marked.upper, marked.attained⟩

theorem Marked.sinceSignature_eq {s : Signed D} (marked : s.Marked) :
    s.sinceSignature = s.store.version - s.store.lastCommittable := by
  have later (v : Nat) (positive : 0 < v) : s.signatures.all (· < v) = decide (s.store.lastCommittable < v) := by
    rw [Bool.eq_iff_iff, List.all_eq_true, decide_eq_true_eq]
    constructor
    · intro all
      rcases marked.attained with none | member
      · omega
      · exact of_decide_eq_true (all _ member)
    · intro above v' member
      exact decide_eq_true ((marked.upper v' member).trans_lt above)
  obtain ⟨n, whole⟩ := Nat.exists_eq_add_of_le marked.le
  have split : List.range' 1 s.store.version =
      List.range' 1 s.store.lastCommittable ++ List.range' (1 + s.store.lastCommittable) n := by
    rw [whole, range'_append_1]
  have before : (List.range' 1 s.store.lastCommittable).filter (fun v => s.signatures.all (· < v)) = [] := by
    rw [filter_eq_nil_iff]
    intro v member
    rw [mem_range'_1] at member
    rw [later v (by omega)]
    simp only [decide_eq_true_eq]
    omega
  have after : (List.range' (1 + s.store.lastCommittable) n).filter (fun v => s.signatures.all (· < v)) =
      List.range' (1 + s.store.lastCommittable) n := by
    rw [filter_eq_self]
    intro v member
    rw [mem_range'_1] at member
    rw [later v (by omega)]
    exact decide_eq_true (by omega)
  rw [sinceSignature, split, filter_append, before, after, nil_append, length_range']
  omega

theorem marked_initial : ({} : Signed D).Marked := ⟨Nat.zero_le _, le_rfl, nofun, .inl rfl⟩

/-- In a run that spares the mark, the gap never wraps, and it counts the transactions
since the last signature in the store. -/
theorem gap_counts {s : Signed D} (run : Lib.Run step {} trace s)
    (spares : ∀ taken ∈ trace, Spares taken.pre taken.action) :
    s.store.lastCommittable ≤ s.store.version ∧
      s.store.committableGap = s.store.version - s.store.lastCommittable ∧
      s.store.committableGap = s.sinceSignature := by
  have marked : s.Marked := run.invariant_of spares Marked marked_initial
    fun _ _ _ marked moved spared => marked.step moved spared
  have gap : s.store.committableGap = s.store.version - s.store.lastCommittable := by
    have bounded : s.store.version ≤ 2 ^ 63 - 1 := marked.bounded
    rw [Replication.committableGap, Nat.add_comm, Nat.add_sub_assoc marked.le, Nat.add_mod_left,
      Nat.mod_eq_of_lt (by omega)]
  exact ⟨marked.le, gap, gap.trans marked.sinceSignature_eq.symm⟩

def willing : Consensus Nat := { isPrimary := true, replicate := fun _ _ => true }

def signSecond : List (SignedAction Nat) :=
  [.next, .commit (some willing) ⟨0, 1⟩ 10 false, .next, .commit (some willing) ⟨0, 2⟩ 20 true]

/-- A third transaction is rolled back. -/
theorem gap_counts_after_rollback :
    ∃ trace s, Lib.Run step ({} : Signed Nat) trace s ∧ s.store.version = 2 ∧
      s.store.lastCommittable ≤ s.store.version ∧
      s.store.committableGap = s.store.version - s.store.lastCommittable ∧
      s.store.committableGap = s.sinceSignature := by
  refine Lib.exists_run_of (P := fun trace s => s.store.version = 2 ∧ ∀ taken ∈ trace, Spares taken.pre taken.action)
    (signSecond ++ [.next, .rollback ⟨0, 2⟩ 1]) (by decide +kernel) ?_
  exact fun trace s run ⟨version, spares⟩ => ⟨version, gap_counts run spares⟩

/-- The signature is rolled back; the mark of it stays, and the gap wraps. -/
theorem gap_wraps :
    ∃ trace s, Lib.Run step ({} : Signed Nat) trace s ∧ s.store.version = 1 ∧ s.store.lastCommittable = 2 ∧
      s.store.committableGap = 2 ^ 64 - 1 ∧ s.sinceSignature = 1 :=
  Lib.exists_run (signSecond ++ [.rollback ⟨0, 1⟩ 1]) (by decide +kernel)

end Signed
end CCF.Kv
