import ShardedCCF.Aft.Types
import ShardedCCF.Kv.Batching

/-! The initialisation vectors of ledger entries on one node. A transaction
takes its view when it first reads and its version much later; it is encrypted
under both. Elections and rollbacks come in between. -/
namespace CCF.LedgerEncryption
open List Option
open Aft (LeadershipState MembershipState RetirementPhase ReconfigurationType)
open Kv (TxID BatchEntry Replication)
open Kv.Replication (Handed Takes takeBatch_takes)

variable {K C : Type}

/-- The eight bytes of the sequence number and the last four, whose top bit
marks a snapshot. -/
structure Iv where
  seq : Nat
  last : BitVec 32
  deriving DecidableEq, Repr

def setIvTerm (term : Nat) : Option (BitVec 32) :=
  if term > 0x7FFFFFFF then none else some (BitVec.ofNat 32 term)

def setIv (txid : TxID) (isSnapshot : Bool) : Option Iv :=
  (setIvTerm txid.term).map fun last =>
    { seq := txid.version, last := if isSnapshot then last ||| 0x80000000#32 else last }

theorem setIvTerm_toNat (known : setIvTerm term = some last) : last.toNat = term := by
  unfold setIvTerm at known
  split at known
  · cases known
  cases known
  rw [BitVec.toNat_ofNat]
  omega

/-- A write set's vector determines its transaction. -/
theorem txid_of_setIv (first : setIv a false = some iv) (second : setIv b false = some iv) : a = b := by
  obtain ⟨last, low, rfl⟩ := map_eq_some_iff.mp first
  obtain ⟨other, high, same⟩ := map_eq_some_iff.mp second
  simp only [Bool.false_eq_true, if_false, Iv.mk.injEq] at same
  obtain ⟨version, rfl⟩ := same
  have term : a.term = b.term := (setIvTerm_toNat low).symm.trans (setIvTerm_toNat high)
  cases a
  cases b
  simp_all

/-- An encrypted write set. `retires` says that its hook retires this node. -/
structure Entry (K C : Type) where
  secret : K
  iv : Iv
  content : C
  retires : Bool
  txid : TxID
  encrypted : setIv txid false = some iv

/-- Throws when the term does not fit. -/
def encrypt (secret : K) (content : C) (retires : Bool) (txid : TxID) : Option (Entry K C) :=
  match encrypted : setIv txid false with
  | none => none
  | some iv => some { secret, iv, content, retires, txid, encrypted }

theorem txid_of_encrypt {e : Entry K C} (made : encrypt secret content retires txid = some e) :
    e.txid = txid := by
  unfold encrypt at made
  split at made
  · cases made
  · cases made
    rfl

structure Raft where
  leadershipState : Option LeadershipState := none
  membershipState : MembershipState := .active
  reconfigurationType : ReconfigurationType := .oneTransaction
  retirementPhase : Option RetirementPhase := none
  retirementIdx : Option Nat := none
  retirementCommittableIdx : Option Nat := none
  currentView : Nat := 0
  lastIdx : Nat := 0
  commitIdx : Nat := 0
  getTermInternal : Nat → Nat := fun _ => 0

namespace Raft

def isRetired (r : Raft) : Bool := r.membershipState = .retired

def canEndorsePrimary (r : Raft) : Bool := r.membershipState ≠ .retired ∧ r.membershipState ≠ .learner

/-- What makes `become_follower` change the leadership state. -/
def mayFollow (r : Raft) : Bool := r.canEndorsePrimary ∧ r.membershipState ≠ .retirementInitiated

def followIfActive (r : Raft) : Raft :=
  if r.mayFollow then { r with leadershipState := some .follower } else r

def rollbackRetirement (r : Raft) (idx : Nat) : Raft :=
  let r :=
    if r.isRetired ∧ r.retirementPhase = some .signed ∧ r.retirementCommittableIdx.any (idx < ·) then
      { r with retirementCommittableIdx := none, retirementPhase := some .ordered }
    else r
  if r.isRetired ∧ r.retirementPhase = some .ordered ∧ r.retirementIdx.any (idx < ·) then
    { r with
      retirementIdx := none
      retirementPhase := none
      membershipState := match r.reconfigurationType with
        | .oneTransaction => .active
        | .twoTransaction => .retirementInitiated }
  else r

def rollback (r : Raft) (idx : Nat) : Raft := { r.rollbackRetirement idx with lastIdx := idx }

/-- An entry joins the log: its hook, the signature over the node's retirement,
the view history. -/
def putEntry (r : Raft) (index term : Nat) (retires globallyCommittable : Bool) : Raft :=
  let r :=
    if retires ∧ (¬ r.isRetired ∨ r.retirementPhase = some .committed) then
      { r with membershipState := .retired, retirementPhase := some .ordered, retirementIdx := some index }
    else r
  let r :=
    if globallyCommittable ∧ r.isRetired ∧ r.retirementPhase = some .ordered then
      { r with retirementPhase := some .signed, retirementCommittableIdx := some index }
    else r
  { r with lastIdx := index, getTermInternal := Function.update r.getTermInternal index term }

/-- The loop of `Aft::replicate`, with the entries it has accepted. -/
def replicateEntries : Raft → List (BatchEntry (Entry K C)) → List (Entry K C) × Raft × Bool
  | r, [] => ([], r, true)
  | r, (index, e, globallyCommittable) :: batch =>
    if index ≠ r.lastIdx + 1 then ([], r, false)
    else if r.retirementCommittableIdx.isSome then ([], r, false)
    else
      let (accepted, r, replicated) :=
        (r.putEntry index r.currentView e.retires globallyCommittable).replicateEntries batch
      (e :: accepted, r, replicated)

end Raft

structure Tx (K C : Type) where
  commitView : Nat
  content : C
  retires : Bool := false
  globallyCommittable : Bool := false
  entry : Option (Entry K C) := none
  takenAt : Nat := 0

structure Node (K C : Type) where
  store : Replication (Entry K C) := {}
  raft : Raft := {}
  txs : List (Tx K C) := []
  /-- The commit that holds `commit_lock`, and whether consensus has accepted
  its batch. -/
  committing : Option (Handed (Entry K C) × Bool) := none
  /-- Every entry that `Aft::replicate` has accepted. -/
  accepted : List (Entry K C) := []

/-- The steps of transactions and of consensus, between which others may come.
The last committable index is any index from the commit index to the last one. -/
inductive Action (K C : Type) where
  | read (content : C) (retires : Bool)
  | serialise (i : Nat) (secret : K)
  | sign (content : C) (secret : K)
  /-- `Store::commit`, up to its call of consensus. -/
  | submit (i : Nat)
  /-- `Aft::replicate`. -/
  | replicate
  /-- `Store::commit`, after consensus has accepted. -/
  | settle
  | becomeCandidate
  | becomeLeader (lastCommittable : Nat)
  /-- A later view, or CheckQuorum in the same one. -/
  | becomeFollower (view lastCommittable : Nat)
  | truncate (prevIdx : Nat)
  | apply (term : Nat) (retires globallyCommittable : Bool)
  | commit (idx : Nat)
  | configure (membership : MembershipState)
  | completeRetirement

namespace Node

def isPrimary (s : Node K C) : Bool := s.raft.leadershipState = some .leader

/-- `Aft::rollback`. -/
def rollback (s : Node K C) (idx : Nat) : Node K C :=
  if idx < s.raft.commitIdx then s
  else
    { s with
      store := s.store.rollback ⟨s.raft.getTermInternal idx, idx⟩ s.raft.currentView
      raft := s.raft.rollback idx }

/-- The version stays taken if the encryption throws. -/
def serialise (s : Node K C) (i : Nat) (tx : Tx K C) (secret : K) : Node K C :=
  let (version, store) := s.store.nextVersion
  match encrypt secret tx.content tx.retires ⟨tx.commitView, version⟩ with
  | none => { s with store, txs := s.txs.eraseIdx i }
  | some e => { s with store, txs := s.txs.set i { tx with entry := some e, takenAt := store.rollbackCount } }

def sign (s : Node K C) (content : C) (secret : K) : Node K C :=
  let (txid, store) := s.store.nextTxid
  match encrypt secret content false txid with
  | none => { s with store }
  | some e =>
    { s with
      store
      txs := s.txs ++
        [{ commitView := txid.term, content, globallyCommittable := true, entry := some e,
           takenAt := store.rollbackCount }] }

def submit (s : Node K C) (i : Nat) (tx : Tx K C) (e : Entry K C) : Node K C :=
  let (_, handed, store) := s.store.prepare s.isPrimary e.txid e tx.globallyCommittable
  { s with store, txs := s.txs.eraseIdx i, committing := handed.map fun h => (h, false) }

def replicate (s : Node K C) (h : Handed (Entry K C)) : Node K C :=
  if ¬ s.isPrimary then { s.rollback s.raft.lastIdx with committing := none }
  else if h.view ≠ s.raft.currentView then { s with committing := none }
  else
    let (accepted, raft, replicated) := s.raft.replicateEntries h.batch
    { s with
      raft
      accepted := s.accepted ++ accepted
      committing := if replicated then some (h, true) else none }

def becomeLeader (s : Node K C) (lastCommittable : Nat) : Option (Node K C) :=
  let lead := fun t : Node K C => { t with raft := { t.raft with leadershipState := some .leader } }
  if s.raft.isRetired then some s
  else if s.raft.commitIdx > 0 then some (lead (s.rollback lastCommittable))
  else (s.store.initialiseTerm s.raft.currentView).map fun store => lead { s with store }

def becomeFollower (s : Node K C) (view lastCommittable : Nat) : Node K C :=
  let s := { s with raft := { s.raft with currentView := view } }.rollback lastCommittable
  { s with raft := s.raft.followIfActive }

def apply (s : Node K C) (term : Nat) (retires globallyCommittable : Bool) : Option (Node K C) :=
  let index := s.raft.lastIdx + 1
  (s.store.commitDeserialised ⟨term, index⟩).map fun store =>
    { s with store, raft := s.raft.putEntry index term retires globallyCommittable }

/-- There is one leader in a view, so that a leader is sent no entries. -/
def step (s : Node K C) : Action K C → Option (Node K C)
  | .read content retires =>
    some { s with txs := s.txs ++ [{ commitView := s.store.termOfNextVersion, content, retires }] }
  | .serialise i secret =>
    match s.txs[i]? with
    | some tx => if tx.entry.isNone then some (s.serialise i tx secret) else none
    | none => none
  | .sign content secret => some (s.sign content secret)
  | .submit i =>
    match s.committing, s.txs[i]? with
    | none, some tx => tx.entry.map fun e => s.submit i tx e
    | _, _ => none
  | .replicate =>
    match s.committing with
    | some (h, false) => some (s.replicate h)
    | _ => none
  | .settle =>
    match s.committing with
    | some (h, true) => some { s with store := s.store.settle h, committing := none }
    | _ => none
  | .becomeCandidate =>
    if ¬ s.isPrimary ∧ s.raft.canEndorsePrimary then
      some { s with raft := { s.raft with
        leadershipState := some .candidate, currentView := s.raft.currentView + 1 } }
    else none
  | .becomeLeader idx =>
    if s.raft.leadershipState = some .candidate ∧ s.raft.commitIdx ≤ idx ∧ idx ≤ s.raft.lastIdx then
      s.becomeLeader idx
    else none
  | .becomeFollower view idx =>
    if s.raft.currentView ≤ view ∧ s.raft.commitIdx ≤ idx ∧ idx ≤ s.raft.lastIdx then
      some (s.becomeFollower view idx)
    else none
  | .truncate prevIdx =>
    if ¬ s.isPrimary ∧ prevIdx < s.raft.lastIdx then some (s.rollback prevIdx) else none
  | .apply term retires globallyCommittable =>
    if ¬ s.isPrimary then s.apply term retires globallyCommittable else none
  | .commit idx =>
    if s.raft.commitIdx ≤ idx ∧ idx ≤ s.raft.lastIdx then
      some { s with raft := { s.raft with commitIdx := idx } }
    else none
  | .configure membership =>
    if ¬ s.raft.isRetired ∧ membership ≠ .retired then
      some { s with raft := { s.raft with membershipState := membership } }
    else none
  | .completeRetirement =>
    if s.raft.retirementPhase = some .signed then
      some { s with raft := { s.raft with leadershipState := none, retirementPhase := some .completed } }
    else none

/-- Different write sets were encrypted under different pairs of a secret and a
vector. -/
def NoReuse (accepted : List (Entry K C)) : Prop :=
  ∀ a ∈ accepted, ∀ b ∈ accepted, a.content ≠ b.content → (a.secret, a.iv) ≠ (b.secret, b.iv)

/-- A node as it starts: nothing waits, and a primary has told the store its view. -/
structure Started (s : Node K C) : Prop where
  pendingTxs : s.store.pendingTxs = ∅
  txs : s.txs = []
  committing : s.committing = none
  accepted : s.accepted = []
  version : s.store.version = s.raft.lastIdx
  lastReplicated : s.store.lastReplicated = s.raft.lastIdx
  leadership : s.raft.leadershipState ≠ some .candidate
  primary : s.isPrimary → s.store.termOfNextVersion = s.raft.currentView ∧ 0 < s.raft.currentView

/-- A transaction commits on a primary, with a version it took since the store
was last rolled back, unless its view gives it away. A primary that becomes a
follower stops being one. -/
def Allowed (s : Node K C) : Action K C → Prop
  | .submit i => s.isPrimary ∧ ∀ tx, s.txs[i]? = some tx →
    tx.commitView = s.store.termOfNextVersion → tx.takenAt = s.store.rollbackCount
  | .becomeFollower _ idx => s.isPrimary → (s.raft.rollback idx).mayFollow
  | _ => True

/-- The batch is what was pending right after the last replicated version. -/
structure Undisturbed (s : Node K C) (h : Handed (Entry K C)) : Prop where
  rollbackCount : h.previousRollbackCount = s.store.rollbackCount
  lastReplicated : h.previousLastReplicated = s.store.lastReplicated
  absent : ∀ v, h.previousLastReplicated < v → v ≤ h.previousLastReplicated + h.batch.length →
    s.store.pendingTxs[v]? = none

structure Kept (s : Node K C) : Prop where
  covered : s.raft.lastIdx ≤ s.store.version
  pending : ∀ v item, s.store.pendingTxs[v]? = some item → v ≤ s.store.version ∧
    (s.store.lastReplicated < v →
      item.1.txid = ⟨s.store.termOfNextVersion, v⟩ ∧ 0 < s.store.termOfNextVersion)
  -- A store without unreplicated versions has only the batch under way to record.
  replicated : s.store.version ≤ s.raft.lastIdx → s.store.version ≤ s.store.lastReplicated ∨
    ∃ h, s.committing = some (h, true) ∧ Undisturbed s h ∧
      s.store.version ≤ h.previousLastReplicated + h.batch.length
  taken : ∀ tx ∈ s.txs, ∀ e, tx.entry = some e → e.txid.term = tx.commitView ∧
    tx.takenAt ≤ s.store.rollbackCount ∧
    (tx.takenAt = s.store.rollbackCount → e.txid.version ≤ s.store.version)

/-- A batch on its way to consensus. Once its primary has lost its view, that
view is over for this node. -/
structure UnderWay (s : Node K C) (h : Handed (Entry K C)) : Prop where
  nonempty : h.batch ≠ []
  versions : h.batch.map Prod.fst = List.range' (h.previousLastReplicated + 1) h.batch.length
  named : ∀ x ∈ h.batch, x.2.1.txid = ⟨h.view, x.1⟩
  view_le : h.view ≤ s.raft.currentView
  view_lt : s.raft.leadershipState = some .candidate → h.view < s.raft.currentView
  current : s.isPrimary → h.view = s.raft.currentView →
    Undisturbed s h ∧ h.previousLastReplicated + h.batch.length ≤ s.store.version

structure Known (s : Node K C) (txid : TxID) : Prop where
  view_le : txid.term ≤ s.raft.currentView
  view_lt : s.raft.leadershipState = some .candidate → txid.term < s.raft.currentView
  current : s.isPrimary → txid.term = s.raft.currentView → txid.version ≤ s.raft.lastIdx

structure Sound (s : Node K C) : Prop extends Kept s where
  primary : s.isPrimary → s.store.termOfNextVersion = s.raft.currentView ∧ 0 < s.raft.currentView
  candidate : s.raft.leadershipState = some .candidate → 0 < s.raft.currentView
  underWay : ∀ h replicated, s.committing = some (h, replicated) → UnderWay s h
  known : ∀ e ∈ s.accepted, Known s e.txid
  distinct : (s.accepted.map Entry.txid).Nodup

theorem Started.sound (started : Started s) : Sound (s : Node K C) where
  covered := started.version.ge
  pending v item found := by simp [started.pendingTxs] at found
  replicated _ := .inl (started.version.trans started.lastReplicated.symm).le
  taken tx member := by simp [started.txs] at member
  primary := started.primary
  candidate standing := absurd standing started.leadership
  underWay h replicated busy := by simp [started.committing] at busy
  known e member := by simp [started.accepted] at member
  distinct := by simp [started.accepted]

theorem Kept.pending_le (kept : Kept (s : Node K C)) (reached : s.store.version ≤ s.raft.lastIdx)
    (found : s.store.pendingTxs[v]? = some item) : v ≤ s.store.lastReplicated := by
  by_contra beyond
  obtain ⟨bounded, -⟩ := kept.pending v item found
  rcases kept.replicated reached with all | ⟨h, -, undisturbed, batched⟩
  · omega
  have gone := undisturbed.absent v (by have := undisturbed.lastReplicated; omega) (by omega)
  rw [gone] at found
  cases found

theorem Kept.replicated_of_idle (kept : Kept (s : Node K C)) (idle : ∀ h, s.committing ≠ some (h, true))
    (reached : s.store.version ≤ s.raft.lastIdx) : s.store.version ≤ s.store.lastReplicated := by
  rcases kept.replicated reached with all | ⟨h, busy, -⟩
  · exact all
  · exact absurd busy (idle h)

theorem Kept.abandon (kept : Kept (s : Node K C)) (idle : ∀ h, s.committing ≠ some (h, true)) :
    Kept { s with committing := none } :=
  ⟨kept.covered, kept.pending, fun reached => .inl (kept.replicated_of_idle idle reached), kept.taken⟩

section Rollback
variable {s : Node K C}

theorem rollback_of_uncommitted (uncommitted : s.raft.commitIdx ≤ idx) :
    s.rollback idx =
      { s with
        store := s.store.rollback ⟨s.raft.getTermInternal idx, idx⟩ s.raft.currentView
        raft := s.raft.rollback idx } :=
  if_neg (Nat.not_lt_of_le uncommitted)

@[simp] theorem rollbackRetirement_leadershipState (r : Raft) (idx : Nat) :
    (r.rollbackRetirement idx).leadershipState = r.leadershipState := by
  simp only [Raft.rollbackRetirement]
  split_ifs <;> rfl

@[simp] theorem rollbackRetirement_currentView (r : Raft) (idx : Nat) :
    (r.rollbackRetirement idx).currentView = r.currentView := by
  simp only [Raft.rollbackRetirement]
  split_ifs <;> rfl

@[simp] theorem rollback_leadershipState (s : Node K C) (idx : Nat) :
    (s.rollback idx).raft.leadershipState = s.raft.leadershipState := by
  unfold rollback
  split
  · rfl
  · exact rollbackRetirement_leadershipState s.raft idx

@[simp] theorem rollback_currentView (s : Node K C) (idx : Nat) :
    (s.rollback idx).raft.currentView = s.raft.currentView := by
  unfold rollback
  split
  · rfl
  · exact rollbackRetirement_currentView s.raft idx

@[simp] theorem rollback_isPrimary (s : Node K C) (idx : Nat) :
    (s.rollback idx).isPrimary = s.isPrimary := by
  simp only [isPrimary, rollback_leadershipState]

@[simp] theorem rollback_committing (s : Node K C) (idx : Nat) :
    (s.rollback idx).committing = s.committing := by
  unfold rollback
  split <;> rfl

@[simp] theorem rollback_accepted (s : Node K C) (idx : Nat) :
    (s.rollback idx).accepted = s.accepted := by
  unfold rollback
  split <;> rfl

theorem Undisturbed.of_store {t : Node K C} (undisturbed : Undisturbed s h)
    (rollbackCount : t.store.rollbackCount = s.store.rollbackCount)
    (lastReplicated : t.store.lastReplicated = s.store.lastReplicated)
    (pendingTxs : t.store.pendingTxs = s.store.pendingTxs) : Undisturbed t h where
  rollbackCount := undisturbed.rollbackCount.trans rollbackCount.symm
  lastReplicated := undisturbed.lastReplicated.trans lastReplicated.symm
  absent v above within := by rw [pendingTxs]; exact undisturbed.absent v above within

theorem Kept.rollback (kept : Kept s) (within : idx ≤ s.raft.lastIdx) : Kept (s.rollback idx) := by
  by_cases committed : idx < s.raft.commitIdx
  · rwa [show s.rollback idx = s from if_pos committed]
  rw [rollback_of_uncommitted (Nat.le_of_not_lt committed)]
  by_cases reached : s.store.version ≤ idx
  · have same : s.store.version = idx := Nat.le_antisymm reached (within.trans kept.covered)
    rw [s.store.rollback_of_le reached]
    constructor
    · exact same.ge
    · intro v item found
      refine ⟨(kept.pending v item found).1, fun beyond => ?_⟩
      exact absurd (kept.pending_le (reached.trans within) found) (Nat.not_le_of_lt beyond)
    · intro _
      rcases kept.replicated (reached.trans within) with all | ⟨h, busy, undisturbed, batched⟩
      · exact .inl all
      · exact .inr ⟨h, busy, undisturbed.of_store rfl rfl rfl, batched⟩
    · exact kept.taken
  · rw [s.store.rollback_of_lt (Nat.lt_of_not_le reached)]
    constructor
    · exact Nat.le_refl idx
    · intro v item found
      simp at found
    · exact fun _ => .inl (Nat.le_refl idx)
    · intro tx member e made
      obtain ⟨view, before, -⟩ := kept.taken tx member e made
      refine ⟨view, Nat.le_succ_of_le before, ?_⟩
      intro now
      have later : tx.takenAt = s.store.rollbackCount + 1 := now
      omega

end Rollback

section Sound
variable {s t : Node K C}

theorem Sound.of_backup (sound : Sound s) (kept : Kept t) (backup : ¬ t.isPrimary)
    (busy : ∀ x, t.committing = some x → s.committing = some x) (accepted : t.accepted = s.accepted)
    (later : s.raft.currentView ≤ t.raft.currentView)
    (standing : t.raft.leadershipState = some .candidate →
      s.raft.leadershipState = some .candidate ∨ s.raft.currentView < t.raft.currentView) : Sound t where
  toKept := kept
  primary leads := absurd leads backup
  candidate stands := by
    rcases standing stands with before | now
    · exact (sound.candidate before).trans_le later
    · omega
  underWay h replicated holds := by
    have old := sound.underWay h replicated (busy _ holds)
    refine ⟨old.nonempty, old.versions, old.named, old.view_le.trans later, fun stands => ?_,
      fun leads => absurd leads backup⟩
    rcases standing stands with before | now
    · exact (old.view_lt before).trans_le later
    · exact old.view_le.trans_lt now
  known e member := by
    have old := sound.known e (accepted ▸ member)
    refine ⟨old.view_le.trans later, fun stands => ?_, fun leads => absurd leads backup⟩
    rcases standing stands with before | now
    · exact (old.view_lt before).trans_le later
    · exact old.view_le.trans_lt now
  distinct := accepted ▸ sound.distinct

theorem Sound.of_store (sound : Sound s) (kept : Kept t) (raft : t.raft = s.raft)
    (accepted : t.accepted = s.accepted)
    (term : t.store.termOfNextVersion = s.store.termOfNextVersion)
    (underWay : ∀ h replicated, t.committing = some (h, replicated) → UnderWay t h) : Sound t where
  toKept := kept
  primary leads := by
    rw [term, raft]
    exact sound.primary (by rwa [isPrimary, raft] at leads)
  candidate := by rw [raft]; exact sound.candidate
  underWay := underWay
  known e member := by
    have old := sound.known e (accepted ▸ member)
    constructor
    · rw [raft]; exact old.view_le
    · rw [raft]; exact old.view_lt
    · rw [isPrimary, raft]; exact old.current
  distinct := accepted ▸ sound.distinct

theorem UnderWay.of_store (underWay : UnderWay s h) (raft : t.raft = s.raft)
    (rollbackCount : t.store.rollbackCount = s.store.rollbackCount)
    (lastReplicated : t.store.lastReplicated = s.store.lastReplicated)
    (pendingTxs : t.store.pendingTxs = s.store.pendingTxs)
    (version : s.store.version ≤ t.store.version) : UnderWay t h where
  nonempty := underWay.nonempty
  versions := underWay.versions
  named := underWay.named
  view_le := by rw [raft]; exact underWay.view_le
  view_lt := by rw [raft]; exact underWay.view_lt
  current := by
    rw [isPrimary, raft]
    intro leads view
    obtain ⟨undisturbed, taken⟩ := underWay.current leads view
    exact ⟨undisturbed.of_store rollbackCount lastReplicated pendingTxs, taken.trans version⟩

theorem Kept.withRaft (kept : Kept s) (last : r.lastIdx = s.raft.lastIdx) : Kept { s with raft := r } := by
  refine ⟨last.le.trans kept.covered, kept.pending, fun reached => ?_, kept.taken⟩
  rcases kept.replicated (last ▸ reached) with all | ⟨h, busy, undisturbed, batched⟩
  · exact .inl all
  · exact .inr ⟨h, busy, undisturbed.of_store rfl rfl rfl, batched⟩

section
variable (sound : Sound s)
include sound

theorem Sound.withRaft (leadership : r.leadershipState = s.raft.leadershipState)
    (view : r.currentView = s.raft.currentView) (last : r.lastIdx = s.raft.lastIdx) : Sound { s with raft := r } where
  toKept := sound.toKept.withRaft last
  primary leads := by
    rw [isPrimary, leadership] at leads
    rw [view]
    exact sound.primary leads
  candidate := by rw [leadership, view]; exact sound.candidate
  underWay h replicated holds := by
    have old := sound.underWay h replicated holds
    refine ⟨old.nonempty, old.versions, old.named, view ▸ old.view_le, ?_, ?_⟩
    · rw [leadership, view]; exact old.view_lt
    · rw [isPrimary, leadership, view]
      intro leads same
      obtain ⟨undisturbed, taken⟩ := old.current leads same
      exact ⟨undisturbed.of_store rfl rfl rfl, taken⟩
  known e member := by
    have old := sound.known e member
    refine ⟨view ▸ old.view_le, ?_, ?_⟩
    · rw [leadership, view]; exact old.view_lt
    · rw [isPrimary, leadership, view, last]; exact old.current
  distinct := sound.distinct

theorem Sound.read (tx : Tx K C) (fresh : tx.entry = none) : Sound { s with txs := s.txs ++ [tx] } := by
  have kept : Kept { s with txs := s.txs ++ [tx] } := by
    refine ⟨sound.covered, sound.pending, fun reached => ?_, ?_⟩
    · rcases sound.replicated reached with all | ⟨h, busy, undisturbed, batched⟩
      · exact .inl all
      · exact .inr ⟨h, busy, undisturbed.of_store rfl rfl rfl, batched⟩
    · intro other member e made
      rcases mem_append.mp member with old | new
      · exact sound.taken other old e made
      · rw [mem_singleton.mp new, fresh] at made
        cases made
  exact sound.of_store kept rfl rfl rfl fun h replicated holds =>
    (sound.underWay h replicated holds).of_store rfl rfl rfl rfl (Nat.le_refl _)

theorem Sound.take {running : List (Tx K C)}
    (txs : ∀ tx ∈ running, tx ∈ s.txs ∨ ∀ e, tx.entry = some e → e.txid = ⟨tx.commitView, s.store.version + 1⟩ ∧ tx.takenAt = s.store.rollbackCount) :
    Sound { s with store := s.store.nextVersion.2, txs := running } := by
  have kept : Kept { s with store := s.store.nextVersion.2, txs := running } := by
    refine ⟨Nat.le_succ_of_le sound.covered, ?_, ?_, ?_⟩
    · intro v item found
      obtain ⟨bounded, named⟩ := sound.pending v item found
      exact ⟨Nat.le_succ_of_le bounded, named⟩
    · intro reached
      exact absurd (sound.covered.trans_lt reached) (Nat.lt_irrefl _)
    · intro tx member e made
      rcases txs tx member with old | new
      · obtain ⟨view, before, bounded⟩ := sound.taken tx old e made
        exact ⟨view, before, fun now => Nat.le_succ_of_le (bounded now)⟩
      obtain ⟨named, now⟩ := new e made
      rw [named, now]
      exact ⟨rfl, Nat.le_refl _, fun _ => Nat.le_refl _⟩
  exact sound.of_store kept rfl rfl rfl fun h replicated holds =>
    (sound.underWay h replicated holds).of_store rfl rfl rfl rfl (Nat.le_succ _)

theorem Sound.serialise (i : Nat) (tx : Tx K C) (secret : K) : Sound (s.serialise i tx secret) := by
  unfold Node.serialise
  dsimp only
  split
  · exact sound.take fun other member => .inl (mem_of_mem_eraseIdx member)
  rename_i e made
  apply sound.take
  intro other member
  rcases mem_or_eq_of_mem_set member with old | rfl
  · exact .inl old
  right
  intro e' same
  cases same
  exact ⟨txid_of_encrypt made, rfl⟩

theorem Sound.sign (content : C) (secret : K) : Sound (s.sign content secret) := by
  unfold Node.sign
  dsimp only
  split
  · exact sound.take fun other member => .inl member
  rename_i e made
  apply sound.take
  intro other member
  rcases mem_append.mp member with old | new
  · exact .inl old
  right
  obtain rfl := mem_singleton.mp new
  intro e' same
  cases same
  exact ⟨txid_of_encrypt made, rfl⟩

theorem Sound.drop (idle : s.committing = none) (i : Nat) :
    Sound { s with txs := s.txs.eraseIdx i, committing := none } := by
  have kept : Kept { s with txs := s.txs.eraseIdx i, committing := none } := by
    refine ⟨sound.covered, sound.pending, fun reached => ?_, ?_⟩
    · exact .inl (sound.replicated_of_idle (by simp [idle]) reached)
    · intro tx member
      exact sound.taken tx (mem_of_mem_eraseIdx member)
  exact sound.of_store kept rfl rfl rfl fun h replicated holds => nomatch holds

end

theorem Kept.pending_insert (kept : Kept s) (leads : 0 < s.store.termOfNextVersion) (e : Entry K C)
    (committable : Bool) (view : e.txid.term = s.store.termOfNextVersion)
    (bounded : e.txid.version ≤ s.store.version)
    (found : (s.store.pendingTxs.insertIfNew e.txid.version (e, committable))[v]? = some item) :
    v ≤ s.store.version ∧ (s.store.lastReplicated < v →
      item.1.txid = ⟨s.store.termOfNextVersion, v⟩ ∧ 0 < s.store.termOfNextVersion) := by
  rw [Std.ExtTreeMap.getElem?_insertIfNew] at found
  split at found
  case isTrue new =>
    obtain rfl : e.txid.version = v := Std.LawfulEqCmp.eq_of_compare new.1
    cases found
    exact ⟨bounded, fun _ => ⟨by rw [← view], leads⟩⟩
  case isFalse => exact kept.pending v item found

theorem Sound.submit (sound : Sound s) (leads : s.isPrimary) (idle : s.committing = none)
    (running : s.txs[i]? = some tx) (made : tx.entry = some e)
    (fresh : tx.commitView = s.store.termOfNextVersion → tx.takenAt = s.store.rollbackCount) :
    Sound (s.submit i tx e) := by
  obtain ⟨view, -, bounded⟩ := sound.taken tx (mem_of_getElem? running) e made
  obtain ⟨term, positive⟩ := sound.primary leads
  by_cases same : e.txid.term = s.store.termOfNextVersion
  case neg =>
    have refused : s.submit i tx e = { s with txs := s.txs.eraseIdx i, committing := none } := by
      simp [Node.submit, Replication.prepare, same, leads]
    rw [refused]
    exact sound.drop idle i
  have within := bounded (fresh (view.symm.trans same))
  obtain ⟨batch, rest, lastCommittable, takes, handed, store⟩ :=
    s.store.prepare_of_term same s.isPrimary e tx.globallyCommittable
  have named : ∀ v item, (s.store.pendingTxs.insertIfNew e.txid.version (e, tx.globallyCommittable))[v]? =
      some item → v ≤ s.store.version ∧ (s.store.lastReplicated < v →
        item.1.txid = ⟨s.store.termOfNextVersion, v⟩ ∧ 0 < s.store.termOfNextVersion) :=
    fun v item => sound.pending_insert (term ▸ positive) e tx.globallyCommittable same within
  have above : ∀ x ∈ batch, s.store.lastReplicated < x.1 := by
    intro x member
    have listed : x.1 ∈ batch.map Prod.fst := List.mem_map_of_mem member
    rw [takes.versions, mem_range'_1] at listed
    omega
  have kept : Kept (s.submit i tx e) := by
    refine ⟨?_, ?_, ?_, ?_⟩
    · simp only [Node.submit, store]
      exact sound.covered
    · intro v item found
      simp only [Node.submit, store] at found ⊢
      rw [takes.left] at found
      split at found
      · cases found
      · exact named v item found
    · intro reached
      simp only [Node.submit, store] at reached ⊢
      exact .inl (sound.replicated_of_idle (by simp [idle]) reached)
    · intro other member
      simp only [Node.submit, store] at member ⊢
      exact sound.taken other (mem_of_mem_eraseIdx member)
  refine sound.of_store kept rfl rfl (by simp only [Node.submit, store]) ?_
  intro h replicated holds
  simp only [Node.submit, handed] at holds
  split at holds
  · cases holds
  rename_i nonempty
  cases holds
  refine ⟨nonempty, takes.versions, ?_, term.le, ?_, fun _ _ => ⟨⟨?_, ?_, ?_⟩, ?_⟩⟩
  · intro x member
    exact ((named x.1 x.2 (takes.taken x member)).2 (above x member)).1
  · intro stands
    have follows : s.raft.leadershipState = some .leader := of_decide_eq_true leads
    rw [show (s.submit i tx e).raft = s.raft from rfl, follows] at stands
    cases stands
  · simp only [Node.submit, store]
  · simp only [Node.submit, store]
  · intro v after upto
    simp only [Node.submit, store]
    rw [takes.left, if_pos (by dsimp only at after upto; omega)]
  · -- The last version of the batch has been taken.
    have positive := length_pos_iff.mpr nonempty
    have listed : s.store.lastReplicated + batch.length ∈ batch.map Prod.fst := by
      rw [takes.versions, mem_range'_1]
      omega
    obtain ⟨x, member, last⟩ := List.mem_map.mp listed
    simp only [Node.submit, store]
    rw [← last]
    exact (named x.1 x.2 (takes.taken x member)).1

/-- What `Aft::replicate` takes of a batch: entries that follow its log, and all
of them or fewer. -/
structure Accepts (r : Raft) (batch : List (BatchEntry (Entry K C)))
    (result : List (Entry K C) × Raft × Bool) : Prop where
  entries : result.1 = (batch.take result.1.length).map fun x => x.2.1
  indices : (batch.take result.1.length).map Prod.fst = List.range' (r.lastIdx + 1) result.1.length
  lastIdx : result.2.1.lastIdx = r.lastIdx + result.1.length
  currentView : result.2.1.currentView = r.currentView
  leadership : result.2.1.leadershipState = r.leadershipState
  all : if result.2.2 then result.1.length = batch.length else result.1.length < batch.length

@[simp] theorem putEntry_leadershipState (r : Raft) (index term : Nat) (retires committable : Bool) :
    (r.putEntry index term retires committable).leadershipState = r.leadershipState := by
  simp only [Raft.putEntry]
  split_ifs <;> rfl

@[simp] theorem putEntry_currentView (r : Raft) (index term : Nat) (retires committable : Bool) :
    (r.putEntry index term retires committable).currentView = r.currentView := by
  simp only [Raft.putEntry]
  split_ifs <;> rfl

theorem replicateEntries_accepts (r : Raft) (batch : List (BatchEntry (Entry K C))) :
    Accepts r batch (r.replicateEntries batch) := by
  induction batch generalizing r with
  | nil => constructor <;> simp [Raft.replicateEntries]
  | cons x batch ih =>
    obtain ⟨index, e, committable⟩ := x
    unfold Raft.replicateEntries
    split
    · constructor <;> simp
    split
    · constructor <;> simp
    rename_i next open_
    have next : index = r.lastIdx + 1 := not_not.mp next
    have rest := ih (r.putEntry index r.currentView e.retires committable)
    generalize (r.putEntry index r.currentView e.retires committable).replicateEntries batch = result at rest
    obtain ⟨accepted, after, replicated⟩ := result
    constructor
    · exact congrArg _ rest.entries
    · have indices : (batch.take accepted.length).map Prod.fst = List.range' (index + 1) accepted.length :=
        rest.indices
      simp only [length_cons, take_succ_cons, map_cons, range'_succ, indices, next]
    · have lastIdx : after.lastIdx = index + accepted.length := rest.lastIdx
      simp only [lastIdx, length_cons]
      omega
    · exact rest.currentView.trans (putEntry_currentView ..)
    · exact rest.leadership.trans (putEntry_leadershipState ..)
    · have all := rest.all
      split at all <;> simp_all

/-- The accepted entries are named by the view and by consecutive indices. -/
theorem Accepts.txids (accepts : Accepts r batch result) (named : ∀ x ∈ batch, x.2.1.txid = ⟨view, x.1⟩) :
    result.1.map (Entry.txid : Entry K C → TxID) =
      (List.range' (r.lastIdx + 1) result.1.length).map (TxID.mk view) := by
  rw [← accepts.indices]
  conv_lhs => rw [accepts.entries]
  rw [List.map_map, List.map_map]
  apply map_congr_left
  intro x member
  exact named x (mem_of_mem_take member)

theorem Accepts.starts (accepts : Accepts r batch result)
    (versions : batch.map Prod.fst = List.range' (first + 1) batch.length)
    (some_ : 0 < (result.1 : List (Entry K C)).length) : first = r.lastIdx := by
  have indices := accepts.indices
  have bound : result.1.length ≤ batch.length := by
    have all := accepts.all
    split at all <;> omega
  obtain ⟨k, long⟩ := Nat.exists_eq_succ_of_ne_zero some_.ne'
  rw [long] at indices bound
  cases batch with
  | nil => simp at bound
  | cons x batch =>
    have here := (List.cons.inj indices).1
    have there := (List.cons.inj versions).1
    omega

theorem Sound.replicate (sound : Sound s) (busy : s.committing = some (h, false)) :
    Sound (s.replicate h) := by
  have underWay := sound.underWay h false busy
  unfold Node.replicate
  split
  case isTrue backup =>
    have rolled := sound.toKept.rollback (Nat.le_refl s.raft.lastIdx)
    refine sound.of_backup (rolled.abandon (by simp [busy])) ?_ (fun x holds => nomatch holds) (rollback_accepted ..) ?_ ?_
    · simpa [isPrimary] using backup
    · exact (rollback_currentView s s.raft.lastIdx).ge
    · intro stands
      exact .inl ((rollback_leadershipState s s.raft.lastIdx).symm.trans stands)
  case isFalse leads =>
  rw [not_not] at leads
  split
  case isTrue other =>
    exact sound.of_store (sound.abandon (by simp [busy])) rfl rfl rfl fun h replicated holds => nomatch holds
  case isFalse same =>
  rw [not_not] at same
  obtain ⟨undisturbed, taken⟩ := underWay.current leads same
  have accepts := replicateEntries_accepts s.raft h.batch
  generalize s.raft.replicateEntries h.batch = result at accepts
  obtain ⟨accepted, raft, replicated⟩ := result
  have starts := accepts.starts underWay.versions
  have txids := accepts.txids underWay.named
  obtain ⟨-, -, lastIdx, view, leadership, all⟩ := accepts
  dsimp only at starts txids lastIdx view leadership all ⊢
  have nonempty := length_pos_iff.mpr underWay.nonempty
  have isLeader : raft.leadershipState = some .leader := leadership.trans (of_decide_eq_true leads)
  have reached : raft.lastIdx ≤ s.store.version := by
    rcases Nat.eq_zero_or_pos accepted.length with none_ | some_
    · rw [lastIdx, none_]
      exact sound.covered
    · split at all <;> omega
  have kept : Kept
      { s with raft, accepted := s.accepted ++ accepted,
               committing := if replicated then some (h, true) else none } := by
    refine ⟨reached, sound.pending, ?_, sound.taken⟩
    dsimp only
    intro covers
    by_cases complete : replicated
    · -- The whole batch is in the log, and the store has yet to record it.
      rw [if_pos complete] at all ⊢
      exact .inr ⟨h, rfl, undisturbed.of_store rfl rfl rfl, by omega⟩
    rw [if_neg complete] at all
    rcases Nat.eq_zero_or_pos accepted.length with none_ | some_
    · exact .inl (sound.replicated_of_idle (by simp [busy]) (by omega))
    · omega
  constructor
  · exact kept
  · intro _
    rw [view]
    exact sound.primary leads
  · intro stands
    rw [isLeader] at stands
    cases stands
  · intro h' replicated' holds
    split at holds
    · cases holds
      refine ⟨underWay.nonempty, underWay.versions, underWay.named, (same.trans view.symm).le,
        fun stands => ?_, fun _ _ => ⟨undisturbed.of_store rfl rfl rfl, taken⟩⟩
      rw [isLeader] at stands
      cases stands
    · cases holds
  · -- An accepted entry of this view is in the log.
    have log : ∀ txid : TxID, (txid.term ≤ s.raft.currentView) →
        (txid.term = s.raft.currentView → txid.version ≤ raft.lastIdx) →
        Known { s with raft, accepted := s.accepted ++ accepted,
                       committing := if replicated then some (h, true) else none } txid := by
      intro txid before within
      refine ⟨before.trans view.ge, fun stands => ?_, fun _ now => within (now.trans view)⟩
      rw [isLeader] at stands
      cases stands
    intro e member
    have grown : s.raft.lastIdx ≤ raft.lastIdx := by omega
    rcases mem_append.mp member with old | new
    · have known := sound.known e old
      exact log e.txid known.view_le fun now => (known.current leads now).trans grown
    have listed : e.txid ∈ accepted.map Entry.txid := List.mem_map_of_mem new
    rw [txids] at listed
    obtain ⟨v, range, named⟩ := List.mem_map.mp listed
    rw [mem_range'_1] at range
    rw [← named]
    exact log _ same.le fun _ => show v ≤ raft.lastIdx by omega
  · rw [map_append, nodup_append]
    refine ⟨sound.distinct, ?_, ?_⟩
    · have indices : (List.range' (s.raft.lastIdx + 1) accepted.length).Nodup := nodup_range'
      rw [txids]
      exact indices.map fun v w same => (TxID.mk.inj same).2
    · intro txid old other new same
      rw [txids] at new
      obtain ⟨v, range, rfl⟩ := List.mem_map.mp new
      rw [mem_range'_1] at range
      obtain ⟨e, member, named⟩ := List.mem_map.mp old
      have before := (sound.known e member).current leads (by rw [named, same]; assumption)
      rw [named, same] at before
      dsimp only at before
      omega

theorem Sound.settle (sound : Sound s) (busy : s.committing = some (h, true)) :
    Sound { s with store := s.store.settle h, committing := none } := by
  have kept : Kept { s with store := s.store.settle h, committing := none } := by
    unfold Replication.settle
    split
    case isTrue undisturbed =>
      refine ⟨sound.covered, ?_, ?_, sound.taken⟩
      · intro v item found
        obtain ⟨bounded, named⟩ := sound.pending v item found
        exact ⟨bounded, fun beyond => named (by dsimp only at beyond; omega)⟩
      · intro reached
        dsimp only at reached ⊢
        rcases sound.replicated reached with all | ⟨h', holds, -, batched⟩
        · exact .inl (by omega)
        rw [busy] at holds
        cases holds
        exact .inl batched
    case isFalse disturbed =>
      refine ⟨sound.covered, sound.pending, ?_, sound.taken⟩
      intro reached
      rcases sound.replicated reached with all | ⟨h', holds, undisturbed, -⟩
      · exact .inl all
      rw [busy] at holds
      cases holds
      exact absurd ⟨undisturbed.lastReplicated.symm, undisturbed.rollbackCount⟩ disturbed
  refine sound.of_store kept rfl rfl ?_ fun h replicated holds => nomatch holds
  unfold Replication.settle
  split <;> rfl

theorem Sound.lead (sound : Sound s) (standing : s.raft.leadershipState = some .candidate)
    (kept : Kept t) (leads : t.raft.leadershipState = some .leader)
    (view : t.raft.currentView = s.raft.currentView)
    (term : t.store.termOfNextVersion = s.raft.currentView) (busy : t.committing = s.committing)
    (accepted : t.accepted = s.accepted) : Sound t where
  toKept := kept
  primary _ := by rw [term, view]; exact ⟨rfl, sound.candidate standing⟩
  candidate stands := by
    rw [leads] at stands
    cases stands
  underWay h replicated holds := by
    have old := sound.underWay h replicated (busy ▸ holds)
    refine ⟨old.nonempty, old.versions, old.named, view ▸ old.view_le, fun stands => ?_, fun _ now => ?_⟩
    · rw [leads] at stands
      cases stands
    · exact absurd (now.trans view) (old.view_lt standing).ne
  known e member := by
    have old := sound.known e (accepted ▸ member)
    refine ⟨view ▸ old.view_le, fun stands => ?_, fun _ now => ?_⟩
    · rw [leads] at stands
      cases stands
    · exact absurd (now.trans view) (old.view_lt standing).ne
  distinct := accepted ▸ sound.distinct

theorem Sound.becomeLeader (sound : Sound s) (standing : s.raft.leadershipState = some .candidate)
    (uncommitted : s.raft.commitIdx ≤ idx) (within : idx ≤ s.raft.lastIdx)
    (led : s.becomeLeader idx = some t) : Sound t := by
  unfold Node.becomeLeader at led
  split at led
  · cases led
    exact sound
  split at led
  · cases led
    refine sound.lead standing ((sound.toKept.rollback within).withRaft rfl) rfl ?_ ?_ ?_ ?_
    · exact rollback_currentView s idx
    · rw [rollback_of_uncommitted uncommitted]
      exact Replication.rollback_termOfNextVersion ..
    · exact rollback_committing s idx
    · exact rollback_accepted s idx
  -- A store that has no view yet has nothing pending.
  obtain ⟨store, initialised, rfl⟩ := map_eq_some_iff.mp led
  unfold Replication.initialiseTerm at initialised
  split at initialised
  · cases initialised
  cases initialised
  have kept : Kept { s with store := { s.store with termOfNextVersion := s.raft.currentView } } := by
    refine ⟨sound.covered, ?_, fun reached => ?_, sound.taken⟩
    · intro v item found
      obtain ⟨bounded, named⟩ := sound.pending v item found
      exact ⟨bounded, fun beyond => absurd (named beyond).2 (by omega)⟩
    · rcases sound.replicated reached with all | ⟨h, holds, undisturbed, batched⟩
      · exact .inl all
      · exact .inr ⟨h, holds, undisturbed.of_store rfl rfl rfl, batched⟩
  exact sound.lead standing (kept.withRaft rfl) rfl rfl rfl rfl rfl

theorem mayFollow_withView (r : Raft) (view idx : Nat) :
    ({ r with currentView := view }.rollback idx).mayFollow = (r.rollback idx).mayFollow := by
  have retirement : { r with currentView := view }.rollbackRetirement idx =
      { r.rollbackRetirement idx with currentView := view } := by
    unfold Raft.rollbackRetirement Raft.isRetired
    dsimp only
    split_ifs <;> rfl
  rw [Raft.rollback, retirement]
  rfl

theorem Sound.becomeFollower (sound : Sound s) (later : s.raft.currentView ≤ view)
    (uncommitted : s.raft.commitIdx ≤ idx) (within : idx ≤ s.raft.lastIdx)
    (leaves : s.isPrimary → (s.raft.rollback idx).mayFollow) : Sound (s.becomeFollower view idx) := by
  have moved : Kept { s with raft := { s.raft with currentView := view } } := sound.toKept.withRaft rfl
  have rolled : Kept ({ s with raft := { s.raft with currentView := view } }.rollback idx) :=
    moved.rollback within
  simp only [Node.rollback, if_neg (Nat.not_lt_of_le uncommitted)] at rolled
  simp only [Node.becomeFollower, Node.rollback, if_neg (Nat.not_lt_of_le uncommitted),
    Raft.followIfActive, mayFollow_withView]
  split
  case isTrue follows =>
    refine sound.of_backup (rolled.withRaft rfl) ?_ (fun x holds => holds) rfl ?_ ?_
    · simp [isPrimary]
    · simpa [Raft.rollback] using later
    · intro stands
      cases stands
  case isFalse stays =>
    have backup : ¬ s.isPrimary := fun leads => stays (leaves leads)
    refine sound.of_backup rolled ?_ (fun x holds => holds) rfl ?_ ?_
    · simpa [isPrimary, Raft.rollback] using backup
    · simpa [Raft.rollback] using later
    · intro stands
      exact .inl (by simpa [Raft.rollback] using stands)

theorem Sound.apply (sound : Sound s) (backup : ¬ s.isPrimary)
    (applied : s.apply term retires committable = some t) : Sound t := by
  obtain ⟨store, deserialised, rfl⟩ := map_eq_some_iff.mp applied
  unfold Replication.commitDeserialised at deserialised
  dsimp only at deserialised
  split at deserialised
  case isFalse => cases deserialised
  case isTrue next =>
  cases deserialised
  have kept : Kept
      { s with
        store :=
          { s.store.rollback ⟨s.store.termOfLastVersion, s.raft.lastIdx + 1 - 1⟩ s.store.termOfNextVersion with
            version := s.raft.lastIdx + 1
            lastReplicated := s.raft.lastIdx + 1
            termOfLastVersion := term }
        raft := s.raft.putEntry (s.raft.lastIdx + 1) term retires committable } := by
    refine ⟨Nat.le_refl _, ?_, fun _ => .inl (Nat.le_refl _), ?_⟩
    · intro v item found
      by_cases reached : s.store.version ≤ s.raft.lastIdx
      · rw [s.store.rollback_of_le reached] at found
        have bounded := (sound.pending v item found).1.trans reached
        exact ⟨Nat.le_succ_of_le bounded, fun beyond => absurd bounded (by dsimp only at beyond; omega)⟩
      · rw [s.store.rollback_of_lt (Nat.lt_of_not_le reached)] at found
        simp at found
    · intro tx member e made
      obtain ⟨view, before, bounded⟩ := sound.taken tx member e made
      by_cases reached : s.store.version ≤ s.raft.lastIdx
      · rw [s.store.rollback_of_le reached]
        exact ⟨view, before, fun now => (bounded now).trans (Nat.le_succ_of_le reached)⟩
      rw [s.store.rollback_of_lt (Nat.lt_of_not_le reached)]
      refine ⟨view, Nat.le_succ_of_le before, fun now => ?_⟩
      have later : tx.takenAt = s.store.rollbackCount + 1 := now
      omega
  refine sound.of_backup kept ?_ (fun x holds => holds) rfl ?_ ?_
  · simpa [isPrimary] using backup
  · simp
  · intro stands
    exact .inl (by simpa using stands)

theorem Sound.step (sound : Sound s) (allowed : Allowed s a) (moved : s.step a = some t) : Sound t := by
  cases a with
  | read content retires =>
    cases moved
    exact sound.read _ rfl
  | serialise i secret =>
    simp only [Node.step] at moved
    split at moved
    · obtain ⟨-, done⟩ := ite_none_right_eq_some.mp moved
      cases done
      exact sound.serialise ..
    · cases moved
  | sign content secret =>
    cases moved
    exact sound.sign content secret
  | submit i =>
    simp only [Node.step] at moved
    split at moved
    · rename_i tx idle running
      obtain ⟨e, made, rfl⟩ := map_eq_some_iff.mp moved
      exact sound.submit allowed.1 idle running made (allowed.2 tx running)
    · cases moved
  | replicate =>
    simp only [Node.step] at moved
    split at moved
    · rename_i h busy
      cases moved
      exact sound.replicate busy
    · cases moved
  | settle =>
    simp only [Node.step] at moved
    split at moved
    · rename_i h busy
      cases moved
      exact sound.settle busy
    · cases moved
  | becomeCandidate =>
    obtain ⟨backup, done⟩ := ite_none_right_eq_some.mp moved
    cases done
    refine sound.of_backup (sound.toKept.withRaft rfl) ?_ (fun x holds => holds) rfl
      (Nat.le_succ _) fun _ => .inr (Nat.lt_succ_self _)
    simp [isPrimary]
  | becomeLeader idx =>
    obtain ⟨⟨standing, uncommitted, within⟩, done⟩ := ite_none_right_eq_some.mp moved
    exact sound.becomeLeader standing uncommitted within done
  | becomeFollower view idx =>
    obtain ⟨⟨later, uncommitted, within⟩, done⟩ := ite_none_right_eq_some.mp moved
    cases done
    exact sound.becomeFollower later uncommitted within allowed
  | truncate prevIdx =>
    obtain ⟨⟨backup, below⟩, done⟩ := ite_none_right_eq_some.mp moved
    cases done
    refine sound.of_backup (sound.toKept.rollback below.le) ?_ ?_ (rollback_accepted ..) ?_ ?_
    · simpa using backup
    · intro x holds
      rwa [rollback_committing] at holds
    · exact (rollback_currentView s prevIdx).ge
    · intro stands
      exact .inl ((rollback_leadershipState s prevIdx).symm.trans stands)
  | apply term retires committable =>
    obtain ⟨backup, done⟩ := ite_none_right_eq_some.mp moved
    exact sound.apply backup done
  | commit idx | configure membership =>
    obtain ⟨-, done⟩ := ite_none_right_eq_some.mp moved
    cases done
    exact sound.withRaft rfl rfl rfl
  | completeRetirement =>
    obtain ⟨-, done⟩ := ite_none_right_eq_some.mp moved
    cases done
    refine sound.of_backup (sound.toKept.withRaft rfl) ?_ (fun x holds => holds) rfl (Nat.le_refl _)
      fun stands => nomatch stands
    simp [isPrimary]

theorem Sound.noReuse (sound : Sound s) : NoReuse s.accepted := by
  intro a first b second different same
  have iv : a.iv = b.iv := (Prod.mk.inj same).2
  have txid : a.txid = b.txid := txid_of_setIv a.encrypted (iv ▸ b.encrypted)
  exact different (congrArg Entry.content (inj_on_of_nodup_map sound.distinct first second txid))

/-- Where transactions commit on a primary, with versions it took since the
last rollback, and a primary that becomes a follower stops leading, no two
accepted entries share a secret and a vector. -/
theorem accepted_ivs_distinct {start : Node K C} (started : Started start)
    (run : Lib.Run step start trace s) (allowed : ∀ t ∈ trace, Allowed t.pre t.action) :
    NoReuse s.accepted := by
  have sound : Sound s := run.invariant_of allowed Sound started.sound fun _ _ _ before moved good => before.step good moved
  exact sound.noReuse

end Sound

def first : Node Unit Nat :=
  { store := { termOfNextVersion := 2 }
    raft := { leadershipState := some .leader, currentView := 2 } }

theorem first_started : Started first where
  pendingTxs := rfl
  txs := rfl
  committing := rfl
  accepted := rfl
  version := rfl
  lastReplicated := rfl
  leadership := by decide
  primary _ := by decide

instance (s : Node K C) (a : Action K C) : Decidable (Allowed s a) :=
  match a with
  | .submit i =>
    match running : s.txs[i]? with
    | none => decidable_of_iff (s.isPrimary = true)
      ⟨fun leads => ⟨leads, fun _ found => nomatch running ▸ found⟩, And.left⟩
    | some tx => decidable_of_iff (s.isPrimary = true ∧
        (tx.commitView = s.store.termOfNextVersion → tx.takenAt = s.store.rollbackCount))
      ⟨fun ⟨leads, fresh⟩ => ⟨leads, fun _ found => Option.some.inj (running.symm.trans found) ▸ fresh⟩,
        fun ⟨leads, fresh⟩ => ⟨leads, fresh tx running⟩⟩
  | .becomeFollower _ idx => inferInstanceAs (Decidable (s.isPrimary → (s.raft.rollback idx).mayFollow))
  | .read .. | .serialise .. | .sign .. | .replicate | .settle | .becomeCandidate | .becomeLeader _
  | .truncate _ | .apply .. | .commit _ | .configure _ | .completeRetirement => isTrue trivial

/-- Two transactions in view 2, the end of view 2, and one in view 4. -/
theorem accepted_ivs_distinct_reelected :
    ∃ trace s, Lib.Run step first trace s ∧ (∀ t ∈ trace, Allowed t.pre t.action) ∧
      s.accepted.map Entry.txid = [⟨2, 1⟩, ⟨2, 2⟩, ⟨2, 3⟩, ⟨4, 2⟩] ∧ NoReuse s.accepted := by
  refine Lib.exists_run_of (P := fun trace s => (∀ t ∈ trace, Allowed t.pre t.action) ∧
    s.accepted.map Entry.txid = [⟨2, 1⟩, ⟨2, 2⟩, ⟨2, 3⟩, ⟨4, 2⟩])
    [.sign 0 (), .submit 0, .replicate, .settle, .commit 1,
      .read 10 false, .read 11 false, .serialise 0 (), .serialise 1 (),
      .submit 1, .submit 0, .replicate, .settle,
      .becomeFollower 3 1, .becomeCandidate, .becomeLeader 1,
      .read 12 false, .serialise 0 (), .submit 0, .replicate, .settle] (by decide +kernel) ?_
  exact fun trace s run ⟨allowed, accepted⟩ => ⟨allowed, accepted, accepted_ivs_distinct first_started run allowed⟩

/-- Two transactions of view 2 take versions 2 and 3 after the rollback, too. The
first makes consensus roll back once more; the second stays pending on the
backup and is accepted in view 4, behind a new transaction, although the node
has accepted another version 3 of view 2. -/
theorem stale_transaction_reuses_iv :
    ∃ trace s, Lib.Run step first trace s ∧ ¬ NoReuse s.accepted := by
  refine Lib.exists_run_of (P := fun _ s => ∃ a ∈ s.accepted, ∃ b ∈ s.accepted,
      a.content ≠ b.content ∧ a.secret = b.secret ∧ a.iv = b.iv)
    [.sign 0 (), .submit 0, .replicate, .settle, .commit 1,
      .read 10 false, .read 11 false, .read 20 false, .read 21 false,
      .serialise 0 (), .serialise 1 (),
      .submit 0, .replicate, .settle, .submit 0, .replicate, .settle,
      .becomeFollower 3 1, .serialise 0 (), .serialise 1 (),
      .submit 0, .replicate, .submit 0,
      .becomeCandidate, .becomeLeader 1,
      .read 30 false, .serialise 0 (), .submit 0, .replicate] (by decide +kernel) ?_
  intro trace s run ⟨a, first, b, second, different, secret, iv⟩ unique
  exact unique a first b second different (by rw [secret, iv])

end Node
end CCF.LedgerEncryption
