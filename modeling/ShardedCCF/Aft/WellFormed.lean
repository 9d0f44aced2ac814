import ShardedCCF.Aft.Execution

/-! Well-formed logs: the committable indices are signatures above the commit
index, and what is committed stays. Every operation of the log machine keeps a
log well formed and only moves its commit index to a signature. -/
namespace CCF.Aft.Log
open List

variable {NodeId : Type} {l l' l'' : Log NodeId}

def entryAt (l : Log NodeId) (i : Nat) : Option (Entry NodeId) :=
  if i ≤ l.ledgerStart then none else l.ledger[i - l.ledgerStart - 1]?

def SignedAt (l : Log NodeId) (i : Nat) : Prop := ∃ e, l.entryAt i = some e ∧ e.isSignature = true

structure WellFormed (l : Log NodeId) : Prop where
  length : l.lastIdx = l.ledgerStart + l.ledger.length
  start_le : l.ledgerStart ≤ l.commitIdx
  commit_le : l.commitIdx ≤ l.lastIdx
  increasing : l.committableIndices.Pairwise (· < ·)
  committable : ∀ i ∈ l.committableIndices, l.commitIdx < i ∧ i ≤ l.lastIdx ∧ l.SignedAt i

/-- The commit index has moved at most to a signature, and nothing up to the old
one has changed. -/
structure Advances (l l' : Log NodeId) : Prop where
  start_eq : l'.ledgerStart = l.ledgerStart
  commit_le : l.commitIdx ≤ l'.commitIdx
  kept : ∀ i ≤ l.commitIdx, l'.entryAt i = l.entryAt i
  landed : l'.commitIdx = l.commitIdx ∨ l'.SignedAt l'.commitIdx

theorem Advances.refl (l : Log NodeId) : Advances l l := ⟨rfl, le_rfl, fun _ _ => rfl, .inl rfl⟩

theorem Advances.trans (first : Advances l l') (second : Advances l' l'') : Advances l l'' where
  start_eq := second.start_eq.trans first.start_eq
  commit_le := first.commit_le.trans second.commit_le
  kept := fun i below => (second.kept i (below.trans first.commit_le)).trans (first.kept i below)
  landed := by
    rcases second.landed with same | signed
    · rw [same]
      rcases first.landed with stayed | ⟨e, found, signed⟩
      · exact .inl stayed
      · exact .inr ⟨e, (second.kept _ le_rfl).trans found, signed⟩
    · exact .inr signed

/-- An operation that keeps logs well formed and what they have committed. -/
def Sustains (l l' : Log NodeId) : Prop := l.WellFormed → l'.WellFormed ∧ Advances l l'

namespace Sustains

theorem refl (l : Log NodeId) : Sustains l l := fun formed => ⟨formed, .refl l⟩

theorem trans (first : Sustains l l') (second : Sustains l' l'') : Sustains l l'' := by
  intro formed
  obtain ⟨formed, advances⟩ := first formed
  obtain ⟨formed, advances'⟩ := second formed
  exact ⟨formed, advances.trans advances'⟩

theorem bind {first : LogResult NodeId} {next : Log NodeId → LogResult NodeId}
    (begins : Sustains l first.log) (continues : ∀ l, Sustains l (next l).log) :
    Sustains l (LogResult.log (first.bind next)) := by
  cases first with
  | error l' => exact begins
  | ok l' => exact begins.trans (continues l')

theorem of_same (start : l'.ledgerStart = l.ledgerStart) (last : l'.lastIdx = l.lastIdx)
    (commit : l'.commitIdx = l.commitIdx) (ledger : l'.ledger = l.ledger)
    (committable : l'.committableIndices = l.committableIndices) : Sustains l l' := by
  intro formed
  have entries : ∀ i, l'.entryAt i = l.entryAt i := fun i => by rw [entryAt, entryAt, start, ledger]
  refine ⟨⟨?_, ?_, ?_, ?_, fun i member => ?_⟩, start, by rw [commit], fun i _ => entries i, .inl commit⟩
  · rw [last, start, ledger, formed.length]
  · rw [start, commit]
    exact formed.start_le
  · rw [commit, last]
    exact formed.commit_le
  · rw [committable]
    exact formed.increasing
  · obtain ⟨above, within, e, found, signed⟩ := formed.committable i (committable ▸ member)
    exact ⟨commit ▸ above, last ▸ within, e, (entries i).trans found, signed⟩

end Sustains

theorem entryAt_truncate (l : Log NodeId) (below : i ≤ idx) : (l.truncate idx).entryAt i = l.entryAt i := by
  unfold entryAt truncate
  dsimp only
  split
  · rfl
  · rw [getElem?_take_of_lt (by omega)]

theorem WellFormed.le_lastCommittable (formed : l.WellFormed) : l.commitIdx ≤ l.lastCommittableIndex := by
  unfold lastCommittableIndex
  rw [getLastD_eq_getLast?]
  cases last : l.committableIndices.getLast? with
  | none => exact le_rfl
  | some i => exact (formed.committable i (mem_of_getLast? last)).1.le

theorem WellFormed.lastCommittable_le (formed : l.WellFormed) : l.lastCommittableIndex ≤ l.lastIdx := by
  unfold lastCommittableIndex
  rw [getLastD_eq_getLast?]
  cases last : l.committableIndices.getLast? with
  | none => exact formed.commit_le
  | some i => exact (formed.committable i (mem_of_getLast? last)).2.1

variable (view : Nat) (r : AppendEntries)

theorem rollback_sustains (within : idx ≤ l.lastIdx) : Sustains l (l.rollback view idx) := by
  intro formed
  unfold rollback
  split
  · exact ⟨formed, .refl l⟩
  rename_i uncommitted
  have entries : ∀ i ≤ idx, Log.entryAt
      { l.truncate idx with
        termOfNextVersion := view
        lastIdx := idx
        viewHistory := l.viewHistory.rollback idx
        committableIndices := l.committableIndices.rdropWhile fun i => idx < i } i = l.entryAt i :=
    fun i below => l.entryAt_truncate below
  have kept := rdropWhile_prefix (fun i => decide (idx < i)) l.committableIndices
  have start := formed.start_le
  refine ⟨⟨?_, start, not_lt.mp uncommitted, formed.increasing.sublist kept.sublist, fun i member => ?_⟩,
    rfl, le_rfl, fun i below => entries i (below.trans (not_lt.mp uncommitted)), .inl rfl⟩
  · have length := formed.length
    simp only [truncate, length_take]
    omega
  · have below : i ≤ idx := Lib.le_of_mem_rdropWhile (formed.increasing.imp Nat.le_of_lt) member
    obtain ⟨above, -, e, found, signed⟩ := formed.committable i (kept.subset member)
    exact ⟨above, below, e, (entries i below).trans found, signed⟩

/-- The commit index may move to any signature below all committable indices. -/
theorem commit_sustains (signed : l.commitIdx < idx → l.SignedAt idx)
    (below : ∀ i ∈ l.committableIndices, idx < i) : Sustains l (l.commit idx).log := by
  intro formed
  unfold commit
  split
  · exact ⟨formed, .refl l⟩
  rename_i within
  split
  · exact ⟨formed, .refl l⟩
  rename_i ahead
  have start := formed.start_le
  refine ⟨⟨formed.length, by dsimp only [LogResult.log]; omega, not_lt.mp within, formed.increasing,
    fun i member => ?_⟩, rfl, by dsimp only [LogResult.log]; omega, fun _ _ => rfl,
    .inr (signed (not_le.mp ahead))⟩
  obtain ⟨-, within, signedAt⟩ := formed.committable i member
  exact ⟨below i member, within, signedAt⟩

theorem popCommittable_sustains (idx : Nat) : Sustains l (l.popCommittable idx) := by
  intro formed
  have kept := dropWhile_suffix (l := l.committableIndices) fun i => decide (i ≤ idx)
  refine ⟨⟨formed.length, formed.start_le, formed.commit_le,
    formed.increasing.sublist kept.sublist, fun i member => ?_⟩, rfl, le_rfl, fun _ _ => rfl, .inl rfl⟩
  exact formed.committable i (kept.subset member)

theorem commitIfPossible_sustains (view idx : Nat) :
    Sustains l (l.commitIfPossible view idx).log := by
  intro formed
  unfold commitIfPossible
  split
  · split
    · exact popCommittable_sustains idx formed
    rename_i highest popped
    have popped := mem_of_getLast? popped
    have member := ( takeWhile_prefix _).subset popped
    have reached : highest ≤ idx := by simpa using mem_takeWhile_imp popped
    obtain ⟨-, -, signed⟩ := formed.committable highest member
    refine ((popCommittable_sustains idx).trans (commit_sustains (fun _ => signed) ?_)) formed
    exact fun i member => reached.trans_lt (Lib.lt_of_mem_dropWhile formed.increasing member)
  · exact ⟨formed, .refl l⟩

theorem updateViewHistory_sustains (idx view : Nat) :
    Sustains l (l.updateViewHistory idx view).log := by
  unfold updateViewHistory
  split
  · exact .refl l
  · exact .of_same rfl rfl rfl rfl rfl

theorem inferView_sustains : Sustains l (l.inferView r).log := by
  unfold inferView
  split
  · exact updateViewHistory_sustains _ _
  split
  · exact updateViewHistory_sustains _ _
  · exact .refl l

theorem finish_sustains : Sustains l (l.finish view r).log :=
  .bind (commitIfPossible_sustains _ _) fun _ => inferView_sustains r

theorem entryAt_push (l : Log NodeId) (e : Entry NodeId) (below : i ≤ l.ledgerStart + l.ledger.length) :
    (l.push e j).entryAt i = l.entryAt i := by
  unfold entryAt push
  dsimp only
  split
  · rfl
  · rw [getElem?_append_left (by omega)]

theorem push_sustains (e : Entry NodeId) : Sustains l (l.push e (l.lastIdx + 1)) := by
  intro formed
  have length := formed.length
  have commit := formed.commit_le
  have entries : ∀ i ≤ l.lastIdx, (l.push e (l.lastIdx + 1)).entryAt i = l.entryAt i :=
    fun i below => l.entryAt_push e (length ▸ below)
  refine ⟨⟨?_, formed.start_le, by dsimp only [push]; omega, formed.increasing, fun i member => ?_⟩,
    rfl, le_rfl, fun i below => entries i (below.trans commit), .inl rfl⟩
  · simp only [push, length_append, length_singleton]
    omega
  · obtain ⟨above, within, e', found, signed⟩ := formed.committable i member
    exact ⟨above, Nat.le_succ_of_le within, e', (entries i within).trans found, signed⟩

theorem entryAt_push_last (formed : l.WellFormed) (e : Entry NodeId) :
    (l.push e (l.lastIdx + 1)).entryAt (l.lastIdx + 1) = some e := by
  have length := formed.length
  unfold entryAt push
  dsimp only
  rw [if_neg (by omega), show l.lastIdx + 1 - l.ledgerStart - 1 = l.ledger.length by omega]
  simp

theorem pushSignature_sustains {e : Entry NodeId} (signed : e.isSignature = true) :
    Sustains l ((l.push e (l.lastIdx + 1)).addCommittable (l.lastIdx + 1)) := by
  intro formed
  have found := entryAt_push_last formed e
  have below : ∀ i ∈ l.committableIndices, i < l.lastIdx + 1 :=
    fun i member => Nat.lt_succ_of_le (formed.committable i member).2.1
  have commit := Nat.lt_succ_of_le formed.commit_le
  obtain ⟨pushed, advances⟩ := push_sustains e formed
  refine ⟨⟨pushed.length, pushed.start_le, pushed.commit_le, ?_, fun i member => ?_⟩,
    advances.start_eq, advances.commit_le, advances.kept, .inl rfl⟩
  · refine pairwise_append.mpr ⟨pushed.increasing, pairwise_singleton _ _, ?_⟩
    intro i member j last
    rw [mem_singleton.mp last]
    exact below i member
  · rcases mem_append.mp member with old | new
    · exact pushed.committable i old
    · rw [mem_singleton.mp new]
      exact ⟨commit, le_rfl, e, found, signed⟩

theorem executeEntry_sustains (e : Entry NodeId) : Sustains l (l.executeEntry view r e (l.lastIdx + 1)).log := by
  unfold executeEntry
  split
  · rename_i signed
    unfold deserialiseSignature
    split
    · exact pushSignature_sustains signed
    refine (pushSignature_sustains signed).trans (.bind ?_ fun _ => commitIfPossible_sustains _ _)
    unfold announceView
    split <;> exact updateViewHistory_sustains _ _
  · exact push_sustains e

theorem execute_sustains (env : Env NodeId) (view : Nat) (r : AppendEntries)
    (entries : List (Entry NodeId)) :
    Sustains l (l.execute env view r (entries.zipIdx (l.lastIdx + 1))).1 := by
  induction entries generalizing l with
  | nil =>
    have finished : Sustains l (l.finish view r).log := finish_sustains view r
    rw [zipIdx_nil]
    unfold execute
    split <;> rename_i result <;> rw [result] at finished <;> exact finished
  | cons e entries ih =>
    have executed : Sustains l _ := executeEntry_sustains view r e
    have last := (l.executeEntry_settles view r e (l.lastIdx + 1)).lastIdx_eq
    rw [zipIdx_cons]
    unfold execute
    split
    · -- the refused entry is not in the ledger, so nothing is cut off
      intro formed
      have uncut : l.truncate (l.lastIdx + 1 - 1) = l := by
        have length := formed.length
        unfold truncate
        rw [take_of_length_le (by omega)]
      rw [uncut]
      exact ⟨formed, .refl l⟩
    split <;> rename_i result <;> rw [result] at executed last
    · have next : _ = l.lastIdx + 1 := last
      rw [← next]
      exact executed.trans ih
    · exact executed

theorem rollbackNewFollower_sustains (view prevIdx : Nat) :
    Sustains l (l.rollbackNewFollower view prevIdx) := by
  unfold rollbackNewFollower
  split
  · split
    · exact (rollback_sustains view (Nat.le_of_lt ‹_›)).trans (.of_same rfl rfl rfl rfl rfl)
    · exact .of_same rfl rfl rfl rfl rfl
  · exact .refl l

theorem accept_sustains (env : Env NodeId) (view : Nat) (r : AppendEntries)
    (payload : List (Entry NodeId)) (within : r.prevIdx ≤ l.lastIdx) :
    Sustains l (l.accept env view r payload).1 := by
  have rolled : Sustains l _ := rollbackNewFollower_sustains view r.prevIdx
  have reaches := l.rollbackNewFollower_reaches view within
  unfold accept
  dsimp only
  generalize l.rollbackNewFollower view r.prevIdx = u at rolled reaches
  split
  · exact rolled
  rename_i items read
  obtain ⟨-, rfl⟩ := Node.readEntries_eq read
  rw [show max (r.prevIdx + 1) (u.lastIdx + 1) = u.lastIdx + 1 by omega]
  exact rolled.trans (execute_sustains env view r _)

theorem append_sustains {e : Entry NodeId} (next : e.index = l.lastIdx + 1) : Sustains l (l.append view e).log := by
  unfold append
  rw [next]
  refine .trans ?_ (updateViewHistory_sustains _ _)
  split
  · exact pushSignature_sustains ‹_›
  · exact push_sustains e

theorem append_termOfNextVersion (e : Entry NodeId) :
    (l.append view e).log.termOfNextVersion = l.termOfNextVersion := by
  unfold append
  rw [(updateViewHistory_settles _ _ _).termOfNextVersion_eq]
  split <;> rfl

theorem clearCommittable_sustains : Sustains l { l with committableIndices := [] } :=
  fun formed => ⟨⟨formed.length, formed.start_le, formed.commit_le, .nil, by simp⟩, rfl, le_rfl,
    fun _ _ => rfl, .inl rfl⟩

/-- The last committable index is committed or signed. -/
theorem WellFormed.lastCommittable_signed (formed : l.WellFormed)
    (above : l.commitIdx < l.lastCommittableIndex) : l.SignedAt l.lastCommittableIndex := by
  unfold lastCommittableIndex at above ⊢
  rw [getLastD_eq_getLast?] at above ⊢
  cases last : l.committableIndices.getLast? with
  | none =>
    rw [last] at above
    exact absurd above (lt_irrefl _)
  | some i => exact (formed.committable i (mem_of_getLast? last)).2.2

theorem launches_settles (launches : Launches l known l') : Settles l l' := by
  rcases launches with rfl | ⟨-, rfl⟩
  · exact .refl _
  · exact l.commit_settles _

theorem launches_sustains (launches : Launches l known l') (empty : l.committableIndices = [])
    (signed : l.commitIdx < l.lastIdx → l.SignedAt l.lastIdx) : Sustains l l' := by
  rcases launches with rfl | ⟨-, rfl⟩
  · exact .refl _
  · exact commit_sustains signed (by simp [empty])

theorem rollback_termOfNextVersion (uncommitted : l.commitIdx ≤ idx) :
    (l.rollback view idx).termOfNextVersion = view := by
  rw [rollback, if_neg (not_lt.mpr uncommitted)]

theorem lead_sustains
    (launches : Launches ({ l with committableIndices := [] }.rollback view l.lastCommittableIndex) known l') :
    Sustains l l' := by
  intro formed
  have committed := formed.le_lastCommittable
  have prepared : Sustains l _ := clearCommittable_sustains.trans
    (rollback_sustains view formed.lastCommittable_le)
  refine prepared.trans (launches_sustains launches ?_ ?_) formed
  · simp [rollback, not_lt.mpr committed]
  · rw [rollback, if_neg (not_lt.mpr committed)]
    intro above
    obtain ⟨e, found, signed⟩ := formed.lastCommittable_signed above
    exact ⟨e, (l.entryAt_truncate le_rfl).trans found, signed⟩

theorem lead_termOfNextVersion (formed : l.WellFormed)
    (launches : Launches ({ l with committableIndices := [] }.rollback view l.lastCommittableIndex) known l') :
    l'.termOfNextVersion = view :=
  (launches_settles launches).termOfNextVersion_eq.trans
    (rollback_termOfNextVersion view formed.le_lastCommittable)

theorem leadFresh_sustains (empty : l.ledger = [])
    (launches : Launches { l with committableIndices := [], termOfNextVersion := view } known l') :
    Sustains l l' := by
  intro formed
  have length := formed.length
  have start := formed.start_le
  have versioned : Sustains { l with committableIndices := [] }
      { l with committableIndices := [], termOfNextVersion := view } := .of_same rfl rfl rfl rfl rfl
  refine (clearCommittable_sustains.trans versioned).trans (launches_sustains launches rfl ?_) formed
  intro behind
  simp only [empty, length_nil] at length
  dsimp only at behind
  omega

end CCF.Aft.Log
