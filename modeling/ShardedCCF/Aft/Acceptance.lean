import ShardedCCF.Aft.StepDown

/-! What an AppendEntries leaves of a follower's log. A follower that has just
learned of a view executes the first one as an instruction to roll back to its
`prev_idx`, without looking for a conflict, and the batch brings back no more
than its own range. -/
namespace CCF.Aft
open List hiding count

variable {NodeId : Type}

namespace Log
variable {l l' l'' : Log NodeId}

/-- Both logs reach to `k` and hold the same entries, but for what a snapshot
stands for. -/
def AgreesWith (l l' : Log NodeId) (k : Nat) : Prop :=
  k ≤ l.lastIdx ∧ k ≤ l'.lastIdx ∧
    ∀ i ≤ k, l.ledgerStart < i → l'.ledgerStart < i → l.entryAt i = l'.entryAt i

def HoldsUntil (l l' : Log NodeId) (k : Nat) : Prop :=
  k ≤ l'.lastIdx ∧ ∀ i ≤ k, l'.entryAt i = l.entryAt i

theorem HoldsUntil.refl (l : Log NodeId) : HoldsUntil l l l.lastIdx := ⟨le_rfl, fun _ _ => rfl⟩

theorem HoldsUntil.mono (holds : HoldsUntil l l' n) (le : k ≤ n) : HoldsUntil l l' k :=
  ⟨le.trans holds.1, fun i below => holds.2 i (below.trans le)⟩

theorem HoldsUntil.trans (first : HoldsUntil l l' k) (second : HoldsUntil l' l'' n) (le : k ≤ n) :
    HoldsUntil l l'' k :=
  ⟨le.trans second.1, fun i below => (second.2 i (below.trans le)).trans (first.2 i below)⟩

theorem Settles.holds (settles : Settles l l') : HoldsUntil l l' l.lastIdx := by
  obtain ⟨_, _, _, rfl⟩ := settles
  exact ⟨le_rfl, fun _ _ => rfl⟩

variable (env : Env NodeId) (view : Nat) (r : AppendEntries)

theorem executeEntry_holds (formed : l.WellFormed) (e : Entry NodeId) :
    HoldsUntil l (l.executeEntry view r e (l.lastIdx + 1)).log l.lastIdx := by
  have pushed : HoldsUntil l (l.push e (l.lastIdx + 1)) l.lastIdx :=
    ⟨Nat.le_succ _, fun i below => l.entryAt_push e (below.trans formed.length.le)⟩
  exact pushed.trans (l.executeEntry_settles view r e (l.lastIdx + 1)).holds (Nat.le_succ _)

theorem execute_nil (l : Log NodeId) : (l.execute env view r []).1 = (l.finish view r).log := by
  rw [execute]
  cases l.finish view r <;> rfl

theorem execute_holds (formed : l.WellFormed) (entries : List (Entry NodeId)) :
    HoldsUntil l (l.execute env view r (entries.zipIdx (l.lastIdx + 1))).1 l.lastIdx ∧
      (l.execute env view r (entries.zipIdx (l.lastIdx + 1))).1.lastIdx ≤ l.lastIdx + entries.length := by
  induction entries generalizing l with
  | nil =>
    rw [zipIdx_nil, execute_nil]
    exact ⟨(l.finish_settles view r).holds, (l.finish_settles view r).lastIdx_eq.le⟩
  | cons e entries ih =>
    rw [zipIdx_cons]
    unfold execute
    split
    · exact ⟨⟨le_rfl, fun i below => l.entryAt_truncate (by omega)⟩, Nat.le_add_right ..⟩
    have holds := executeEntry_holds view r formed e
    have last := (l.executeEntry_settles view r e (l.lastIdx + 1)).lastIdx_eq
    obtain ⟨formed', -⟩ := executeEntry_sustains view r e formed
    cases result : l.executeEntry view r e (l.lastIdx + 1) with
    | error l' =>
      rw [result] at holds last
      have last : l'.lastIdx = l.lastIdx + 1 := last
      exact ⟨holds, by simp only [length_cons]; omega⟩
    | ok l' =>
      rw [result] at holds last formed'
      have last : l'.lastIdx = l.lastIdx + 1 := last
      have formed' : l'.WellFormed := formed'
      obtain ⟨rest, bound⟩ := ih formed'
      rw [last] at rest bound
      exact ⟨holds.trans rest (Nat.le_succ _), by simp only [length_cons]; omega⟩

theorem execute_refused (formed : l.WellFormed) (entries : List (Entry NodeId)) {j : Nat} {e : Entry NodeId}
    (found : entries[j]? = some e)
    (refused : Node.applyEntry env e r.termOfIdx (l.lastIdx + 1 + j) = .fail) :
    (l.execute env view r (entries.zipIdx (l.lastIdx + 1))).1.lastIdx ≤ l.lastIdx + j := by
  induction entries generalizing l j with
  | nil => simp at found
  | cons e' entries ih =>
    rw [zipIdx_cons]
    unfold execute
    cases j with
    | zero =>
      obtain rfl : e' = e := by simpa using found
      rw [if_pos refused]
      exact le_rfl
    | succ j =>
      split
      · exact Nat.le_add_right ..
      have last := (l.executeEntry_settles view r e' (l.lastIdx + 1)).lastIdx_eq
      obtain ⟨formed', -⟩ := executeEntry_sustains view r e' formed
      cases result : l.executeEntry view r e' (l.lastIdx + 1) with
      | error l' =>
        rw [result] at last
        have last : l'.lastIdx = l.lastIdx + 1 := last
        show l'.lastIdx ≤ _
        omega
      | ok l' =>
        rw [result] at last formed'
        have last : l'.lastIdx = l.lastIdx + 1 := last
        have formed' : l'.WellFormed := formed'
        have rest := ih formed' (by simpa using found)
          (by rw [last, show l.lastIdx + 1 + 1 + j = l.lastIdx + 1 + (j + 1) by omega]; exact refused)
        rw [last] at rest
        show (l'.execute env view r (entries.zipIdx (l.lastIdx + 1 + 1))).1.lastIdx ≤ _
        omega

omit env r in
theorem commitIfPossible_ok (formed : l.WellFormed) (idx : Nat) :
    ∃ l', l.commitIfPossible view idx = .ok l' := by
  unfold commitIfPossible
  split
  · split
    · exact ⟨_, rfl⟩
    rename_i highest last
    have member : highest ∈ l.committableIndices :=
      (takeWhile_sublist _).subset (mem_of_getLast? last)
    have within : highest ≤ l.lastIdx := (formed.committable highest member).2.1
    have same : (l.popCommittable idx).lastIdx = l.lastIdx := rfl
    unfold commit
    rw [if_neg (by omega)]
    split <;> exact ⟨_, rfl⟩
  · exact ⟨_, rfl⟩

/-- While no view starts behind the batch, its entries are executed without an
exception. -/
theorem executeEntry_ok (formed : l.WellFormed) {e : Entry NodeId} (term : e.term = r.termOfIdx)
    (starts : ∀ v ∈ l.viewHistory.views, v ≤ r.prevIdx + 1) :
    ∃ l', l.executeEntry view r e (l.lastIdx + 1) = .ok l' ∧
      ∀ v ∈ l'.viewHistory.views, v ≤ r.prevIdx + 1 := by
  unfold executeEntry
  split
  · rename_i signed
    unfold deserialiseSignature
    split
    · exact ⟨_, rfl, starts⟩
    have formed' := (pushSignature_sustains (l := l) signed formed).1
    have forward : ¬ r.prevIdx + 1 < l.viewHistory.views.getLastD 0 := by
      cases last : l.viewHistory.views.getLast? with
      | none => simp [getLastD_eq_getLast?, last]
      | some v => simpa [getLastD_eq_getLast?, last] using starts v (mem_of_getLast? last)
    let signed' : Log NodeId := (l.push e (l.lastIdx + 1)).addCommittable (l.lastIdx + 1)
    have updated : ∃ u, signed'.announceView r e = .ok u := by
      rw [announceView, if_neg (by omega), updateViewHistory, ViewHistory.update,
        dif_neg (show ¬ _ < signed'.viewHistory.views.getLastD 0 from forward)]
      exact ⟨_, rfl⟩
    obtain ⟨u, updated⟩ := updated
    have views : ∀ v ∈ u.viewHistory.views, v ≤ r.prevIdx + 1 := by
      intro v member
      have member : v ∈ (signed'.announceView r e).log.viewHistory.views := by
        rw [updated]
        exact member
      rcases signed'.announceView_views r e member with old | rfl | rfl
      · exact starts v old
      · omega
      · exact le_rfl
    have announced : Sustains signed' (signed'.announceView r e).log := by
      unfold announceView
      split <;> exact updateViewHistory_sustains _ _
    rw [updated] at announced
    have formedU : u.WellFormed := (announced formed').1
    obtain ⟨l', committed⟩ := commitIfPossible_ok view formedU r.leaderCommitIdx
    refine ⟨l', ?_, fun v member => views v ?_⟩
    · rw [updated]
      exact committed
    · have same := u.commitIfPossible_views view r.leaderCommitIdx
      rw [committed] at same
      rwa [← same]
  · exact ⟨_, rfl, starts⟩

theorem execute_all (formed : l.WellFormed) (entries : List (Entry NodeId))
    (starts : ∀ v ∈ l.viewHistory.views, v ≤ r.prevIdx + 1)
    (accepted : ∀ j e, entries[j]? = some e →
      Node.applyEntry env e r.termOfIdx (l.lastIdx + 1 + j) ≠ .fail) :
    (l.execute env view r (entries.zipIdx (l.lastIdx + 1))).1.lastIdx = l.lastIdx + entries.length ∧
      ∀ j e, entries[j]? = some e →
        (l.execute env view r (entries.zipIdx (l.lastIdx + 1))).1.entryAt (l.lastIdx + 1 + j) = some e := by
  induction entries generalizing l with
  | nil =>
    rw [zipIdx_nil, execute_nil]
    exact ⟨(l.finish_settles view r).lastIdx_eq, by simp⟩
  | cons e entries ih =>
    have taken := accepted 0 e rfl
    have term : e.term = r.termOfIdx := by
      by_contra other
      simp [Node.applyEntry, other] at taken
    obtain ⟨l', result, starts'⟩ := executeEntry_ok view r formed term starts
    have settles := l.executeEntry_settles view r e (l.lastIdx + 1)
    obtain ⟨formed', -⟩ := executeEntry_sustains view r e formed
    rw [result] at settles formed'
    have formed' : l'.WellFormed := formed'
    have last : l'.lastIdx = l.lastIdx + 1 := settles.lastIdx_eq
    have pushed : l'.entryAt (l.lastIdx + 1) = some e :=
      (settles.holds.2 _ le_rfl).trans (entryAt_push_last formed e)
    obtain ⟨length, entryAt⟩ := ih formed' starts' fun j e' found => by
      rw [last, show l.lastIdx + 1 + 1 + j = l.lastIdx + 1 + (j + 1) by omega]
      exact accepted (j + 1) e' found
    obtain ⟨kept, -⟩ := execute_holds env view r formed' entries
    rw [zipIdx_cons, execute, if_neg taken, result]
    rw [last] at length entryAt kept
    refine ⟨by simp only [length_cons]; omega, fun j e' found => ?_⟩
    cases j with
    | zero =>
      obtain rfl : e = e' := by simpa using found
      exact (kept.2 _ le_rfl).trans pushed
    | succ j =>
      have rest := entryAt j e' (by simpa using found)
      rwa [show l.lastIdx + 1 + 1 + j = l.lastIdx + 1 + (j + 1) by omega] at rest

theorem rollbackNewFollower_new (new : l.isNewFollower = true) (formed : l.WellFormed)
    (uncommitted : l.commitIdx ≤ r.prevIdx) (within : r.prevIdx ≤ l.lastIdx) :
    (l.rollbackNewFollower view r.prevIdx).lastIdx = r.prevIdx ∧
      (l.rollbackNewFollower view r.prevIdx).WellFormed ∧
      HoldsUntil l (l.rollbackNewFollower view r.prevIdx) r.prevIdx := by
  obtain ⟨formed', -⟩ := rollbackNewFollower_sustains view r.prevIdx formed
  by_cases longer : l.lastIdx > r.prevIdx
  · have cut : l.rollbackNewFollower view r.prevIdx =
        { l.rollback view r.prevIdx with isNewFollower := false } := by
      rw [rollbackNewFollower, if_pos new, if_pos longer]
    rw [rollback, if_neg (by omega)] at cut
    refine ⟨by rw [cut], formed', by rw [cut], fun i below => ?_⟩
    rw [cut]
    exact l.entryAt_truncate below
  have same : l.rollbackNewFollower view r.prevIdx = { l with isNewFollower := false } := by
    rw [rollbackNewFollower, if_pos new, if_neg longer]
  refine ⟨by rw [same]; exact (within.antisymm (by omega)).symm, formed', by rw [same]; exact within,
    fun i _ => ?_⟩
  rw [same]
  rfl

theorem rollbackNewFollower_starts (new : l.isNewFollower = true) (uncommitted : l.commitIdx ≤ r.prevIdx)
    (starts : l.lastIdx ≤ r.prevIdx → ∀ v ∈ l.viewHistory.views, v ≤ r.prevIdx + 1) :
    ∀ v ∈ (l.rollbackNewFollower view r.prevIdx).viewHistory.views, v ≤ r.prevIdx + 1 := by
  intro v member
  by_cases longer : l.lastIdx > r.prevIdx
  · rw [rollbackNewFollower, if_pos new, if_pos longer, rollback, if_neg (by omega)] at member
    exact ((l.viewHistory.mem_rollback r.prevIdx).mp member).2.trans (Nat.le_succ _)
  · rw [rollbackNewFollower, if_pos new, if_neg longer] at member
    exact starts (by omega) v member

theorem readEntries_ok (lastIdx first : Nat) {payload : List (Entry NodeId)} (long : count ≤ payload.length) :
    ∃ items, Node.readEntries lastIdx first count payload = .ok items := by
  induction count generalizing first payload with
  | zero => exact ⟨[], by rw [Node.readEntries]⟩
  | succ count ih =>
    cases payload with
    | nil => simp at long
    | cons e payload =>
      obtain ⟨items, read⟩ := ih (first + 1) (by simpa using long)
      rw [Node.readEntries, read]
      exact ⟨_, rfl⟩

/-- A new follower executes a batch from its first entry on, if it is there as a
whole. -/
theorem accept_new (last : (l.rollbackNewFollower view r.prevIdx).lastIdx = r.prevIdx)
    (payload : List (Entry NodeId)) :
    (l.accept env view r payload).1 =
      if r.idx - r.prevIdx ≤ payload.length then
        ((l.rollbackNewFollower view r.prevIdx).execute env view r
          ((payload.take (r.idx - r.prevIdx)).zipIdx
            ((l.rollbackNewFollower view r.prevIdx).lastIdx + 1))).1
      else l.rollbackNewFollower view r.prevIdx := by
  rw [accept]
  rw [last]
  by_cases long : r.idx - r.prevIdx ≤ payload.length
  · obtain ⟨items, read⟩ := readEntries_ok r.prevIdx (r.prevIdx + 1) long
    obtain ⟨-, equal⟩ := Node.readEntries_eq read
    rw [if_pos long, read, equal, Nat.sub_self, drop_zero, Nat.max_self]
  rw [if_neg long]
  cases read : Node.readEntries r.prevIdx (r.prevIdx + 1) (r.idx - r.prevIdx) payload with
  | error err => rfl
  | ok items => exact absurd (Node.readEntries_eq read).1 long

theorem getElem?_entriesBetween {prevIdx idx j : Nat} {e : Entry NodeId}
    (found : (l.entriesBetween prevIdx idx)[j]? = some e) : l.entryAt (prevIdx + 1 + j) = some e := by
  rw [entriesBetween] at found
  split at found
  · simp at found
  rw [getElem?_take] at found
  split at found
  · rw [entryAt, if_neg (by omega), ← found, getElem?_drop]
    congr 1
    omega
  · cases found

theorem length_entriesBetween (formed : l.WellFormed) {prevIdx idx : Nat} (start : l.ledgerStart ≤ prevIdx)
    (within : idx ≤ l.lastIdx) : (l.entriesBetween prevIdx idx).length = idx - prevIdx := by
  have length := formed.length
  rw [entriesBetween, if_neg (by omega), length_take, length_drop]
  omega

/-- The sender holds the entries of the batch, and the store of the receiver
accepts each of them. -/
def Reapplies (l : Log NodeId) : Prop :=
  ∀ i, r.prevIdx < i → i ≤ r.idx →
    ∃ e, l.entryAt i = some e ∧ Node.applyEntry env e r.termOfIdx i ≠ .fail

/-- What is left of a log `l₀` when a new follower accepts a batch from a sender
whose log is `l'`; `l` is the follower's log by then. -/
theorem accept_new_holds_iff {l₀ : Log NodeId} (new : l.isNewFollower = true) (formed : l.WellFormed)
    (formed' : l'.WellFormed) (uncommitted : l.commitIdx ≤ r.prevIdx) (within : r.prevIdx ≤ l.lastIdx)
    (held : HoldsUntil l₀ l r.prevIdx) (start : l₀.ledgerStart ≤ r.prevIdx)
    (starts : r.prevIdx < k → l.lastIdx ≤ r.prevIdx → ∀ v ∈ l.viewHistory.views, v ≤ r.prevIdx + 1)
    (agree : l₀.AgreesWith l' k) (covers : r.idx ≤ k) :
    HoldsUntil l₀ (l.accept env view r (l'.entriesBetween r.prevIdx r.idx)).1 k ↔
      k ≤ r.prevIdx ∨ k = r.idx ∧ Reapplies env r l' := by
  set payload := l'.entriesBetween r.prevIdx r.idx
  obtain ⟨last, formedU, heldU⟩ := rollbackNewFollower_new view r new formed uncommitted within
  have heldU := held.trans heldU le_rfl
  have result := accept_new env view r last payload
  have startsU := rollbackNewFollower_starts view r new uncommitted
  generalize l.rollbackNewFollower view r.prevIdx = u at last formedU heldU result startsU
  rw [result]
  by_cases below : k ≤ r.prevIdx
  · refine iff_of_true ?_ (.inl below)
    split
    · have executed := (execute_holds env view r formedU
        (payload.take (r.idx - r.prevIdx))).1
      rw [last] at executed ⊢
      exact (heldU.trans executed le_rfl).mono below
    · exact heldU.mono below
  constructor
  · intro holds
    refine .inr ?_
    split at holds
    · have bound := (execute_holds env view r formedU (payload.take (r.idx - r.prevIdx))).2
      have reached := holds.1
      rw [length_take, last] at bound
      rw [last] at reached
      refine ⟨by omega, fun i above upto => ?_⟩
      have inside : i - (r.prevIdx + 1) < payload.length := by omega
      obtain ⟨e, found⟩ : ∃ e, payload[i - (r.prevIdx + 1)]? = some e :=
        ⟨_, getElem?_eq_getElem inside⟩
      have place : r.prevIdx + 1 + (i - (r.prevIdx + 1)) = i := by omega
      have entry := getElem?_entriesBetween found
      rw [place] at entry
      refine ⟨e, entry, fun refused => ?_⟩
      have listed : (payload.take (r.idx - r.prevIdx))[i - (r.prevIdx + 1)]? = some e := by
        rw [getElem?_take, if_pos (by omega)]
        exact found
      have stopped := execute_refused env view r formedU _ listed (by rwa [last, place])
      rw [last] at stopped
      omega
    · have := holds.1
      omega
  · rintro (low | ⟨rfl, reapplies⟩)
    · exact absurd low below
    · have starts' : l'.ledgerStart ≤ r.prevIdx := by
        obtain ⟨e, entry, -⟩ := reapplies (r.prevIdx + 1) (Nat.lt_succ_self _) (by omega)
        by_contra later
        rw [entryAt, if_pos (by omega)] at entry
        cases entry
      have length : payload.length = _ := length_entriesBetween formed' starts' agree.2.1
      rw [if_pos length.ge, ← length, take_length]
      obtain ⟨full, entries⟩ := execute_all env view r formedU payload
        (startsU (starts (by omega))) (fun j e found => by
          have inside := (List.getElem?_eq_some_iff.mp found).1
          obtain ⟨e', entry, accepted⟩ := reapplies (r.prevIdx + 1 + j) (by omega) (by omega)
          rw [getElem?_entriesBetween found] at entry
          cases entry
          rwa [last])
      have executed := (execute_holds env view r formedU payload).1
      rw [last] at full entries executed ⊢
      refine ⟨by omega, fun i upto => ?_⟩
      by_cases old : i ≤ r.prevIdx
      · exact (executed.2 i old).trans (heldU.2 i old)
      have inside : i - (r.prevIdx + 1) < payload.length := by omega
      have found := getElem?_eq_getElem inside
      have again := entries _ _ found
      have sent := getElem?_entriesBetween found
      rw [show r.prevIdx + 1 + (i - (r.prevIdx + 1)) = i by omega] at again sent
      rw [again, agree.2.2 i upto (by omega) (by omega), sent]

theorem rollback_lastCommittable (formed : l.WellFormed) :
    { l.rollback view l.lastCommittableIndex with isNewFollower := true }.WellFormed ∧
      (l.rollback view l.lastCommittableIndex).lastIdx = l.lastCommittableIndex ∧
      (l.rollback view l.lastCommittableIndex).commitIdx = l.commitIdx ∧
      HoldsUntil l { l.rollback view l.lastCommittableIndex with isNewFollower := true }
        l.lastCommittableIndex ∧
      ∀ v ∈ (l.rollback view l.lastCommittableIndex).viewHistory.views, v ≤ l.lastCommittableIndex := by
  obtain ⟨rolled, -⟩ := rollback_sustains view formed.lastCommittable_le formed
  refine ⟨⟨rolled.length, rolled.start_le, rolled.commit_le, rolled.increasing, rolled.committable⟩, ?_⟩
  rw [rollback, if_neg formed.le_lastCommittable.not_gt]
  refine ⟨rfl, rfl, ⟨le_rfl, fun i below => l.entryAt_truncate below⟩, fun v member => ?_⟩
  exact ((l.viewHistory.mem_rollback _).mp member).2

theorem accept_old (old : l.isNewFollower = false) (formed : l.WellFormed) (within : r.prevIdx ≤ l.lastIdx)
    (payload : List (Entry NodeId)) : HoldsUntil l (l.accept env view r payload).1 l.lastIdx := by
  have same : l.rollbackNewFollower view r.prevIdx = l := by
    rw [rollbackNewFollower, if_neg (by simp [old])]
  rw [accept]
  rw [same]
  cases read : Node.readEntries l.lastIdx (r.prevIdx + 1) (r.idx - r.prevIdx) payload with
  | error err => exact .refl l
  | ok items =>
    obtain ⟨-, equal⟩ := Node.readEntries_eq read
    rw [show max (r.prevIdx + 1) (l.lastIdx + 1) = l.lastIdx + 1 by omega] at equal
    rw [equal]
    exact (execute_holds env view r formed _).1

end Log

variable [LinearOrder NodeId]

namespace Node
variable (env : Env NodeId) (s : Node NodeId) (source : NodeId) (r : AppendEntries)
  (payload : List (Entry NodeId))

/-- A node whose retirement is complete takes nothing past the signature over it. -/
def retiredBefore (idx : Nat) : Bool :=
  s.isRetired && s.retirementAtLeast .completed && s.retirementCommittableIdx.all (· < idx)

theorem unsignRetirement_retiredBefore (n idx : Nat) :
    (s.unsignRetirement n).retiredBefore idx = s.retiredBefore idx := by
  unfold unsignRetirement
  dsimp only
  split
  · rename_i signed
    simp only [Bool.and_eq_true, decide_eq_true_eq] at signed
    simp [retiredBefore, retirementAtLeast, isRetired, signed.1.2, RetirementPhase.rank]
  · rfl

theorem unorderRetirement_retiredBefore (n idx : Nat) :
    (s.unorderRetirement n).retiredBefore idx = s.retiredBefore idx := by
  unfold unorderRetirement
  dsimp only
  split
  · rename_i ordered
    simp only [Bool.and_eq_true, decide_eq_true_eq] at ordered
    simp [retiredBefore, retirementAtLeast, isRetired, ordered.1.2, RetirementPhase.rank]
  · rfl

theorem rollbackConfigurations_retiredBefore (n idx : Nat) :
    (s.rollbackConfigurations env n).retiredBefore idx = s.retiredBefore idx := by
  have pruned (t : Node NodeId) : (t.rollbackLearnersAndRetired n).retiredBefore idx = t.retiredBefore idx := by
    unfold rollbackLearnersAndRetired
    split <;> rfl
  unfold rollbackConfigurations
  dsimp only
  split
  · rw [(createAndRemoveNodeState_rebuilds env _).frame]
    exact pruned _
  · exact pruned _

theorem rollback_retiredBefore (n idx : Nat) :
    (s.rollback env n).retiredBefore idx = s.retiredBefore idx := by
  unfold rollback
  split
  · rfl
  rw [rollbackConfigurations_retiredBefore, rollbackRetirement, unorderRetirement_retiredBefore,
    unsignRetirement_retiredBefore]
  rfl

theorem becomeAwareOfNewTerm_retiredBefore (term idx : Nat) :
    (s.becomeAwareOfNewTerm env term).retiredBefore idx = s.retiredBefore idx := by
  have following (t : Node NodeId) : t.followIfActive.retiredBefore idx = t.retiredBefore idx := by
    unfold followIfActive
    split <;> rfl
  exact (following _).trans (rollback_retiredBefore ..)

def Executable : Prop :=
  s.getTermInternal r.prevIdx = r.prevTerm ∧ s.retiredBefore r.idx = false ∧
    s.commitIdx ≤ r.prevIdx ∧ r.prevIdx ≤ s.lastIdx

instance : Decidable (s.Executable r) := inferInstanceAs (Decidable (_ ∧ _))

theorem acceptAppendEntries_toLog (covered : s.roster.Covered) :
    (Result.state (s.acceptAppendEntries env source r payload)).toLog =
      if s.commitIdx ≤ r.prevIdx ∧ r.prevIdx ≤ s.lastIdx then
        (s.toLog.accept env s.currentView r payload).1
      else s.toLog := by
  have start : (s.recogniseLeader env source).toLog = s.toLog := rfl
  have view : (s.recogniseLeader env source).currentView = s.currentView := rfl
  have covered : (s.recogniseLeader env source).roster.Covered := covered
  rw [acceptAppendEntries]
  generalize s.recogniseLeader env source = u at start view covered
  rw [← start, ← view]
  by_cases committed : r.prevIdx < u.commitIdx
  · rw [if_pos committed, if_neg (by omega)]
    rfl
  by_cases ahead : r.prevIdx > u.lastIdx
  · rw [if_neg committed, if_pos ahead, if_neg (by omega)]
    rfl
  rw [if_neg committed, if_neg ahead, if_pos ⟨by omega, by omega⟩]
  have log := u.rollbackNewFollower_toLog env r.prevIdx
  have carried : Carries .unrestricted (fun _ => True) _ _ u _ := u.rollbackNewFollower_carries env r.prevIdx
  obtain ⟨kept, frame⟩ := carried (.of_covered covered)
  have reaches : r.prevIdx ≤ (u.rollbackNewFollower env r.prevIdx).lastIdx := by
    rw [log]
    exact u.toLog.rollbackNewFollower_reaches _ (by omega)
  have batch := executeBatch_executes env _ source r payload False.elim kept reaches
    (fun isFixed => by cases isFixed) (fun limited => absurd rfl limited)
  rw [batch.log_eq, frame.view_eq, log]
  rfl

theorem refused_toLog (rejected : Option (Nat × Nat)) :
    (Result.state (.ok (s.sendAppendEntriesResponse env source .fail rejected))).toLog = s.toLog := by
  unfold Result.state sendAppendEntriesResponse sendAuthenticated
  dsimp only
  split <;> rfl

theorem checkAppendEntries_toLog (covered : s.roster.Covered) :
    (Result.state (s.checkAppendEntries env source r payload)).toLog =
      if s.Executable r then (s.toLog.accept env s.currentView r payload).1 else s.toLog := by
  have checks : s.checkAppendEntries env source r payload =
      if s.getTermInternal r.prevIdx ≠ r.prevTerm then
        if s.getTermInternal r.prevIdx = 0 then .ok (s.sendAppendEntriesResponse env source .fail none)
        else .ok (s.sendAppendEntriesResponse env source .fail (some (r.prevTerm, r.prevIdx)))
      else if s.retiredBefore r.idx = true then .ok (s.sendAppendEntriesResponse env source .fail none)
      else s.acceptAppendEntries env source r payload := rfl
  rw [checks]
  by_cases matching : s.getTermInternal r.prevIdx = r.prevTerm
  · rw [if_neg (not_not.mpr matching)]
    by_cases retired : s.retiredBefore r.idx = true
    · rw [if_pos retired, if_neg (fun ready => by simp [ready.2.1] at retired), refused_toLog]
    rw [if_neg retired, acceptAppendEntries_toLog env s source r payload covered]
    by_cases inside : s.commitIdx ≤ r.prevIdx ∧ r.prevIdx ≤ s.lastIdx
    · rw [if_pos inside, if_pos ⟨matching, by simpa using retired, inside⟩]
    · rw [if_neg inside, if_neg fun ready => inside ready.2.2]
  have idle : ¬ s.Executable r := fun ready => matching ready.1
  rw [if_pos matching, if_neg idle]
  split <;> exact refused_toLog ..

/-- A follower executes the batch once it is in its view; if the view is new to
it, only what is signed is left of its log by then. -/
def Accepts : Prop :=
  s.currentView ≤ r.term ∧ s.getTermInternal r.prevIdx = r.prevTerm ∧ s.retiredBefore r.idx = false ∧
    s.commitIdx ≤ r.prevIdx ∧
    r.prevIdx ≤ (if s.currentView < r.term then s.lastCommittableIndex else s.lastIdx)

instance : Decidable (s.Accepts r) := inferInstanceAs (Decidable (_ ∧ _))

variable {s r payload}

theorem becomeAwareOfNewTerm_executable (sound : s.Sound) (newer : s.currentView < r.term) :
    (s.becomeAwareOfNewTerm env r.term).Executable r ↔ s.Accepts r := by
  have formed : s.toLog.WellFormed := sound.grounded.formed
  have log := s.becomeAwareOfNewTerm_toLog env r.term sound.covered
  rw [Log.rollback, if_neg formed.le_lastCommittable.not_gt] at log
  rw [Executable, Accepts, becomeAwareOfNewTerm_retiredBefore, log, if_pos newer]
  have same (within : r.prevIdx ≤ s.lastCommittableIndex) :
      (s.becomeAwareOfNewTerm env r.term).getTermInternal r.prevIdx = s.getTermInternal r.prevIdx := by
    have ends := formed.lastCommittable_le
    simp only [log, Log.getTermInternal]
    rw [if_neg within.not_gt, if_neg (by omega), ViewHistory.viewAt_rollback, min_eq_left within]
  rw [log] at same
  constructor
  · rintro ⟨matching, serving, uncommitted, within⟩
    exact ⟨newer.le, (same within).symm.trans matching, serving, uncommitted, within⟩
  · rintro ⟨-, matching, serving, uncommitted, within⟩
    exact ⟨(same within).trans matching, serving, uncommitted, within⟩

theorem recvAppendEntries_toLog (sound : s.Sound) (follower : s.leadershipState = some .follower) :
    (Result.state (s.recvAppendEntries env source r payload)).toLog =
      if s.currentView < r.term then
        if s.Accepts r then
          ({ s.toLog.rollback r.term s.lastCommittableIndex with
              isNewFollower := true }.accept env r.term r payload).1
        else { s.toLog.rollback r.term s.lastCommittableIndex with isNewFollower := true }
      else if s.Accepts r then (s.toLog.accept env s.currentView r payload).1
      else s.toLog := by
  rw [recvAppendEntries, if_neg (by simp [follower])]
  by_cases newer : s.currentView < r.term
  · obtain ⟨kept, -, -, _, _, -, equal⟩ :=
      s.becomeAwareOfNewTerm_spec env r.term (.of_covered sound.covered)
    have view : (s.becomeAwareOfNewTerm env r.term).currentView = r.term :=
      congrArg (fun r : Replica NodeId => r.currentView) equal
    rw [if_pos newer, if_pos newer, checkAppendEntries_toLog _ _ _ _ _ kept.covered, view,
      s.becomeAwareOfNewTerm_toLog env r.term sound.covered]
    simp only [s.becomeAwareOfNewTerm_executable env sound newer]
  rw [if_neg newer, if_neg newer]
  by_cases older : s.currentView > r.term
  · rw [if_pos older, if_neg fun accepts => older.not_ge accepts.1]
    exact refused_toLog ..
  have current : s.Executable r ↔ s.Accepts r := by
    rw [Accepts, Executable, if_neg newer]
    exact ⟨fun ready => ⟨by omega, ready⟩, fun accepts => accepts.2⟩
  rw [if_neg older, checkAppendEntries_toLog _ _ _ _ _ sound.covered]
  simp only [current]

/-- A follower keeps the entries up to `k` that it shares with the sender. A new
follower that accepts the batch does not if they go past the batch, and one that
learns of a view but does not accept the batch has cut its log all the same. -/
theorem recvAppendEntries_keeps_agreed_iff (reachable : s.Reachable)
    (follower : s.leadershipState = some .follower) {primary : Node NodeId} (sending : primary.Reachable)
    (sent : Sendable primary.toLog primary.currentView (.appendEntries r payload))
    (agree : s.toLog.AgreesWith primary.toLog k) (covers : r.idx ≤ k) :
    s.toLog.HoldsUntil (Result.state (s.recvAppendEntries env source r payload)).toLog k ↔
      if s.Accepts r ∧ (s.currentView < r.term ∨ s.isNewFollower = true) then
        k ≤ r.prevIdx ∨ k = r.idx ∧ primary.toLog.Reapplies env r
      else s.currentView < r.term → k ≤ s.lastCommittableIndex := by
  have sound := reachable.sound
  have formed : s.toLog.WellFormed := sound.grounded.formed
  have formed' : primary.toLog.WellFormed := sending.sound.grounded.formed
  obtain rfl : payload = primary.toLog.entriesBetween r.prevIdx r.idx := by
    obtain ⟨_, _, -, equal⟩ := sent
    cases equal
    rfl
  rw [s.recvAppendEntries_toLog env source sound follower]
  by_cases newer : s.currentView < r.term
  · obtain ⟨rolled, last, commit, held, starts⟩ := s.toLog.rollback_lastCommittable r.term formed
    rw [if_pos newer]
    by_cases accepts : s.Accepts r
    · have within := accepts.2.2.2.2
      rw [if_pos newer] at within
      rw [if_pos accepts, if_pos ⟨accepts, .inl newer⟩]
      refine Log.accept_new_holds_iff env r.term r rfl rolled formed' (commit.trans_le accepts.2.2.2.1)
        (within.trans_eq last.symm) (held.mono within) (formed.start_le.trans accepts.2.2.2.1)
        (fun _ short v member => ?_) agree covers
      have short : s.lastCommittableIndex ≤ r.prevIdx := last ▸ short
      exact ((starts v member).trans short).trans (Nat.le_succ _)
    · rw [if_neg accepts, if_neg fun both => accepts both.1]
      exact ⟨fun holds _ => holds.1.trans_eq last, fun signed => held.mono (signed newer)⟩
  · rw [if_neg newer]
    have kept := (Log.HoldsUntil.refl s.toLog).mono agree.1
    by_cases accepts : s.Accepts r
    · have within := accepts.2.2.2.2
      rw [if_neg newer] at within
      rw [if_pos accepts]
      cases new : s.isNewFollower with
      | true =>
        rw [if_pos ⟨accepts, .inr rfl⟩]
        refine Log.accept_new_holds_iff env s.currentView r new formed formed' accepts.2.2.2.1 within
          ((Log.HoldsUntil.refl s.toLog).mono within) (formed.start_le.trans accepts.2.2.2.1)
          (fun above short => ?_) agree covers
        exact absurd (agree.1.trans short) above.not_ge
      | false =>
        rw [if_neg fun both => both.2.elim newer (by simp)]
        exact iff_of_true ((Log.accept_old env s.currentView r new formed within _).mono agree.1)
          fun later => absurd later newer
    · rw [if_neg accepts, if_neg fun both => accepts both.1]
      exact iff_of_true kept fun later => absurd later newer

/-- Node 1 commits index 3 with node 2. It then steps down, because it hears from
nobody, and node 2 votes for it again, in view 4. -/
def reelected : List (Action (Fin 3)) :=
  electedWithSignature ++
    [.replicate {} 1 [signatureEntry 3] 3, .tick {} 1 1, .lose 2, .lose 0, .deliver {} 0, .deliver {} 0,
      .deliver {} 1, .tick {} 1 1, .lose 1, .deliver {} 1, .deliver {} 1, .deliver {} 1, .deliver {} 1,
      .tick {} 1 10, .lose 1, .lose 1, .tick {} 1 10, .lose 1, .deliver {} 1, .deliver {} 1,
      .lose 1, .lose 1, .deliver {} 0, .tick {} 1 1]

/-- The first batch of view 4 that reaches node 2 ends where view 2 does. -/
def endOfSecondView : AppendEntries where
  idx := 2
  prevIdx := 1
  term := 4
  prevTerm := 2
  leaderCommitIdx := 3
  termOfIdx := 2

theorem reelected_final :
    ∃ trace c, Cluster.Run threeNodes 0 trace c ∧ (c.node 1).commitIdx = 3 ∧
      (c.node 2).leadershipState = some .follower ∧
      c.net[1]? = some ⟨1, 2, .appendEntries endOfSecondView ((c.node 1).toLog.entriesBetween 1 2)⟩ ∧
      Sendable (c.node 1).toLog (c.node 1).currentView
        (.appendEntries endOfSecondView ((c.node 1).toLog.entriesBetween 1 2)) ∧
      (c.node 2).toLog.AgreesWith (c.node 1).toLog 3 ∧ (c.node 1).toLog.Reapplies {} endOfSecondView ∧
      (c.node 2).Accepts endOfSecondView ∧ (c.node 2).isNewFollower = true ∧
      (Result.state ((c.node 2).recvAppendEntries {} 1 endOfSecondView
        ((c.node 1).toLog.entriesBetween 1 2))).lastIdx = 2 := by
  refine Lib.exists_run_of (P := fun _ c => (c.node 1).commitIdx = 3 ∧ (c.node 2).leadershipState = some .follower ∧
    (c.node 2).lastIdx = 3 ∧ (c.node 1).lastIdx = 3 ∧
    c.net[1]? = some ⟨1, 2, .appendEntries endOfSecondView ((c.node 1).toLog.entriesBetween 1 2)⟩ ∧
    .appendEntries endOfSecondView ((c.node 1).toLog.entriesBetween 1 2) =
      (c.node 1).toLog.appendEntriesMessage (c.node 1).currentView 2
        ((c.node 1).toLog.calculateEndIndex (c.node 1).entriesBatchSize 2) ∧
    (∀ i < 4, (c.node 2).toLog.entryAt i = (c.node 1).toLog.entryAt i) ∧
    (∃ e ∈ (c.node 1).toLog.entryAt 2, applyEntry {} e 2 2 ≠ .fail) ∧
    (c.node 2).Accepts endOfSecondView ∧ (c.node 2).isNewFollower = true ∧
    (Result.state ((c.node 2).recvAppendEntries {} 1 endOfSecondView
      ((c.node 1).toLog.entriesBetween 1 2))).lastIdx = 2) reelected (by decide +kernel) ?_
  rintro trace c run ⟨committed, follower, last, last', flying, message, entries, applies, accepts, new, short⟩
  refine ⟨committed, follower, flying, ⟨2, _, .inl one_le_two, message⟩,
    ⟨last.ge, last'.ge, fun i upto _ _ => entries i (Nat.lt_succ_of_le upto)⟩, fun i above upto => ?_, accepts, new, short⟩
  obtain rfl : i = 2 := upto.antisymm above
  exact applies

/-- Node 2 drops the committed entry 3, on which it agrees with the sender. -/
theorem recvAppendEntries_drops_committed :
    ∃ trace c r payload, Cluster.Run threeNodes 0 trace c ∧ (c.node 1).commitIdx = 3 ∧
      (c.node 2).leadershipState = some .follower ∧ c.net[1]? = some ⟨1, 2, .appendEntries r payload⟩ ∧
      Sendable (c.node 1).toLog (c.node 1).currentView (.appendEntries r payload) ∧
      (c.node 2).toLog.AgreesWith (c.node 1).toLog 3 ∧ r.idx ≤ 3 ∧
      ¬ (c.node 2).toLog.HoldsUntil (Result.state ((c.node 2).recvAppendEntries {} 1 r payload)).toLog 3 := by
  obtain ⟨trace, c, run, committed, follower, flying, sent, agree, -, -, -, short⟩ := reelected_final
  refine ⟨trace, c, _, _, run, committed, follower, flying, sent, agree, Nat.le_succ 2, fun holds => ?_⟩
  exact absurd (short ▸ holds.1) (by decide)

theorem recvAppendEntries_keeps_agreed_reelected :
    ∃ trace c r payload, Cluster.Run threeNodes 0 trace c ∧ (c.node 2).isNewFollower = true ∧
      c.net[1]? = some ⟨1, 2, .appendEntries r payload⟩ ∧ (c.node 2).toLog.AgreesWith (c.node 1).toLog 2 ∧
      (c.node 2).toLog.HoldsUntil (Result.state ((c.node 2).recvAppendEntries {} 1 r payload)).toLog 2 := by
  obtain ⟨trace, c, run, -, follower, flying, sent, agree, reapplies, accepts, new, -⟩ := reelected_final
  have nodes := (Cluster.run_reachable run).1
  have agree : (c.node 2).toLog.AgreesWith (c.node 1).toLog 2 :=
    ⟨Nat.le_of_succ_le agree.1, Nat.le_of_succ_le agree.2.1,
      fun i upto => agree.2.2 i (upto.trans (Nat.le_succ 2))⟩
  refine ⟨trace, c, _, _, run, new, flying, agree, ?_⟩
  refine (recvAppendEntries_keeps_agreed_iff {} 1 (nodes 2) follower (nodes 1) sent agree le_rfl).mpr ?_
  rw [if_pos ⟨accepts, .inr new⟩]
  exact .inr ⟨rfl, reapplies⟩

end Node
end CCF.Aft
