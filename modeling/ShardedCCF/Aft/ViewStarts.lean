import ShardedCCF.Aft.StepDown

/-! Where the views of a log start. The first one starts with the first entry,
because nobody sends entries of a log whose views it does not know: a node that
failed in the middle of its first batch has such a log, but it cannot become
primary. This needs the whole service. Only the primary that starts it can lead
before anything is committed, so no other node's batch reaches it by then. -/
namespace CCF.Aft
open List Function

variable {NodeId : Type}

theorem ViewHistory.exists_endOfView {h : ViewHistory} (ends : h.endOfView view ≠ 0) :
    ∃ v ∈ h.views, h.endOfView view = v - 1 := by
  have begun : h.startOfView view ≠ 0 := by
    intro none
    exact ends (by rw [endOfView, if_pos none])
  rw [endOfView_eq begun] at ends ⊢
  split at ends
  · rename_i next
    exact ⟨h.views[view], getElem_mem next, by rw [dif_pos next]⟩
  · exact absurd rfl ends

/-- The batch carries entries of a known view, behind an entry of a known view. -/
def AppendEntries.Proper (r : AppendEntries) : Prop :=
  r.prevIdx < r.idx → 1 ≤ r.termOfIdx ∧ (0 < r.prevIdx → 1 ≤ r.prevTerm)

namespace Log

/-- The views start in the log, the first one at its first entry. -/
structure Anchored (l : Log NodeId) : Prop where
  positive : ∀ v ∈ l.viewHistory.views, 1 ≤ v
  bounded : l.Bounded
  first : l.viewHistory.views ≠ [] → 1 ∈ l.viewHistory.views

structure Rooted (l : Log NodeId) : Prop extends l.Anchored where
  unsigned : l.viewHistory.views = [] → l.commitIdx = 0 ∧ l.committableIndices = []

variable {l l' : Log NodeId}

theorem Anchored.viewAt_pos (anchored : l.Anchored) (known : l.viewHistory.views ≠ []) (pos : 1 ≤ i) :
    1 ≤ l.viewHistory.viewAt i := by
  rw [ViewHistory.viewAt_eq_countP, Nat.one_le_iff_ne_zero, ← Nat.pos_iff_ne_zero, countP_pos_iff]
  exact ⟨1, anchored.first known, by simpa using pos⟩

theorem Anchored.of_views (anchored : l.Anchored) (views : l'.viewHistory = l.viewHistory)
    (last : l.lastIdx ≤ l'.lastIdx) : l'.Anchored := by
  refine ⟨?_, ?_, ?_⟩
  · rw [views]
    exact anchored.positive
  · exact anchored.bounded.of_views (fun v member => .inl (views ▸ member)) last
  · rw [views]
    exact anchored.first

theorem Rooted.of_views (rooted : l.Rooted) (views : l'.viewHistory = l.viewHistory)
    (last : l.lastIdx ≤ l'.lastIdx)
    (unsigned : l.commitIdx = 0 ∧ l.committableIndices = [] → l'.commitIdx = 0 ∧ l'.committableIndices = []) :
    l'.Rooted := by
  refine ⟨rooted.toAnchored.of_views views last, ?_⟩
  rw [views]
  exact fun none => unsigned (rooted.unsigned none)

theorem Rooted.lastCommittable_eq (rooted : l.Rooted) (none : l.viewHistory.views = []) :
    l.lastCommittableIndex = 0 := by
  obtain ⟨committed, queue⟩ := rooted.unsigned none
  rw [lastCommittableIndex, queue, committed]
  rfl

theorem Rooted.rollback (rooted : l.Rooted) (formed : l.WellFormed) (view : Nat) :
    (l.rollback view idx).Rooted := by
  unfold Log.rollback
  split
  · exact rooted
  refine ⟨⟨?_, ?_, ?_⟩, ?_⟩
  · intro v member
    exact rooted.positive v ((l.viewHistory.mem_rollback idx).mp member).1
  · intro v member
    exact ((l.viewHistory.mem_rollback idx).mp member).2.trans (le_max_right ..)
  · intro known
    obtain ⟨v, member⟩ := exists_mem_of_ne_nil _ known
    obtain ⟨old, within⟩ := (l.viewHistory.mem_rollback idx).mp member
    exact (l.viewHistory.mem_rollback idx).mpr
      ⟨rooted.first (ne_nil_of_mem old), (rooted.positive v old).trans within⟩
  · intro none
    have none : (l.viewHistory.rollback idx).views = [] := none
    by_cases empty : idx = 0
    · refine ⟨show l.commitIdx = 0 by omega, ?_⟩
      refine rdropWhile_eq_nil_iff.mpr fun i member => ?_
      have := (formed.committable i member).1
      simp only [decide_eq_true_eq]
      omega
    have unknown : l.viewHistory.views = [] := by
      by_contra known
      have kept := (l.viewHistory.mem_rollback idx).mpr ⟨rooted.first known, by omega⟩
      simp [none] at kept
    obtain ⟨committed, queue⟩ := rooted.unsigned unknown
    exact ⟨committed, by simp [queue]⟩

/-- A log that is cut at its last signature is empty or knows its views. -/
theorem Rooted.rollback_signed (rooted : l.Rooted) (views : l'.viewHistory = l.viewHistory)
    (view : Nat) (uncommitted : l'.commitIdx ≤ l.lastCommittableIndex)
    (none : (l'.rollback view l.lastCommittableIndex).viewHistory.views = []) :
    (l'.rollback view l.lastCommittableIndex).lastIdx = 0 := by
  rw [Log.rollback, if_neg (by omega)] at none ⊢
  show l.lastCommittableIndex = 0
  have none : (l'.viewHistory.rollback l.lastCommittableIndex).views = [] := none
  rw [views] at none
  by_contra signed
  have known : l.viewHistory.views ≠ [] := fun unknown => signed (rooted.lastCommittable_eq unknown)
  have kept := (l.viewHistory.mem_rollback l.lastCommittableIndex).mpr ⟨rooted.first known, by omega⟩
  simp [none] at kept

theorem rollback_commitIdx (l : Log NodeId) (view idx : Nat) : (l.rollback view idx).commitIdx = l.commitIdx := by
  unfold rollback
  split <;> rfl

theorem updateViewHistory_keeps (l : Log NodeId) (idx view : Nat) (member : v ∈ l.viewHistory.views) :
    v ∈ (l.updateViewHistory idx view).log.viewHistory.views := by
  unfold updateViewHistory
  split
  · exact member
  rename_i h updated
  show v ∈ h.views
  rw [ViewHistory.views_update updated]
  exact mem_append_left _ member

/-- After an update the view history knows a view, whether or not it throws. -/
theorem updateViewHistory_known (l : Log NodeId) (idx : Nat) (viewed : 1 ≤ view) :
    (l.updateViewHistory idx view).log.viewHistory.views ≠ [] := by
  unfold updateViewHistory
  split
  · rename_i thrown
    intro none
    have none : l.viewHistory.views = [] := none
    simp [ViewHistory.update, none] at thrown
  rename_i h updated
  show h.views ≠ []
  rw [ViewHistory.views_update updated]
  intro none
  obtain ⟨known, missing⟩ := append_eq_nil_iff.mp none
  simp [known] at missing
  omega

theorem Anchored.update (anchored : l.Anchored) (pos : 1 ≤ start) (within : start ≤ max 1 l.lastIdx)
    (fits : l.viewHistory.views = [] → start = 1) (view : Nat) :
    (l.updateViewHistory start view).log.Anchored := by
  have last := (l.updateViewHistory_settles start view).lastIdx_eq
  refine ⟨fun v member => ?_, fun v member => ?_, fun known => ?_⟩
  · rcases l.updateViewHistory_views start view member with old | rfl
    · exact anchored.positive v old
    · exact pos
  · rw [last]
    rcases l.updateViewHistory_views start view member with old | rfl
    · exact anchored.bounded v old
    · exact within
  · by_cases none : l.viewHistory.views = []
    · obtain ⟨v, member⟩ := exists_mem_of_ne_nil _ known
      rcases l.updateViewHistory_views start view member with old | rfl
      · simp [none] at old
      · obtain rfl := fits none
        exact member
    · exact l.updateViewHistory_keeps start view (anchored.first none)

theorem updateViewHistory_frame (l : Log NodeId) (idx view : Nat) :
    (l.updateViewHistory idx view).log.commitIdx = l.commitIdx ∧
      (l.updateViewHistory idx view).log.committableIndices = l.committableIndices := by
  unfold updateViewHistory
  split <;> exact ⟨rfl, rfl⟩

theorem Rooted.update (rooted : l.Rooted) (pos : 1 ≤ start) (within : start ≤ max 1 l.lastIdx)
    (fits : l.viewHistory.views = [] → start = 1) (view : Nat) :
    (l.updateViewHistory start view).log.Rooted := by
  refine ⟨rooted.toAnchored.update pos within fits view, fun none => ?_⟩
  rw [(l.updateViewHistory_frame start view).1, (l.updateViewHistory_frame start view).2]
  refine rooted.unsigned (eq_nil_iff_forall_not_mem.mpr fun v member => ?_)
  have kept := l.updateViewHistory_keeps start view member
  simp [none] at kept

theorem Rooted.commitIfPossible (rooted : l.Rooted) (view idx : Nat) :
    (l.commitIfPossible view idx).log.Rooted := by
  refine rooted.of_views (l.commitIfPossible_views view idx)
    (l.commitIfPossible_settles view idx).lastIdx_eq.ge ?_
  rintro ⟨committed, queue⟩
  unfold Log.commitIfPossible
  split
  · simp only [queue, takeWhile_nil, getLast?_nil]
    exact ⟨committed, by simp [LogResult.log, popCommittable, queue]⟩
  · exact ⟨committed, queue⟩

theorem commitIfPossible_pos (l : Log NodeId) (view idx : Nat)
    (pos : 0 < (l.commitIfPossible view idx).log.commitIdx) : 0 < l.commitIdx ∨ 0 < idx := by
  unfold Log.commitIfPossible at pos
  split at pos
  · exact .inr (by omega)
  · exact .inl pos

theorem le_commitIfPossible (l : Log NodeId) (view idx : Nat) :
    l.commitIdx ≤ (l.commitIfPossible view idx).log.commitIdx := by
  unfold Log.commitIfPossible
  split
  · split
    · exact le_rfl
    unfold commit
    split
    · exact le_rfl
    split
    · exact le_rfl
    · rename_i later
      exact (not_le.mp later).le
  · exact le_rfl

theorem Rooted.launch (rooted : l.Rooted) (filled : l.viewHistory.views = [] → l.lastIdx = 0)
    (launches : Launches l known l') : l'.Rooted ∧ (l'.viewHistory.views = [] → l'.lastIdx = 0) := by
  rcases launches with rfl | ⟨-, rfl⟩
  · exact ⟨rooted, filled⟩
  have views := l.commit_views l.lastIdx
  have last := (l.commit_settles l.lastIdx).lastIdx_eq
  refine ⟨⟨rooted.toAnchored.of_views views last.ge, fun none => ?_⟩, ?_⟩
  · rw [views] at none
    have empty : l.commit l.lastIdx = .ok l := by
      rw [filled none, commit, if_neg (by omega), if_pos (Nat.zero_le _)]
    rw [empty]
    exact rooted.unsigned none
  · rw [views, last]
    exact filled

theorem Rooted.append (rooted : l.Rooted) {e : Entry NodeId} (next : e.index = l.lastIdx + 1)
    (viewed : 1 ≤ view) (filled : l.viewHistory.views = [] → l.lastIdx = 0) :
    (l.append view e).log.Rooted ∧ (l.append view e).log.viewHistory.views ≠ [] := by
  let pushed : Log NodeId := (if e.isSignature then l.addCommittable e.index else l).push e e.index
  have views : pushed.viewHistory = l.viewHistory := by
    show (if e.isSignature then l.addCommittable e.index else l).viewHistory = _
    split <;> rfl
  have anchored : pushed.Anchored := rooted.toAnchored.of_views views (by
    show l.lastIdx ≤ e.index
    omega)
  have known : (pushed.updateViewHistory e.index view).log.viewHistory.views ≠ [] :=
    pushed.updateViewHistory_known e.index viewed
  have pos : 1 ≤ e.index := by omega
  refine ⟨⟨anchored.update pos (le_max_right ..) (fun none => ?_) view, fun none => ?_⟩, known⟩
  · rw [views] at none
    rw [next, filled none]
  · exact absurd none known

theorem announceView_known (l : Log NodeId) (r : AppendEntries) (e : Entry NodeId)
    (viewed : 1 ≤ r.termOfIdx) (term : e.term = r.termOfIdx) :
    (l.announceView r e).log.viewHistory.views ≠ [] := by
  rw [announceView, if_neg (by omega)]
  exact l.updateViewHistory_known _ (by omega)

theorem Rooted.executeEntry (rooted : l.Rooted) (view : Nat) {r : AppendEntries} {e : Entry NodeId}
    (last : l.lastIdx ≤ i) (behind : r.prevIdx < i) (viewed : 1 ≤ r.termOfIdx)
    (term : e.term = r.termOfIdx) (fits : l.viewHistory.views = [] → r.prevIdx = 0) :
    (l.executeEntry view r e i).log.Rooted := by
  have pushed : (l.push e i).Rooted := rooted.of_views rfl last id
  unfold Log.executeEntry
  split
  · rw [deserialiseSignature, if_neg (by omega)]
    have anchored : ((l.push e i).addCommittable i).Anchored :=
      pushed.toAnchored.of_views rfl le_rfl
    have announced : (((l.push e i).addCommittable i).announceView r e).log.Rooted := by
      refine ⟨?_, fun none => absurd none (announceView_known _ r e viewed term)⟩
      rw [announceView, if_neg (by omega)]
      refine anchored.update (by omega) (le_max_of_le_right behind) (fun none => ?_) _
      rw [fits none]
    cases result : ((l.push e i).addCommittable i).announceView r e with
    | error l' =>
      rw [result] at announced
      exact announced
    | ok l' =>
      rw [result] at announced
      exact announced.commitIfPossible view r.leaderCommitIdx
  · exact pushed

theorem executeEntry_keeps (l : Log NodeId) (view : Nat) (r : AppendEntries) (e : Entry NodeId)
    (member : v ∈ l.viewHistory.views) : v ∈ (l.executeEntry view r e i).log.viewHistory.views := by
  unfold Log.executeEntry
  split
  · unfold deserialiseSignature
    split
    · exact member
    have announced : v ∈ (((l.push e i).addCommittable i).announceView r e).log.viewHistory.views := by
      unfold announceView
      split <;> exact updateViewHistory_keeps _ _ _ member
    cases result : ((l.push e i).addCommittable i).announceView r e with
    | error l' =>
      rw [result] at announced
      exact announced
    | ok l' =>
      rw [result] at announced
      show v ∈ (l'.commitIfPossible view r.leaderCommitIdx).log.viewHistory.views
      rw [commitIfPossible_views]
      exact announced
  · exact member

theorem Rooted.inferView (rooted : l.Rooted) (r : AppendEntries) (reached : r.idx ≤ l.lastIdx) :
    (l.inferView r).log.Rooted := by
  unfold Log.inferView
  split
  · exact rooted.update le_rfl (le_max_left ..) (fun _ => rfl) _
  split
  · refine rooted.update (by omega) (le_max_of_le_right (by omega)) (fun none => ?_) _
    rw [rooted.lastCommittable_eq none]
  · exact rooted

theorem Rooted.finish (rooted : l.Rooted) (view : Nat) (r : AppendEntries) (reached : r.idx ≤ l.lastIdx) :
    (l.finish view r).log.Rooted := by
  have committed := rooted.commitIfPossible view r.leaderCommitIdx
  have last := (l.commitIfPossible_settles view r.leaderCommitIdx).lastIdx_eq
  unfold Log.finish
  cases result : l.commitIfPossible view r.leaderCommitIdx with
  | error l' =>
    rw [result] at committed
    exact committed
  | ok l' =>
    rw [result] at committed last
    exact committed.inferView r (last ▸ reached)

theorem Rooted.execute (rooted : l.Rooted) (env : Env NodeId) (view : Nat) {r : AppendEntries}
    (entries : List (Entry NodeId)) (behind : r.prevIdx ≤ l.lastIdx)
    (reached : r.idx ≤ l.lastIdx + entries.length)
    (viewed : entries ≠ [] → 1 ≤ r.termOfIdx ∧ (l.viewHistory.views = [] → r.prevIdx = 0)) :
    (l.execute env view r (entries.zipIdx (l.lastIdx + 1))).1.Rooted := by
  induction entries generalizing l with
  | nil =>
    have finished := rooted.finish view r reached
    rw [zipIdx_nil, Log.execute]
    cases result : l.finish view r with
    | ok l' | error l' =>
      rw [result] at finished
      exact finished
  | cons e entries ih =>
    rw [zipIdx_cons]
    unfold Log.execute
    split
    · exact rooted.of_views rfl le_rfl id
    rename_i accepted
    have term : e.term = r.termOfIdx := by
      by_contra other
      simp [Node.applyEntry, other] at accepted
    obtain ⟨known, fits⟩ := viewed (cons_ne_nil e entries)
    have executed := rooted.executeEntry view (Nat.le_succ l.lastIdx) (by omega) known term fits
    have last := (l.executeEntry_settles view r e (l.lastIdx + 1)).lastIdx_eq
    have kept : (l.executeEntry view r e (l.lastIdx + 1)).log.viewHistory.views = [] →
        l.viewHistory.views = [] := by
      intro none
      refine eq_nil_iff_forall_not_mem.mpr fun v member => ?_
      have kept := l.executeEntry_keeps (i := l.lastIdx + 1) view r e member
      simp [none] at kept
    cases result : l.executeEntry view r e (l.lastIdx + 1) with
    | error l' =>
      rw [result] at executed
      exact executed
    | ok l' =>
      rw [result] at executed last kept
      have last : l'.lastIdx = l.lastIdx + 1 := last
      have executed : l'.Rooted := executed
      have rest := ih executed (by omega) (by simp only [length_cons] at reached; omega)
        fun _ => ⟨known, fun none => fits (kept none)⟩
      rwa [last] at rest

theorem rollbackNewFollower_commitIdx (l : Log NodeId) (view prevIdx : Nat) :
    (l.rollbackNewFollower view prevIdx).commitIdx = l.commitIdx := by
  unfold rollbackNewFollower
  split
  · split
    · exact l.rollback_commitIdx view prevIdx
    · rfl
  · rfl

theorem Rooted.rollbackNewFollower (rooted : l.Rooted) (formed : l.WellFormed) (view prevIdx : Nat) :
    (l.rollbackNewFollower view prevIdx).Rooted ∧
      (l.viewHistory.views ≠ [] → 0 < prevIdx →
        (l.rollbackNewFollower view prevIdx).viewHistory.views ≠ []) := by
  unfold Log.rollbackNewFollower
  split
  · split
    · have back : (l.rollback view prevIdx).Rooted := rooted.rollback formed view
      refine ⟨back.of_views rfl le_rfl id, fun known pos => ?_⟩
      unfold Log.rollback
      split
      · exact known
      · exact ne_nil_of_mem ((l.viewHistory.mem_rollback prevIdx).mpr ⟨rooted.first known, pos⟩)
    · exact ⟨rooted.of_views rfl le_rfl id, fun known _ => known⟩
  · exact ⟨rooted, fun known _ => known⟩

theorem Rooted.accept (rooted : l.Rooted) (formed : l.WellFormed) (env : Env NodeId) (view : Nat)
    {r : AppendEntries} (payload : List (Entry NodeId)) (proper : r.Proper)
    (matching : l.getTermInternal r.prevIdx = r.prevTerm) (behind : r.prevIdx ≤ l.lastIdx) :
    (l.accept env view r payload).1.Rooted := by
  obtain ⟨rolled, known⟩ := rooted.rollbackNewFollower formed view r.prevIdx
  have behind' := l.rollbackNewFollower_reaches view behind
  unfold Log.accept
  dsimp only
  generalize l.rollbackNewFollower view r.prevIdx = u at rolled known behind'
  cases read : Node.readEntries u.lastIdx (r.prevIdx + 1) (r.idx - r.prevIdx) payload with
  | error err => exact rolled
  | ok items =>
    obtain ⟨long, equal⟩ := Node.readEntries_eq read
    rw [show max (r.prevIdx + 1) (u.lastIdx + 1) = u.lastIdx + 1 by omega] at equal
    rw [equal]
    have length : ((payload.take (r.idx - r.prevIdx)).drop (u.lastIdx + 1 - (r.prevIdx + 1))).length =
        r.idx - r.prevIdx - (u.lastIdx + 1 - (r.prevIdx + 1)) := by
      rw [length_drop, length_take, Nat.min_eq_left long]
    refine rolled.execute env view _ behind' (by omega) fun some => ?_
    have nonempty : r.prevIdx < r.idx := by
      have := length_pos_iff.mpr some
      omega
    obtain ⟨viewed, previous⟩ := proper nonempty
    refine ⟨viewed, fun none => ?_⟩
    by_contra pos
    have pos : 0 < r.prevIdx := by omega
    refine known (fun unknown => ?_) pos none
    have term := previous pos
    rw [← matching, getTermInternal, if_neg (by omega)] at term
    simp [ViewHistory.viewAt, ViewHistory.upperBound, unknown] at term

theorem executeEntry_pos (l : Log NodeId) (view : Nat) (r : AppendEntries) (e : Entry NodeId)
    (pos : 0 < (l.executeEntry view r e i).log.commitIdx) : 0 < l.commitIdx ∨ 0 < r.leaderCommitIdx := by
  unfold Log.executeEntry at pos
  split at pos
  · unfold deserialiseSignature at pos
    split at pos
    · exact .inl pos
    have same : (((l.push e i).addCommittable i).announceView r e).log.commitIdx = l.commitIdx := by
      unfold announceView
      split <;> exact (updateViewHistory_frame _ _ _).1
    cases result : ((l.push e i).addCommittable i).announceView r e with
    | error l' =>
      rw [result] at pos same
      exact .inl (same ▸ pos)
    | ok l' =>
      rw [result] at pos same
      exact (l'.commitIfPossible_pos view _ pos).imp (same ▸ ·) id
  · exact .inl pos

theorem execute_pos (l : Log NodeId) (env : Env NodeId) (view : Nat) (r : AppendEntries)
    (items : List (Entry NodeId × Nat)) (pos : 0 < (l.execute env view r items).1.commitIdx) :
    0 < l.commitIdx ∨ 0 < r.leaderCommitIdx := by
  induction items generalizing l with
  | nil =>
    have inferred : ∀ u : Log NodeId, (u.inferView r).log.commitIdx = u.commitIdx := by
      intro u
      unfold Log.inferView
      split
      · exact (updateViewHistory_frame _ _ _).1
      split
      · exact (updateViewHistory_frame _ _ _).1
      · rfl
    have finished : (l.execute env view r []).1 = (l.finish view r).log := by
      rw [Log.execute]
      cases l.finish view r <;> rfl
    rw [finished, Log.finish] at pos
    refine l.commitIfPossible_pos view r.leaderCommitIdx ?_
    cases result : l.commitIfPossible view r.leaderCommitIdx with
    | error l' =>
      rw [result] at pos
      exact pos
    | ok l' =>
      rw [result] at pos
      have pos : 0 < (l'.inferView r).log.commitIdx := pos
      rwa [inferred] at pos
  | cons item items ih =>
    unfold Log.execute at pos
    split at pos
    · exact .inl pos
    cases result : l.executeEntry view r item.1 item.2 with
    | error l' =>
      rw [result] at pos
      refine l.executeEntry_pos (i := item.2) view r item.1 ?_
      rw [result]
      exact pos
    | ok l' =>
      rw [result] at pos
      rcases ih l' pos with committed | told
      · refine l.executeEntry_pos (i := item.2) view r item.1 ?_
        rw [result]
        exact committed
      · exact .inr told

theorem accept_pos (l : Log NodeId) (env : Env NodeId) (view : Nat) (r : AppendEntries)
    (payload : List (Entry NodeId)) (pos : 0 < (l.accept env view r payload).1.commitIdx) :
    0 < l.commitIdx ∨ 0 < r.leaderCommitIdx := by
  have same := l.rollbackNewFollower_commitIdx view r.prevIdx
  unfold Log.accept at pos
  dsimp only at pos
  generalize l.rollbackNewFollower view r.prevIdx = u at pos same
  rw [← same]
  split at pos
  · exact .inl pos
  · exact u.execute_pos env view r _ pos

theorem calculateEndIndex_le (bounded : l.Bounded) (batchSize start : Nat) :
    l.calculateEndIndex batchSize start ≤ l.lastIdx := by
  refine (min_le_right ..).trans ?_
  split
  · rename_i ends
    obtain ⟨v, member, equal⟩ := ViewHistory.exists_endOfView ends
    have := bounded v member
    omega
  · exact le_rfl

theorem le_calculateEndIndex (l : Log NodeId) (batchSize : Nat) (within : start ≤ l.lastIdx) :
    start ≤ l.calculateEndIndex batchSize start := by
  refine le_min (Nat.le_add_right ..) ?_
  split
  · rename_i ends
    have begun : l.viewHistory.startOfView (l.viewHistory.viewAt start) ≠ 0 := by
      intro none
      exact ends (by rw [ViewHistory.endOfView, if_pos none])
    exact ((ViewHistory.viewAt_eq_iff begun).mp rfl).2.resolve_left ends
  · exact within

/-- What `send_append_entries` sends from such a log is a proper batch. -/
theorem Rooted.proper (rooted : l.Rooted) (filled : l.viewHistory.views = [] → l.lastIdx = 0)
    (able : Node.Sendable l view (.appendEntries ae payload)) : ae.Proper := by
  obtain ⟨start, batchSize, valid, equal⟩ := able
  cases equal
  intro nonempty
  have nonempty : start - 1 < l.calculateEndIndex batchSize start := nonempty
  have reached := calculateEndIndex_le rooted.bounded batchSize start
  have known : l.viewHistory.views ≠ [] := fun none => by
    have := filled none
    omega
  have viewAt : ∀ i, 1 ≤ i → i ≤ l.lastIdx → 1 ≤ l.getTermInternal i := by
    intro i pos within
    rw [getTermInternal, if_neg (by omega)]
    exact rooted.viewAt_pos known pos
  exact ⟨viewAt _ (by omega) reached, fun pos => viewAt _ pos (by omega)⟩

end Log

/-- A run without restrictions. A node that replicates has started the service or
knows that something is committed, and it knows the views of its log. -/
def viewRules (primary : NodeId) : Rules NodeId :=
  { Mode.rules .unrestricted with
    commands := fun n l => (n = primary ∨ 0 < l.commitIdx) ∧ (l.viewHistory.views = [] → l.lastIdx = 0)
    commands_append := by
      rintro n l view e viewed ⟨placed, -⟩
      have known : (l.append view e).log.viewHistory.views ≠ [] :=
        Log.updateViewHistory_known _ e.index viewed
      have committed : (l.append view e).log.commitIdx = l.commitIdx := by
        rw [Log.append, (Log.updateViewHistory_frame _ _ _).1]
        show (if e.isSignature then l.addCommittable e.index else l).commitIdx = _
        split <;> rfl
      exact ⟨by rwa [committed], fun none => absurd none known⟩
    commands_commit := by
      rintro n l view idx ⟨placed, filled⟩
      rw [l.commitIfPossible_views, (l.commitIfPossible_settles view idx).lastIdx_eq]
      exact ⟨placed.imp id fun pos => pos.trans_le (l.le_commitIfPossible view idx), filled⟩ }

namespace Replica

structure Anchored (primary : NodeId) (r : Replica NodeId) : Prop where
  grounded : r.Grounded
  rooted : r.toLog.Rooted
  versioned : r.ticking = true ∨ r.leadershipState = some .candidate →
    1 ≤ r.currentView ∧ r.termOfNextVersion ≠ 0
  placed : r.leadershipState = some .leader → r.id = primary ∨ 0 < r.commitIdx
  filled : r.leadershipState = some .leader → r.viewHistory.views = [] → r.lastIdx = 0

variable {r t : Replica NodeId} {primary : NodeId}

theorem Anchored.congr (anchored : r.Anchored primary) (grounded : t.Grounded)
    (log : t.toLog = r.toLog) (view : t.currentView = r.currentView) (id_eq : t.id = r.id)
    (ticking : t.ticking = true → r.ticking = true)
    (role : t.leadershipState = r.leadershipState ∨
      t.leadershipState ≠ some .leader ∧ t.leadershipState ≠ some .candidate) : t.Anchored primary where
  grounded := grounded
  rooted := log ▸ anchored.rooted
  versioned := by
    intro runs
    rw [log, view]
    refine anchored.versioned (runs.imp ticking fun candidate => ?_)
    rcases role with same | ⟨-, other⟩
    · exact same ▸ candidate
    · exact absurd candidate other
  placed := by
    intro leader
    rw [log, id_eq]
    rcases role with same | ⟨other, -⟩
    · exact anchored.placed (same ▸ leader)
    · exact absurd leader other
  filled := by
    intro leader
    rw [log]
    rcases role with same | ⟨other, -⟩
    · exact anchored.filled (same ▸ leader)
    · exact absurd leader other

theorem Anchored.empowered (anchored : r.Anchored primary) (empowered : r.Empowered (viewRules primary)) :
    (r.id = primary ∨ 0 < r.commitIdx) ∧ (r.viewHistory.views = [] → r.lastIdx = 0) := by
  rcases empowered with leader | ⟨-, commands, -⟩
  · exact ⟨anchored.placed leader, anchored.filled leader⟩
  · exact commands

theorem Anchored.follow (anchored : r.Anchored primary) (viewed : 1 ≤ view)
    (may : r.MayBecome mode role) (known : Finset NodeId) (matchOf : NodeId → Nat) :
    (r.follow view role known matchOf).Anchored primary := by
  have formed := anchored.grounded.formed
  have committed := formed.le_lastCommittable
  have version := Log.rollback_termOfNextVersion view committed
  have kept : role = some .leader → r.leadershipState = some .leader := by
    rintro rfl
    rcases may with other | ⟨-, same, -⟩
    · cases other
    · exact same.symm
  refine ⟨(follow_grounded view role known matchOf anchored.grounded viewed).1,
    anchored.rooted.rollback formed view, fun _ => ⟨viewed, ?_⟩, fun leader => ?_, fun leader none => ?_⟩
  · show (r.toLog.rollback view r.lastCommittableIndex).termOfNextVersion ≠ 0
    omega
  · show r.id = primary ∨ 0 < (r.toLog.rollback view r.lastCommittableIndex).commitIdx
    rw [Log.rollback_commitIdx]
    exact anchored.placed (kept leader)
  · exact anchored.rooted.rollback_signed rfl view committed none

end Replica

/-- What holds of every message in flight; `founded` says that the first primary
has committed something. -/
def Envelope.Anchored (primary : NodeId) (founded : Prop) (m : Envelope NodeId) : Prop :=
  m.message.InView ∧ ∀ ae payload, m.message = .appendEntries ae payload →
    m.source ≠ m.dest ∧ (m.source = primary ∨ founded) ∧ (0 < ae.leaderCommitIdx → founded) ∧ ae.Proper

section Steps
variable {primary : NodeId} {received : Option (NodeId × Message NodeId)} {r t : Replica NodeId}
  {msgs : Sent NodeId} {founded : Prop}

theorem Message.Refuses.not_append {m : Message NodeId} (refuses : m.Refuses) (ae : AppendEntries)
    (payload : List (Entry NodeId)) : m ≠ .appendEntries ae payload := by
  rintro rfl
  exact refuses.elim

/-- The batch of another node reaches a primary only once something is committed. -/
theorem Replica.Anchored.committed (anchored : r.Anchored primary)
    (leader : r.leadershipState = some .leader) (own : r.id = primary → founded → 0 < r.commitIdx)
    (heard : Envelope.Anchored primary founded ⟨source, r.id, .appendEntries ae payload⟩) :
    0 < r.commitIdx := by
  obtain ⟨distinct, sender, -, -⟩ := heard.2 ae payload rfl
  rcases anchored.placed leader with self | pos
  · rcases sender with first | told
    · exact absurd (first.trans self.symm) distinct
    · exact own self told
  · exact pos

variable [LinearOrder NodeId]

section
variable (micro : Micro (viewRules primary) received r msgs t)
include micro

theorem Micro.sends_anchored (anchored : r.Anchored primary) (progress : 0 < r.commitIdx → founded)
    (heard : ∀ source m, received = some (source, m) → Envelope.Anchored primary founded ⟨source, r.id, m⟩) :
    ∀ m ∈ msgs, ∀ ae payload, m.2 = .appendEntries ae payload →
      r.id ≠ m.1 ∧ (r.id = primary ∨ founded) ∧ (0 < ae.leaderCommitIdx → founded) ∧ ae.Proper := by
  cases micro with
  | refuse dest refuses =>
    intro m member ae payload equal
    rw [mem_singleton.mp member] at equal
    exact absurd equal (refuses.not_append ae payload)
  | sendEntries empowered other able =>
    intro m member ae payload equal
    rw [mem_singleton.mp member] at equal ⊢
    dsimp only at equal
    rw [equal] at able
    obtain ⟨placed, filled⟩ := anchored.empowered empowered
    have commit : ae.leaderCommitIdx = r.commitIdx := by
      obtain ⟨_, _, _, same⟩ := able
      cases same
      rfl
    refine ⟨other.symm, placed.imp id progress, fun pos => ?_, anchored.rooted.proper filled able⟩
    rw [commit] at pos
    exact progress pos
  | stray free leader other heard' term hollow =>
    intro m member ae payload equal
    rw [mem_singleton.mp member] at equal ⊢
    cases equal
    obtain ⟨-, batch⟩ := heard _ _ heard'
    obtain ⟨distinct, sender, -, -⟩ := batch _ _ rfl
    have told : founded := by
      rcases sender with first | told
      · rcases anchored.placed leader with self | pos
        · exact absurd (first.trans self.symm) distinct
        · exact progress pos
      · exact told
    exact ⟨other.symm, .inr told, fun _ => told, fun some => by
      have := hollow anchored.rooted.bounded
      omega⟩
  | askVote dest role =>
    intro m member ae payload equal
    rw [mem_singleton.mp member] at equal
    cases equal
  | grant heard' term free voted current answered =>
    intro m member ae payload equal
    rcases answered with rfl | rfl
    · cases member
    · rw [mem_singleton.mp member] at equal
      cases equal
  | accept env heard' term matching above within backup leader initialised allowed keeps accepted answered =>
    intro m member ae payload equal
    rcases answered with rfl | ⟨-, rfl⟩
    · cases member
    · rw [mem_singleton.mp member] at equal
      cases equal
  | _ => simp

theorem Micro.anchored (anchored : r.Anchored primary) (own : r.id = primary → founded → 0 < r.commitIdx)
    (heard : ∀ source m, received = some (source, m) → Envelope.Anchored primary founded ⟨source, r.id, m⟩) :
    t.Anchored primary := by
  obtain ⟨grounded, advances, -⟩ := micro.grounded anchored.grounded fun source m equal =>
    (heard source m equal).1
  have formed := anchored.grounded.formed
  cases micro with
  | adopt newer allowed may limited keeps =>
    rename_i view role known matchOf
    have viewed : 1 ≤ view := by
      rcases newer with above | ⟨rfl, candidate, -⟩
      · omega
      · exact anchored.grounded.viewed (.inr candidate)
    obtain ⟨-, rooted, versioned, placed, filled⟩ := anchored.follow viewed may known matchOf
    exact ⟨grounded, rooted.of_views rfl le_rfl id, versioned, placed, filled⟩
  | stepDown leader allowed may keeps =>
    exact anchored.follow (anchored.grounded.viewed (.inl leader)) may _ _
  | stand ticks backup allowed =>
    refine ⟨grounded, anchored.rooted, fun _ => ?_, fun leader => ?_, fun leader => ?_⟩
    · obtain ⟨-, versioned⟩ := anchored.versioned (.inl ticks)
      exact ⟨Nat.le_add_left .., versioned⟩
    · cases leader
    · cases leader
  | lead candidate elected started fixed launches =>
    rename_i known log
    have viewed := anchored.grounded.viewed (.inr candidate)
    have committed := formed.le_lastCommittable
    let cleared : Log NodeId := { r.toLog with committableIndices := [] }
    have rooted : cleared.Rooted := anchored.rooted.of_views rfl le_rfl fun unsigned => ⟨unsigned.1, rfl⟩
    have prepared : (cleared.rollback r.currentView r.lastCommittableIndex).Rooted :=
      rooted.rollback (Log.clearCommittable_sustains formed).1 r.currentView
    have signed : (cleared.rollback r.currentView r.lastCommittableIndex).viewHistory.views = [] →
        (cleared.rollback r.currentView r.lastCommittableIndex).lastIdx = 0 :=
      anchored.rooted.rollback_signed (show cleared.viewHistory = r.viewHistory from rfl) r.currentView
        committed
    obtain ⟨launched, filled⟩ := prepared.launch signed launches
    have version := Log.lead_termOfNextVersion r.currentView formed launches
    refine ⟨grounded, launched, fun _ => ⟨viewed, ?_⟩, fun _ => .inr ?_, fun _ => filled⟩
    · show log.termOfNextVersion ≠ 0
      omega
    · exact started.trans_le advances.commit_le
  | leadFresh candidate elected unstarted unversioned launches =>
    exact absurd unversioned (anchored.versioned (.inr candidate)).2
  | leadFail candidate unstarted versioned =>
    exact ⟨grounded, anchored.rooted.of_views rfl le_rfl fun unsigned => ⟨unsigned.1, rfl⟩,
      anchored.versioned, anchored.placed, anchored.filled⟩
  | accept env heard' term matching above within backup leader initialised allowed keeps accepted answered =>
    rename_i source ae payload log done known matchOf
    have message := heard _ _ heard'
    have viewed : 1 ≤ r.currentView := term ▸ message.1
    obtain ⟨-, -, -, proper⟩ := message.2 ae payload rfl
    have rooted := anchored.rooted.accept formed env r.currentView payload proper matching within
    have versions := r.toLog.accept_termOfNextVersion env r.currentView ae payload
    rw [accepted] at rooted versions
    have rooted : log.Rooted := rooted
    have version := anchored.grounded.initialised initialised viewed
    have commits : r.leadershipState = some .leader → 0 < log.commitIdx := fun leads =>
      (anchored.committed leads own message).trans_le advances.commit_le
    refine ⟨grounded, rooted, fun _ => ⟨viewed, ?_⟩, fun leads => .inr (commits leads), fun leads none => ?_⟩
    · show log.termOfNextVersion ≠ 0
      rcases versions with same | learned
      · rw [same]
        exact version
      · rw [learned]
        omega
    · have := commits leads
      have := (rooted.unsigned none).1
      omega
  | append empowered term next plain keeps =>
    obtain ⟨viewed, version⟩ := anchored.grounded.empowered empowered
    obtain ⟨placed, filled⟩ := anchored.empowered empowered
    obtain ⟨rooted, known⟩ := anchored.rooted.append next viewed filled
    refine ⟨grounded, rooted, fun _ => ⟨viewed, ?_⟩, fun leads => ?_, fun _ none => absurd none known⟩
    · simpa [Replica.setLog, Log.append_termOfNextVersion] using version
    · exact placed.imp id fun pos => pos.trans_le advances.commit_le
  | commitConfirmed empowered confirmed within keeps =>
    rename_i idx known matchOf
    have settles := r.toLog.commitIfPossible_settles r.currentView idx
    obtain ⟨viewed, version⟩ := anchored.grounded.empowered empowered
    obtain ⟨placed, filled⟩ := anchored.empowered empowered
    refine ⟨grounded, anchored.rooted.commitIfPossible _ _, fun _ => ⟨viewed, ?_⟩, fun leads => ?_,
      fun leads none => ?_⟩
    · simpa only [Replica.setLog, settles.termOfNextVersion_eq] using version
    · exact placed.imp id fun pos => pos.trans_le advances.commit_le
    · simp only [Replica.setLog, Log.commitIfPossible_views, settles.lastIdx_eq] at none ⊢
      exact filled none
  | discard backup candidate keeps =>
    refine ⟨grounded, anchored.rooted.rollback formed _, fun runs => ?_, fun leads => absurd leads backup,
      fun leads => absurd leads backup⟩
    obtain ⟨viewed, -⟩ := anchored.versioned runs
    have version := Log.rollback_termOfNextVersion (l := r.toLog) r.currentView formed.commit_le
    refine ⟨viewed, ?_⟩
    show (r.toLog.rollback r.currentView r.lastIdx).termOfNextVersion ≠ 0
    omega
  | demote leaderId mode candidate initialised role =>
    refine anchored.congr grounded rfl rfl rfl id (.inr ?_)
    rcases role with rfl | rfl <;> simp
  | startTicking may =>
    refine ⟨grounded, anchored.rooted, fun runs => ?_, anchored.placed, anchored.filled⟩
    rcases may with empowered | ⟨source, ae, payload, heard', term⟩
    · exact anchored.grounded.empowered empowered
    have viewed : 1 ≤ r.currentView := term ▸ (heard _ _ heard').1
    refine ⟨viewed, ?_⟩
    by_cases candidate : r.leadershipState = some .candidate
    · exact (anchored.versioned (.inr candidate)).2
    · exact anchored.grounded.versioned candidate viewed
  | _ => exact anchored.congr grounded rfl rfl rfl id (.inl rfl)

theorem Micro.progress (anchored : r.Anchored primary) (progress : 0 < r.commitIdx → founded)
    (heard : ∀ source m, received = some (source, m) → Envelope.Anchored primary founded ⟨source, r.id, m⟩)
    (pos : 0 < t.commitIdx) : founded ∨ t.id = primary := by
  cases micro with
  | adopt newer allowed may limited keeps | stepDown leader allowed may keeps =>
    have pos : 0 < (r.toLog.rollback _ r.lastCommittableIndex).commitIdx := pos
    rw [Log.rollback_commitIdx] at pos
    exact .inl (progress pos)
  | lead candidate elected started fixed launches => exact .inl (progress started)
  | leadFresh candidate elected unstarted unversioned launches =>
    exact absurd unversioned (anchored.versioned (.inr candidate)).2
  | accept env heard' term matching above within backup leader initialised allowed keeps accepted answered =>
    rename_i source ae payload log done known matchOf
    have committed := r.toLog.accept_pos env r.currentView ae payload
    rw [accepted] at committed
    rcases committed pos with before | told
    · exact .inl (progress before)
    · exact .inl (((heard _ _ heard').2 ae payload rfl).2.2.1 told)
  | append empowered term next plain keeps | commitConfirmed empowered confirmed within keeps =>
    rcases (anchored.empowered empowered).1 with first | before
    · exact .inr first
    · exact .inl (progress before)
  | discard backup candidate keeps =>
    have pos : 0 < (r.toLog.rollback r.currentView r.lastIdx).commitIdx := pos
    rw [Log.rollback_commitIdx] at pos
    exact .inl (progress pos)
  | _ => exact .inl (progress pos)

end

end Steps

variable [LinearOrder NodeId]

namespace System

structure Anchored (primary : NodeId) (sys : System NodeId) : Prop where
  replicas : ∀ n, (sys.replica n).Anchored primary
  progress : ∀ n, 0 < (sys.replica n).commitIdx → 0 < (sys.replica primary).commitIdx
  sent : ∀ m ∈ sys.sent, m.Anchored primary (0 < (sys.replica primary).commitIdx)

theorem preserves_anchored (primary : NodeId) : Preserves (viewRules primary) (Anchored primary) := by
  intro sys n received msgs r anchored named heard micro
  have told : ∀ source m, received = some (source, m) →
      Envelope.Anchored primary (0 < (sys.replica primary).commitIdx) ⟨source, (sys.replica n).id, m⟩ := by
    intro source m equal
    rw [named]
    exact anchored.sent _ (heard source m equal)
  have own : (sys.replica n).id = primary → 0 < (sys.replica primary).commitIdx →
      0 < (sys.replica n).commitIdx := by
    rw [named]
    rintro rfl
    exact id
  have self := micro.id_eq.trans named
  have moved := micro.anchored (anchored.replicas n) own told
  obtain ⟨-, advances, inView⟩ := micro.grounded (anchored.replicas n).grounded fun source m equal =>
    (told source m equal).1
  have reached := micro.progress (anchored.replicas n) (anchored.progress n) told
  have sends := micro.sends_anchored (anchored.replicas n) (anchored.progress n) told
  have later : 0 < (sys.replica primary).commitIdx → 0 < ((sys.move n r msgs).replica primary).commitIdx := by
    intro pos
    by_cases same : primary = n
    · subst same
      simp only [move, update_self]
      exact pos.trans_le advances.commit_le
    · simpa only [move, update_of_ne same] using pos
  refine ⟨fun k => ?_, fun k pos => ?_, fun m member => ?_⟩
  · by_cases same : k = n
    · subst same
      simpa only [move, update_self] using moved
    · simpa only [move, update_of_ne same] using anchored.replicas k
  · by_cases same : k = n
    · subst same
      simp only [move, update_self] at pos
      rcases reached pos with before | first
      · exact later before
      · rw [← first, self]
        simpa only [move, update_self] using pos
    · simp only [move, update_of_ne same] at pos
      exact later (anchored.progress k pos)
  · have known : m.Anchored primary (0 < (sys.replica primary).commitIdx) := by
      rcases member with old | ⟨rfl, sent⟩
      · exact anchored.sent m old
      refine ⟨inView _ sent, fun ae payload equal => ?_⟩
      have result := sends _ sent ae payload equal
      rwa [named] at result
    refine ⟨known.1, fun ae payload equal => ?_⟩
    obtain ⟨distinct, sender, commit, proper⟩ := known.2 ae payload equal
    exact ⟨distinct, sender.imp id later, fun pos => later (commit pos), proper⟩

end System

namespace Cluster
variable {settings : Settings NodeId} {primary : NodeId}

theorem initial_anchored (settings : Settings NodeId) (primary : NodeId) :
    ∃ sys, (initial settings primary).Reflects sys ∧ (initial settings primary).Regular .unrestricted ∧
      sys.Anchored primary := by
  have fits : settings.Fits .unrestricted :=
    ⟨fun limited => absurd rfl limited, fun isFixed => by cases isFixed⟩
  obtain ⟨sys, reflects, regular, starts⟩ := initial_starts primary fits
  refine ⟨sys, reflects, regular, ?_⟩
  have grounded : ∀ n, (sys.replica n).Grounded := by
    intro n
    rw [reflects.replica_eq]
    have begun : Run settings primary [] (initial settings primary) := .start
    exact ((run_reachable begun).1 n).sound.grounded
  have empty : ∀ n, (sys.replica n).viewHistory.views = [] ∧ (sys.replica n).commitIdx = 0 ∧
      (sys.replica n).committableIndices = [] ∧ (sys.replica n).lastIdx = 0 := by
    intro n
    by_cases same : n = primary
    · rw [same, starts.log_primary]
      exact ⟨rfl, rfl, rfl, rfl⟩
    · rw [starts.log_backup n same]
      exact ⟨rfl, rfl, rfl, rfl⟩
  have rooted : ∀ l : Log NodeId, l.viewHistory.views = [] → l.commitIdx = 0 →
      l.committableIndices = [] → l.Rooted := by
    intro l none committed queue
    exact ⟨⟨by simp [none], by simp [Log.Bounded, none], by simp [none]⟩, fun _ => ⟨committed, queue⟩⟩
  have role : ∀ n, n ≠ primary → (sys.replica n).leadershipState ≠ some .leader ∧
      (sys.replica n).leadershipState ≠ some .candidate := by
    intro n other
    obtain ⟨role, ballot, settled⟩ := starts.ballot_backup n other
    rw [ballot]
    rcases settled with rfl | rfl <;> simp
  have leads : (sys.replica primary).leadershipState = some .leader := by
    rw [starts.ballot_primary]
  refine ⟨fun n => ?_, fun n pos => ?_, fun m member => ?_⟩
  · obtain ⟨none, committed, queue, last⟩ := empty n
    refine ⟨grounded n, rooted _ none committed queue, fun runs => ?_, fun leader => ?_, fun _ _ => last⟩
    · rcases runs with ticks | candidate
      · simp [starts.ticking n] at ticks
      by_cases same : n = primary
      · rw [same, leads] at candidate
        cases candidate
      · exact absurd candidate (role n same).2
    · by_cases same : n = primary
      · exact .inl ((starts.id_eq n).trans same)
      · exact absurd leader (role n same).1
  · rw [(empty n).2.1] at pos
    exact absurd pos (lt_irrefl 0)
  · obtain ⟨source, dest, able⟩ := starts.sent m member
    refine ⟨?_, fun ae payload equal => ?_⟩
    · obtain ⟨ae, payload, equal, term⟩ := able.isAppend
      rw [equal, Message.InView, term]
      decide
    · rw [equal] at able
      refine ⟨by rw [source]; exact dest.symm, .inl source, fun pos => ?_,
        (rooted _ rfl rfl rfl).proper (fun _ => rfl) able⟩
      obtain ⟨_, _, _, same⟩ := able
      cases same
      exact absurd pos (lt_irrefl 0)

theorem allows_viewRules {c : Cluster NodeId} {sys : System NodeId} (reflects : c.Reflects sys)
    (anchored : sys.Anchored primary) (nodes : ∀ n, (c.node n).Reachable)
    (net : ∀ m ∈ c.net, m.message.InView) (a : Action NodeId) : c.Allows (viewRules primary) a := by
  cases a with
  | tick env n elapsed => exact ⟨fun _ => trivial, fun _ => trivial⟩
  | replicate env n entries term =>
    refine ⟨fun _ leader => ?_, fun isFixed => by cases isFixed⟩
    have node := anchored.replicas n
    rw [reflects.replica_eq] at node
    have empowered : (c.node n).replica.Empowered (viewRules primary) := .inl leader
    exact ⟨⟨node.placed leader, node.filled leader⟩, node.grounded.empowered empowered⟩
  | deliver env k =>
    intro m found
    exact (nodes m.dest).sound.admits env m.source (net m (mem_of_getElem? found))
  | lose k => trivial

/-- The nodes of a run know where the views of their logs start. -/
theorem run_anchored {trace : Trace NodeId} {c : Cluster NodeId} (run : Run settings primary trace c)
    (n : NodeId) : (c.node n).replica.Anchored primary := by
  have holds : ∃ sys, c.Reflects sys ∧ c.Regular .unrestricted ∧ sys.Anchored primary := by
    induction run with
    | start => exact initial_anchored settings primary
    | next run taken ih =>
      obtain ⟨sys, reflects, regular, anchored⟩ := ih
      obtain ⟨nodes, net⟩ := run_reachable run
      exact step_inv (System.preserves_anchored primary) taken
        (allows_viewRules reflects anchored nodes net _) reflects regular anchored
  obtain ⟨sys, reflects, -, anchored⟩ := holds
  rw [← reflects.replica_eq]
  exact anchored.replicas n

/-- A node that has committed or signed something knows the view of each index of its log. -/
theorem run_views_known {trace : Trace NodeId} {c : Cluster NodeId} (run : Run settings primary trace c) {n : NodeId}
    (settled : 0 < (c.node n).commitIdx ∨ (c.node n).committableIndices ≠ []) (first : 1 ≤ i)
    (within : i ≤ (c.node n).lastIdx) : 1 ≤ (c.node n).getTermInternal i := by
  have rooted := (run_anchored run n).rooted
  rw [Log.getTermInternal, if_neg within.not_gt]
  apply rooted.viewAt_pos _ first
  intro none
  obtain ⟨committed, queue⟩ := rooted.unsigned none
  exact settled.elim (fun pos => pos.ne' committed) fun signed => signed queue

theorem run_views_known_elected :
    ∃ trace c, Run threeNodes 0 trace c ∧ (c.node 1).lastIdx = 2 ∧
      ∀ i, 1 ≤ i → i ≤ 2 → 1 ≤ (c.node 1).getTermInternal i := by
  refine Lib.exists_run_of (P := fun _ c => 0 < (c.node 1).commitIdx ∧ (c.node 1).lastIdx = 2)
    electedWithSignature (by decide +kernel) ?_
  rintro trace c run ⟨committed, last⟩
  exact ⟨last, fun i first within => run_views_known run (.inl committed) first (within.trans last.ge)⟩

end Cluster
end CCF.Aft
