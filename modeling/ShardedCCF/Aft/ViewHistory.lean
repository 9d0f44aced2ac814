import ShardedCCF.Aft.Types

/-! The view history of impl/state.h: the version at which each view starts,
from which the node reads the view of any index. The code's `upper_bound` needs
a sorted vector, so the order is part of the type: `update` throws instead of
moving backwards and `rollback` erases a suffix. -/
namespace CCF.Aft
open List

/-- Entry `i` stores the first version in view `i + 1`. The model writes
`kv::NoVersion` and `ccf::VIEW_UNKNOWN` as the zero they are. -/
structure ViewHistory where
  views : List Nat
  sorted : views.Pairwise (· ≤ ·)
  deriving DecidableEq

namespace ViewHistory

def empty : ViewHistory := ⟨[], .nil⟩

def upperBound (h : ViewHistory) (idx : Nat) : Nat :=
  (h.views.takeWhile (· ≤ idx)).length

/-- Zero is the invalid view: indices before the first view are unknown. -/
def viewAt (h : ViewHistory) (idx : Nat) : Nat := h.upperBound idx

theorem getLastD_le_of_pairwise {views : List Nat} (sorted : views.Pairwise (· ≤ ·))
    (member : v ∈ views) : v ≤ views.getLastD 0 := by
  rw [getLastD_eq_getLast?, getLast?_eq_some_getLast (ne_nil_of_mem member)]
  exact sorted.rel_getLast_of_rel_getLast_getLast member (le_refl _)

theorem sorted_append_replicate {views : List Nat} (sorted : views.Pairwise (· ≤ ·))
    (forward : ¬ idx < views.getLastD 0) (count : Nat) :
    (views ++ List.replicate count idx).Pairwise (· ≤ ·) := by
  rw [pairwise_append]
  refine ⟨sorted, pairwise_replicate.mpr (.inr (le_refl _)), ?_⟩
  intro v member w replicated
  have bound := getLastD_le_of_pairwise sorted member
  rw [eq_of_mem_replicate replicated]
  omega

/-- The missing views up to `view` all start at `idx`. `none` is the exception
that the version must not move backwards. -/
def update (h : ViewHistory) (idx : Nat) (view : Nat) : Option ViewHistory :=
  if backwards : idx < h.views.getLastD 0 then none
  else some ⟨h.views ++ List.replicate (view - h.views.length) idx,
    sorted_append_replicate h.sorted backwards _⟩

/-- View `i + 1` starts at the `i`-th element of `terms`. -/
def initialise (terms : List Nat) : Option ViewHistory :=
  terms.zipIdx.foldlM (fun h (idx, i) => h.update idx (i + 1)) empty

def startOfView (h : ViewHistory) (view : Nat) : Nat :=
  if view > h.views.length ∨ view = 0 then 0
  else
    let tentative := h.views.getD (view - 1) 0
    if view + 1 ≤ h.views.length ∧ h.views.getD view 0 = tentative then 0
    else tentative

def endOfView (h : ViewHistory) (view : Nat) : Nat :=
  if h.startOfView view = 0 then 0
  else if view ≥ h.views.length ∨ view = 0 then 0
  else h.views.getD view 0 - 1

def rollback (h : ViewHistory) (idx : Nat) : ViewHistory :=
  ⟨h.views.takeWhile (· ≤ idx), h.sorted.sublist (List.takeWhile_sublist _)⟩

variable {h h' : ViewHistory}

section
variable (h : ViewHistory)

theorem viewAt_eq_countP (idx : Nat) : h.viewAt idx = h.views.countP (· ≤ idx) := by
  have sorted := h.sorted
  rw [viewAt, upperBound]
  generalize h.views = views at sorted
  induction sorted with
  | nil => rfl
  | @cons v rest least _ ih =>
    by_cases reached : v ≤ idx
    · simp [reached, ih]
    have above : rest.countP (· ≤ idx) = 0 := by
      rw [countP_eq_zero]
      intro w member
      have := least w member
      simp only [decide_eq_true_eq]
      omega
    simp [reached, above]

theorem viewAt_mono (le : i ≤ j) : h.viewAt i ≤ h.viewAt j := by
  simp only [viewAt_eq_countP]
  apply countP_mono_left
  simp only [decide_eq_true_eq]
  omega

theorem viewAt_le_length (idx : Nat) : h.viewAt idx ≤ h.views.length := by
  rw [viewAt_eq_countP]
  exact countP_le_length

theorem viewAt_eq_length (reached : ∀ v ∈ h.views, v ≤ idx) : h.viewAt idx = h.views.length := by
  rw [viewAt_eq_countP, countP_eq_length]
  simpa using reached

theorem le_of_viewAt_eq_length (full : h.viewAt idx = h.views.length) (member : v ∈ h.views) : v ≤ idx := by
  rw [viewAt_eq_countP, countP_eq_length] at full
  simpa using full v member

theorem mem_rollback (k : Nat) : v ∈ (h.rollback k).views ↔ v ∈ h.views ∧ v ≤ k := by
  have sorted := h.sorted
  rw [rollback]
  dsimp only
  generalize h.views = views at sorted
  induction sorted with
  | nil => simp
  | @cons w views least _ ih =>
    by_cases within : w ≤ k
    · rw [takeWhile_cons_of_pos (by simpa using within), mem_cons, mem_cons]
      constructor
      · rintro (rfl | kept)
        · exact ⟨.inl rfl, within⟩
        · exact ⟨.inr (ih.mp kept).1, (ih.mp kept).2⟩
      · rintro ⟨rfl | member, le⟩
        · exact .inl rfl
        · exact .inr (ih.mpr ⟨member, le⟩)
    rw [takeWhile_cons_of_neg (by simpa using within)]
    simp only [not_mem_nil, mem_cons, false_iff, not_and]
    rintro (rfl | member)
    · exact within
    · have := least v member
      omega

theorem viewAt_rollback (k idx : Nat) : (h.rollback k).viewAt idx = h.viewAt (min idx k) := by
  simp only [viewAt, upperBound, rollback, takeWhile_takeWhile]
  congr 2
  funext v
  simp

end

theorem views_update (updated : h.update idx view = some h') :
    h'.views = h.views ++ List.replicate (view - h.views.length) idx := by
  simp only [update] at updated
  split at updated
  · cases updated
  · cases updated
    rfl

theorem update_eq_self (known : view ≤ h.views.length) (reached : ∀ v ∈ h.views, v ≤ idx) : h.update idx view = some h := by
  have forward : ¬idx < h.views.getLastD 0 := by
    cases last : h.views.getLast? with
    | none => simp [getLastD_eq_getLast?, last]
    | some v => simpa [getLastD_eq_getLast?, last] using reached v (mem_of_getLast? last)
  rw [update, dif_neg forward]
  simp [Nat.sub_eq_zero_of_le known]

theorem initialise_views (h : ViewHistory) : initialise h.views = some h := by
  obtain ⟨views, sorted⟩ := h
  induction views using reverseRecOn with
  | nil => rfl
  | append_singleton views start ih =>
    obtain ⟨earlier, -, below⟩ := pairwise_append.mp sorted
    have forward : ¬start < views.getLastD 0 := by
      cases last : views.getLast? with
      | none => simp [getLastD_eq_getLast?, last]
      | some v =>
        have le := below v (mem_of_getLast? last) start (by simp)
        simpa [getLastD_eq_getLast?, last] using le
    have first := ih earlier
    simp only [initialise] at first ⊢
    rw [zipIdx_append, foldlM_append, first]
    simp [update, getLastD_eq_getLast?] at forward ⊢
    simp [forward]

theorem update_viewAt_of_lt (updated : h.update start view = some h') (before : idx < start) :
    h'.viewAt idx = h.viewAt idx := by
  simp only [update] at updated
  split at updated
  · cases updated
  cases updated
  simp only [viewAt_eq_countP, countP_append, countP_replicate]
  simp [before]

theorem update_viewAt_of_le (updated : h.update start view = some h') (after : start ≤ idx) :
    h'.viewAt idx = max h.views.length view := by
  simp only [update] at updated
  split at updated
  · cases updated
  cases updated
  have reached : h.views.countP (· ≤ idx) = h.views.length := by
    rw [countP_eq_length]
    intro v member
    have := getLastD_le_of_pairwise h.sorted member
    simp only [decide_eq_true_eq]
    omega
  simp only [viewAt_eq_countP, countP_append, countP_replicate, reached]
  simp only [decide_eq_true_eq, after, if_true]
  omega

/-- The history gives every entry of a log its term, and starts no view after
the end of the log. On an empty log a view may already start at index one: a
heartbeat at index zero announces it. -/
structure Tracks (h : ViewHistory) (terms : List Nat) : Prop where
  viewAt_eq : ∀ i, (bound : i < terms.length) → h.viewAt (i + 1) = terms[i]
  starts_pos : ∀ v ∈ h.views, 1 ≤ v
  starts_le : ∀ v ∈ h.views, v ≤ max 1 terms.length

namespace Tracks

theorem empty : Tracks ViewHistory.empty [] := by
  constructor <;> simp [ViewHistory.empty]

/-- Views start no later than `start` when every entry from there on is of the
last view. -/
theorem starts_le_of_suffix (tracks : Tracks h terms) (pos : 1 ≤ start)
    (le : start ≤ terms.length + 1) (bounded : h.views.length ≤ view)
    (suffix : ∀ i, (bound : i < terms.length) → start ≤ i + 1 → terms[i] = view) :
    ∀ v ∈ h.views, v ≤ start := by
  intro v member
  by_cases inside : start ≤ terms.length
  · refine h.le_of_viewAt_eq_length ?_ member
    have at_start := tracks.viewAt_eq (start - 1) (by omega)
    rw [show start - 1 + 1 = start by omega, suffix _ (by omega) (by omega)] at at_start
    have := h.viewAt_le_length start
    omega
  · have := tracks.starts_le v member
    omega

/-- An update that starts `view` where only its entries follow does not throw,
and tracks the log with further entries of that view. -/
theorem update (tracks : Tracks h terms) (pos : 1 ≤ start) (le : start ≤ terms.length + 1)
    (bounded : h.views.length ≤ view)
    (suffix : ∀ i, (bound : i < terms.length) → start ≤ i + 1 → terms[i] = view)
    (same : ∀ t ∈ more, t = view) (reached : start ≤ max 1 (terms ++ more).length) :
    ∃ h', h.update start view = some h' ∧ Tracks h' (terms ++ more) ∧ h'.views.length = view := by
  have starts := tracks.starts_le_of_suffix pos le bounded suffix
  have forward : ¬ start < h.views.getLastD 0 := by
    intro backwards
    cases last : h.views.getLast? with
    | none => simp [getLastD_eq_getLast?, last] at backwards
    | some v =>
      have := starts v (mem_of_getLast? last)
      simp only [getLastD_eq_getLast?, last, Option.getD_some] at backwards
      omega
  have updated : h.update start view = some ⟨h.views ++ List.replicate (view - h.views.length) start,
      sorted_append_replicate h.sorted forward _⟩ := by
    rw [ViewHistory.update, dif_neg forward]
  refine ⟨_, updated, ⟨?_, ?_, ?_⟩, ?_⟩
  · intro i bound
    by_cases before : i + 1 < start
    · have old : i < terms.length := by omega
      rw [update_viewAt_of_lt updated before, tracks.viewAt_eq i old, getElem_append_left old]
    rw [update_viewAt_of_le updated (by omega), Nat.max_eq_right bounded]
    by_cases old : i < terms.length
    · rw [getElem_append_left old, suffix i old (by omega)]
    · rw [getElem_append_right (by omega), same _ (getElem_mem _)]
  · intro v member
    rcases mem_append.mp member with old | new
    · exact tracks.starts_pos v old
    · rw [eq_of_mem_replicate new]
      exact pos
  · intro v member
    rcases mem_append.mp member with old | new
    · have := tracks.starts_le v old
      simp only [length_append]
      omega
    · rw [eq_of_mem_replicate new]
      exact reached
  · simp only [length_append, length_replicate]
    omega

end Tracks

theorem lt_viewAt_iff (h : ViewHistory) (bound : t < h.views.length) :
    t < h.viewAt idx ↔ h.views[t] ≤ idx := by
  have sorted := h.sorted
  rw [viewAt, upperBound]
  generalize h.views = views at sorted bound
  induction sorted generalizing t with
  | nil => simp at bound
  | @cons v rest least _ ih =>
    cases t with
    | zero => by_cases reached : v ≤ idx <;> simp [reached]
    | succ t =>
      have inside : t < rest.length := by simpa using bound
      by_cases reached : v ≤ idx
      · simpa [reached] using ih inside
      have := least rest[t] (getElem_mem _)
      simp only [takeWhile_cons, reached, decide_false, getElem_cons_succ]
      simp
      omega

/-- A view that has a start is not empty: the next view, if there is one, starts
later. -/
theorem startOfView_eq (begun : h.startOfView view ≠ 0) :
    ∃ bound : view - 1 < h.views.length, 0 < view ∧ h.startOfView view = h.views[view - 1] ∧
      ∀ next : view < h.views.length, h.views[view - 1] < h.views[view] := by
  simp only [startOfView] at begun ⊢
  split at begun
  · exact absurd rfl begun
  rename_i known
  obtain ⟨inside, pos⟩ : view ≤ h.views.length ∧ view ≠ 0 := by omega
  have bound : view - 1 < h.views.length := by omega
  split at begun
  · exact absurd rfl begun
  rename_i distinct
  refine ⟨bound, by omega, ?_, ?_⟩
  · rw [if_neg known, if_neg distinct, getD_eq_getElem _ _ bound]
  · intro next
    have le : h.views[view - 1] ≤ h.views[view] :=
      pairwise_iff_getElem.mp h.sorted _ _ bound next (by omega)
    rw [getD_eq_getElem _ _ next, getD_eq_getElem _ _ bound] at distinct
    omega

/-- The view of an index has entries, so it starts where the history says. -/
theorem startOfView_viewAt (known : 0 < h.viewAt i) :
    h.startOfView (h.viewAt i) = h.views.getD (h.viewAt i - 1) 0 := by
  have inside := h.viewAt_le_length i
  rw [startOfView, if_neg (by omega)]
  rw [if_neg]
  rintro ⟨next, same⟩
  have later : ¬ h.views[h.viewAt i] ≤ i := by
    rw [← h.lt_viewAt_iff (by omega)]
    omega
  have begun : h.views[h.viewAt i - 1] ≤ i := by
    rw [← h.lt_viewAt_iff (by omega)]
    omega
  rw [getD_eq_getElem _ _ (by omega), getD_eq_getElem _ _ (by omega)] at same
  omega

theorem endOfView_eq (begun : h.startOfView view ≠ 0) :
    h.endOfView view = if next : view < h.views.length then h.views[view] - 1 else 0 := by
  obtain ⟨-, pos, -, -⟩ := startOfView_eq begun
  rw [endOfView, if_neg begun]
  by_cases next : view < h.views.length
  · rw [if_neg (by omega), dif_pos next, getD_eq_getElem _ _ next]
  · rw [if_pos (by omega), dif_neg next]

/-- A view with a start holds the indices from there to its end. -/
theorem viewAt_eq_iff (begun : h.startOfView view ≠ 0) : h.viewAt i = view ↔
    h.startOfView view ≤ i ∧ (h.endOfView view = 0 ∨ i ≤ h.endOfView view) := by
  obtain ⟨bound, pos, starts, longer⟩ := startOfView_eq begun
  have first : view - 1 < h.viewAt i ↔ h.views[view - 1] ≤ i := h.lt_viewAt_iff bound
  have upper := h.viewAt_le_length i
  rw [endOfView_eq begun, starts]
  by_cases next : view < h.views.length
  · have second : view < h.viewAt i ↔ h.views[view] ≤ i := h.lt_viewAt_iff next
    have := longer next
    rw [dif_pos next]
    omega
  · rw [dif_neg next]
    omega

def getHistoryUntil (h : ViewHistory) (idx : Nat) : List Nat := h.views.take (h.upperBound idx)

theorem getHistoryUntil_eq (h : ViewHistory) (idx : Nat) :
    h.getHistoryUntil idx = (h.rollback idx).views :=
  (prefix_iff_eq_take.mp ( takeWhile_prefix _)).symm

/-- What holds of every history that `initialise`, `update` and `rollback` can
build. A node that starts from a snapshot has the history of a node that rolled
back to it. -/
theorem view_history_algebra (h : ViewHistory) :
    h.views.Pairwise (· ≤ ·) ∧
    (∀ view, h.startOfView view ≠ 0 → ∀ i, h.viewAt i = view ↔
      h.startOfView view ≤ i ∧ (h.endOfView view = 0 ∨ i ≤ h.endOfView view)) ∧
    ∀ idx, initialise (h.getHistoryUntil idx) = some (h.rollback idx) ∧
      ∀ i ≤ idx, (h.rollback idx).viewAt i = h.viewAt i := by
  refine ⟨h.sorted, fun view begun i => viewAt_eq_iff begun, fun idx => ⟨?_, ?_⟩⟩
  · rw [getHistoryUntil_eq, initialise_views]
  · intro i le
    rw [viewAt_rollback, Nat.min_eq_left le]

/-- Going back to the start of a view leaves the view: everything from there on
is of it. -/
theorem startOfView_viewAt_spec (positive : ∀ v ∈ h.views, 1 ≤ v) (known : 0 < h.viewAt i) :
    1 ≤ h.startOfView (h.viewAt i) ∧ h.startOfView (h.viewAt i) ≤ i ∧
      ∀ j, h.startOfView (h.viewAt i) ≤ j → j ≤ i → h.viewAt j = h.viewAt i := by
  have inside := h.viewAt_le_length i
  have bound : h.viewAt i - 1 < h.views.length := by omega
  have starts := startOfView_viewAt known
  rw [getD_eq_getElem _ _ bound] at starts
  have pos := positive _ (getElem_mem bound)
  have begun : h.startOfView (h.viewAt i) ≠ 0 := by omega
  obtain ⟨le, ends⟩ := (viewAt_eq_iff begun).mp rfl
  refine ⟨by omega, le, fun j from_start below => (viewAt_eq_iff begun).mpr ⟨from_start, ?_⟩⟩
  omega

/-- A batch that `calculate_end_index` allows stays in the view it starts in. -/
theorem viewAt_eq_of_le_endOfView (positive : ∀ v ∈ h.views, 1 ≤ v) (known : 1 ≤ h.viewAt start)
    (le : start ≤ idx)
    (bound : h.endOfView (h.viewAt start) ≠ 0 → idx ≤ h.endOfView (h.viewAt start)) :
    h.viewAt idx = h.viewAt start := by
  obtain ⟨pos, begun, -⟩ := startOfView_viewAt_spec positive known
  refine (viewAt_eq_iff (by omega)).mpr ⟨by omega, ?_⟩
  by_cases last : h.endOfView (h.viewAt start) = 0
  · exact .inl last
  · exact .inr (bound last)

end ViewHistory
end CCF.Aft
