import ShardedCCF.Aft.Refinement

/-! How a primary follows the progress of its backups: the highest index at which
a backup that rejected entries may still agree, and the index it commits. -/
namespace CCF.Aft
open List
open Std (ExtTreeMap)

variable {NodeId : Type}

namespace Log

/-- With fuel for every index the loop stops, at the last index of a view not
above `view`. -/
theorem probeMatch_isGreatest (l : Log NodeId) (positive : ∀ v ∈ l.viewHistory.views, 1 ≤ v)
    (view : Nat) {fuel probe : Nat} (enough : probe < fuel) :
    IsGreatest { i | i ≤ probe ∧ l.viewHistory.viewAt i ≤ view } (l.probeMatch view fuel probe) := by
  induction fuel generalizing probe with
  | zero => omega
  | succ fuel ih =>
    rw [probeMatch]
    split
    · have known : 0 < l.viewHistory.viewAt probe := by omega
      obtain ⟨pos, begun, same⟩ := ViewHistory.startOfView_viewAt_spec positive known
      obtain ⟨member, greatest⟩ :=
        @ih (l.viewHistory.startOfView (l.viewHistory.viewAt probe) - 1) (by omega)
      refine ⟨⟨member.1.trans (by omega), member.2⟩, ?_⟩
      rintro i ⟨le, low⟩
      -- everything from the start of the view on is of the view that is too high
      by_cases inside : l.viewHistory.startOfView (l.viewHistory.viewAt probe) ≤ i
      · have := same i inside le
        omega
      · exact greatest ⟨by omega, low⟩
    · exact ⟨⟨le_rfl, by omega⟩, fun i member => member.1⟩

/-- `find_highest_possible_match` ends, whatever more rounds it were given, with
the largest index up to both ends that is not of a later view. -/
theorem findHighestPossibleMatch_isGreatest (l : Log NodeId)
    (positive : ∀ v ∈ l.viewHistory.views, 1 ≤ v) (view seqno : Nat) :
    (∀ fuel, min seqno l.lastIdx < fuel →
      l.probeMatch view fuel (min seqno l.lastIdx) = l.findHighestPossibleMatch view seqno) ∧
    IsGreatest { i | i ≤ min seqno l.lastIdx ∧ l.viewHistory.viewAt i ≤ view }
      (l.findHighestPossibleMatch view seqno) := by
  have exact_match := l.probeMatch_isGreatest positive view (Nat.lt_succ_self (min seqno l.lastIdx))
  refine ⟨fun fuel enough => ?_, exact_match⟩
  exact (l.probeMatch_isGreatest positive view enough).unique exact_match

/-- With views that start at 1, 4 and 4 the second is empty: a match for view 2
at index 9 is the end of view 1. -/
theorem findHighestPossibleMatch_skips_view :
    let l : Log Nat := { lastIdx := 6, viewHistory := ⟨[1, 4, 4], by decide⟩ }
    (∀ v ∈ l.viewHistory.views, 1 ≤ v) ∧ l.findHighestPossibleMatch 2 9 = 3 ∧
      IsGreatest { i | i ≤ min 9 l.lastIdx ∧ l.viewHistory.viewAt i ≤ 2 }
        (l.findHighestPossibleMatch 2 9) := by
  intro l
  have positive : ∀ v ∈ l.viewHistory.views, 1 ≤ v := by decide
  exact ⟨positive, by decide, (l.findHighestPossibleMatch_isGreatest positive 2 9).2⟩

end Log

namespace Node
variable [LinearOrder NodeId] {s : Node NodeId} {c : Configuration NodeId}

/-- The nodes of the configuration that hold the log up to `idx`; the node itself
holds all of its own log. -/
def holders (s : Node NodeId) (c : Configuration NodeId) (idx : Nat) : Nat :=
  c.nodes.keys.countP fun id => idx ≤ s.replica.reached id

def Replicated (s : Node NodeId) (idx : Nat) : Prop :=
  ∀ c ∈ s.configurations, getQuorum c.nodes.size ≤ s.holders c idx

theorem holders_anti (s : Node NodeId) (c : Configuration NodeId) (le : i ≤ j) :
    s.holders c j ≤ s.holders c i := by
  apply countP_mono_left
  simp only [decide_eq_true_eq]
  omega

/-- The middle of the sorted indices is the highest index a majority holds. -/
theorem confirmed_spec (nonempty : c.nodes.size ≠ 0)
    (known : ∀ id ∈ c.nodes, id = s.myNodeId ∨ id ∈ s.nodes) :
    ∃ idx, s.confirmed c = .ok idx ∧ ∀ i, getQuorum c.nodes.size ≤ s.holders c i ↔ i ≤ idx := by
  have some_indices : ∃ indices, s.matchIndices c = some indices := by
    refine Lib.exists_mapM_eq_some fun id member => ?_
    rcases known id (ExtTreeMap.mem_keys.mp member) with rfl | inTable
    · exact ⟨_, if_pos rfl⟩
    split
    · exact ⟨_, rfl⟩
    · rw [ExtTreeMap.getElem?_eq_some_getElem inTable]
      exact ⟨_, rfl⟩
  obtain ⟨indices, found⟩ := some_indices
  have equal := s.matchIndices_eq found
  have size : indices.length = c.nodes.size := by
    rw [equal, length_map, ExtTreeMap.length_keys]
  have inside : (indices.length - 1) / 2 < (indices.insertionSort (· ≤ ·)).length := by
    rw [length_insertionSort]
    omega
  have middle := getElem?_eq_getElem inside
  generalize (indices.insertionSort (· ≤ ·))[(indices.length - 1) / 2] = idx at middle
  have count : ∀ i, indices.countP (i ≤ ·) = s.holders c i := by
    intro i
    rw [equal, countP_map]
    rfl
  refine ⟨idx, ?_, fun i => ⟨fun many => ?_, fun le => ?_⟩⟩
  · rw [confirmed, found]
    dsimp only
    rw [middle]
  · by_contra above
    have few := Lib.countP_lt_majority middle (not_le.mp above)
    rw [count, size] at few
    exact absurd many (not_le.mpr few)
  · have reached := Lib.majority_le_countP middle
    rw [count, size] at reached
    exact reached.trans (s.holders_anti c le)

/-- The least of the confirmed indices is the highest index that every one of
the configurations has confirmed. -/
theorem mapM_confirmed_spec {confs : List (Configuration NodeId)}
    (nonempty : ∀ c ∈ confs, c.nodes.size ≠ 0)
    (known : ∀ c ∈ confs, ∀ id ∈ c.nodes, id = s.myNodeId ∨ id ∈ s.nodes) :
    ∃ watermarks, confs.mapM s.confirmed = .ok watermarks ∧ watermarks.length = confs.length ∧
      ∀ i, (∀ c ∈ confs, getQuorum c.nodes.size ≤ s.holders c i) ↔ ∀ w ∈ watermarks, i ≤ w := by
  induction confs with
  | nil => exact ⟨[], rfl, rfl, by simp⟩
  | cons c confs ih =>
    obtain ⟨idx, first, spec⟩ := confirmed_spec (nonempty c mem_cons_self)
      (known c mem_cons_self)
    obtain ⟨watermarks, rest, length, others⟩ := ih
      (fun c member => nonempty c (mem_cons_of_mem _ member))
      (fun c member => known c (mem_cons_of_mem _ member))
    refine ⟨idx :: watermarks, ?_, by simp [length], fun i => ?_⟩
    · rw [mapM_cons, first, rest]
      rfl
    · simp only [forall_mem_cons, spec, others]

/-- `update_commit` tries to commit the highest index that is replicated on a
majority of every active configuration. -/
theorem updateCommit_watermark (env : Env NodeId) (active : s.configurations ≠ [])
    (nonempty : ∀ c ∈ s.configurations, c.nodes.size ≠ 0)
    (known : ∀ c ∈ s.configurations, ∀ id ∈ c.nodes, id = s.myNodeId ∨ id ∈ s.nodes) :
    ∃ w, IsGreatest { idx | s.Replicated idx } w ∧
      s.updateCommit env =
        if w > s.lastIdx then .error ⟨.matchBeyondLog, { s with cftWatermarkIdx := w }⟩
        else { s with cftWatermarkIdx := w }.commitIfPossible env w := by
  obtain ⟨watermarks, confirms, length, spec⟩ := mapM_confirmed_spec nonempty known
  have some_watermark : watermarks ≠ [] := by
    rintro rfl
    exact active (length_eq_zero_iff.mp length.symm)
  obtain ⟨w, least⟩ := Option.isSome_iff_exists.mp (isSome_min?_of_ne_nil some_watermark)
  obtain ⟨member, below⟩ := min?_eq_some_iff.mp least
  refine ⟨w, ⟨(spec w).mpr below, fun idx replicated => (spec idx).mp replicated w member⟩, ?_⟩
  rw [updateCommit, confirms]
  dsimp only
  rw [least]
  rfl

/-- A primary that replaces the configuration of nodes 0, 1 and 2 by one of 0
and 1. -/
def shrinking : Node (Fin 3) where
  myNodeId := 0
  lastIdx := 9
  configurations :=
    [{ idx := 1, rid := 1
       nodes := (((∅ : Nodes (Fin 3)).insert 0 ⟨"a", "1"⟩).insert 1 ⟨"b", "1"⟩).insert 2 ⟨"c", "1"⟩ },
     { idx := 8, rid := 8, nodes := ((∅ : Nodes (Fin 3)).insert 0 ⟨"a", "1"⟩).insert 1 ⟨"b", "1"⟩ }]
  nodes := ((∅ : ExtTreeMap (Fin 3) NodeState).insert 1 ⟨⟨"b", "1"⟩, 5, 5, 0⟩).insert 2
    ⟨⟨"c", "1"⟩, 7, 7, 0⟩

theorem updateCommit_watermark_shrinking :
    (∃ w, IsGreatest { idx | shrinking.Replicated idx } w) ∧
      (Result.state (shrinking.updateCommit {})).cftWatermarkIdx = 5 := by
  have nonempty : ∀ c ∈ shrinking.configurations, c.nodes.size ≠ 0 := by decide +kernel
  have known : ∀ c ∈ shrinking.configurations, ∀ id ∈ c.nodes,
      id = shrinking.myNodeId ∨ id ∈ shrinking.nodes := by
    decide +kernel
  obtain ⟨w, greatest, -⟩ :=
    updateCommit_watermark (s := shrinking) {} (by simp [shrinking]) nonempty known
  exact ⟨⟨w, greatest⟩, by decide +kernel⟩

end Node
end CCF.Aft
