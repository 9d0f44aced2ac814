import ShardedCCF.Aft.NodeTable

/-! The size of the batches that a primary sends, over any sequence of its updates. -/
namespace CCF.Aft.Node

variable {NodeId : Type} [LinearOrder NodeId]

/-- `update_batch_size`, with the entries counted since the last one and their size. -/
def updateWith (s : Node NodeId) (counted : Nat × Nat) : Node NodeId :=
  { s with entryCount := counted.1, entrySizeNotLimited := counted.2 }.updateBatchSize

def batchSize (counted : Nat × Nat) : Nat :=
  let avgEntrySize := if counted.1 = 0 then appendEntriesSizeLimit else counted.2 / counted.1
  if avgEntrySize = 0 then appendEntriesSizeLimit / 2 else appendEntriesSizeLimit / avgEntrySize

structure BatchesInRange (s : Node NodeId) : Prop where
  sum_nonneg : 0 ≤ s.batchWindowSum
  sum_le : s.batchWindowSum ≤ batchWindowSize * appendEntriesSizeLimit
  size_pos : 1 ≤ s.entriesBatchSize
  size_le : s.entriesBatchSize ≤ appendEntriesSizeLimit

theorem batchSize_le (counted : Nat × Nat) : batchSize counted ≤ appendEntriesSizeLimit := by
  have le : ∀ size, (if size = 0 then appendEntriesSizeLimit / 2 else appendEntriesSizeLimit / size) ≤
      appendEntriesSizeLimit := by
    intro size
    split
    · exact Nat.div_le_self ..
    · exact Nat.div_le_self ..
  exact le _

/-- The sum moves towards the window at this size, so that no bits are lost. -/
theorem BatchesInRange.sum_eq {s : Node NodeId} (inRange : s.BatchesInRange) (counted : Nat × Nat) :
    (s.updateWith counted).batchWindowSum =
      s.batchWindowSum + (batchSize counted - s.batchWindowSum / batchWindowSize) := by
  have le := batchSize_le counted
  obtain ⟨nonneg, sum_le, -, -⟩ := inRange
  change (s.batchWindowSum + (batchSize counted - s.batchWindowSum.tdiv batchWindowSize)).bmod (2 ^ 32) = _
  rw [Int.tdiv_eq_ediv_of_nonneg nonneg]
  simp only [appendEntriesSizeLimit, batchWindowSize] at *
  exact Int.bmod_eq_of_le (by omega) (by omega)

theorem BatchesInRange.updateWith {s : Node NodeId} (inRange : s.BatchesInRange) (counted : Nat × Nat) :
    (s.updateWith counted).BatchesInRange := by
  have le := batchSize_le counted
  have sum := inRange.sum_eq counted
  obtain ⟨nonneg, sum_le, -, -⟩ := inRange
  have size : (s.updateWith counted).entriesBatchSize =
      (max ((s.updateWith counted).batchWindowSum.tdiv batchWindowSize) 1).toNat := rfl
  simp only [appendEntriesSizeLimit, batchWindowSize] at *
  have nonneg' : 0 ≤ (s.updateWith counted).batchWindowSum := by omega
  rw [Int.tdiv_eq_ediv_of_nonneg nonneg'] at size
  refine ⟨nonneg', ?_, by omega, ?_⟩
  · simp only [appendEntriesSizeLimit, batchWindowSize]
    omega
  · simp only [appendEntriesSizeLimit]
    omega

/-- Whatever has been counted, no update leaves the range or loses bits of the sum. -/
theorem batch_sizes_in_range (n : NodeId) (type : ReconfigurationType) (membership : MembershipState)
    (counts : List (Nat × Nat)) :
    let s := counts.foldl updateWith (start n type membership)
    s.BatchesInRange ∧ ∀ counted, (s.updateWith counted).batchWindowSum =
      s.batchWindowSum + (batchSize counted - s.batchWindowSum / batchWindowSize) := by
  have inRange : (counts.foldl updateWith (start n type membership)).BatchesInRange := by
    induction counts using List.reverseRecOn with
    | nil => constructor <;> simp [start, appendEntriesSizeLimit, batchWindowSize]
    | append_singleton counts counted ih =>
      rw [List.foldl_append]
      exact ih.updateWith counted
  exact ⟨inRange, inRange.sum_eq⟩

end CCF.Aft.Node
