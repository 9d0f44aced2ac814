import ShardedCCF.Aft.ViewStarts

/-! `send_append_entries` cuts what a node has to be sent into ranges: no range
is longer than a batch or reaches into the next view. A follower rebuilds its
view history from this, as a message names the view of its last entry only. -/
namespace CCF.Aft

variable {NodeId : Type}

namespace Log

/-- The ranges `(prev_idx, idx]` for which the loop calls
`send_append_entries_range`, up to the one that ends it. -/
inductive Batches (l : Log NodeId) (batchSize : Nat) : Nat → List (Nat × Nat) → Prop where
  | last : l.calculateEndIndex batchSize start = l.lastIdx →
      Batches l batchSize start [(start - 1, l.lastIdx)]
  | next : l.calculateEndIndex batchSize start = endIdx → endIdx ≠ l.lastIdx →
      Batches l batchSize (min (endIdx + 1) l.lastIdx) ranges →
      Batches l batchSize start ((start - 1, endIdx) :: ranges)

def OneView (l : Log NodeId) (range : Nat × Nat) : Prop :=
  range.1 ≤ range.2 ∧ range.2 ≤ l.lastIdx ∧ ∀ i, range.1 < i → i ≤ range.2 →
    l.getTermInternal i = l.getTermInternal range.2 ∧ 1 ≤ l.getTermInternal i

variable {l : Log NodeId}

theorem Anchored.oneView (anchored : l.Anchored) (filled : l.viewHistory.views = [] → l.lastIdx = 0)
    (batchSize : Nat) (first : 1 ≤ start) (within : start ≤ l.lastIdx + 1) :
    l.OneView (start - 1, l.calculateEndIndex batchSize start) := by
  have reached := calculateEndIndex_le anchored.bounded batchSize start
  by_cases inside : start ≤ l.lastIdx
  · have ahead := l.le_calculateEndIndex batchSize inside
    have known : l.viewHistory.views ≠ [] := fun none => by
      have := filled none
      omega
    have bound : ∀ i, i ≤ l.calculateEndIndex batchSize start →
        l.viewHistory.endOfView (l.viewHistory.viewAt start) ≠ 0 →
        i ≤ l.viewHistory.endOfView (l.viewHistory.viewAt start) := by
      intro i below ends
      refine below.trans ?_
      rw [calculateEndIndex]
      simp only [if_pos ends]
      exact min_le_right ..
    have view : ∀ i, start ≤ i → i ≤ l.calculateEndIndex batchSize start →
        l.getTermInternal i = l.viewHistory.viewAt start := by
      intro i above below
      rw [getTermInternal, if_neg (by omega)]
      exact ViewHistory.viewAt_eq_of_le_endOfView anchored.positive (anchored.viewAt_pos known first)
        above (bound i below)
    refine ⟨by omega, reached, fun i above below => ?_⟩
    rw [view i (by omega) below, view _ ahead le_rfl]
    exact ⟨rfl, anchored.viewAt_pos known first⟩
  · obtain rfl : start = l.lastIdx + 1 := by omega
    rw [calculateEndIndex_behind anchored.bounded]
    exact ⟨by omega, le_rfl, fun i above below => by omega⟩

/-- The loop ends, and its ranges cover the log from `start` on. -/
theorem Anchored.batches (anchored : l.Anchored) (filled : l.viewHistory.views = [] → l.lastIdx = 0)
    (batchSize : Nat) (first : 1 ≤ start) (within : start ≤ l.lastIdx + 1) :
    ∃ ranges, l.Batches batchSize start ranges ∧ ranges.head?.map Prod.fst = some (start - 1) ∧
      ranges.getLast?.map Prod.snd = some l.lastIdx ∧ ranges.IsChain (fun a b => a.2 = b.1) ∧
      ranges.length ≤ l.lastIdx + 2 - start ∧ ∀ range ∈ ranges, l.OneView range := by
  -- Every range but the last one moves `start` forward.
  induction left : l.lastIdx + 1 - start using Nat.strong_induction_on generalizing start with
  | _ left ih =>
    have view := anchored.oneView filled batchSize first within
    by_cases ends : l.calculateEndIndex batchSize start = l.lastIdx
    · rw [ends] at view
      exact ⟨_, .last ends, rfl, rfl, .singleton _, by simp; omega, by simpa using view⟩
    have reached := calculateEndIndex_le anchored.bounded batchSize start
    have inside : start ≤ l.lastIdx := by
      by_contra behind
      obtain rfl : start = l.lastIdx + 1 := by omega
      exact ends (calculateEndIndex_behind anchored.bounded batchSize)
    have ahead := l.le_calculateEndIndex batchSize inside
    have next : min (l.calculateEndIndex batchSize start + 1) l.lastIdx =
        l.calculateEndIndex batchSize start + 1 := by omega
    have later : 1 ≤ l.calculateEndIndex batchSize start + 1 := by omega
    obtain ⟨ranges, loop, head, last, chain, short, views⟩ := ih _ (by omega) later (by omega) rfl
    rw [← next] at loop
    cases ranges with
    | nil => simp at head
    | cons range ranges =>
      have head : range.1 = l.calculateEndIndex batchSize start := by simpa using head
      refine ⟨_, .next rfl ends loop, rfl, ?_, chain.cons_cons head.symm, ?_, ?_⟩
      · exact last
      · simp only [List.length_cons] at short ⊢
        omega
      · intro range' member
        rcases List.mem_cons.mp member with rfl | later
        · exact view
        · exact views range' later

end Log

variable [LinearOrder NodeId]

namespace Node

def sendRanges (env : Env NodeId) (dest : NodeId) (ranges : List (Nat × Nat)) (s : Node NodeId) :
    Node NodeId :=
  ranges.foldl (fun s (prevIdx, idx) => s.sendAppendEntriesRange env dest (prevIdx + 1) idx) s

theorem sendBatches_eq (env : Env NodeId) (dest : NodeId) {s : Node NodeId} (bounded : s.toLog.Bounded)
    (first : 1 ≤ startIdx) (loop : s.toLog.Batches s.entriesBatchSize startIdx ranges)
    (enough : ranges.length ≤ fuel) :
    sendBatches env dest fuel s startIdx = s.sendRanges env dest ranges := by
  generalize log : s.toLog = l at loop bounded
  generalize size : s.entriesBatchSize = batchSize at loop
  induction loop generalizing s fuel with
  | @last startIdx ends =>
    obtain ⟨fuel, rfl⟩ := Nat.exists_eq_add_one.mpr enough
    have sent := s.sendAppendEntriesRange_broadcasts env dest s.entriesBatchSize (.inl first)
    have ends : s.calculateEndIndex s.entriesBatchSize startIdx = s.lastIdx := by
      rw [log, size]
      exact ends
    rw [ends] at sent
    rw [sendBatches]
    simp only [ends]
    rw [if_pos (by rw [sent.frame]), sendRanges]
    simp only [List.foldl_cons, List.foldl_nil, Nat.sub_add_cancel first]
    rw [← log]
  | @next startIdx endIdx ranges ends more loop ih =>
    obtain ⟨fuel, rfl⟩ := Nat.exists_eq_add_one.mpr (Nat.zero_lt_of_lt enough)
    have sent := s.sendAppendEntriesRange_broadcasts env dest s.entriesBatchSize (.inl first)
    have reached := Log.calculateEndIndex_le bounded batchSize startIdx
    have ends : s.calculateEndIndex s.entriesBatchSize startIdx = endIdx := by
      rw [log, size]
      exact ends
    rw [ends] at sent
    have same : (s.sendAppendEntriesRange env dest startIdx endIdx).toLog = l := by
      rw [sent.frame]
      exact log
    have sized : (s.sendAppendEntriesRange env dest startIdx endIdx).entriesBatchSize = batchSize := by
      rw [sent.frame]
      exact size
    have last' : (s.sendAppendEntriesRange env dest startIdx endIdx).lastIdx = l.lastIdx :=
      congrArg Log.lastIdx same
    rw [sendBatches]
    simp only [ends]
    rw [last', if_neg more, ih (by omega) (by simpa using enough) same sized, sendRanges, sendRanges]
    simp only [List.foldl_cons, Nat.sub_add_cancel first]

end Node
end CCF.Aft
