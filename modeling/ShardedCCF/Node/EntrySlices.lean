import ShardedCCF.Host.LedgerFile

/-! How bytes from the host are cut into entries: by the sizes that their headers
give. -/
namespace CCF.EntrySlices
open List
open Host (Bytes headerSize entrySizeOf WellFormed)

inductive Outcome (α : Type) where
  | returned (result : α)
  | threw
  | outside

/-- The whole entry that `serialized::peek` finds a header of. -/
def wholeSize (data : Bytes) : Nat := headerSize + entrySizeOf data

/-- The loop of `handle_ledger_entries`. An entry may be refused, which does not end it.
Once a slice has left the bytes, nothing can be said of what follows. -/
def handleLedgerEntries (handle : σ → Nat → Bytes → σ × Bool) (s : σ) (seqno : Nat) (accepted : Bool) (data : Bytes) :
    Outcome (σ × Nat × Bool) :=
  if data = [] then .returned (s, seqno, accepted)
  else if data.length < headerSize then .threw
  else if data.length < wholeSize data then .outside
  else
    let (s, ok) := handle s seqno (data.take (wholeSize data))
    handleLedgerEntries handle s (seqno + 1) (accepted && ok) (data.drop (wholeSize data))
termination_by data.length
decreasing_by
  rename_i some_ _ _
  have := List.length_pos_iff.mpr some_
  simp only [List.length_drop, wholeSize, headerSize]
  omega

/-- `LedgerEnclave::get_entry`: the entry is copied before its size is compared with what
is left. -/
def getEntry (data : Bytes) : Outcome (Bytes × Bytes) :=
  if data.length < headerSize then .threw
  else if data.length < wholeSize data then .outside
  else .returned (data.take (wholeSize data), data.drop (wholeSize data))

/-- The store in a snapshot, and the receipt behind it unless the host has named the
evidence. The size of the receipt is a difference that wraps around. -/
def snapshotParts (evidenceSeqno : Option Nat) (snapshot : Bytes) : Outcome (Bytes × Option Bytes) :=
  if snapshot.length < headerSize then .threw
  else
    let storeSnapshotSize := wholeSize snapshot
    if snapshot.length < storeSnapshotSize then .outside
    else .returned (snapshot.take storeSnapshotSize,
      if evidenceSeqno.isSome then none else some (snapshot.drop storeSnapshotSize))

def Framed (data : Bytes) : Prop :=
  ∃ (entries : List Bytes) (rest : Bytes), data = entries.flatten ++ rest ∧ (∀ e ∈ entries, WellFormed e) ∧
    rest.length < headerSize

theorem entrySizeOf_append (rest : Bytes) (long : headerSize ≤ entry.length) :
    entrySizeOf (entry ++ rest) = entrySizeOf entry := by
  rw [← Host.LedgerFile.entrySizeOf_take, take_append_of_le_length long, Host.LedgerFile.entrySizeOf_take]

theorem wholeSize_append (formed : WellFormed entry) (rest : Bytes) : wholeSize (entry ++ rest) = entry.length := by
  obtain ⟨long, size⟩ := formed
  rw [wholeSize, entrySizeOf_append rest long, size]
  omega

theorem wellFormed_take (whole : wholeSize data ≤ data.length) : WellFormed (data.take (wholeSize data)) := by
  have size : (data.take (wholeSize data)).length = wholeSize data := length_take_of_le whole
  have long : headerSize ≤ (data.take (wholeSize data)).length := by
    rw [size]
    exact Nat.le_add_right ..
  refine ⟨long, ?_⟩
  rw [← entrySizeOf_append (data.drop (wholeSize data)) long, take_append_drop, size]
  exact (Nat.add_sub_cancel_left ..).symm

theorem handleLedgerEntries_inside_iff (handle : σ → Nat → Bytes → σ × Bool) (s : σ) (seqno : Nat) (accepted : Bool)
    (data : Bytes) : handleLedgerEntries handle s seqno accepted data ≠ .outside ↔ Framed data := by
  constructor
  · intro inside
    fun_induction handleLedgerEntries handle s seqno accepted data with
    | case1 s seqno accepted => exact ⟨[], [], rfl, by simp, by decide⟩
    | case2 s seqno accepted data _ short => exact ⟨[], data, rfl, by simp, short⟩
    | case3 => exact absurd rfl inside
    | case4 s seqno accepted data _ _ whole s' ok handled ih =>
      obtain ⟨entries, rest, parts, formed, short⟩ := ih inside
      refine ⟨data.take (wholeSize data) :: entries, rest, ?_, ?_, short⟩
      · rw [flatten_cons, append_assoc, ← parts, take_append_drop]
      · exact forall_mem_cons.mpr ⟨wellFormed_take (not_lt.mp whole), formed⟩
  · rintro ⟨entries, rest, rfl, formed, short⟩
    induction entries generalizing s seqno accepted with
    | nil =>
      rw [handleLedgerEntries]
      simp only [flatten_nil, nil_append, short, if_true]
      split <;> simp
    | cons e entries ih =>
      obtain ⟨entry, formed⟩ := forall_mem_cons.mp formed
      have size := wholeSize_append entry (entries.flatten ++ rest)
      have long := entry.1
      rw [handleLedgerEntries, flatten_cons, append_assoc, size, if_neg, if_neg, if_neg]
      · rw [drop_left]
        exact ih _ _ _ formed
      · simp
      · simp only [length_append]
        omega
      · intro empty
        simp only [append_eq_nil_iff] at empty
        simp [empty.1] at long

/-- What the host supplies is cut inside its bytes exactly if its headers give the sizes
of what is there. -/
theorem slices_inside_iff (handle : σ → Nat → Bytes → σ × Bool) (s : σ) (seqno : Nat) (data : Bytes)
    (evidenceSeqno : Option Nat) :
    (handleLedgerEntries handle s seqno true data ≠ .outside ↔ Framed data) ∧
    (getEntry data ≠ .outside ↔ data.length < headerSize ∨ wholeSize data ≤ data.length) ∧
    (snapshotParts evidenceSeqno data ≠ .outside ↔ data.length < headerSize ∨ wholeSize data ≤ data.length) := by
  refine ⟨handleLedgerEntries_inside_iff handle s seqno true data, ?_, ?_⟩
  · unfold getEntry
    grind
  · unfold snapshotParts
    grind

/-- A header that promises one byte more than there is. -/
theorem slices_outside : ∃ data : Bytes,
    handleLedgerEntries (fun (_ : Unit) _ _ => ((), true)) () 1 true data = .outside ∧ getEntry data = .outside ∧
      snapshotParts none data = .outside := by
  refine ⟨[1, 0, 1, 0, 0, 0, 0, 0], ?_, rfl, rfl⟩
  rw [handleLedgerEntries]
  rfl

end CCF.EntrySlices
