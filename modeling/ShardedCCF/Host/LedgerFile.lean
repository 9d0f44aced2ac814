import ShardedCCF.Lib.File

/-! One chunk of the ledger on the host: entries behind a header of eight bytes,
which is zero until the chunk is completed and then says where the table of
positions stands. An open chunk has no table; it is found again by a scan. The
file name is kept as what it says: the first index, and whether the chunk is
committed or temporary. -/
namespace CCF.Host
open List
open Lib (Byte toBytes ofBytes writeAt truncateTo)

abbrev Bytes := List Byte

/-- The size of the header of a file, and of the header of an entry. -/
abbrev headerSize : Nat := 8

/-- `SerialisedEntryHeader::size`, the last six bytes of the header of an entry. -/
def entrySizeOf (header : Bytes) : Nat := ofBytes ((header.drop 2).take 6)

def WellFormed (entry : Bytes) : Prop :=
  headerSize ≤ entry.length ∧ entrySizeOf entry = entry.length - headerSize

structure LedgerFile where
  startIdx : Nat
  started : 0 < startIdx
  totalLen : Nat := headerSize
  /-- Offsets of the entries, on 32 bits. -/
  positions : List Nat := []
  completed : Bool := false
  committed : Bool := false
  recovery : Bool := false
  contents : Bytes := []
  deriving DecidableEq, Repr

/-- What becomes of a file that is truncated. -/
inductive Truncated where
  | kept (f : LedgerFile)
  | removed
  | failed
  deriving DecidableEq, Repr

namespace LedgerFile

/-- A new file after the index. Its header is left out for now. -/
def create (lastIdx : Nat) (recovery : Bool) : LedgerFile :=
  { startIdx := lastIdx + 1, started := Nat.succ_pos _, recovery }

def lastIdx (f : LedgerFile) : Nat := f.startIdx + f.positions.length - 1

/-- Writing nothing counts as a failure. -/
def writeEntry (f : LedgerFile) (data : Bytes) : Option LedgerFile :=
  if data = [] then none
  else some { f with
    contents := writeAt f.contents f.totalLen data
    positions := f.positions ++ [f.totalLen % 2 ^ 32]
    totalLen := f.totalLen + data.length }

def writeAll (f : LedgerFile) (entries : List Bytes) : Option LedgerFile := entries.foldlM writeEntry f

/-- The scan of an open chunk. It ends before an entry of which a part is missing. -/
def scan : Nat → Bytes → Nat → List Nat → List Nat × Nat
  | 0, _, totalLen, positions => (positions, totalLen)
  | fuel + 1, rest, totalLen, positions =>
    if rest.length < headerSize then (positions, totalLen)
    else
      let entrySize := entrySizeOf (rest.take headerSize)
      if (rest.drop headerSize).length < entrySize then (positions, totalLen)
      else
        scan fuel ((rest.drop headerSize).drop entrySize) (totalLen + (headerSize + entrySize))
          (positions ++ [totalLen % 2 ^ 32])

def readTable (table : Bytes) : List Nat :=
  (List.range (table.length / 4)).map fun i => ofBytes ((table.drop (4 * i)).take 4)

/-- An existing file is opened again. Every entry takes some bytes, so its length is fuel
enough for the scan. -/
def recover (lastIdx : Nat) (committed : Bool) (contents : Bytes) : Option LedgerFile :=
  if contents.length < headerSize then none
  else
    let tableOffset := ofBytes (contents.take headerSize)
    if tableOffset ≠ 0 then
      if tableOffset > contents.length then none
      else some { create lastIdx false with
        committed, contents
        totalLen := tableOffset
        positions := readTable (contents.drop tableOffset)
        completed := true }
    else
      let (positions, totalLen) := scan contents.length (contents.drop headerSize) headerSize []
      some { create lastIdx false with committed, contents, totalLen, positions }

/-- The header is reset and what follows the index is cut off. -/
def truncate (f : LedgerFile) (idx : Nat) : Truncated :=
  if f.committed ∨ idx < f.startIdx - 1 ∨ (f.completed ∧ idx ≥ f.lastIdx) then .kept f
  else if idx = f.startIdx - 1 then .removed
  else if idx = f.lastIdx then
    .kept { f with
      completed := false
      contents := truncateTo (writeAt f.contents 0 (toBytes headerSize 0)) f.totalLen }
  else
    match f.positions[idx - f.startIdx + 1]? with
    | none => .failed
    | some totalLen =>
      .kept { f with
        completed := false
        totalLen
        positions := f.positions.take (idx - f.startIdx + 1)
        contents := truncateTo (writeAt f.contents 0 (toBytes headerSize 0)) totalLen }

/-! ## The file of a list of entries -/

def offsets : Nat → List Bytes → List Nat
  | _, [] => []
  | offset, e :: entries => offset % 2 ^ 32 :: offsets (offset + e.length) entries

theorem length_offsets (offset : Nat) (entries : List Bytes) : (offsets offset entries).length = entries.length := by
  induction entries generalizing offset with
  | nil => rfl
  | cons e entries ih => rw [offsets, length_cons, ih, length_cons]

theorem offsets_append (offset : Nat) (front back : List Bytes) :
    offsets offset (front ++ back) = offsets offset front ++ offsets (offset + front.flatten.length) back := by
  induction front generalizing offset with
  | nil => rfl
  | cons e front ih =>
    rw [cons_append, offsets, ih, offsets, flatten_cons, length_append, Nat.add_assoc]
    rfl

/-- An open file after the entries were written to a new one. Until the first entry the
file is empty. -/
def holding (lastIdx : Nat) (entries : List Bytes) : LedgerFile :=
  { create lastIdx false with
    totalLen := headerSize + entries.flatten.length
    positions := offsets headerSize entries
    contents := if entries = [] then [] else List.replicate headerSize 0 ++ entries.flatten }

theorem writeEntry_holding (lastIdx : Nat) (entries : List Bytes) (some' : data ≠ []) :
    (holding lastIdx entries).writeEntry data = some (holding lastIdx (entries ++ [data])) := by
  have contents : writeAt (holding lastIdx entries).contents (headerSize + entries.flatten.length) data =
      (holding lastIdx (entries ++ [data])).contents := by
    by_cases first : entries = []
    · subst first
      rw [holding, if_pos rfl, Lib.writeAt_nil, holding, if_neg (by simp)]
      simp
    have length : headerSize + entries.flatten.length =
        (List.replicate headerSize (0 : Byte) ++ entries.flatten).length := by simp
    rw [holding, if_neg first, length, Lib.writeAt_length, holding, if_neg (by simp)]
    simp
  rw [writeEntry, if_neg some', holding]
  rw [holding] at contents
  simp only [contents]
  simp [holding, offsets_append, offsets, Nat.add_assoc]

theorem writeAll_holding (lastIdx : Nat) (before entries : List Bytes) (filled : ∀ e ∈ entries, e ≠ []) :
    (holding lastIdx before).writeAll entries = some (holding lastIdx (before ++ entries)) := by
  induction entries generalizing before with
  | nil => simp [writeAll]
  | cons e entries ih =>
    have rest := ih (before ++ [e]) fun x member => filled x (mem_cons_of_mem e member)
    rw [writeAll, foldlM_cons, writeEntry_holding lastIdx before (filled e mem_cons_self)]
    simpa [writeAll] using rest

theorem writeAll_create (lastIdx : Nat) (entries : List Bytes) (filled : ∀ e ∈ entries, e ≠ []) :
    (create lastIdx false).writeAll entries = some (holding lastIdx entries) := by
  have new : create lastIdx false = holding lastIdx [] := rfl
  rw [new, writeAll_holding lastIdx [] entries filled, nil_append]

/-! ## Recovery after a crash -/

def wholeIn : List Bytes → Nat → List Bytes
  | [], _ => []
  | e :: entries, n => if e.length ≤ n then e :: wholeIn entries (n - e.length) else []

theorem wholeIn_prefixes (entries : List Bytes) (n : Nat) :
    wholeIn entries n <+: entries ∧ (wholeIn entries n).flatten.length ≤ n ∧
      ∀ front, front <+: entries → front.flatten.length ≤ n → front <+: wholeIn entries n := by
  induction entries generalizing n with
  | nil =>
    refine ⟨prefix_rfl, Nat.zero_le n, fun front within _ => within⟩
  | cons e entries ih =>
    rw [wholeIn]
    split
    · obtain ⟨within, short, longest⟩ := ih (n - e.length)
      refine ⟨(prefix_cons_inj e).mpr within, ?_, fun front begins small => ?_⟩
      · rw [flatten_cons, length_append]
        omega
      · rcases prefix_cons_iff.mp begins with rfl | ⟨rest, rfl, begins⟩
        · exact nil_prefix
        rw [flatten_cons, length_append] at small
        have shorter := longest rest ((prefix_cons_inj e).mp begins) (by omega)
        exact (prefix_cons_inj e).mpr shorter
    · refine ⟨ nil_prefix, Nat.zero_le n, fun front begins small => ?_⟩
      rcases prefix_cons_iff.mp begins with rfl | ⟨rest, rfl, -⟩
      · exact prefix_rfl
      · rw [flatten_cons, length_append] at small
        omega

theorem entrySizeOf_take (bytes : Bytes) : entrySizeOf (bytes.take headerSize) = entrySizeOf bytes := by
  rw [entrySizeOf, entrySizeOf, drop_take, take_take]
  rfl

theorem scan_take (entries : List Bytes) (formed : ∀ e ∈ entries, WellFormed e) (n fuel totalLen : Nat)
    (positions : List Nat) (within : n ≤ entries.flatten.length) (enough : n ≤ fuel) :
    scan fuel (entries.flatten.take n) totalLen positions =
      (positions ++ offsets totalLen (wholeIn entries n), totalLen + (wholeIn entries n).flatten.length) := by
  induction entries generalizing n fuel totalLen positions with
  | nil =>
    cases fuel with
    | zero => simp [scan, wholeIn, offsets]
    | succ fuel => simp [scan, wholeIn, offsets]
  | cons e entries ih =>
    obtain ⟨header, size⟩ := formed e mem_cons_self
    have length : ((e :: entries).flatten.take n).length = n := by
      rw [length_take]
      exact Nat.min_eq_left within
    have stops (small : n < e.length) : wholeIn (e :: entries) n = [] := if_neg (by omega)
    have eight : headerSize = 8 := rfl
    cases fuel with
    | zero =>
      rw [stops (by omega)]
      simp [scan, offsets]
    | succ fuel =>
      rw [scan, length]
      split
      · rw [stops (by omega)]
        simp [offsets]
      have sized : entrySizeOf (((e :: entries).flatten.take n).take headerSize) = e.length - headerSize := by
        have same : ((e :: entries).flatten.take n).take headerSize = e.take headerSize := by
          rw [take_take, Nat.min_eq_left (by omega), flatten_cons, take_append_of_le_length header]
        rw [same, entrySizeOf_take, size]
      dsimp only
      rw [sized, length_drop, length]
      split
      · rw [stops (by omega)]
        simp [offsets]
      have fits : e.length ≤ n := by omega
      have rest : (((e :: entries).flatten.take n).drop headerSize).drop (e.length - headerSize) =
          entries.flatten.take (n - e.length) := by
        rw [drop_drop, Nat.add_sub_cancel' header, drop_take, flatten_cons, drop_left]
      rw [rest, ih (fun x member => formed x (mem_cons_of_mem e member)) (n - e.length) fuel _ _
        (by rw [flatten_cons, length_append] at within; omega) (by omega)]
      rw [wholeIn, if_pos fits, offsets, flatten_cons, length_append, Nat.add_sub_cancel' header,
        append_assoc, Nat.add_assoc]
      rfl

theorem toBytes_zero (width : Nat) : toBytes width 0 = List.replicate width 0 := by
  induction width with
  | zero => rfl
  | succ width ih =>
    rw [toBytes, replicate_succ, Nat.zero_div, ih]
    rfl

/-- A cut file is opened with the whole entries in front and the torn bytes behind. -/
theorem recover_take (lastIdx : Nat) {entries : List Bytes} (formed : ∀ e ∈ entries, WellFormed e) (k : Nat)
    (headed : headerSize ≤ k) (within : k ≤ (holding lastIdx entries).contents.length) :
    recover lastIdx false ((holding lastIdx entries).contents.take k) =
      some { holding lastIdx (wholeIn entries (k - headerSize)) with
        contents := List.replicate headerSize 0 ++ entries.flatten.take (k - headerSize) } := by
  have eight : headerSize = 8 := rfl
  have nonempty : entries ≠ [] := by
    rintro rfl
    have none : k ≤ 0 := within
    omega
  have contents : (holding lastIdx entries).contents = List.replicate headerSize 0 ++ entries.flatten :=
    if_neg nonempty
  rw [contents] at within ⊢
  have cut : (List.replicate headerSize 0 ++ entries.flatten).take k =
      List.replicate headerSize (0 : Byte) ++ entries.flatten.take (k - headerSize) := by
    rw [take_append, length_replicate, take_replicate, Nat.min_eq_right headed]
  rw [length_append, length_replicate] at within
  have length : (List.replicate headerSize (0 : Byte) ++ entries.flatten.take (k - headerSize)).length = k := by
    rw [length_append, length_replicate, length_take]
    omega
  have opened : ofBytes ((List.replicate headerSize (0 : Byte) ++ entries.flatten.take (k - headerSize)).take
      headerSize) = 0 := by
    rw [take_left' (length_replicate ..), Lib.ofBytes_replicate_zero]
  rw [cut, recover, length, if_neg (by omega), opened]
  rw [drop_left' (length_replicate ..),
    scan_take entries formed (k - headerSize) k headerSize [] (by omega) (by omega)]
  rfl

theorem truncate_torn (lastIdx : Nat) {kept : List Bytes} (torn : Bytes) :
    ({ holding lastIdx kept with contents := List.replicate headerSize 0 ++ (kept.flatten ++ torn) } :
        LedgerFile).truncate (lastIdx + kept.length) =
      if kept = [] then .removed else .kept (holding lastIdx kept) := by
  have start : (holding lastIdx kept).startIdx = lastIdx + 1 := rfl
  have last : (holding lastIdx kept).startIdx + (offsets headerSize kept).length - 1 = lastIdx + kept.length := by
    rw [start, length_offsets]
    omega
  have reset : writeAt (List.replicate headerSize 0 ++ (kept.flatten ++ torn)) 0 (toBytes headerSize 0) =
      (List.replicate headerSize 0 ++ kept.flatten) ++ torn := by
    rw [toBytes_zero, Lib.writeAt_zero _ _ _ rfl, append_assoc]
  have length : headerSize + kept.flatten.length = (List.replicate headerSize (0 : Byte) ++ kept.flatten).length := by
    rw [length_append, length_replicate]
  refine (if_neg ?_).trans ?_
  · rintro (committed | early | ⟨completed, -⟩)
    · cases committed
    · have early : lastIdx + kept.length < lastIdx + 1 - 1 := early
      omega
    · cases completed
  · by_cases none : kept = []
    · subst none
      exact if_pos rfl
    have some' := length_pos_of_ne_nil none
    have contents : truncateTo (writeAt (List.replicate headerSize 0 ++ (kept.flatten ++ torn)) 0
        (toBytes headerSize 0)) (headerSize + kept.flatten.length) = (holding lastIdx kept).contents := by
      rw [reset, length, Lib.truncateTo_append, holding, if_neg none]
    rw [if_neg none]
    refine (if_neg ?_).trans ((if_pos last.symm).trans (congrArg Truncated.kept ?_))
    · show ¬ lastIdx + kept.length = lastIdx + 1 - 1
      omega
    · exact congrArg (fun contents => ({ holding lastIdx kept with completed := false, contents } : LedgerFile))
        contents

/-- Crash recovery of an open chunk: whatever byte the file is cut at behind its header,
the entries that are whole are found at their positions, and the truncation that follows
leaves the file as if only they had been written, or no file if there are none. -/
theorem recover_truncate (lastIdx : Nat) (entries : List Bytes) (formed : ∀ e ∈ entries, WellFormed e)
    (written : (create lastIdx false).writeAll entries = some f) (headed : headerSize ≤ k)
    (within : k ≤ f.contents.length) :
    ∃ kept g, recover lastIdx false (f.contents.take k) = some g ∧
      (kept <+: entries ∧ headerSize + kept.flatten.length ≤ k ∧
        ∀ front, front <+: entries → headerSize + front.flatten.length ≤ k → front <+: kept) ∧
      g.startIdx = f.startIdx ∧ g.positions = f.positions.take kept.length ∧
      g.lastIdx = lastIdx + kept.length ∧
      if kept = [] then g.truncate g.lastIdx = .removed
      else ∃ h, (create lastIdx false).writeAll kept = some h ∧ g.truncate g.lastIdx = .kept h := by
  have filled : ∀ e ∈ entries, e ≠ [] := by
    rintro e member rfl
    exact absurd (formed [] member).1 (by decide)
  rw [writeAll_create lastIdx entries filled] at written
  cases written
  have recovered := recover_take lastIdx formed k headed within
  obtain ⟨⟨rest, split⟩, short, longest⟩ := wholeIn_prefixes entries (k - headerSize)
  generalize wholeIn entries (k - headerSize) = kept at recovered split short longest
  have last : LedgerFile.lastIdx { holding lastIdx kept with
      contents := List.replicate headerSize 0 ++ entries.flatten.take (k - headerSize) } = lastIdx + kept.length := by
    show lastIdx + 1 + (offsets headerSize kept).length - 1 = _
    rw [length_offsets]
    omega
  refine ⟨kept, _, recovered, ⟨⟨rest, split⟩, ?_, ?_⟩, rfl, ?_, last, ?_⟩
  · omega
  · exact fun front begins small => longest front begins (by omega)
  · show offsets headerSize kept = (offsets headerSize entries).take kept.length
    rw [← split, offsets_append, take_left' (length_offsets ..)]
  · have torn : entries.flatten.take (k - headerSize) =
        kept.flatten ++ rest.flatten.take (k - headerSize - kept.flatten.length) := by
      rw [← split, flatten_append, take_append, take_of_length_le short]
    rw [last, torn, truncate_torn]
    split
    · rfl
    refine ⟨_, writeAll_create lastIdx kept fun e member => filled e ?_, rfl⟩
    rw [← split]
    exact mem_append_left rest member

/-- Two entries with two bytes and one byte behind their headers. -/
def twoEntries : List Bytes := [[1, 0, 2, 0, 0, 0, 0, 0, 70, 71], [1, 0, 1, 0, 0, 0, 0, 0, 72]]

/-- The cut goes through the header of the second entry. -/
theorem recover_truncate_torn :
    ∃ kept g, recover 4 false ((holding 4 twoEntries).contents.take 21) = some g ∧
      (kept <+: twoEntries ∧ headerSize + kept.flatten.length ≤ 21 ∧
        ∀ front, front <+: twoEntries → headerSize + front.flatten.length ≤ 21 → front <+: kept) ∧
      g.startIdx = (holding 4 twoEntries).startIdx ∧
      g.positions = (holding 4 twoEntries).positions.take kept.length ∧
      g.lastIdx = 4 + kept.length ∧
      if kept = [] then g.truncate g.lastIdx = .removed
      else ∃ h, (create 4 false).writeAll kept = some h ∧ g.truncate g.lastIdx = .kept h :=
  recover_truncate 4 twoEntries (by unfold WellFormed; decide) (by decide) (by decide) (by decide)

end LedgerFile
end CCF.Host
