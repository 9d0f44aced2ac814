import ShardedCCF.Ds.RingBuffer

/-! What holds of a ring buffer whatever the interleaving: the reservations lie one
after the other between the head and one lap further, the memory holds what became
of each of them and is zero elsewhere, and the reader stands at one of them. -/
namespace CCF.RingBuffer
open Lib

variable {bufferSize : Nat} {s s' : Ring} {e : Entry} {mem : Memory}

section Headers

variable {m size : Nat} {pending : Bool}

theorem makeHeader_lt (small : m ≤ msgPad) : makeHeader m size pending < 256 ^ 8 := by
  have small : m ≤ 2 ^ 32 - 1 := small
  have bound : makeHeader m size pending < 2 ^ 64 := by
    simp only [makeHeader, pendingWriteFlag]
    split <;> omega
  exact bound

theorem message_makeHeader : message (makeHeader m size pending) = m := by
  simp only [message, makeHeader, pendingWriteFlag]
  split <;> omega

theorem length_makeHeader :
    length (makeHeader m size pending) = size % 2 ^ 31 + if pending then pendingWriteFlag else 0 := by
  simp only [length, makeHeader, pendingWriteFlag]
  split <;> omega

theorem length_finished : length (makeHeader m size false) = size % 2 ^ 31 := by
  rw [length_makeHeader]
  rfl

theorem read64_eq (holds : mem.Holds i (toBytes 8 value)) (small : value < 256 ^ 8) : read64 mem i = value := by
  have read := holds.read
  rw [length_toBytes] at read
  rw [read64, read, ofBytes_toBytes 8 small]

theorem toBytes_zero (width : Nat) : toBytes width 0 = List.replicate width 0 := by
  induction width with
  | zero => rfl
  | succ width ih =>
    rw [toBytes, List.replicate_succ, Nat.zero_div, ih]
    rfl

theorem read64_zero (zero : ∀ k < 8, mem (i + k) = 0) : read64 mem i = 0 := by
  refine read64_eq ?_ (by decide)
  exact Memory.holds_replicate.mpr zero

end Headers

theorem entrySize_ge (size : Nat) : size + 8 ≤ entrySize size := by
  simp only [entrySize, alignSize, headerSize]
  omega

theorem entrySize_le (small : size ≤ maxSize) : entrySize size ≤ 2 ^ 31 := by
  simp only [maxSize, entrySize, alignSize, headerSize] at *
  omega

theorem entrySize_mod (size : Nat) : entrySize size % 8 = 0 := by
  simp only [entrySize, alignSize, headerSize]
  omega

section Window

variable {h x y : Nat}

theorem eq_of_mod_eq (h x y : Nat) (low : h ≤ x) (high : x < h + bufferSize) (low' : h ≤ y) (high' : y < h + bufferSize)
    (same : x % bufferSize = y % bufferSize) : x = y := by
  rcases Nat.lt_or_ge x y with less | ge
  · have := Nat.sub_mod_eq_zero_of_mod_eq same.symm
    rw [Nat.mod_eq_of_lt (by omega)] at this
    omega
  have := Nat.sub_mod_eq_zero_of_mod_eq same
  rw [Nat.mod_eq_of_lt (by omega)] at this
  omega

theorem add_mod_eq (k : Nat) (inside : x % bufferSize + k < bufferSize) :
    (x + k) % bufferSize = x % bufferSize + k := by
  have shift : x + k = x % bufferSize + k + bufferSize * (x / bufferSize) := by
    have := Nat.div_add_mod x bufferSize
    omega
  rw [shift, Nat.add_mul_mod_self_left, Nat.mod_eq_of_lt inside]

end Window

namespace Entry

structure WellFormed (bufferSize : Nat) (e : Entry) : Prop where
  message : msgMin ≤ e.m ∧ e.m ≤ msgMax
  size : e.size ≤ maxSize
  fits : entrySize e.size ≤ bufferSize / 2
  written : e.written.length ≤ e.size
  aligned : e.tl % 8 = 0
  contiguous : e.start % bufferSize + entrySize e.size ≤ bufferSize
  padding : e.padding ≠ 0 → e.tl % bufferSize + e.padding = bufferSize
  short : e.padding < entrySize e.size
  ordered : e.padding ≠ 0 → e.padded = false → e.phase = .reserved

def bytes (e : Entry) : Bytes :=
  match e.phase with
  | .reserved => List.replicate (entrySize e.size) 0
  | .pending =>
    toBytes 8 (makeHeader e.m e.size true) ++ (e.payload ++ List.replicate (entrySize e.size - 8 - e.size) 0)
  | .finished =>
    toBytes 8 (makeHeader e.m e.size false) ++ (e.payload ++ List.replicate (entrySize e.size - 8 - e.size) 0)

/-- What stands before it if it does not fit into the back-space. -/
def padBytes (e : Entry) : Bytes :=
  if e.padded then toBytes 8 (makeHeader msgPad e.padding false) else List.replicate 8 0

@[simp] theorem length_padBytes : e.padBytes.length = 8 := by
  unfold padBytes
  split <;> simp

namespace WellFormed

section
variable (wf : e.WellFormed bufferSize)
include wf

theorem length_payload : e.payload.length = e.size := by
  have := wf.written
  simp only [payload, List.length_append, List.length_replicate]
  omega

theorem length_bytes : e.bytes.length = entrySize e.size := by
  have := entrySize_ge e.size
  unfold bytes
  split
  · simp
  all_goals
    simp only [List.length_append, length_toBytes, wf.length_payload, List.length_replicate]
    omega

theorem index_eq : e.index bufferSize = e.start % bufferSize := by
  unfold index
  split
  · rename_i padded
    have back := wf.padding padded
    have whole : e.start = bufferSize * (e.tl / bufferSize + 1) := by
      have := Nat.div_add_mod e.tl bufferSize
      rw [start, Nat.mul_add, Nat.mul_one]
      omega
    rw [whole, Nat.mul_mod_right]
  · rename_i none
    rw [start, not_not.mp none, Nat.add_zero]

theorem positive : 16 ≤ bufferSize := by
  have := wf.fits
  have := entrySize_ge e.size
  omega

theorem header_small (pending : Bool) : makeHeader e.m e.size pending < 256 ^ 8 := by
  refine makeHeader_lt (wf.message.2.trans ?_)
  decide

theorem size_mod : e.size % 2 ^ 31 = e.size := by
  refine Nat.mod_eq_of_lt (lt_of_le_of_lt wf.size ?_)
  decide

theorem padding_lt : e.padding % 2 ^ 31 = e.padding :=
  Nat.mod_eq_of_lt (wf.short.trans_le (entrySize_le wf.size))

theorem padding_mod (power : 8 ∣ bufferSize) : e.padding % 8 = 0 := by
  rcases Nat.eq_zero_or_pos e.padding with none | some
  · rw [none]
  have back := wf.padding (Nat.ne_of_gt some)
  have := wf.aligned
  have := Nat.mod_mod_of_dvd e.tl power
  omega

end

end WellFormed
end Entry

namespace Ring

def boundary (s : Ring) (i : Nat) : Nat := ((s.log[i]?).map (·.tl)).getD s.tail

def position (s : Ring) : Nat :=
  match s.reader with
  | .idle => s.head
  | .scan r | .handle r _ _ | .zero r | .publish r => r.hd + r.advance

/-- The reader stands before a reservation, or between its padding and itself. -/
def At (s : Ring) (k p : Nat) : Prop :=
  k ≤ s.log.length ∧ (p = s.boundary k ∨ ∃ e, s.log[k]? = some e ∧ e.padding ≠ 0 ∧ e.padded ∧ p = e.start)

/-- The space from the tail on suffices, and is contiguous after the padding. -/
structure Fits (bufferSize : Nat) (c : Locals) (padding : Nat) : Prop where
  room : c.tl + padding + c.rsize ≤ c.hd + bufferSize
  block : padding = 0 ∧ c.tl % bufferSize + c.rsize ≤ bufferSize ∨
    c.tl % bufferSize + padding = bufferSize ∧ padding ≠ 0 ∧ padding < c.rsize

/-- The reservation of a ticket that a writer has not written the header of. -/
def Owns (log : List Entry) (w ticket : Nat) (padded : Bool) : Prop :=
  ∃ e, log[ticket]? = some e ∧ e.writer = w ∧ e.phase = .reserved ∧ e.written = [] ∧
    (e.padding ≠ 0 → e.padded = padded) ∧ (padded = false → e.padding ≠ 0)

def PcOk (bufferSize head tail : Nat) (log : List Entry) (w : Nat) : Pc → Prop
  | .idle => True
  | .loadHeadCache c => accepts bufferSize c.m c.size
  | .loadTail c => accepts bufferSize c.m c.size ∧ c.hd ≤ head
  | .loadHead c => accepts bufferSize c.m c.size ∧ c.tl % 8 = 0 ∧ c.tl ≤ tail
  | .storeHeadCache c =>
    accepts bufferSize c.m c.size ∧ c.tl % 8 = 0 ∧ c.tl ≤ tail ∧ c.hd ≤ head ∧ c.hd ≤ c.tl ∧
      c.tl + c.rsize ≤ c.hd + bufferSize
  | .loadHeadAgain c =>
    accepts bufferSize c.m c.size ∧ c.tl % 8 = 0 ∧ c.tl ≤ tail ∧ c.hd ≤ head ∧
      c.tl + c.rsize ≤ c.hd + bufferSize ∧ c.rsize > bufferSize - c.tl % bufferSize
  | .storeHeadCacheAgain c =>
    accepts bufferSize c.m c.size ∧ c.tl % 8 = 0 ∧ c.tl ≤ tail ∧ c.hd ≤ head ∧
      (c.tl < tail ∨ Fits bufferSize c (bufferSize - c.tl % bufferSize))
  | .exchange c =>
    accepts bufferSize c.m c.size ∧ c.tl % 8 = 0 ∧ c.tl ≤ tail ∧ c.hd ≤ head ∧
      (c.tl < tail ∨ Fits bufferSize c c.padding)
  | .writePadding ticket => Owns log w ticket false
  | .writeHeader ticket => Owns log w ticket true

def ReaderOk (bufferSize : Nat) (s : Ring) : Prop :=
  match s.reader with
  | .idle => True
  | .scan r | .zero r => r.hd = s.head ∧ r.advance ≤ bufferSize - s.head % bufferSize
  | .handle r m size =>
    r.hd = s.head ∧ ∃ e, s.log[s.delivered.length]? = some e ∧ e.phase = .finished ∧
      r.hd + r.advance = e.start ∧ m = e.m ∧ size = e.size ∧ r.advance < bufferSize - s.head % bufferSize
  | .publish r =>
    r.hd = s.head ∧ r.advance ≤ bufferSize - s.head % bufferSize ∧
      ∀ k < r.advance, s.mem (s.head % bufferSize + k) = 0

structure Inv (bufferSize : Nat) (s : Ring) : Prop where
  entries : ∀ (i : Nat) (e : Entry), s.log[i]? = some e → e.WellFormed bufferSize
  chain : ∀ (i : Nat) (e : Entry), s.log[i]? = some e → s.boundary (i + 1) = e.stop
  headCache_le : s.headCache ≤ s.head
  head_le : s.head ≤ s.position
  tail_le : s.tail ≤ s.head + bufferSize
  tail_aligned : s.tail % 8 = 0
  position : s.At s.delivered.length s.position
  consumed : ∀ (i : Nat) (e : Entry), i < s.delivered.length → s.log[i]? = some e → e.phase = .finished
  delivered : s.delivered = (s.log.take s.delivered.length).map fun e => (e.m, e.payload)
  free : ∀ x, s.tail ≤ x → x < s.head + bufferSize → s.mem (x % bufferSize) = 0
  outside : ∀ j ≥ bufferSize, s.mem j = 0
  contents : ∀ (i : Nat) (e : Entry), s.delivered.length ≤ i → s.log[i]? = some e → s.mem.Holds (e.start % bufferSize) e.bytes
  paddings : ∀ (i : Nat) (e : Entry), s.delivered.length ≤ i → s.log[i]? = some e → e.padding ≠ 0 → s.position ≤ e.tl →
    s.mem.Holds (e.tl % bufferSize) e.padBytes
  threads : ∀ w, PcOk bufferSize s.head s.tail s.log w (s.pc w)
  reader : s.ReaderOk bufferSize

namespace Inv

variable {i j : Nat}

theorem boundary_of_get (found : s.log[i]? = some e) : s.boundary i = e.tl := by
  rw [boundary, found]
  rfl

theorem boundary_of_ge (beyond : s.log.length ≤ i) : s.boundary i = s.tail := by
  rw [boundary, List.getElem?_eq_none beyond]
  rfl

section
variable (inv : s.Inv bufferSize)
include inv

theorem boundary_mono (le : i ≤ j) : s.boundary i ≤ s.boundary j := by
  induction j, le using Nat.le_induction with
  | base => exact le_rfl
  | succ j le ih =>
    refine ih.trans ?_
    cases found : s.log[j]? with
    | none =>
      rw [List.getElem?_eq_none_iff] at found
      rw [boundary_of_ge found, boundary_of_ge (found.trans (Nat.le_succ j))]
    | some e =>
      rw [boundary_of_get found, inv.chain j e found, Entry.stop, Entry.start]
      omega

section
variable (found : s.log[i]? = some e)
include found

theorem stop_le_tail : e.stop ≤ s.tail := by
  rw [← inv.chain i e found, ← boundary_of_ge (le_max_left s.log.length (i + 1))]
  exact inv.boundary_mono (le_max_right _ _)

theorem stop_le_tl (found' : s.log[j]? = some e') (less : i < j) : e.stop ≤ e'.tl := by
  rw [← inv.chain i e found, ← boundary_of_get found']
  exact inv.boundary_mono less

theorem position_le_tl_of_lt (later : s.delivered.length < i) : s.position ≤ e.tl := by
  rcases inv.position.2 with same | ⟨first, found', -, -, same⟩
  · rw [same, ← boundary_of_get found]
    exact inv.boundary_mono later.le
  have := inv.stop_le_tl found' found later
  rw [Entry.stop] at this
  omega

theorem position_le_start (unread : s.delivered.length ≤ i) : s.position ≤ e.start := by
  rcases Nat.lt_or_eq_of_le unread with later | rfl
  · have := inv.position_le_tl_of_lt found later
    rw [Entry.start]
    omega
  rcases inv.position.2 with same | ⟨first, found', -, -, same⟩
  · rw [same, boundary_of_get found, Entry.start]
    omega
  · rw [same, Option.some.inj (found'.symm.trans found)]

/-- The reader does not pass a padding that is not written. -/
theorem position_le_tl (unread : s.delivered.length ≤ i) (unpadded : e.padded = false) : s.position ≤ e.tl := by
  rcases Nat.lt_or_eq_of_le unread with later | rfl
  · exact inv.position_le_tl_of_lt found later
  rcases inv.position.2 with same | ⟨first, found', -, padded, same⟩
  · rw [same, boundary_of_get found]
  · rw [Option.some.inj (found'.symm.trans found), unpadded] at padded
    cases padded

end

theorem position_le_tail : s.position ≤ s.tail := by
  rcases inv.position.2 with same | ⟨e, found, -, -, same⟩
  · rw [same, ← boundary_of_ge (le_refl s.log.length)]
    exact inv.boundary_mono inv.position.1
  have := inv.stop_le_tail found
  rw [Entry.stop] at this
  omega

theorem head_le_tail : s.head ≤ s.tail := inv.head_le.trans inv.position_le_tail

theorem unread_of_unfinished (found : s.log[i]? = some e) (unfinished : e.phase ≠ .finished) :
    s.delivered.length ≤ i := by
  by_contra less
  exact unfinished (inv.consumed i e (not_le.mp less) found)

end

end Inv
end Ring
end CCF.RingBuffer
