import ShardedCCF.Lib.Bytes

/-! A byte memory with writes and reads of whole ranges. -/
namespace Lib
open List

abbrev Memory := Nat → Byte

namespace Memory

variable {mem : Memory} {i j n : Nat} {bytes other : List Byte}

def write (mem : Memory) (i : Nat) (bytes : List Byte) : Memory := fun j =>
  if i ≤ j then (bytes[j - i]?).getD (mem j) else mem j

def read (mem : Memory) (i n : Nat) : List Byte := (List.range n).map fun k => mem (i + k)

def Holds (mem : Memory) (i : Nat) (bytes : List Byte) : Prop :=
  ∀ k (h : k < bytes.length), mem (i + k) = bytes.get ⟨k, h⟩

@[simp] theorem length_read (mem : Memory) (i n : Nat) : (mem.read i n).length = n := by
  simp [read]

theorem write_of_lt (bytes : List Byte) (before : j < i) : mem.write i bytes j = mem j :=
  if_neg (not_le.mpr before)

theorem write_of_ge (after : i + bytes.length ≤ j) : mem.write i bytes j = mem j := by
  unfold write
  split
  · rw [getElem?_eq_none (by omega), Option.getD_none]
  · rfl

theorem write_inside (k : Nat) (inside : k < bytes.length) : mem.write i bytes (i + k) = bytes.get ⟨k, inside⟩ := by
  rw [write, if_pos (Nat.le_add_right i k), Nat.add_sub_cancel_left, getElem?_eq_getElem inside,
    Option.getD_some, get_eq_getElem]

@[simp] theorem write_nil (mem : Memory) (i : Nat) : mem.write i [] = mem := by
  funext j
  rcases Nat.lt_or_ge j i with before | after
  · exact write_of_lt [] before
  · exact write_of_ge (by simpa using after)

theorem Holds.read (holds : mem.Holds i bytes) : mem.read i bytes.length = bytes := by
  refine ext_getElem (by simp) fun k inside inside' => ?_
  simp only [Memory.read, getElem_map, getElem_range]
  exact holds k inside'

theorem holds_write (mem : Memory) (i : Nat) (bytes : List Byte) : (mem.write i bytes).Holds i bytes :=
  fun k inside => write_inside k inside

theorem Holds.write_apart (holds : mem.Holds i bytes) (apart : i + bytes.length ≤ j ∨ j + other.length ≤ i) :
    (mem.write j other).Holds i bytes := fun k inside => by
  rcases apart with below | above
  · rw [write_of_lt other (by omega)]
    exact holds k inside
  · rw [write_of_ge (by omega)]
    exact holds k inside

theorem holds_append : mem.Holds i (bytes ++ other) ↔ mem.Holds i bytes ∧ mem.Holds (i + bytes.length) other := by
  constructor
  · intro holds
    refine ⟨fun k inside => ?_, fun k inside => ?_⟩
    · have := holds k (by rw [length_append]; omega)
      simpa [getElem_append_left inside] using this
    · have := holds (bytes.length + k) (by rw [length_append]; omega)
      simpa [getElem_append_right, Nat.add_assoc] using this
  · rintro ⟨first, second⟩ k inside
    rw [length_append] at inside
    rcases Nat.lt_or_ge k bytes.length with within | beyond
    · simpa [getElem_append_left within] using first k within
    · have := second (k - bytes.length) (by omega)
      simpa [getElem_append_right beyond, Nat.add_assoc, Nat.add_sub_cancel' beyond] using this

theorem holds_replicate : mem.Holds i (List.replicate n 0) ↔ ∀ k < n, mem (i + k) = 0 := by
  simp [Holds]

theorem Holds.write_start (holds : mem.Holds i (bytes ++ other)) (new : List Byte)
    (same : new.length = bytes.length) : (mem.write i new).Holds i (new ++ other) := by
  rw [holds_append] at holds ⊢
  refine ⟨holds_write mem i new, ?_⟩
  rw [same]
  exact holds.2.write_apart (.inr (by omega))

theorem Holds.write_middle {front : List Byte} (holds : mem.Holds i (front ++ (bytes ++ other))) (new : List Byte)
    (same : new.length = bytes.length) : (mem.write (i + front.length) new).Holds i (front ++ (new ++ other)) := by
  rw [holds_append] at holds ⊢
  exact ⟨holds.1.write_apart (.inl le_rfl), holds.2.write_start new same⟩

end Memory
end Lib
