import ShardedCCF.Lib.Memory

/-! Ring buffer messages as lists of fields: a reader stays in its buffer, for any
contents of the memory. -/
namespace CCF.Serializer
open Lib (Memory ofBytes)

inductive FieldType where
  | number (width : Nat)
  | vector
  | range
  | string

structure Slice where
  first : Nat
  count : Nat

structure Cursor where
  data : Nat
  size : Nat

inductive Failure where
  | threw
  | outside

abbrev Reading := Except Failure (Slice × Cursor)

section
variable (mem : Memory) (stop : Nat)

/-- The bytes are read, wherever the buffer stops. -/
def touch (count : Nat) (c : Cursor) : Reading :=
  if c.data + count > stop then .error .outside
  else .ok (⟨c.data, count⟩, ⟨c.data + count, c.size - count⟩)

def read (count : Nat) (c : Cursor) : Reading :=
  if c.size < count then .error .threw else touch stop count c

def readSize (c : Cursor) : Except Failure (Nat × Cursor) := do
  let (slice, c) ← read stop 8 c
  return (ofBytes (mem.read slice.first slice.count), c)

/-- A longer string cannot be made, and the attempt throws. -/
def maxSize : Nat := 2 ^ 63 - 1

/-- The length of a string is not compared with what is left. -/
def readString (c : Cursor) : Reading := do
  let (len, c) ← readSize mem stop c
  if len > maxSize then .error .threw else touch stop len c

def readBlock (c : Cursor) : Reading := do
  let (prefixedSize, c) ← readSize mem stop c
  read stop prefixedSize c

def deserializeValue : FieldType → Cursor → Reading
  | .number width => read stop width
  | .vector | .range => readBlock mem stop
  | .string => readString mem stop

def deserializeValueFinal : FieldType → Cursor → Reading
  | .vector | .range => fun c => read stop c.size c
  | t => deserializeValue mem stop t

def deserializeImpl : FieldType → List FieldType → Cursor → Except Failure (List Slice)
  | t, [], c => do
    let (last, _) ← deserializeValueFinal mem stop t c
    return [last]
  | t, u :: types, c => do
    let (next, c) ← deserializeValue mem stop t c
    let rest ← deserializeImpl u types c
    return next :: rest

end

def deserialize (mem : Memory) (data size : Nat) : List FieldType → Except Failure (List Slice)
  | [] => if size > 0 then .error .threw else .ok []
  | t :: types => deserializeImpl mem (data + size) t types ⟨data, size⟩

def Slice.Inside (data stop : Nat) (s : Slice) : Prop := data ≤ s.first ∧ s.first + s.count ≤ stop

/-- Nothing is read outside, and what is returned lies inside. -/
def InBounds (data stop : Nat) : Except Failure (List Slice) → Prop
  | .ok fields => ∀ s ∈ fields, s.Inside data stop
  | .error .threw => True
  | .error .outside => False

/-- A string that starts here is not longer than what is left, or too long to be made. -/
def StringFits (mem : Memory) (c : Cursor) : Prop :=
  8 ≤ c.size → ofBytes (mem.read c.data 8) + 8 ≤ c.size ∨ maxSize < ofBytes (mem.read c.data 8)

def StringsFit (mem : Memory) (stop : Nat) : List FieldType → Cursor → Prop
  | [], _ => True
  | t :: types, c => (t = .string → StringFits mem c) ∧
    ∀ s c', deserializeValue mem stop t c = .ok (s, c') → StringsFit mem stop types c'

inductive Takes (data stop : Nat) : Reading → Prop where
  | threw : Takes data stop (.error .threw)
  | ok : s.Inside data stop → data ≤ c.data → c.data + c.size = stop → Takes data stop (.ok (s, c))

section
variable {mem : Memory} {data stop : Nat} {c : Cursor}

theorem touch_of_le (reaches : c.data + c.size = stop) (fits : count ≤ c.size) :
    touch stop count c = .ok (⟨c.data, count⟩, ⟨c.data + count, c.size - count⟩) := if_neg (by omega)

theorem read_of_le (reaches : c.data + c.size = stop) (fits : count ≤ c.size) :
    read stop count c = .ok (⟨c.data, count⟩, ⟨c.data + count, c.size - count⟩) := by
  rw [read, if_neg (not_lt.mpr fits), touch_of_le reaches fits]

theorem readSize_of_le (reaches : c.data + c.size = stop) (fits : 8 ≤ c.size) :
    readSize mem stop c = .ok (ofBytes (mem.read c.data 8), ⟨c.data + 8, c.size - 8⟩) := by
  rw [readSize, read_of_le reaches fits]
  rfl

theorem readSize_of_lt (short : c.size < 8) : readSize mem stop c = .error .threw := by
  rw [readSize, read, if_pos short]
  rfl

section
variable (low : data ≤ c.data) (reaches : c.data + c.size = stop)
include low reaches

theorem takes_read (count : Nat) : Takes data stop (read stop count c) := by
  rcases Nat.lt_or_ge c.size count with short | fits
  · rw [read, if_pos short]
    exact .threw
  · rw [read_of_le reaches fits]
    exact .ok ⟨low, by dsimp only; omega⟩ (by dsimp only; omega) (by dsimp only; omega)

theorem takes_readBlock (mem : Memory) : Takes data stop (readBlock mem stop c) := by
  rcases Nat.lt_or_ge c.size 8 with short | fits
  · rw [readBlock, readSize_of_lt short]
    exact .threw
  rw [readBlock, readSize_of_le reaches fits]
  generalize ofBytes (mem.read c.data 8) = count
  change Takes data stop (read stop count ⟨c.data + 8, c.size - 8⟩)
  exact takes_read (by dsimp only; omega) (by dsimp only; omega) count

theorem readString_cases (mem : Memory) : StringFits mem c ∧ Takes data stop (readString mem stop c) ∨
    ¬ StringFits mem c ∧ readString mem stop c = .error .outside := by
  rcases Nat.lt_or_ge c.size 8 with short | fits
  · rw [readString, readSize_of_lt short]
    exact .inl ⟨fun long => absurd long (not_le.mpr short), .threw⟩
  rw [readString, readSize_of_le reaches fits, StringFits]
  generalize ofBytes (mem.read c.data 8) = len
  change _ ∧ Takes data stop (if len > maxSize then _ else _) ∨ _ ∧ (if len > maxSize then _ else _) = _
  split
  · rename_i long
    exact .inl ⟨fun _ => .inr long, .threw⟩
  rename_i possible
  rcases Nat.lt_or_ge c.size (len + 8) with beyond | enough
  · refine .inr ⟨fun string => ?_, if_pos (by dsimp only; omega)⟩
    have := string fits
    omega
  · rw [touch_of_le (by dsimp only; omega) (by dsimp only; omega)]
    refine .inl ⟨fun _ => .inl enough, .ok ⟨?_, ?_⟩ ?_ ?_⟩ <;> dsimp only <;> omega

theorem deserializeValue_cases (mem : Memory) (t : FieldType) :
    (t = .string → StringFits mem c) ∧ Takes data stop (deserializeValue mem stop t c) ∨
      (t = .string ∧ ¬ StringFits mem c) ∧ deserializeValue mem stop t c = .error .outside := by
  cases t with
  | number width => exact .inl ⟨nofun, takes_read low reaches width⟩
  | vector | range => exact .inl ⟨nofun, takes_readBlock low reaches mem⟩
  | string =>
    exact (readString_cases low reaches mem).imp (fun ⟨fits, takes⟩ => ⟨fun _ => fits, takes⟩)
      fun ⟨long, outside⟩ => ⟨⟨rfl, long⟩, outside⟩

theorem deserializeValueFinal_cases (mem : Memory) (t : FieldType) :
    (t = .string → StringFits mem c) ∧ Takes data stop (deserializeValueFinal mem stop t c) ∨
      (t = .string ∧ ¬ StringFits mem c) ∧ deserializeValueFinal mem stop t c = .error .outside := by
  cases t with
  | vector | range => exact .inl ⟨nofun, takes_read low reaches c.size⟩
  | number width | string => exact deserializeValue_cases low reaches mem _

theorem deserializeImpl_inBounds_iff (mem : Memory) (t : FieldType) (types : List FieldType) :
    InBounds data stop (deserializeImpl mem stop t types c) ↔ StringsFit mem stop (t :: types) c := by
  induction types generalizing t c with
  | nil =>
    have alone : StringsFit mem stop [t] c ↔ (t = .string → StringFits mem c) := and_iff_left fun _ _ _ => trivial
    rw [alone]
    unfold deserializeImpl
    rcases deserializeValueFinal_cases low reaches mem t with ⟨fits, takes⟩ | ⟨⟨string, long⟩, outside⟩
    · refine iff_of_true ?_ fits
      generalize deserializeValueFinal mem stop t c = result at takes
      cases takes with
      | threw => trivial
      | ok inside => exact List.forall_mem_singleton.mpr inside
    · rw [outside]
      exact iff_of_false id fun fits => long (fits string)
  | cons u types ih =>
    unfold deserializeImpl StringsFit
    rcases deserializeValue_cases low reaches mem t with ⟨fits, takes⟩ | ⟨⟨string, long⟩, outside⟩
    · generalize deserializeValue mem stop t c = result at takes
      cases takes with
      | threw => exact iff_of_true trivial ⟨fits, nofun⟩
      | @ok s c' inside low reaches =>
        have rest : InBounds data stop (do
            let rest ← deserializeImpl mem stop u types c'
            return s :: rest) ↔ InBounds data stop (deserializeImpl mem stop u types c') := by
          cases deserializeImpl mem stop u types c' with
          | error => rfl
          | ok fields => exact List.forall_mem_cons.trans (and_iff_right inside)
        refine (rest.trans (ih low reaches u)).trans ⟨fun later => ⟨fits, ?_⟩, fun later => later.2 s c' rfl⟩
        rintro _ _ ⟨⟩
        exact later
    · rw [outside]
      exact iff_of_false id fun fits => long (fits.1 string)

end
end

/-- A message is read inside its buffer exactly if its strings fit. -/
theorem deserialize_inBounds_iff (mem : Memory) (data size : Nat) (types : List FieldType) :
    InBounds data (data + size) (deserialize mem data size types) ↔
      StringsFit mem (data + size) types ⟨data, size⟩ := by
  cases types with
  | nil =>
    refine iff_of_true ?_ trivial
    rw [deserialize]
    split
    · trivial
    · exact List.forall_mem_nil _
  | cons t types => exact deserializeImpl_inBounds_iff (c := ⟨data, size⟩) le_rfl rfl mem t types

/-- A string of one byte in a buffer that ends with its length. -/
theorem string_outside : ¬ InBounds 0 8 (deserialize (Memory.write (fun _ => 0) 0 [1]) 0 8 [.string]) := by
  intro inBounds
  have fits := ((deserializeImpl_inBounds_iff (c := ⟨0, 8⟩) le_rfl rfl _ _ []).mp inBounds).1 rfl
  exact absurd (fits le_rfl) (by decide +kernel)

end CCF.Serializer
