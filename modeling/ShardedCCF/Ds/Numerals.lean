import Mathlib

/-! Numbers in text: transaction ids, sizes and times. -/
namespace CCF.Numerals
open List Option

abbrev Text := List Char

def decimal (digits : Text) : Nat := Nat.ofDigitChars 10 digits 0

def IsNumeral (text : Text) : Prop := text ≠ [] ∧ ∀ c ∈ text, c.isDigit = true

instance : Decidable (IsNumeral text) := inferInstanceAs (Decidable (_ ∧ _))

/-- `std::from_chars` for an unsigned number of 64 bits: the number that the text starts
with, and what follows it. -/
def fromChars (text : Text) : Option (Fin (2 ^ 64) × Text) :=
  let digits := text.takeWhile Char.isDigit
  if digits = [] then none
  else if fits : decimal digits < 2 ^ 64 then some (⟨_, fits⟩, text.dropWhile Char.isDigit)
  else none

theorem fromChars_eq_some : fromChars text = some (n, rest) ↔
    ∃ digits, IsNumeral digits ∧ decimal digits = n ∧ text = digits ++ rest ∧ ∀ c ∈ rest.head?, c.isDigit = false := by
  constructor
  · intro parsed
    unfold fromChars at parsed
    dsimp only at parsed
    split_ifs at parsed with empty fits
    cases parsed
    refine ⟨_, ⟨empty, fun c member => mem_takeWhile_imp member⟩, rfl, takeWhile_append_dropWhile.symm, ?_⟩
    intro c first
    have := head?_dropWhile_not Char.isDigit text
    rw [mem_def.mp first] at this
    exact this
  · rintro ⟨digits, ⟨nonempty, all⟩, value, rfl, stops⟩
    have taken : (digits ++ rest).takeWhile Char.isDigit = digits := by
      rw [takeWhile_append_of_pos all]
      cases rest with
      | nil => simp
      | cons c rest => simp [stops c rfl]
    have dropped : (digits ++ rest).dropWhile Char.isDigit = rest := by
      have split := takeWhile_append_dropWhile (p := Char.isDigit) (l := digits ++ rest)
      rw [taken] at split
      exact append_cancel_left split
    unfold fromChars
    simp only [taken, dropped, if_neg nonempty]
    rw [dif_pos (value ▸ n.isLt)]
    exact congrArg some (Prod.ext (Fin.ext value) rfl)

def number (text : Text) : Option (Fin (2 ^ 64)) :=
  (fromChars text).bind fun (n, rest) => if rest = [] then some n else none

theorem number_eq_some : number text = some n ↔ IsNumeral text ∧ decimal text = n := by
  unfold number
  constructor
  · intro parsed
    obtain ⟨⟨m, rest⟩, first, parsed⟩ := bind_eq_some_iff.mp parsed
    obtain ⟨rfl, same⟩ := ite_none_right_eq_some.mp parsed
    cases same
    obtain ⟨digits, numeral, value, rfl, -⟩ := fromChars_eq_some.mp first
    rw [append_nil]
    exact ⟨numeral, value⟩
  · rintro ⟨numeral, value⟩
    rw [fromChars_eq_some.mpr ⟨text, numeral, value, (append_nil text).symm, nofun⟩]
    rfl

theorem isNumeral_toDigits (n : Nat) : IsNumeral (Nat.toDigits 10 n) ∧ decimal (Nat.toDigits 10 n) = n :=
  ⟨⟨Nat.toDigits_ne_nil, fun _ member => Nat.isDigit_of_mem_toDigits (by decide) (by decide) member⟩,
    Nat.ofDigitChars_toDigits (by decide) (by decide)⟩

structure TxID where
  view : Fin (2 ^ 64)
  seqno : Fin (2 ^ 64)
  deriving DecidableEq

namespace TxID

def toStr (x : TxID) : Text := Nat.toDigits 10 x.view ++ '.' :: Nat.toDigits 10 x.seqno

def fromStr (text : Text) : Option TxID :=
  if '.' ∈ text then do
    let view ← number (text.takeWhile (· ≠ '.'))
    let seqno ← number ((text.dropWhile (· ≠ '.')).drop 1)
    return ⟨view, seqno⟩
  else none

theorem split_at_dot {before after : Text} (absent : '.' ∉ before) :
    (before ++ '.' :: after).takeWhile (· ≠ '.') = before ∧
      ((before ++ '.' :: after).dropWhile (· ≠ '.')).drop 1 = after := by
  have other : ∀ c ∈ before, decide (c ≠ '.') = true := fun c member =>
    decide_eq_true fun same => absent (same ▸ member)
  rw [takeWhile_append_of_pos other, dropWhile_append_of_pos other]
  simp

theorem fromStr_eq_some {text : Text} {x : TxID} : fromStr text = some x ↔
    ∃ view seqno, text = view ++ '.' :: seqno ∧ (IsNumeral view ∧ decimal view = x.view) ∧
      IsNumeral seqno ∧ decimal seqno = x.seqno := by
  unfold fromStr
  constructor
  · intro parsed
    obtain ⟨member, parsed⟩ := ite_none_right_eq_some.mp parsed
    obtain ⟨before, after, rfl, absent⟩ := eq_append_cons_of_mem member
    rw [(split_at_dot absent).1, (split_at_dot absent).2] at parsed
    obtain ⟨view, first, parsed⟩ := bind_eq_some_iff.mp parsed
    obtain ⟨seqno, second, parsed⟩ := bind_eq_some_iff.mp parsed
    cases parsed
    exact ⟨before, after, rfl, number_eq_some.mp first, number_eq_some.mp second⟩
  · rintro ⟨before, after, rfl, first, second⟩
    have absent : '.' ∉ before := fun member => absurd (first.1.2 '.' member) (by decide)
    rw [if_pos (mem_append_right _ mem_cons_self), (split_at_dot absent).1, (split_at_dot absent).2,
      number_eq_some.mpr first, number_eq_some.mpr second]
    rfl

/-- Exactly two numbers with a dot between them are read, and what is written is read
back. -/
theorem text_form :
    (∀ text x, fromStr text = some x ↔
      ∃ view seqno, text = view ++ '.' :: seqno ∧ (IsNumeral view ∧ decimal view = x.view) ∧
        IsNumeral seqno ∧ decimal seqno = x.seqno) ∧
      ∀ x : TxID, fromStr x.toStr = some x :=
  ⟨fun _ _ => fromStr_eq_some, fun x =>
    fromStr_eq_some.mpr ⟨_, _, rfl, isNumeral_toDigits x.view, isNumeral_toDigits x.seqno⟩⟩

end TxID

/-- A number as a double, to the nearest one, in a tie to the even one. -/
def toDouble (n : Nat) : Nat :=
  let unit := 2 ^ (Nat.log2 n - 52)
  if 2 * (n % unit) < unit ∨ 2 * (n % unit) = unit ∧ n / unit % 2 = 0 then n / unit * unit
  else (n / unit + 1) * unit

theorem toDouble_of_lt (small : n < 2 ^ 53) : toDouble n = n := by
  have unit : Nat.log2 n - 52 = 0 := by
    rcases Nat.eq_zero_or_pos n with rfl | positive
    · rfl
    · have := (Nat.log2_lt positive.ne').mpr small
      omega
  simp [toDouble, unit, Nat.mod_one]

/-- The letters at the end are the unit. A value is taken from the start of the rest. -/
def convert (mapping : List (Text × T)) (f : Nat → T → Nat) (input : Text) : Option Nat :=
  if input = [] then none
  else
    let unit := (input.rtakeWhile Char.isAlpha).map Char.toLower
    let value := input.rdropWhile Char.isAlpha
    (fromChars value).bind fun (ret, _) =>
      if unit = [] then some ret else (mapping.lookup unit).map (f ret)

def sizeSuffixToPower : List (Text × Nat) :=
  [(['b'], 0), (['k', 'b'], 1), (['m', 'b'], 2), (['g', 'b'], 3), (['t', 'b'], 4), (['p', 'b'], 5)]

def sizeOf (value power : Nat) : Nat := toDouble (toDouble value * 1024 ^ power)

def convertSizeString : Text → Option Nat := convert sizeSuffixToPower sizeOf

def timeSuffixToFactors : List (Text × Nat × Nat) :=
  [([], 1, 0), (['u', 's'], 1, 0), (['m', 's'], 1, 3), (['s'], 1, 6), (['m', 'i', 'n'], 60, 6), (['h'], 36, 8)]

/-- The product with the first factor is one of 64 bits. -/
def timeOf (value : Nat) (factors : Nat × Nat) : Nat :=
  toDouble (toDouble (value * factors.1 % 2 ^ 64) * 10 ^ factors.2)

def convertTimeString : Text → Option Nat := convert timeSuffixToFactors timeOf

/-- A string is a number with a unit, or none, and its value is the product. -/
def Denotes (mapping : List (Text × T)) (factor : T → Nat) (input : Text) (v : Nat) : Prop :=
  ∃ digits unit, input = digits ++ unit ∧ IsNumeral digits ∧
    (unit = [] ∧ v = decimal digits ∨
      ∃ t, mapping.lookup (unit.map Char.toLower) = some t ∧
        (decimal digits * factor t < 2 ^ 53 → v = decimal digits * factor t))

/-- What the conversion accepts is a number with a unit, of the right value. -/
def Strict (mapping : List (Text × T)) (f : Nat → T → Nat) (factor : T → Nat) (input : Text) : Prop :=
  ∀ v, convert mapping f input = some v → Denotes mapping factor input v

theorem mem_of_mem_rdropWhile {digits unit : Text} {p : Char → Bool} (all : ∀ c ∈ unit, p c = true)
    (member : c ∈ (digits ++ unit).rdropWhile p) : c ∈ digits := by
  have dropped : (digits ++ unit).rdropWhile p = digits.rdropWhile p := by
    rw [List.rdropWhile, reverse_append, dropWhile_append_of_pos (by simpa using all)]
    rfl
  rw [dropped] at member
  exact ( rdropWhile_prefix p digits).subset member

theorem Strict.digits {mapping : List (Text × T)} (letters : ∀ entry ∈ mapping, ∀ c ∈ entry.1, c.isAlpha = true)
    (strict : Strict mapping f factor input) (accepted : convert mapping f input ≠ none) :
    ∀ c ∈ input.rdropWhile Char.isAlpha, c.isDigit = true := by
  intro c member
  obtain ⟨v, converted⟩ := ne_none_iff_exists'.mp accepted
  obtain ⟨digits, unit, rfl, numeral, known⟩ := strict v converted
  refine numeral.2 c (mem_of_mem_rdropWhile (fun c' member' => ?_) member)
  rcases known with ⟨rfl, -⟩ | ⟨t, found, -⟩
  · cases member'
  obtain ⟨before, after, rfl, -⟩ := lookup_eq_some_iff.mp found
  have letter := letters (_, t) (mem_append_right _ mem_cons_self) _ (List.mem_map_of_mem member')
  rwa [Char.isAlpha_toLower_eq_isAlpha] at letter

/-- An accepted string is read right exactly if there are only digits before its unit. -/
theorem strict_iff {mapping : List (Text × T)} (letters : ∀ entry ∈ mapping, ∀ c ∈ entry.1, c.isAlpha = true)
    (exact : ∀ v t, v * factor t < 2 ^ 53 → f v t = v * factor t) (input : Text) :
    Strict mapping f factor input ↔
      (convert mapping f input ≠ none → ∀ c ∈ input.rdropWhile Char.isAlpha, c.isDigit = true) := by
  refine ⟨Strict.digits letters, ?_⟩
  intro only v converted
  have digits := only (by simp [converted])
  unfold convert at converted
  split at converted
  · cases converted
  obtain ⟨⟨ret, rest⟩, read, converted⟩ := bind_eq_some_iff.mp converted
  obtain ⟨numeral, nonempty, value, split, stops⟩ := fromChars_eq_some.mp read
  -- Nothing is left of the value behind its number.
  obtain rfl : rest = [] := by
    cases rest with
    | nil => rfl
    | cons c rest => simpa [stops c rfl] using digits c (by simp [split])
  rw [append_nil] at split
  refine ⟨_, _, rdropWhile_append_rtakeWhile.symm, split ▸ nonempty, ?_⟩
  rw [split, value]
  dsimp only at converted
  split at converted
  · rename_i none
    cases converted
    exact .inl ⟨map_eq_nil_iff.mp none, rfl⟩
  · obtain ⟨t, found, rfl⟩ := map_eq_some_iff.mp converted
    exact .inr ⟨t, found, exact ret t⟩

end CCF.Numerals
