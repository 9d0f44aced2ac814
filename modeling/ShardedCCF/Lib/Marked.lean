import Mathlib

/-! The first and the last element of a list that have a property. -/
namespace Lib
open List
variable {α : Type} {p q : α → Bool} {f : α → α} {l : List α} {a : α} {i : Nat}

def modifyFirst (p : α → Bool) (f : α → α) : List α → List α
  | [] => []
  | a :: l => if p a then f a :: l else a :: modifyFirst p f l

def modifyLast (p : α → Bool) (f : α → α) : List α → List α
  | [] => []
  | a :: l => if l.any p then a :: modifyLast p f l else if p a then f a :: l else a :: l

def lastIdx? (p : α → Bool) : List α → Option Nat
  | [] => none
  | a :: l =>
    match lastIdx? p l with
    | some i => some (i + 1)
    | none => if p a then some 0 else none

def last? (p : α → Bool) : List α → Option α
  | [] => none
  | a :: l => (last? p l).or (if p a then some a else none)

theorem lastIdx?_eq_none : lastIdx? p l = none ↔ l.any p = false := by
  induction l with
  | nil => simp [lastIdx?]
  | cons a l ih =>
    cases later : lastIdx? p l with
    | none =>
      rw [any_cons, ih.mp later, lastIdx?, later]
      simp
    | some i =>
      have some : l.any p = true := by
        rw [← Bool.not_eq_false]
        intro none
        rw [ih.mpr none] at later
        cases later
      simp [lastIdx?, later, some]

theorem any_of_lastIdx? (found : lastIdx? p l = some i) : l.any p = true := by
  rw [← Bool.not_eq_false]
  intro none
  rw [lastIdx?_eq_none.mpr none] at found
  cases found

theorem modify_lastIdx? (found : lastIdx? p l = some i) : l.modify i f = modifyLast p f l := by
  induction l generalizing i with
  | nil => cases found
  | cons a l ih =>
    rw [lastIdx?] at found
    split at found
    · rename_i j later
      cases found
      rw [modifyLast, if_pos (any_of_lastIdx? later), modify_succ_cons, ih later]
    rename_i none
    split at found
    · rename_i here
      cases found
      rw [modifyLast, lastIdx?_eq_none.mp none, if_pos here]
      rfl
    · cases found

theorem modify_findIdx? (found : l.findIdx? p = some i) : l.modify i f = modifyFirst p f l := by
  induction l generalizing i with
  | nil => cases found
  | cons a l ih =>
    rw [findIdx?_cons] at found
    rw [modifyFirst]
    split at found
    · rename_i here
      cases found
      rw [if_pos here]
      rfl
    rename_i later
    obtain ⟨j, got, rfl⟩ := Option.map_eq_some_iff.mp found
    rw [if_neg later, modify_succ_cons, ih got]

theorem modifyLast_of_none (none : l.any p = false) : modifyLast p f l = l := by
  cases l with
  | nil => rfl
  | cons a l =>
    rw [any_cons, Bool.or_eq_false_iff] at none
    simp [modifyLast, none]

theorem modifyLast_concat (here : p a = true) : modifyLast p f (l ++ [a]) = l ++ [f a] := by
  induction l with
  | nil => simp [modifyLast, here]
  | cons b l ih => simp [modifyLast, here, ih]

theorem modifyFirst_append (none : l.any p = false) (m : List α) :
    modifyFirst p f (l ++ m) = l ++ modifyFirst p f m := by
  induction l with
  | nil => rfl
  | cons b l ih =>
    rw [any_cons, Bool.or_eq_false_iff] at none
    simp [modifyFirst, none.1, ih none.2]

theorem getElem?_modifyFirst (found : l[i]? = some a) (other : p a = false) : (modifyFirst p f l)[i]? = some a := by
  induction l generalizing i with
  | nil => cases found
  | cons b l ih =>
    rw [modifyFirst]
    cases i with
    | zero =>
      cases found
      simp [other]
    | succ i =>
      split
      · exact found
      · exact ih found

theorem getElem?_modifyLast (found : l[i]? = some a) (other : p a = false) : (modifyLast p f l)[i]? = some a := by
  induction l generalizing i with
  | nil => cases found
  | cons b l ih =>
    rw [modifyLast]
    cases i with
    | zero =>
      cases found
      split
      · rfl
      · simp [other]
    | succ i =>
      split
      · exact ih found
      · split <;> exact found

theorem map_modifyFirst {β : Type} {g : α → β} {p' : β → Bool} {f' : β → β} (marks : ∀ a ∈ l, p' (g a) = p a)
    (moves : ∀ a, g (f a) = f' (g a)) : (modifyFirst p f l).map g = modifyFirst p' f' (l.map g) := by
  induction l with
  | nil => rfl
  | cons a l ih =>
    rw [forall_mem_cons] at marks
    rw [modifyFirst, map_cons, modifyFirst, marks.1]
    split <;> simp [moves, ih marks.2]

theorem map_modifyLast {β : Type} {g : α → β} {p' : β → Bool} {f' : β → β} (marks : ∀ a ∈ l, p' (g a) = p a)
    (moves : ∀ a, g (f a) = f' (g a)) : (modifyLast p f l).map g = modifyLast p' f' (l.map g) := by
  induction l with
  | nil => rfl
  | cons a l ih =>
    rw [forall_mem_cons] at marks
    have same : (l.map g).any p' = l.any p := by
      rw [List.any_map, Bool.eq_iff_iff, List.any_eq_true, List.any_eq_true]
      exact exists_congr fun a => and_congr_right fun member => by rw [Function.comp_apply, marks.2 a member]
    rw [modifyLast, map_cons, modifyLast, marks.1, same]
    split
    · simp [ih marks.2]
    · split <;> simp [moves]

theorem filter_modifyFirst (keeps : ∀ a, q (f a) = q a) :
    (modifyFirst (fun a => q a && p a) f l).filter q = modifyFirst p f (l.filter q) := by
  induction l with
  | nil => rfl
  | cons a l ih =>
    rw [modifyFirst]
    cases mine : q a with
    | false => simp [mine, ih]
    | true =>
      cases here : p a with
      | false => simp [mine, here, ih, modifyFirst]
      | true => simp [mine, here, keeps, modifyFirst]

theorem filter_modifyLast (keeps : ∀ a, q (f a) = q a) :
    (modifyLast (fun a => q a && p a) f l).filter q = modifyLast p f (l.filter q) := by
  induction l with
  | nil => rfl
  | cons a l ih =>
    have same : (l.any fun a => q a && p a) = (l.filter q).any p := by
      rw [List.any_filter]
    rw [modifyLast, same]
    cases later : (l.filter q).any p with
    | true =>
      cases mine : q a with
      | false => simp [mine, ih]
      | true => simp [mine, ih, modifyLast, later]
    | false =>
      cases mine : q a with
      | false =>
        simp [mine, modifyLast_of_none later]
      | true => cases here : p a <;> simp [mine, here, keeps, modifyLast, later]

theorem last?_concat (here : p a = true) : last? p (l ++ [a]) = some a := by
  induction l with
  | nil => simp [last?, here]
  | cons b l ih => simp [last?, ih]

theorem last?_eq_none (absent : lastIdx? p l = none) : last? p l = none := by
  induction l with
  | nil => rfl
  | cons a l ih =>
    rw [lastIdx?] at absent
    split at absent
    · cases absent
    rename_i later
    split at absent
    · cases absent
    · rename_i other
      simp [last?, ih later, other]

theorem exists_lastIdx? (found : lastIdx? p l = some i) : ∃ a, l[i]? = some a ∧ last? p l = some a := by
  induction l generalizing i with
  | nil => cases found
  | cons a l ih =>
    rw [lastIdx?] at found
    split at found
    · rename_i j later
      cases found
      obtain ⟨b, got, last⟩ := ih later
      exact ⟨b, got, by simp [last?, last]⟩
    rename_i absent
    split at found
    · rename_i here
      cases found
      exact ⟨a, rfl, by simp [last?, last?_eq_none absent, here]⟩
    · cases found

theorem last?_filter : last? p (l.filter q) = last? (fun a => q a && p a) l := by
  induction l with
  | nil => rfl
  | cons a l ih =>
    cases mine : q a with
    | false => simp [last?, mine, ih]
    | true => simp [last?, mine, ih]

theorem last?_map {β : Type} {g : α → β} {p' : β → Bool} (marks : ∀ a ∈ l, p' (g a) = p a) :
    last? p' (l.map g) = (last? p l).map g := by
  induction l with
  | nil => rfl
  | cons a l ih =>
    rw [forall_mem_cons] at marks
    rw [map_cons, last?, last?, ih marks.2, marks.1]
    cases last? p l with
    | none => cases p a <;> rfl
    | some b => rfl

end Lib
