import Mathlib

/-! Maps with numbers as keys, as association lists in increasing order of the keys:
lookup, the entry at or below a number, the next entry, and insertion at the end. -/
namespace Lib
open List hiding next
variable {V : Type}

def Increasing (entries : List (Nat × V)) : Prop := entries.Pairwise fun a b => a.1 < b.1

/-- The entry with the highest key that is not above the number. -/
def atOrBelow (entries : List (Nat × V)) (n : Nat) : Option (Nat × V) :=
  (entries.filter fun e => e.1 ≤ n).getLast?

def emplace (entries : List (Nat × V)) (n : Nat) (v : V) : List (Nat × V) :=
  if entries.any fun e => e.1 = n then entries else entries.orderedInsert (fun a b => a.1 ≤ b.1) (n, v)

namespace Increasing
variable {entries : List (Nat × V)}

theorem append_iff {rest : List (Nat × V)} :
    Increasing (entries ++ rest) ↔ Increasing entries ∧ Increasing rest ∧ ∀ a ∈ entries, ∀ b ∈ rest, a.1 < b.1 :=
  pairwise_append

section
variable (increasing : Increasing entries)
include increasing

theorem filter (p : Nat × V → Bool) : Increasing (entries.filter p) :=
  List.Pairwise.filter p increasing

theorem unique (first : a ∈ entries) (second : b ∈ entries) (same : a.1 = b.1) : a = b := by
  have distinct : (entries.map (·.1)).Nodup := by
    rw [List.Nodup, pairwise_map]
    exact increasing.imp fun less => ne_of_lt less
  exact inj_on_of_nodup_map distinct first second same

theorem le_getLast? (last : entries.getLast? = some e) (member : other ∈ entries) : other.1 ≤ e.1 := by
  obtain ⟨before, rfl⟩ := getLast?_eq_some_iff.mp last
  obtain ⟨-, -, below⟩ := append_iff.mp increasing
  obtain earlier | rfl : other ∈ before ∨ other = e := by simpa using member
  · exact (below other earlier e (by simp)).le
  · exact le_rfl

theorem atOrBelow_eq_some :
    atOrBelow entries n = some e ↔ e ∈ entries ∧ e.1 ≤ n ∧ ∀ other ∈ entries, other.1 ≤ n → other.1 ≤ e.1 := by
  have sorted := increasing.filter fun e => decide (e.1 ≤ n)
  constructor
  · intro found
    have member := mem_filter.mp (mem_of_getLast? found)
    refine ⟨member.1, by simpa using member.2, fun other there below => ?_⟩
    exact sorted.le_getLast? found (mem_filter.mpr ⟨there, by simpa using below⟩)
  · rintro ⟨member, below, highest⟩
    have there : e ∈ entries.filter fun e => e.1 ≤ n := mem_filter.mpr ⟨member, by simpa using below⟩
    cases found : (entries.filter fun e => e.1 ≤ n).getLast? with
    | none => simp [getLast?_eq_none_iff.mp found] at there
    | some last =>
      have inside := mem_filter.mp (mem_of_getLast? found)
      have first := sorted.le_getLast? found there
      have second := highest last inside.1 (by simpa using inside.2)
      rw [atOrBelow, found, increasing.unique inside.1 member (le_antisymm second first)]

theorem find?_key (member : e ∈ entries) : entries.find? (fun other => other.1 = e.1) = some e := by
  cases found : entries.find? (fun other => other.1 = e.1) with
  | none => simpa using find?_eq_none.mp found e member
  | some other =>
    have same : other.1 = e.1 := by simpa using find?_some found
    rw [increasing.unique (mem_of_find?_eq_some found) member same]

theorem find?_above_le (found : entries.find? (fun e => n < e.1) = some next) (member : other ∈ entries)
    (above : n < other.1) : next.1 ≤ other.1 := by
  obtain ⟨-, before, after, rfl, below⟩ := find?_eq_some_iff_append.mp found
  obtain ⟨-, sorted, -⟩ := append_iff.mp increasing
  obtain early | late := mem_append.mp member
  · exact absurd above (by simpa using below other early)
  obtain rfl | later := mem_cons.mp late
  · exact le_rfl
  · exact ((pairwise_cons.mp sorted).1 other later).le

end

end Increasing

theorem atOrBelow_append_above {entries rest : List (Nat × V)} (above : ∀ e ∈ rest, n < e.1) :
    atOrBelow (entries ++ rest) n = atOrBelow entries n := by
  have none_left : rest.filter (fun e => e.1 ≤ n) = [] :=
    filter_eq_nil_iff.mpr fun e member => by simpa using above e member
  rw [atOrBelow, filter_append, none_left, append_nil, atOrBelow]

theorem emplace_of_lt {entries : List (Nat × V)} (below : ∀ e ∈ entries, e.1 < n) (v : V) :
    emplace entries n v = entries ++ [(n, v)] := by
  have absent : entries.any (fun e => e.1 = n) = false := by
    simpa using fun m w member => (below (m, w) member).ne
  rw [emplace, absent]
  simp only [Bool.false_eq_true, if_false]
  induction entries with
  | nil => rfl
  | cons e rest ih =>
    have less := below e mem_cons_self
    have tail (other : Nat × V) (member : other ∈ rest) := below other (mem_cons_of_mem _ member)
    rw [List.orderedInsert, if_neg (by simpa using less), ih tail (by simpa using fun m w member => (tail (m, w) member).ne)]
    rfl

theorem emplace_of_gt {entries : List (Nat × V)} (above : ∀ e ∈ entries, n < e.1) (v : V) :
    emplace entries n v = (n, v) :: entries := by
  have absent : entries.any (fun e => e.1 = n) = false := by
    simpa using fun m w member => (above (m, w) member).ne'
  rw [emplace, absent]
  cases entries with
  | nil => rfl
  | cons e rest => simp [List.orderedInsert, (above e mem_cons_self).le]

end Lib
