import Mathlib

/-! Lists sorted by a key, cut at a bound from either end. -/
namespace Lib
open List
variable {α β : Type}

theorem le_of_mem_rdropWhile {key : α → Nat} {l : List α} {bound : Nat}
    (sorted : l.Pairwise fun a b => key a ≤ key b)
    (member : a ∈ l.rdropWhile fun a => bound < key a) : key a ≤ bound := by
  have nonempty := ne_nil_of_mem member
  have last := rdropWhile_last_not _ _ nonempty
  have ordered := sorted.sublist ( rdropWhile_prefix (fun a => decide (bound < key a)) l).sublist
  simp only [decide_eq_true_eq, not_lt] at last
  refine le_trans ?_ last
  rw [← dropLast_append_getLast nonempty, pairwise_append] at ordered
  rw [← dropLast_append_getLast nonempty, mem_append, mem_singleton] at member
  rcases member with earlier | rfl
  · exact ordered.2.2 _ earlier _ (mem_singleton_self _)
  · exact le_rfl

theorem lt_of_mem_dropWhile {l : List Nat} {bound : Nat} (sorted : l.Pairwise (· < ·))
    (member : i ∈ l.dropWhile (· ≤ bound)) : bound < i := by
  induction l with
  | nil => simp at member
  | cons j l ih =>
    rw [pairwise_cons] at sorted
    rw [dropWhile_cons] at member
    split at member
    · exact ih sorted.2 member
    rename_i above
    simp only [decide_eq_true_eq, not_le] at above
    rcases mem_cons.mp member with rfl | later
    · exact above
    · exact above.trans (sorted.1 i later)

theorem exists_mapM_eq_some {f : α → Option β} {l : List α} (each : ∀ a ∈ l, ∃ b, f a = some b) :
    ∃ bs, l.mapM f = some bs := by
  induction l with
  | nil => exact ⟨[], rfl⟩
  | cons a l ih =>
    obtain ⟨b, first⟩ := each a mem_cons_self
    obtain ⟨bs, rest⟩ := ih fun a member => each a (mem_cons_of_mem _ member)
    exact ⟨b :: bs, by simp [mapM_cons, first, rest]⟩

theorem mapM_eq_map {f : α → Option β} {g : α → β} (agrees : ∀ a b, f a = some b → g a = b)
    {l : List α} {l' : List β} (mapped : l.mapM f = some l') : l' = l.map g := by
  induction l generalizing l' with
  | nil => simpa using mapped.symm
  | cons a l ih =>
    simp only [mapM_cons, Option.bind_eq_bind, Option.bind_eq_some_iff, Option.pure_def,
      Option.some.injEq] at mapped
    obtain ⟨b, first, rest, tail, rfl⟩ := mapped
    rw [map_cons, agrees a b first, ih tail]

end Lib
