import ShardedCCF.Lib.TreeMap

/-! Folds whose steps each change one slot of a state. If no slot is changed
twice, the order of the steps does not matter. -/
namespace Lib
open Std (ExtTreeMap)

section Slots
variable {S I X E : Type} [DecidableEq I] (get : S → I → X) (slot : E → I) (f : E → X → X)
  {act : S → E → S}

theorem foldl_other (acts : ∀ s e i, get (act s e) i = if slot e = i then f e (get s i) else get s i)
    (entries : List E) (s : S) (other : i ∉ entries.map slot) :
    get (entries.foldl act s) i = get s i := by
  induction entries generalizing s with
  | nil => rfl
  | cons e entries ih =>
    simp only [List.map_cons, List.mem_cons, not_or] at other
    rw [List.foldl_cons, ih _ other.2, acts, if_neg (Ne.symm other.1)]

theorem foldl_own (acts : ∀ s e i, get (act s e) i = if slot e = i then f e (get s i) else get s i)
    (entries : List E) (distinct : (entries.map slot).Nodup) (s : S) (member : e ∈ entries) :
    get (entries.foldl act s) (slot e) = f e (get s (slot e)) := by
  induction entries generalizing s with
  | nil => cases member
  | cons first entries ih =>
    rw [List.map_cons, List.nodup_cons] at distinct
    rw [List.foldl_cons]
    rcases List.mem_cons.mp member with rfl | later
    · rw [foldl_other get slot f acts entries _ distinct.1, acts, if_pos rfl]
    have apart : slot first ≠ slot e := fun same =>
      distinct.1 (same ▸ List.mem_map_of_mem later)
    rw [ih distinct.2 _ later, acts, if_neg apart]

end Slots

variable {A B : Type} [LinearOrder A]

theorem nodup_keys_toList (m : ExtTreeMap A B) : (m.toList.map Prod.fst).Nodup := by
  rw [List.nodup_iff_pairwise_ne, List.pairwise_map]
  exact ExtTreeMap.distinct_keys_toList.imp fun apart same => apart (compare_eq_iff_eq.mpr same)

theorem mem_keys_toList (m : ExtTreeMap A B) : a ∈ m.toList.map Prod.fst ↔ a ∈ m := by
  rw [ExtTreeMap.map_fst_toList_eq_keys, ExtTreeMap.mem_keys]

theorem mem_toList (m : ExtTreeMap A B) : (a, b) ∈ m.toList ↔ m[a]? = some b :=
  ExtTreeMap.mem_toList_iff_getElem?_eq_some

end Lib
