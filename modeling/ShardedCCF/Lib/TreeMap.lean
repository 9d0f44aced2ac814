import Mathlib

/-! Lookups in an ordered map that was changed at one key. -/
namespace Lib
open Std

instance transCmp [LinearOrder α] : TransCmp (compare : α → α → Ordering) := inferInstance

instance lawfulEqCmp [LinearOrder α] : LawfulEqCmp (compare : α → α → Ordering) := inferInstance

variable {α β : Type} {cmp : α → α → Ordering} [TransCmp cmp] [LawfulEqCmp cmp] {m : ExtTreeMap α β cmp} {a k : α}
  {b v : β}

omit [LawfulEqCmp cmp] in
theorem mem_of_eq_some (found : m[a]? = some b) : a ∈ m :=
  ExtTreeMap.mem_iff_isSome_getElem?.mpr (by simp [found])

omit [LawfulEqCmp cmp] in
theorem exists_of_mem (member : a ∈ m) : ∃ b, m[a]? = some b :=
  Option.isSome_iff_exists.mp (ExtTreeMap.mem_iff_isSome_getElem?.mp member)

theorem insert_eq_some (found : (m.insert k v)[a]? = some b) : a = k ∧ b = v ∨ a ≠ k ∧ m[a]? = some b := by
  rw [ExtTreeMap.getElem?_insert] at found
  split at found
  · rename_i same
    exact .inl ⟨(LawfulEqCmp.eq_of_compare same).symm, (Option.some.inj found).symm⟩
  · rename_i other
    exact .inr ⟨fun same => other (same ▸ ReflCmp.compare_self), found⟩

theorem erase_eq_some (found : (m.erase k)[a]? = some b) : a ≠ k ∧ m[a]? = some b := by
  rw [ExtTreeMap.getElem?_erase] at found
  split at found
  · cases found
  · rename_i other
    exact ⟨fun same => other (same ▸ ReflCmp.compare_self), found⟩

end Lib
