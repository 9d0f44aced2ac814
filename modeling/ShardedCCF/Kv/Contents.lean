import ShardedCCF.Kv.Map
import ShardedCCF.Lib.Slots

/-! What a sequence of write sets leaves in a map. -/
namespace CCF.Kv
open List
open Std (ExtTreeMap)

variable {K V : Type} [LinearOrder K] [Inhabited V]

def writtenAt (v : Nat) (written : Option V) (before : Option (VersionV V)) : Option (VersionV V) :=
  match written with
  | some value => some ⟨v, v, value⟩
  | none => before.map fun _ => ⟨-v, v, default⟩

theorem getElem?_applyWrite (v : Nat) (state : State K V) (key other : K) (written : Option V) :
    (applyWrite v state key written)[other]? =
      if key = other then writtenAt v written state[other]? else state[other]? := by
  cases written with
  | some value => simp [applyWrite, writtenAt, ExtTreeMap.getElem?_insert]
  | none =>
    simp only [applyWrite, writtenAt]
    split
    case isTrue present =>
      rw [ExtTreeMap.getElem?_insert]
      simp only [compare_eq_iff_eq]
      split
      case isTrue same =>
        subst same
        cases found : state[key]? with
        | none => simp [ExtTreeMap.contains_eq_isSome_getElem?, found] at present
        | some _ => rfl
      case isFalse => rfl
    case isFalse absent =>
      split
      case isTrue same =>
        subst same
        cases found : state[key]? with
        | none => rfl
        | some _ => simp [ExtTreeMap.contains_eq_isSome_getElem?, found] at absent
      case isFalse => rfl

theorem getElem?_applyWrites (v : Nat) (state : State K V) (writes : Write K V) (key : K) :
    (applyWrites v state writes)[key]? =
      match writes[key]? with
      | none => state[key]?
      | some written => writtenAt v written state[key]? := by
  have acts : ∀ (s : State K V) (e : K × Option V) (i : K),
      (applyWrite v s e.1 e.2)[i]? = if e.1 = i then writtenAt v e.2 s[i]? else s[i]? :=
    fun s e i => getElem?_applyWrite v s e.1 i e.2
  cases found : writes[key]? with
  | none =>
    have absent : key ∉ writes.toList.map Prod.fst := by
      rw [Lib.mem_keys_toList, ExtTreeMap.mem_iff_isSome_getElem?, found]
      simp
    exact Lib.foldl_other (fun s i => s[i]?) Prod.fst (fun e => writtenAt v e.2) acts writes.toList state absent
  | some written =>
    have member := ExtTreeMap.mem_toList_iff_getElem?_eq_some.mpr found
    exact Lib.foldl_own (fun s i => s[i]?) Prod.fst (fun e => writtenAt v e.2) acts writes.toList
      (Lib.nodup_keys_toList writes) state member

theorem applyWrites_empty (v : Nat) (state : State K V) : applyWrites v state ∅ = state := by
  simp [applyWrites, ExtTreeMap.toList_eq_nil_iff.mpr]

/-- Keys never disappear: a removal leaves a tombstone. -/
theorem mem_applyWrites (v : Nat) (writes : Write K V) {state : State K V} (member : key ∈ state) :
    key ∈ applyWrites v state writes := by
  rw [ExtTreeMap.mem_iff_isSome_getElem?] at member ⊢
  rw [getElem?_applyWrites]
  split
  · exact member
  · rename_i written _
    cases written <;> simp [writtenAt, member]

theorem applyWrites_of_unchanged (v : Nat) {state : State K V} {writes : Write K V}
    (unchanged : changes state writes = false) : applyWrites v state writes = state := by
  apply ExtTreeMap.ext_getElem?
  intro key
  rw [getElem?_applyWrites]
  split
  · rfl
  rename_i written found
  have member := ExtTreeMap.mem_toList_iff_getElem?_eq_some.mpr found
  have idle := List.any_eq_false.mp unchanged _ member
  simp only [Bool.or_eq_true, not_or, Bool.not_eq_true, Option.isSome_eq_false_iff,
    Option.isNone_iff_eq_none, ExtTreeMap.contains_eq_isSome_getElem?] at idle
  rw [idle.1, idle.2]
  rfl

/-- The state after the write sets of versions 1, 2, and so on. -/
def contents (history : List (Write K V)) : State K V :=
  (history.zipIdx 1).foldl (fun state (writes, v) => applyWrites v state writes) ∅

@[simp] theorem contents_nil : contents ([] : List (Write K V)) = ∅ := rfl

theorem contents_snoc (history : List (Write K V)) (writes : Write K V) :
    contents (history ++ [writes]) = applyWrites (history.length + 1) (contents history) writes := by
  simp [contents, zipIdx_append, foldl_append, Nat.add_comm]

theorem contents_snoc_empty (history : List (Write K V)) : contents (history ++ [∅]) = contents history := by
  rw [contents_snoc, applyWrites_empty]

theorem mem_contents_of_take {history : List (Write K V)} (member : key ∈ contents (history.take v)) :
    key ∈ contents history := by
  induction history using reverseRecOn with
  | nil => simp at member
  | append_singleton history writes ih =>
    rcases Nat.lt_or_ge history.length v with whole | inside
    · rwa [take_of_length_le (by simpa using whole)] at member
    rw [take_append_of_le_length inside] at member
    rw [contents_snoc]
    exact mem_applyWrites _ _ (ih member)

variable {key : K} {e e' : VersionV V}

theorem natAbs_version_of_written {state : State K V} {writes : Write K V} (written : writes[key]? = some w)
    (found : (applyWrites v state writes)[key]? = some e) : e.version.natAbs = v := by
  rw [getElem?_applyWrites, written] at found
  cases w with
  | some value =>
    cases found
    rfl
  | none =>
    obtain ⟨_, -, rfl⟩ := Option.map_eq_some_iff.mp found
    simp

theorem natAbs_version_le {history : List (Write K V)} (found : (contents history)[key]? = some e) :
    e.version.natAbs ≤ history.length := by
  induction history using reverseRecOn with
  | nil => simp at found
  | append_singleton history writes ih =>
    rw [contents_snoc] at found
    rw [length_append, length_singleton]
    cases written : writes[key]? with
    | none =>
      rw [getElem?_applyWrites, written] at found
      exact Nat.le_succ_of_le (ih found)
    | some w => exact Nat.le_of_eq (natAbs_version_of_written written found)

/-- Entries with the same version are the same entry. -/
theorem entry_eq_of_version_eq {history : List (Write K V)} (earlier : (contents (history.take v))[key]? = some e)
    (found : (contents history)[key]? = some e') (same : e.version = e'.version) : e = e' := by
  induction history using reverseRecOn with
  | nil => simp at found
  | append_singleton history writes ih =>
    rcases Nat.lt_or_ge history.length v with whole | inside
    · rw [take_of_length_le (by simpa using whole), found] at earlier
      exact (Option.some.inj earlier).symm
    rw [take_append_of_le_length inside] at earlier
    rw [contents_snoc] at found
    cases written : writes[key]? with
    | none =>
      rw [getElem?_applyWrites, written] at found
      exact ih earlier found
    | some w =>
      have new := natAbs_version_of_written written found
      have old := natAbs_version_le earlier
      rw [length_take] at old
      omega

end CCF.Kv
