import ShardedCCF.Ds.RbMap
import ShardedCCF.Kv.MapHandle

/-! `MapHandle::range` over the two representations of a state. A hash map gives
its keys in no order, a red-black map in key order; only with the latter does the
visitor end the iteration once it is past the range. -/
namespace CCF.Kv
open Lib List
open Std (ExtTreeMap)

variable {K V S : Type} [LinearOrder K]

/-- Which map holds the state: `KV_STATE_RB` is defined or not. -/
inductive Build where
  | champ | rb
  deriving DecidableEq, Repr

/-- The loop over the state. A key that is written or deleted is passed over, with
the answer as it was. -/
def visitState (writes : Write K V) (f : S → K → V → S × Bool) : S × Bool → List (K × VersionV V) → S × Bool
  | r, [] => r
  | r, (key, found) :: rest =>
    let r := if !writes.contains key && !isDeleted found.version then f r.1 key found.value else r
    if r.2 then visitState writes f r rest else r

/-- The loop over the writes, from the last answer of the loop before. -/
def visitWrites (f : S → K → V → S × Bool) : S × Bool → List (K × Option V) → S × Bool
  | r, [] => r
  | r, (key, written) :: rest =>
    let r := match written with
      | some value => f r.1 key value
      | none => r
    if r.2 then visitWrites f r rest else r

/-- `order` is the order the state gives its keys in. -/
def foreachStateAndWrites (order : List (K × VersionV V)) (writes : Write K V) (alwaysConsiderWrites : Bool)
    (f : S → K → V → S × Bool) (s : S) : S :=
  let r := visitState writes f (s, true) order
  if alwaysConsiderWrites || r.2 then (visitWrites f r writes.toList).1 else r.1

def rangeVisitor (continuePastRangeTo : Bool) (fromKey toKey : K) (res : ExtTreeMap K V) (key : K) (value : V) :
    ExtTreeMap K V × Bool :=
  if key < fromKey then (res, true)
  else if key = toKey ∨ toKey < key then (res, continuePastRangeTo)
  else (res.insert key value, true)

def rangeOver (build : Build) (order : List (K × VersionV V)) (writes : Write K V) (fromKey toKey : K) :
    List (K × V) :=
  if fromKey = toKey ∨ toKey < fromKey then []
  else
    (foreachStateAndWrites order writes true (rangeVisitor (build = .champ) fromKey toKey) ∅).toList

def IsRange (state : State K V) (writes : Write K V) (fromKey toKey : K) (pairs : List (K × V)) : Prop :=
  pairs.Pairwise (·.1 < ·.1) ∧
    ∀ key value, (key, value) ∈ pairs ↔
      fromKey ≤ key ∧ key < toKey ∧ writes[key]?.getD state.live[key]? = some value

/-- What the first loop calls its visitor with if it is not stopped. -/
def statePart (writes : Write K V) (order : List (K × VersionV V)) : List (K × V) :=
  (order.filter fun (key, found) => !writes.contains key && !isDeleted found.version).map
    fun (key, found) => (key, found.value)

def writesPart (writes : List (K × Option V)) : List (K × V) :=
  writes.filterMap fun (key, written) => written.map fun value => (key, value)

theorem statePart_cons (writes : Write K V) (key : K) (found : VersionV V) (rest : List (K × VersionV V)) :
    statePart writes ((key, found) :: rest) =
      if !writes.contains key && !isDeleted found.version then (key, found.value) :: statePart writes rest
      else statePart writes rest := by
  rw [statePart, filter_cons]
  split_ifs <;> rfl

/-! ## The two loops -/

theorem rangeVisitor_fst (past : Bool) (fromKey toKey : K) (res : ExtTreeMap K V) (key : K) (value : V) :
    (rangeVisitor past fromKey toKey res key value).1 = collect fromKey toKey res (key, value) := by
  rw [rangeVisitor, collect]
  split_ifs <;> rfl

theorem rangeVisitor_champ (fromKey toKey : K) (res : ExtTreeMap K V) (key : K) (value : V) :
    rangeVisitor true fromKey toKey res key value = (collect fromKey toKey res (key, value), true) := by
  refine Prod.ext (rangeVisitor_fst ..) ?_
  rw [rangeVisitor]
  split_ifs <;> rfl

theorem rangeVisitor_rb {fromKey toKey : K} (proper : fromKey < toKey) (res : ExtTreeMap K V) (key : K) (value : V) :
    rangeVisitor false fromKey toKey res key value =
      (collect fromKey toKey res (key, value), decide (key < toKey)) := by
  refine Prod.ext (rangeVisitor_fst ..) ?_
  rw [rangeVisitor]
  split_ifs with low high
  · exact (decide_eq_true (low.trans proper)).symm
  · exact (decide_eq_false (not_lt.mpr (high.elim Eq.ge le_of_lt))).symm
  · rw [← le_iff_eq_or_lt.trans (or_congr_left eq_comm)] at high
    exact (decide_eq_true (not_le.mp high)).symm

theorem collect_past {fromKey toKey : K} (res : ExtTreeMap K V) {pair : K × V} (past : toKey ≤ pair.1) :
    collect fromKey toKey res pair = res := by
  rw [collect]
  split_ifs with low high
  · rfl
  · rfl
  · exact absurd (past.lt_or_eq.symm.imp_left Eq.symm) high

theorem foldl_collect_past {fromKey toKey : K} (res : ExtTreeMap K V) {pairs : List (K × V)}
    (past : ∀ p ∈ pairs, toKey ≤ p.1) : pairs.foldl (collect fromKey toKey) res = res := by
  induction pairs with
  | nil => rfl
  | cons pair pairs ih =>
    rw [foldl_cons, collect_past res (past pair mem_cons_self)]
    exact ih fun p member => past p (mem_cons_of_mem pair member)

theorem visitState_eq (writes : Write K V) (f : S → K → V → S × Bool) (s : S) (order : List (K × VersionV V)) :
    visitState writes f (s, true) order = Rb.Map.visit f (statePart writes order) s := by
  induction order generalizing s with
  | nil => rfl
  | cons entry rest ih =>
    obtain ⟨key, found⟩ := entry
    rw [visitState, statePart_cons]
    by_cases shown : (!writes.contains key && !isDeleted found.version) = true
    · simp only [shown, if_true, Rb.Map.visit]
      rcases f s key found.value with ⟨s', _ | _⟩
      · rfl
      · exact ih s'
    · simp only [shown]
      exact ih s

omit [LinearOrder K] in
theorem visitWrites_eq (f : S → K → V → S × Bool) (s : S) (writes : List (K × Option V)) :
    visitWrites f (s, true) writes = Rb.Map.visit f (writesPart writes) s := by
  induction writes generalizing s with
  | nil => rfl
  | cons entry rest ih =>
    obtain ⟨key, _ | value⟩ := entry
    · exact ih s
    show (if (f s key value).2 = true then visitWrites f (f s key value) rest else f s key value) =
      Rb.Map.visit f ((key, value) :: writesPart rest) s
    rw [Rb.Map.visit]
    rcases f s key value with ⟨s', _ | _⟩
    · rfl
    · exact ih s'

theorem visit_champ (fromKey toKey : K) (res : ExtTreeMap K V) (pairs : List (K × V)) :
    Rb.Map.visit (rangeVisitor true fromKey toKey) pairs res = (pairs.foldl (collect fromKey toKey) res, true) := by
  induction pairs generalizing res with
  | nil => rfl
  | cons pair pairs ih =>
    rw [Rb.Map.visit, rangeVisitor_champ]
    exact ih _

/-- In key order nothing of the range is missed by the stop; the flag tells whether
it was made. -/
theorem visit_rb {fromKey toKey : K} (proper : fromKey < toKey) (res : ExtTreeMap K V) {pairs : List (K × V)}
    (sorted : pairs.Pairwise (·.1 < ·.1)) :
    Rb.Map.visit (rangeVisitor false fromKey toKey) pairs res =
      (pairs.foldl (collect fromKey toKey) res, pairs.all fun p => p.1 < toKey) := by
  induction pairs generalizing res with
  | nil => rfl
  | cons pair pairs ih =>
    obtain ⟨above, rising⟩ := pairwise_cons.mp sorted
    rw [Rb.Map.visit, rangeVisitor_rb proper, foldl_cons, all_cons]
    by_cases inside : pair.1 < toKey
    · simp only [inside, decide_true, Bool.true_and]
      exact ih _ rising
    · simp only [inside, decide_false, Bool.false_and]
      rw [foldl_collect_past _ fun p later => (not_lt.mp inside).trans (above p later).le]

theorem sorted_statePart (writes : Write K V) {order : List (K × VersionV V)} (sorted : order.Pairwise (·.1 < ·.1)) :
    (statePart writes order).Pairwise (·.1 < ·.1) :=
  pairwise_map.mpr (sorted.filter _)

theorem sorted_writesPart {writes : List (K × Option V)} (sorted : writes.Pairwise (·.1 < ·.1)) :
    (writesPart writes).Pairwise (·.1 < ·.1) := by
  refine pairwise_filterMap.mpr (sorted.imp fun lt p listed q listed' => ?_)
  obtain ⟨value, -, rfl⟩ := Option.map_eq_some_iff.mp listed
  obtain ⟨value', -, rfl⟩ := Option.map_eq_some_iff.mp listed'
  exact lt

def removesFirst : List (K × Option V) → Prop
  | (_, none) :: _ => True
  | _ => False

instance (writes : List (K × Option V)) : Decidable (removesFirst writes) := by
  unfold removesFirst
  split <;> infer_instance

omit [LinearOrder K] in
/-- A stop in the state is taken for a stop in the writes, unless the first write
overwrites the flag. -/
theorem visitWrites_stopped (f : S → K → V → S × Bool) (s : S) (writes : List (K × Option V)) :
    (visitWrites f (s, false) writes).1 = if removesFirst writes then s else (visitWrites f (s, true) writes).1 := by
  match writes with
  | [] => rfl
  | (key, none) :: rest => rfl
  | (key, some value) :: rest => rfl

/-! ## What is collected -/

theorem getElem?_foldl_collect (fromKey toKey : K) {pairs : List (K × V)} (distinct : (pairs.map Prod.fst).Nodup)
    (key : K) (value : V) :
    (pairs.foldl (collect fromKey toKey) ∅)[key]? = some value ↔
      fromKey ≤ key ∧ key < toKey ∧ (key, value) ∈ pairs := by
  have acts := ChangeSet.getElem?_collect (V := V) fromKey toKey
  by_cases listed : key ∈ pairs.map Prod.fst
  · obtain ⟨⟨key, other⟩, member, rfl⟩ := List.mem_map.mp listed
    have own := foldl_own (fun s i => s[i]?) Prod.fst
      (fun e x => if fromKey ≤ e.1 ∧ e.1 < toKey then some e.2 else x) acts pairs distinct ∅ member
    rw [own, ExtTreeMap.getElem?_empty]
    have same : (key, value) ∈ pairs ↔ other = value := by
      constructor
      · intro member'
        have equal := inj_on_of_nodup_map distinct member member' rfl
        cases equal
        rfl
      · rintro rfl
        exact member
    rw [same]
    by_cases inside : fromKey ≤ key ∧ key < toKey
    · simp [inside]
    · simp only [inside, if_false, reduceCtorEq, false_iff]
      exact fun ⟨low, high, _⟩ => inside ⟨low, high⟩
  · have other := foldl_other (fun s i => s[i]?) Prod.fst
      (fun e x => if fromKey ≤ e.1 ∧ e.1 < toKey then some e.2 else x) acts pairs ∅ listed
    rw [other, ExtTreeMap.getElem?_empty]
    simp only [reduceCtorEq, false_iff]
    exact fun ⟨_, _, member⟩ => listed (List.mem_map_of_mem member)

theorem sorted_toList (m : ExtTreeMap K V) : m.toList.Pairwise (·.1 < ·.1) :=
  ExtTreeMap.ordered_keys_toList.imp compare_lt_iff_lt.mp

theorem sorted_entries_eq {entries entries' : List (K × V)} (sorted : entries.Pairwise (·.1 < ·.1))
    (sorted' : entries'.Pairwise (·.1 < ·.1)) (same : entries.Perm entries') : entries = entries' :=
  same.eq_of_pairwise (fun _ _ _ _ lt gt => absurd lt gt.not_gt) sorted sorted'

section Range
variable {state : State K V} {writes : Write K V} {order : List (K × VersionV V)}

theorem mem_statePart (listed : order.Perm state.toList) (key : K) (value : V) :
    (key, value) ∈ statePart writes order ↔ writes[key]? = none ∧ state.live[key]? = some value := by
  have same : (statePart writes order).Perm (statePart writes state.toList) := (listed.filter _).map _
  rw [same.mem_iff]
  exact ChangeSet.mem_state_part ⟨0, state, ∅, 0, noVersion, ∅, writes⟩ key value

theorem mem_writesPart (key : K) (value : V) :
    (key, value) ∈ writesPart writes.toList ↔ writes[key]? = some (some value) :=
  ChangeSet.mem_writes_part ⟨0, ∅, ∅, 0, noVersion, ∅, writes⟩ key value

section
variable (listed : order.Perm state.toList)
include listed

theorem nodup_statePart : ((statePart writes order).map Prod.fst).Nodup := by
  rw [statePart, List.map_map]
  have keys : (order.map Prod.fst).Nodup := (listed.map Prod.fst).nodup_iff.mpr (nodup_keys_toList state)
  exact keys.sublist (filter_sublist.map Prod.fst)

theorem nodup_parts : ((statePart writes order ++ writesPart writes.toList).map Prod.fst).Nodup := by
  have same : ((statePart writes order ++ writesPart writes.toList).map Prod.fst).Perm
      ((statePart writes state.toList ++ writesPart writes.toList).map Prod.fst) :=
    (((listed.filter _).map _).append_right _).map _
  rw [same.nodup_iff]
  exact ChangeSet.nodup_visible ⟨0, state, ∅, 0, noVersion, ∅, writes⟩

theorem isRange_collect (fromKey toKey : K) : IsRange state writes fromKey toKey
      ((statePart writes order ++ writesPart writes.toList).foldl (collect fromKey toKey) ∅).toList := by
  refine ⟨sorted_toList _, fun key value => ?_⟩
  rw [mem_toList, getElem?_foldl_collect fromKey toKey (nodup_parts listed), mem_append,
    mem_statePart listed, mem_writesPart]
  cases writes[key]? with
  | none => simp
  | some written => simp

/-- The state alone gives it if no write does add to it. -/
theorem isRange_collect_state_iff (fromKey toKey : K) :
    IsRange state writes fromKey toKey ((statePart writes order).foldl (collect fromKey toKey) ∅).toList ↔
      ∀ (key : K) (value : V), writes[key]? = some (some value) → ¬ (fromKey ≤ key ∧ key < toKey) := by
  have member (key : K) (value : V) :
      (key, value) ∈ ((statePart writes order).foldl (collect fromKey toKey) ∅).toList ↔
        fromKey ≤ key ∧ key < toKey ∧ writes[key]? = none ∧ state.live[key]? = some value := by
    rw [mem_toList, getElem?_foldl_collect fromKey toKey (nodup_statePart listed), mem_statePart listed]
  constructor
  · rintro ⟨-, whole⟩ key value written ⟨low, high⟩
    have shown := (whole key value).mpr ⟨low, high, by rw [written]; rfl⟩
    have unwritten := ((member key value).mp shown).2.2.1
    rw [written] at unwritten
    cases unwritten
  · intro outside
    refine ⟨sorted_toList _, fun key value => ?_⟩
    rw [member]
    refine and_congr_right fun low => and_congr_right fun high => ?_
    cases written : writes[key]? with
    | none => simp
    | some entry =>
      cases entry with
      | none => simp
      | some value => exact absurd ⟨low, high⟩ (outside key value written)

end

theorem isRange_empty {fromKey toKey : K} (improper : fromKey = toKey ∨ toKey < fromKey) :
    IsRange state writes fromKey toKey [] := by
  refine ⟨.nil, fun key value => ?_⟩
  simp only [not_mem_nil, false_iff]
  rintro ⟨low, high, -⟩
  have proper := low.trans_lt high
  exact improper.elim proper.ne (lt_asymm proper)

/-- In the hash map build `range` is right for every state and write set. -/
theorem rangeOver_champ (listed : order.Perm state.toList) (fromKey toKey : K) :
    IsRange state writes fromKey toKey (rangeOver .champ order writes fromKey toKey) := by
  rw [rangeOver]
  split_ifs with improper
  · exact isRange_empty improper
  have collected : foreachStateAndWrites order writes true (rangeVisitor true fromKey toKey) ∅ =
      (statePart writes order ++ writesPart writes.toList).foldl (collect fromKey toKey) ∅ := by
    rw [foreachStateAndWrites, visitState_eq, visit_champ, visitWrites_eq, visit_champ, foldl_append]
    rfl
  show IsRange _ _ _ _ (foreachStateAndWrites order writes true (rangeVisitor true fromKey toKey) ∅).toList
  rw [collected]
  exact isRange_collect listed fromKey toKey

open Classical in
/-- What the red-black build leaves out: all writes, once a key of the state past
the range has stopped the iteration and the first write is a removal. -/
theorem foreach_rb (listed : order.Perm state.toList) (sorted : order.Pairwise (·.1 < ·.1)) {fromKey toKey : K}
    (proper : fromKey < toKey) :
    foreachStateAndWrites order writes true (rangeVisitor false fromKey toKey) ∅ =
      if (∃ key value, writes[key]? = none ∧ state.live[key]? = some value ∧ toKey ≤ key) ∧
          removesFirst writes.toList then
        (statePart writes order).foldl (collect fromKey toKey) ∅
      else (statePart writes order ++ writesPart writes.toList).foldl (collect fromKey toKey) ∅ := by
  have whole (res : ExtTreeMap K V) : (visitWrites (rangeVisitor false fromKey toKey) (res, true) writes.toList).1 =
      (writesPart writes.toList).foldl (collect fromKey toKey) res := by
    rw [visitWrites_eq, visit_rb proper res (sorted_writesPart (sorted_toList writes))]
  rw [foreachStateAndWrites, visitState_eq, visit_rb proper ∅ (sorted_statePart writes sorted), Bool.true_or,
    if_pos rfl]
  by_cases stopped : ∃ key value, writes[key]? = none ∧ state.live[key]? = some value ∧ toKey ≤ key
  · have flag : ((statePart writes order).all fun p => p.1 < toKey) = false := by
      obtain ⟨key, value, unwritten, lives, past⟩ := stopped
      rw [List.all_eq_false]
      exact ⟨(key, value), (mem_statePart listed key value).mpr ⟨unwritten, lives⟩, by simpa using past⟩
    rw [flag, visitWrites_stopped]
    by_cases removal : removesFirst writes.toList
    · rw [if_pos removal, if_pos ⟨stopped, removal⟩]
    · rw [if_neg removal, if_neg fun both => removal both.2, whole, foldl_append]
  have flag : ((statePart writes order).all fun p => p.1 < toKey) = true := by
    rw [List.all_eq_true]
    rintro ⟨key, value⟩ member
    obtain ⟨unwritten, lives⟩ := (mem_statePart listed key value).mp member
    refine decide_eq_true (not_le.mp fun past => stopped ⟨key, value, unwritten, lives, past⟩)
  rw [flag, if_neg fun both => stopped both.1, whole, foldl_append]

end Range

section Builds
variable {state : State K V} {writes : Write K V} {order : List (K × VersionV V)} {tree : Rb.Map K (VersionV V)}

theorem entries_eq_toList (redBlack : tree.RedBlack) (same : ∀ key, tree.getp key = state[key]?) :
    tree.entries = state.toList := by
  have sorted := (Rb.Map.ordered_iff tree).mp redBlack.ordered
  have distinct : tree.entries.Nodup := sorted.imp fun lt equal => lt.ne (congrArg Prod.fst equal)
  refine sorted_entries_eq sorted (sorted_toList state) ?_
  refine (perm_ext_iff_of_nodup distinct (.of_map _ (nodup_keys_toList state))).mpr ?_
  rintro ⟨key, found⟩
  rw [← Rb.Map.getp_eq_some_iff redBlack.ordered, same, mem_toList]

/-- `range` calls its visitor with the live pairs of the range, in both builds,
if and only if no removal is the first write of a write set with a value in the
range while the state has a live unwritten key past it. -/
theorem range_agrees_iff (listed : order.Perm state.toList) (redBlack : tree.RedBlack)
    (same : ∀ key, tree.getp key = state[key]?) (fromKey toKey : K) :
    IsRange state writes fromKey toKey (rangeOver .champ order writes fromKey toKey) ∧
        IsRange state writes fromKey toKey (rangeOver .rb tree.entries writes fromKey toKey) ↔
      ¬ ((∃ key value, writes[key]? = none ∧ state.live[key]? = some value ∧ toKey ≤ key) ∧
        removesFirst writes.toList ∧
        ∃ key value, writes[key]? = some (some value) ∧ fromKey ≤ key ∧ key < toKey) := by
  rw [entries_eq_toList redBlack same, and_iff_right (rangeOver_champ listed fromKey toKey), rangeOver]
  split_ifs with improper
  · refine iff_of_true (isRange_empty improper) ?_
    rintro ⟨-, -, key, value, -, low, high⟩
    have proper := low.trans_lt high
    exact improper.elim proper.ne (lt_asymm proper)
  have proper : fromKey < toKey :=
    lt_of_not_ge fun le => improper (le.lt_or_eq.symm.imp_left Eq.symm)
  show IsRange _ _ _ _
    (foreachStateAndWrites state.toList writes true (rangeVisitor false fromKey toKey) ∅).toList ↔ _
  rw [foreach_rb (.refl _) (sorted_toList state) proper]
  split_ifs with lost
  · rw [isRange_collect_state_iff (.refl _)]
    constructor
    · rintro outside ⟨-, -, key, value, written, inside⟩
      exact outside key value written inside
    · intro none key value written inside
      exact none ⟨lost.1, lost.2, key, value, written, inside⟩
  · exact iff_of_true (isRange_collect (.refl _) fromKey toKey) fun all => lost ⟨all.1, all.2.1⟩

end Builds

/-- Keys 1 and 5, as a finite map and as the red-black map that holds it. -/
def oneAndFive : State Nat Nat :=
  ((∅ : State Nat Nat).insert 1 ⟨1, 1, 10⟩).insert 5 ⟨2, 2, 50⟩

def oneAndFiveTree : Rb.Map Nat (VersionV Nat) :=
  ((Rb.Map.empty.put 1 ⟨1, 1, 10⟩).put 5 ⟨2, 2, 50⟩)

theorem oneAndFiveTree_holds : oneAndFiveTree.Holds [(1, ⟨1, 1, 10⟩), (5, ⟨2, 2, 50⟩)] :=
  (Rb.Map.holds_empty.put 1 _).put 5 _

theorem getp_oneAndFiveTree (key : Nat) : oneAndFiveTree.getp key = oneAndFive[key]? := by
  have put (found : VersionV Nat) (puts : List (Nat × VersionV Nat)) (m : State Nat Nat)
      (holds : ∀ key, Rb.Map.lastPut puts key = m[key]?) (key' key : Nat) :
      Rb.Map.lastPut (puts ++ [(key', found)]) key = (m.insert key' found)[key]? := by
    rw [Rb.Map.lastPut_append, ExtTreeMap.getElem?_insert, holds]
    simp only [compare_eq_iff_eq]
  rw [oneAndFiveTree_holds.get_eq key]
  exact put _ [(1, ⟨1, 1, 10⟩)] _ (put _ [] ∅ (fun _ => ExtTreeMap.getElem?_empty.symm) 1) 5 key

/-- Key 2 is written and key 5 removed: the first write has a value. -/
def putTwoRemoveFive : Write Nat Nat :=
  ((∅ : Write Nat Nat).insert 2 (some 20)).insert 5 none

theorem range_agrees_put_two :
    IsRange oneAndFive putTwoRemoveFive 0 4 (rangeOver .champ oneAndFive.toList.reverse putTwoRemoveFive 0 4) ∧
      IsRange oneAndFive putTwoRemoveFive 0 4 (rangeOver .rb oneAndFiveTree.entries putTwoRemoveFive 0 4) :=
  (range_agrees_iff (reverse_perm _) oneAndFiveTree_holds.redBlack getp_oneAndFiveTree 0 4).mpr
    fun lost => absurd lost.2.1 (by decide +kernel)

/-- Key 1 is removed and key 2 written: the removal is the first write. -/
def removeOnePutTwo : Write Nat Nat :=
  ((∅ : Write Nat Nat).insert 2 (some 20)).insert 1 none

/-- The live key 5 is past the range and stops the iteration; the written key 2
is in the range and is shown by the hash map build only. -/
theorem range_rb_misses_write :
    rangeOver .champ oneAndFive.toList removeOnePutTwo 0 4 = [(2, 20)] ∧
      rangeOver .rb oneAndFiveTree.entries removeOnePutTwo 0 4 = [] ∧
      ¬ IsRange oneAndFive removeOnePutTwo 0 4 (rangeOver .rb oneAndFiveTree.entries removeOnePutTwo 0 4) := by
  have missed : rangeOver .rb oneAndFiveTree.entries removeOnePutTwo 0 4 = [] := by decide +kernel
  refine ⟨by decide +kernel, missed, ?_⟩
  rintro ⟨-, whole⟩
  have shown := (whole 2 20).mpr ⟨by decide, by decide, by decide +kernel⟩
  cases shown

end CCF.Kv
