import ShardedCCF.Kv.Contents
import ShardedCCF.Kv.Tx

/-! A map handle as a finite map. What a transaction sees of a map is its writes
over a state in which removed keys stay as tombstones; every operation agrees
with a plain map on it, but for the answer of `remove`. -/
namespace CCF.Kv
open List Option
open Std (ExtTreeMap)

variable {K V : Type} [LinearOrder K]

/-- The visitor of `range`: a key outside of the range does not stop the iteration,
because it has no order. -/
def collect (fromKey toKey : K) (res : ExtTreeMap K V) (pair : K × V) : ExtTreeMap K V :=
  if pair.1 < fromKey then res
  else if pair.1 = toKey ∨ toKey < pair.1 then res
  else res.insert pair.1 pair.2

/-- The pairs from `fromKey` on and before `toKey`, by key. -/
def ChangeSet.range (cs : ChangeSet K V) (fromKey toKey : K) : List (K × V) × ChangeSet K V :=
  if fromKey = toKey ∨ toKey < fromKey then ([], cs)
  else
    ((cs.visible.foldl (collect fromKey toKey) ∅).toList, { cs with readVersion := cs.startVersion })

inductive HandleCall (K V : Type) where
  | operation (op : Operation K V)
  | range (fromKey toKey : K)

namespace ChangeSet

def call (cs : ChangeSet K V) : HandleCall K V → Observation K V × ChangeSet K V
  | .operation op => cs.operate op
  | .range fromKey toKey => (.pairs (cs.range fromKey toKey).1, (cs.range fromKey toKey).2)

def calls (cs : ChangeSet K V) : List (HandleCall K V) → List (Observation K V) × ChangeSet K V
  | [] => ([], cs)
  | c :: rest => ((cs.call c).1 :: ((cs.call c).2.calls rest).1, ((cs.call c).2.calls rest).2)

end ChangeSet

def State.live (state : State K V) : ExtTreeMap K V :=
  state.filterMap fun _ found => if isDeleted found.version then none else some found.value

def HandleCall.apply (m : ExtTreeMap K V) : HandleCall K V → ExtTreeMap K V
  | .operation (.put key value) => m.insert key value
  | .operation (.remove key) => m.erase key
  | .operation .clear => ∅
  | _ => m

/-- What a map answers to a call. An iteration passes each pair once, in some
order, until the visitor stops it. -/
inductive HandleCall.Answers (m : ExtTreeMap K V) : HandleCall K V → Observation K V → Prop where
  | get : Answers m (.operation (.get key)) (.value m[key]?)
  | has : Answers m (.operation (.has key)) (.flag (m.contains key))
  | foreach : order.Perm m.toList →
      Answers m (.operation (.foreach visit)) (.pairs (ChangeSet.visited visit order))
  | size : Answers m (.operation .size) (.count m.size)
  | put : Answers m (.operation (.put key value)) .nothing
  | remove : Answers m (.operation (.remove key)) (.flag (m.contains key))
  | clear : Answers m (.operation .clear) .nothing
  | range : Answers m (.range fromKey toKey)
      (.pairs (m.filter fun key _ => fromKey ≤ key ∧ key < toKey).toList)

inductive Behaves : ExtTreeMap K V → List (HandleCall K V) → List (Observation K V) → ExtTreeMap K V → Prop where
  | nil : Behaves m [] [] m
  | cons : c.Answers m answer → Behaves (HandleCall.apply m c) rest answers m' →
      Behaves m (c :: rest) (answer :: answers) m'

theorem State.getElem?_live (state : State K V) (key : K) :
    state.live[key]? =
      state[key]?.bind fun found => if isDeleted found.version then none else some found.value := by
  rw [live, ExtTreeMap.getElem?_filterMap']

namespace ChangeSet
variable {cs : ChangeSet K V} {m : ExtTreeMap K V}

/-- The handle shows `m`; only keys of the state are recorded as removed. -/
structure Shows (cs : ChangeSet K V) (m : ExtTreeMap K V) : Prop where
  value_eq : ∀ key : K, m[key]? = cs.writes[key]?.getD cs.state.live[key]?
  removed : ∀ key : K, cs.writes[key]? = some none → key ∈ cs.state

theorem Shows.initial (fresh : cs.writes = ∅) : cs.Shows cs.state.live where
  value_eq key := by rw [fresh, ExtTreeMap.getElem?_empty]; rfl
  removed key found := by
    rw [fresh, ExtTreeMap.getElem?_empty] at found
    cases found

theorem Shows.congr {cs' : ChangeSet K V} (shows : cs.Shows m) (state : cs'.state = cs.state)
    (writes : cs'.writes = cs.writes) : cs'.Shows m :=
  ⟨state ▸ writes ▸ shows.value_eq, state ▸ writes ▸ shows.removed⟩

theorem readKey_frame (cs : ChangeSet K V) (key : K) :
    (cs.readKey key).2.state = cs.state ∧ (cs.readKey key).2.writes = cs.writes := by
  unfold readKey
  split
  · exact ⟨rfl, rfl⟩
  · split <;> exact ⟨rfl, rfl⟩

theorem Shows.readKey_eq (shows : cs.Shows m) (key : K) : (cs.readKey key).1 = m[key]? := by
  rw [shows.value_eq, State.getElem?_live, readKey]
  cases cs.writes[key]? with
  | some written => rfl
  | none => cases cs.state[key]? <;> rfl

theorem Shows.put (shows : cs.Shows m) (key : K) (value : V) : (cs.put key value).Shows (m.insert key value) where
  value_eq other := by
    simp only [ChangeSet.put, ExtTreeMap.getElem?_insert, compare_eq_iff_eq]
    split
    · rfl
    · exact shows.value_eq other
  removed other found := by
    simp only [ChangeSet.put, ExtTreeMap.getElem?_insert, compare_eq_iff_eq] at found
    split at found
    · cases found
    · exact shows.removed other found

theorem remove_writes (cs : ChangeSet K V) (key : K) :
    (cs.remove key).2 =
      { cs with writes := if cs.state.contains key then cs.writes.insert key none else cs.writes.erase key } := by
  unfold remove
  split
  · split <;> rfl
  rename_i unwritten
  split
  · rfl
  have same : cs.writes.erase key = cs.writes := by
    apply ExtTreeMap.ext_getElem?
    intro other
    rw [ExtTreeMap.getElem?_erase]
    split
    · rename_i equal
      rw [compare_eq_iff_eq] at equal
      rw [← equal, ExtTreeMap.getElem?_eq_none (by simpa using unwritten)]
    · rfl
  rw [same]

theorem Shows.remove (shows : cs.Shows m) (key : K) : (cs.remove key).2.Shows (m.erase key) := by
  rw [remove_writes]
  by_cases present : cs.state.contains key = true
  · refine ⟨fun other => ?_, fun other found => ?_⟩
    · simp only [present, if_true, ExtTreeMap.getElem?_erase, ExtTreeMap.getElem?_insert, compare_eq_iff_eq]
      split
      · rfl
      · exact shows.value_eq other
    · simp only [present, if_true, ExtTreeMap.getElem?_insert, compare_eq_iff_eq] at found
      split at found
      · rename_i same
        exact same ▸ ExtTreeMap.mem_iff_contains.mpr present
      · exact shows.removed other found
  · have absent : cs.state[key]? = none := by
      simpa using present
    refine ⟨fun other => ?_, fun other found => ?_⟩
    · simp only [if_neg present, ExtTreeMap.getElem?_erase, compare_eq_iff_eq]
      split
      · rename_i same
        rw [← same, State.getElem?_live, absent]
        rfl
      · exact shows.value_eq other
    · simp only [if_neg present, ExtTreeMap.getElem?_erase, compare_eq_iff_eq] at found
      split at found
      · cases found
      · exact shows.removed other found

/-- The answer of `remove` does not tell a tombstone from a value. -/
theorem Shows.remove_eq (shows : cs.Shows m) (key : K) :
    (cs.remove key).1 = (m.contains key || cs.state.contains key) := by
  have value := shows.value_eq key
  unfold ChangeSet.remove
  cases written : cs.writes[key]? with
  | some entry =>
    have listed : cs.writes.contains key = true := by
      rw [ExtTreeMap.contains_eq_isSome_getElem?, written]
      rfl
    have seen : (m.contains key || cs.state.contains key) = true := by
      rw [written] at value
      cases entry with
      | some v =>
        rw [ExtTreeMap.contains_eq_isSome_getElem?, value]
        rfl
      | none => simp [shows.removed key written]
    rw [seen, if_pos listed]
    split <;> rfl
  | none =>
    have unlisted : ¬ cs.writes.contains key = true := by
      rw [ExtTreeMap.contains_eq_isSome_getElem?, written]
      simp
    rw [written, getD_none, State.getElem?_live] at value
    rw [if_neg unlisted, ExtTreeMap.contains_eq_isSome_getElem?, ExtTreeMap.contains_eq_isSome_getElem?, value]
    cases cs.state[key]? with
    | none => rfl
    | some found => simp

theorem mem_state_part (cs : ChangeSet K V) (key : K) (value : V) :
    (key, value) ∈ (cs.state.toList.filter fun (key, found) =>
        !cs.writes.contains key && !isDeleted found.version).map (fun (key, found) => (key, found.value)) ↔
      cs.writes[key]? = none ∧ cs.state.live[key]? = some value := by
  rw [List.mem_map, State.getElem?_live]
  constructor
  · rintro ⟨⟨other, found⟩, member, equal⟩
    cases equal
    obtain ⟨listed, kept⟩ := mem_filter.mp member
    rw [Lib.mem_toList] at listed
    simp only [Bool.and_eq_true, Bool.not_eq_true'] at kept
    refine ⟨?_, ?_⟩
    · simpa [← ExtTreeMap.contains_iff_mem] using kept.1
    · simp [listed, kept.2]
  · rintro ⟨unwritten, lives⟩
    obtain ⟨found, present, alive⟩ := bind_eq_some_iff.mp lives
    split at alive
    · cases alive
    rename_i alive'
    cases alive
    refine ⟨(key, found), mem_filter.mpr ⟨(Lib.mem_toList _).mpr present, ?_⟩, rfl⟩
    have unlisted : cs.writes.contains key = false := by
      rw [ExtTreeMap.contains_eq_isSome_getElem?, unwritten]
      rfl
    simp [unlisted, alive']

theorem mem_writes_part (cs : ChangeSet K V) (key : K) (value : V) :
    (key, value) ∈ (cs.writes.toList.filterMap fun (key, written) => written.map fun value => (key, value)) ↔
      cs.writes[key]? = some (some value) := by
  rw [mem_filterMap, ← Lib.mem_toList]
  constructor
  · rintro ⟨⟨other, written⟩, member, equal⟩
    obtain ⟨v, rfl, same⟩ := map_eq_some_iff.mp equal
    cases same
    exact member
  · intro member
    exact ⟨(key, some value), member, rfl⟩

omit [LinearOrder K] in
theorem keys_writes_part (writes : List (K × Option V)) :
    ((writes.filterMap fun (key, written) => written.map fun value => (key, value)).map Prod.fst).Sublist
      (writes.map Prod.fst) := by
  induction writes with
  | nil => exact .slnil
  | cons entry writes ih =>
    obtain ⟨key, written⟩ := entry
    cases written with
    | none => exact ih.cons key
    | some value => exact ih.cons_cons key

theorem Shows.mem_visible (shows : cs.Shows m) (key : K) (value : V) :
    (key, value) ∈ cs.visible ↔ m[key]? = some value := by
  rw [visible, mem_append, mem_state_part, mem_writes_part, shows.value_eq]
  cases cs.writes[key]? with
  | some written => simp
  | none => simp

theorem nodup_visible (cs : ChangeSet K V) : (cs.visible.map Prod.fst).Nodup := by
  rw [visible, map_append, nodup_append]
  refine ⟨?_, ?_, ?_⟩
  · rw [List.map_map]
    exact (Lib.nodup_keys_toList cs.state).sublist (filter_sublist.map Prod.fst)
  · exact (Lib.nodup_keys_toList cs.writes).sublist (keys_writes_part cs.writes.toList)
  · intro a first b second same
    subst same
    obtain ⟨⟨_, value⟩, member, rfl⟩ := List.mem_map.mp first
    obtain ⟨⟨_, other⟩, member', equal⟩ := List.mem_map.mp second
    subst equal
    have unwritten := ((mem_state_part cs _ value).mp member).1
    rw [(mem_writes_part cs _ other).mp member'] at unwritten
    cases unwritten

theorem Shows.visible_perm (shows : cs.Shows m) : cs.visible.Perm m.toList := by
  refine (perm_ext_iff_of_nodup (.of_map _ cs.nodup_visible) (.of_map _ (Lib.nodup_keys_toList m))).mpr ?_
  rintro ⟨key, value⟩
  rw [shows.mem_visible, Lib.mem_toList]

omit [LinearOrder K] in
theorem visited_all (pairs : List (K × V)) : visited (fun _ _ => true) pairs = pairs := by
  induction pairs with
  | nil => rfl
  | cons pair pairs ih => rw [visited, if_pos rfl, ih]

theorem Shows.foldl_remove (shows : cs.Shows m) (pairs : List (K × V)) :
    (pairs.foldl (fun cs (key, _) => (cs.remove key).2) cs).Shows
      (pairs.foldl (fun m (key, _) => m.erase key) m) := by
  induction pairs generalizing cs m with
  | nil => exact shows
  | cons pair pairs ih => exact ih (shows.remove pair.1)

theorem foldl_erase (m : ExtTreeMap K V) (pairs : List (K × V)) (key : K) :
    (pairs.foldl (fun m (key, _) => m.erase key) m)[key]? =
      if key ∈ pairs.map Prod.fst then none else m[key]? := by
  induction pairs generalizing m with
  | nil => rfl
  | cons pair pairs ih =>
    rw [foldl_cons, ih, map_cons, ExtTreeMap.getElem?_erase]
    by_cases same : pair.1 = key
    · simp [same]
    · have other : ¬ key = pair.1 := fun equal => same equal.symm
      simp only [compare_eq_iff_eq, same, if_false, mem_cons, other, false_or]

theorem Shows.clear (shows : cs.Shows m) : cs.clear.Shows ∅ := by
  have iterated : ({ cs with readVersion := cs.startVersion } : ChangeSet K V).Shows m := shows.congr rfl rfl
  have emptied : cs.visible.foldl (fun m (key, _) => m.erase key) m = ∅ := by
    apply ExtTreeMap.ext_getElem?
    intro key
    rw [foldl_erase, ExtTreeMap.getElem?_empty]
    split
    · rfl
    rename_i unseen
    cases found : m[key]? with
    | none => rfl
    | some value => exact absurd (List.mem_map_of_mem ((shows.mem_visible key value).mpr found)) unseen
  have removed := iterated.foldl_remove cs.visible
  rw [emptied] at removed
  have cleared : cs.clear = cs.visible.foldl (fun cs (key, _) => (cs.remove key).2)
      { cs with readVersion := cs.startVersion } := by
    simp only [ChangeSet.clear, foreach, visited_all]
  rw [cleared]
  exact removed

theorem getElem?_collect (fromKey toKey : K) (res : ExtTreeMap K V) (pair : K × V) (key : K) :
    (collect fromKey toKey res pair)[key]? =
      if pair.1 = key then (if fromKey ≤ pair.1 ∧ pair.1 < toKey then some pair.2 else res[key]?)
      else res[key]? := by
  rw [collect]
  by_cases low : pair.1 < fromKey
  · simp [low, not_le.mpr low]
  by_cases high : pair.1 = toKey ∨ toKey < pair.1
  · have beyond : ¬ pair.1 < toKey := fun below => high.elim below.ne (lt_asymm below)
    simp [low, high, beyond]
  have inside : pair.1 < toKey := lt_of_not_ge fun le => high ((eq_or_lt_of_le le).imp Eq.symm id)
  simp only [if_neg low, if_neg high, not_lt.mp low, inside, and_self, if_true,
    ExtTreeMap.getElem?_insert, compare_eq_iff_eq]

theorem Shows.range_eq (shows : cs.Shows m) (fromKey toKey : K) :
    (cs.range fromKey toKey).1 = (m.filter fun key _ => fromKey ≤ key ∧ key < toKey).toList := by
  have collected : cs.visible.foldl (collect fromKey toKey) ∅ =
      m.filter fun key _ => fromKey ≤ key ∧ key < toKey := by
    apply ExtTreeMap.ext_getElem?
    intro key
    have acts := getElem?_collect (V := V) fromKey toKey
    rw [ExtTreeMap.getElem?_filter']
    cases found : m[key]? with
    | none =>
      have unseen : key ∉ cs.visible.map Prod.fst := by
        intro seen
        obtain ⟨⟨_, value⟩, member, rfl⟩ := List.mem_map.mp seen
        rw [(shows.mem_visible _ value).mp member] at found
        cases found
      exact Lib.foldl_other (fun s i => s[i]?) Prod.fst
        (fun e x => if fromKey ≤ e.1 ∧ e.1 < toKey then some e.2 else x) acts cs.visible ∅ unseen
    | some value =>
      have own := Lib.foldl_own (fun s i => s[i]?) Prod.fst
        (fun e x => if fromKey ≤ e.1 ∧ e.1 < toKey then some e.2 else x) acts cs.visible cs.nodup_visible ∅
        ((shows.mem_visible key value).mpr found)
      rw [own, ExtTreeMap.getElem?_empty]
      simp [Option.filter]
  rw [range]
  split
  · rename_i empty
    have none : m.filter (fun key _ => fromKey ≤ key ∧ key < toKey) = ∅ := by
      apply ExtTreeMap.ext_getElem?
      intro key
      rw [ExtTreeMap.getElem?_filter', ExtTreeMap.getElem?_empty, filter_eq_none_iff]
      intro value _ inside
      have inside := of_decide_eq_true inside
      have below := inside.1.trans_lt inside.2
      exact empty.elim below.ne (lt_asymm below)
    rw [none]
    rfl
  · rw [collected]

theorem remove_state (cs : ChangeSet K V) (key : K) : (cs.remove key).2.state = cs.state := by
  rw [remove_writes]

theorem foldl_remove_state (cs : ChangeSet K V) (pairs : List (K × V)) :
    (pairs.foldl (fun cs (key, _) => (cs.remove key).2) cs).state = cs.state := by
  induction pairs generalizing cs with
  | nil => rfl
  | cons pair pairs ih =>
    rw [foldl_cons, ih]
    exact remove_state cs pair.1

theorem call_state (cs : ChangeSet K V) (c : HandleCall K V) : (cs.call c).2.state = cs.state := by
  cases c with
  | operation op =>
    cases op with
    | get key => exact (cs.readKey_frame key).1
    | has key => exact (cs.readKey_frame key).1
    | foreach visit => rfl
    | size => rfl
    | put key value => rfl
    | remove key => exact cs.remove_state key
    | clear => exact foldl_remove_state _ _
  | range fromKey toKey =>
    simp only [call, range]
    split <;> rfl

theorem Shows.call (shows : cs.Shows m) (c : HandleCall K V) : (cs.call c).2.Shows (c.apply m) := by
  cases c with
  | operation op =>
    cases op with
    | get key | has key => exact shows.congr (cs.readKey_frame key).1 (cs.readKey_frame key).2
    | foreach visit => exact shows.congr rfl rfl
    | size => exact shows.congr rfl rfl
    | put key value => exact shows.put key value
    | remove key => exact shows.remove key
    | clear => exact shows.clear
  | range fromKey toKey =>
    simp only [ChangeSet.call, range]
    split <;> exact shows.congr rfl rfl

theorem answers_remove_iff (m : ExtTreeMap K V) (key : K) (flag : Bool) :
    HandleCall.Answers m (.operation (.remove key)) (.flag flag) ↔ flag = m.contains key := by
  constructor
  · intro answers
    cases answers
    rfl
  · rintro rfl
    exact .remove

theorem Shows.remove_answers_iff (shows : cs.Shows m) (key : K) :
    HandleCall.Answers m (.operation (.remove key)) (.flag (cs.remove key).1) ↔ key ∈ m ∨ key ∉ cs.state := by
  rw [answers_remove_iff, shows.remove_eq]
  by_cases present : key ∈ m
  · simp [present]
  · by_cases traced : key ∈ cs.state <;> simp [present, traced]

/-- Only `remove` may answer otherwise: it does for a key without a value of which
the state has a trace. -/
theorem Shows.answers_iff (shows : cs.Shows m) (c : HandleCall K V) :
    c.Answers m (cs.call c).1 ↔
      ∀ key, c = .operation (.remove key) → key ∈ m ∨ key ∉ cs.state := by
  have always (answers : c.Answers m (cs.call c).1) (other : ∀ key, c ≠ .operation (.remove key)) :
      c.Answers m (cs.call c).1 ↔ ∀ key, c = .operation (.remove key) → key ∈ m ∨ key ∉ cs.state :=
    iff_of_true answers fun key same => absurd same (other key)
  cases c with
  | operation op =>
    cases op with
    | get key =>
      refine always ?_ (by simp)
      have read := shows.readKey_eq key
      simp only [ChangeSet.call, operate, get, read]
      exact .get
    | has key =>
      refine always ?_ (by simp)
      have read := shows.readKey_eq key
      simp only [ChangeSet.call, operate, has, read, ← ExtTreeMap.contains_eq_isSome_getElem?]
      exact .has
    | foreach visit => exact always (.foreach shows.visible_perm) (by simp)
    | size =>
      refine always ?_ (by simp)
      have length := shows.visible_perm.length_eq
      rw [ExtTreeMap.length_toList] at length
      simp only [ChangeSet.call, operate, size, foreach, visited_all, length]
      exact .size
    | put key value => exact always .put (by simp)
    | remove key =>
      rw [show (cs.call (.operation (.remove key))).1 = .flag (cs.remove key).1 from rfl,
        shows.remove_answers_iff]
      constructor
      · intro clean other same
        cases same
        exact clean
      · exact fun clean => clean key rfl
    | clear => exact always .clear (by simp)
  | range fromKey toKey =>
    refine always ?_ (by simp)
    simp only [ChangeSet.call, shows.range_eq]
    exact .range

/-- The writes of the handle, committed on the state it was created for, leave the
map that it shows. -/
theorem Shows.applyWrites_live [Inhabited V] (shows : cs.Shows m) (positive : 0 < v) :
    (applyWrites v cs.state cs.writes).live = m := by
  apply ExtTreeMap.ext_getElem?
  intro key
  rw [State.getElem?_live, getElem?_applyWrites, shows.value_eq]
  cases written : cs.writes[key]? with
  | none => rw [getD_none, State.getElem?_live]
  | some entry =>
    cases entry with
    | some value => simp [writtenAt, isDeleted]
    | none => cases cs.state[key]? <;> simp [writtenAt, isDeleted, positive]

theorem Shows.commit_live [Inhabited V] {Name : Type} {table : KvMap Name K V} (shows : cs.Shows m)
    (current : cs.state = table.roll.tail.state) (positive : 0 < v) :
    (table.commit cs v).roll.tail.state.live = m := by
  have applied : (table.commit cs v).roll.tail.state = applyWrites v cs.state cs.writes := by
    rw [KvMap.commit, current]
    split
    · rename_i empty
      rw [ExtTreeMap.isEmpty_iff.mp empty, applyWrites_empty]
    split
    · simp [Roll.push, Roll.tail]
    · rename_i unchanged
      rw [applyWrites_of_unchanged v (by simpa using unchanged)]
  rw [applied, shows.applyWrites_live positive]

/-- No `remove` among the calls is given a key without a value of which the state
has a trace. -/
def NoTraces (cs : ChangeSet K V) (m : ExtTreeMap K V) (calls : List (HandleCall K V)) : Prop :=
  ∀ before key after, calls = before ++ .operation (.remove key) :: after →
    key ∈ before.foldl HandleCall.apply m ∨ key ∉ cs.state

theorem noTraces_cons_iff (cs : ChangeSet K V) (m : ExtTreeMap K V) (c : HandleCall K V)
    (rest : List (HandleCall K V)) :
    cs.NoTraces m (c :: rest) ↔
      (∀ key, c = .operation (.remove key) → key ∈ m ∨ key ∉ cs.state) ∧ cs.NoTraces (c.apply m) rest := by
  constructor
  · intro clean
    refine ⟨fun key same => clean [] key rest (by rw [same]; rfl), fun before key after split => ?_⟩
    exact clean (c :: before) key after (by rw [split]; rfl)
  · rintro ⟨first, later⟩ before key after split
    cases before with
    | nil =>
      injection split with same
      exact first key same
    | cons c' before =>
      injection split with same split
      subst same
      exact later before key after split

variable [Inhabited V] {Name : Type} {table : KvMap Name K V}

theorem Shows.behaves_iff (shows : cs.Shows m) (current : cs.state = table.roll.tail.state)
    (positive : 0 < v) (calls : List (HandleCall K V)) :
    Behaves m calls (cs.calls calls).1 (table.commit (cs.calls calls).2 v).roll.tail.state.live ↔
      cs.NoTraces m calls := by
  induction calls generalizing cs m with
  | nil =>
    refine iff_of_true ?_ fun before key after split => by simp at split
    have final := shows.commit_live current positive
    rw [ChangeSet.calls, final]
    exact .nil
  | cons c rest ih =>
    have next := ih (shows.call c) ((cs.call_state c).trans current)
    rw [noTraces_cons_iff, ← shows.answers_iff]
    have same : cs.NoTraces (c.apply m) rest ↔ (cs.call c).2.NoTraces (c.apply m) rest := by
      simp only [NoTraces, call_state]
    rw [same, ← next]
    constructor
    · rintro (_ | ⟨answers, rest⟩)
      exact ⟨answers, rest⟩
    · rintro ⟨answers, rest⟩
      exact .cons answers rest

/-- A fresh handle behaves as the map of live values, and its writes commit to
what that map becomes, exactly when no key without a value is removed that the
state still knows. -/
theorem handle_refines_map_iff (fresh : cs.writes = ∅) (current : cs.state = table.roll.tail.state)
    (positive : 0 < v) (calls : List (HandleCall K V)) :
    Behaves cs.state.live calls (cs.calls calls).1
        (table.commit (cs.calls calls).2 v).roll.tail.state.live ↔
      ∀ before key after, calls = before ++ .operation (.remove key) :: after →
        key ∈ before.foldl HandleCall.apply cs.state.live ∨ key ∉ cs.state :=
  (Shows.initial fresh).behaves_iff current positive calls

/-- A map with one key, which its first commit wrote, and a handle on it. -/
def oneKey : KvMap Nat Nat Nat where
  name := 0
  roll := ⟨⟨1, (∅ : State Nat Nat).insert 0 ⟨1, 1, 5⟩, ∅⟩, [], 0⟩

def oneKeyHandle : ChangeSet Nat Nat where
  rollbackCounter := 0
  state := oneKey.roll.tail.state
  committed := oneKey.roll.tail.state
  startVersion := 1

def putAndRemove : List (HandleCall Nat Nat) :=
  [.operation (.put 1 2), .operation (.remove 1), .operation (.remove 0), .range 0 3, .operation .size]

theorem handle_refines_map_put_remove :
    Behaves oneKeyHandle.state.live putAndRemove (oneKeyHandle.calls putAndRemove).1
      (oneKey.commit (oneKeyHandle.calls putAndRemove).2 2).roll.tail.state.live := by
  have clean : oneKeyHandle.NoTraces oneKeyHandle.state.live putAndRemove := by
    simp only [putAndRemove, noTraces_cons_iff]
    refine ⟨nofun, ?_, ?_, nofun, nofun, fun before key after split => by simp at split⟩
    · rintro key ⟨⟩
      exact .inl (by decide +kernel)
    · rintro key ⟨⟩
      exact .inl (by decide +kernel)
  exact (handle_refines_map_iff rfl rfl two_pos putAndRemove).mpr clean

def removeTwice : List (HandleCall Nat Nat) :=
  [.operation (.remove 0), .operation (.has 0), .operation (.remove 0)]

/-- The second removal of a key answers that the key had a value. -/
theorem remove_again_answers_true :
    (oneKeyHandle.calls removeTwice).1 = [.flag true, .flag false, .flag true] ∧
      ¬ Behaves oneKeyHandle.state.live removeTwice (oneKeyHandle.calls removeTwice).1
        (oneKey.commit (oneKeyHandle.calls removeTwice).2 2).roll.tail.state.live := by
  have answered : (oneKeyHandle.calls removeTwice).1 = [.flag true, .flag false, .flag true] := by
    decide +kernel
  refine ⟨answered, fun behaves => ?_⟩
  rw [answered] at behaves
  rcases behaves with _ | ⟨-, _ | ⟨-, _ | ⟨last, -⟩⟩⟩
  rw [answers_remove_iff] at last
  revert last
  decide +kernel

end ChangeSet
end CCF.Kv
