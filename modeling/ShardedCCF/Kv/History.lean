import ShardedCCF.Kv.Effects

/-! The history of a store is the list of the write sets that made its versions.
The store holds, for each map, what the history says at every version that can
still be read or rolled back to. -/
namespace CCF.Kv
open List Option
open Std (ExtTreeMap)

variable {Name K V : Type} [LinearOrder Name] [LinearOrder K]

def mapHistory (history : List (WriteSet Name K V)) (name : Name) : List (Write K V) :=
  history.map fun writeSet => writeSet[name]?.getD ∅

section
variable (history : List (WriteSet Name K V))

@[simp] theorem length_mapHistory (name : Name) :
    (mapHistory history name).length = history.length := length_map _

theorem mapHistory_take (name : Name) (v : Nat) :
    mapHistory (history.take v) name = (mapHistory history name).take v := map_take

theorem mapHistory_snoc (writeSet : WriteSet Name K V) (name : Name) :
    mapHistory (history ++ [writeSet]) name = mapHistory history name ++ [writeSet[name]?.getD ∅] := by
  simp [mapHistory]

end

/-- The version of the first write set with the map. -/
structure FirstWrite (history : List (WriteSet Name K V)) (name : Name) (created : Nat) : Prop where
  inside : created ≤ history.length
  before : ∀ writeSet ∈ history.take (created - 1), name ∉ writeSet
  reached : ∃ writeSet ∈ history.take created, name ∈ writeSet

section
variable {history : List (WriteSet Name K V)}

theorem FirstWrite.snoc (first : FirstWrite history name created) (writeSet : WriteSet Name K V) :
    FirstWrite (history ++ [writeSet]) name created := by
  obtain ⟨inside, before, reached⟩ := first
  constructor
  · simp only [length_append]
    omega
  · rwa [take_append_of_le_length (by omega)]
  · rwa [take_append_of_le_length inside]

theorem FirstWrite.take (first : FirstWrite history name created) (kept : created ≤ v) :
    FirstWrite (history.take v) name created := by
  obtain ⟨inside, before, reached⟩ := first
  constructor
  · simp only [length_take]
    omega
  · rwa [take_take, Nat.min_eq_left (by omega)]
  · rwa [take_take, Nat.min_eq_left kept]

theorem mapHistory_of_unwritten (unwritten : ∀ writeSet ∈ history, name ∉ writeSet) :
    ∀ writes ∈ mapHistory history name, writes = ∅ := by
  intro writes member
  obtain ⟨writeSet, known, rfl⟩ := List.mem_map.mp member
  rw [ExtTreeMap.getElem?_eq_none (unwritten writeSet known)]
  rfl

end

variable [Inhabited V]

def contentsOf (history : List (WriteSet Name K V)) (name : Name) : State K V := contents (mapHistory history name)

theorem Follows.unwritten {history : List (Write K V)} (empty : ∀ writes ∈ history, writes = ∅) :
    Follows (Roll.initial : Roll K V).stamps history := by
  induction history using reverseRecOn with
  | nil => exact .initial
  | append_singleton history writes ih =>
    obtain rfl := empty writes (by simp)
    exact (ih fun w member => empty w (mem_append_left _ member)).idle (contents_snoc_empty history)

namespace Store

/-- A map of the table: its object, and the version at which it was created. -/
structure Known (history : List (WriteSet Name K V)) (s : Store Name K V) (name : Name) (created ref : Nat) :
    Prop where
  allocated : ref < s.nextObject
  named : (s.objects ref).name = name
  hooked : (s.objects ref).globalHook = s.globalHooks name
  follows : Follows (s.objects ref).roll.stamps (mapHistory history name)
  head_le : (s.objects ref).roll.head.version ≤ s.compacted
  later : ∀ c ∈ (s.objects ref).roll.rest, s.compacted < c.version
  first : FirstWrite history name created
  kept : created ≤ (s.objects ref).roll.head.version ∨ ∃ p ∈ (s.objects ref).roll.stamps, p.1 = created

structure Holds (history : List (WriteSet Name K V)) (s : Store Name K V) : Prop where
  compacted_le : s.compacted ≤ history.length
  known : ∀ name created ref, s.maps[name]? = some (created, ref) → Known history s name created ref
  unknown : ∀ name, s.maps[name]? = none → ∀ writeSet ∈ history, name ∉ writeSet

theorem Holds.bookkeeping {s : Store Name K V} (holds : Holds history s) (r : Replication (WriteSet Name K V))
    (lastNewMap : Nat) : Holds history { s with toReplication := r, lastNewMap } :=
  ⟨holds.compacted_le, fun name created ref found =>
    let known := holds.known name created ref found
    ⟨known.allocated, known.named, known.hooked, known.follows, known.head_le, known.later, known.first, known.kept⟩,
    holds.unknown⟩

theorem Holds.named {s : Store Name K V} (holds : Holds history s) : Named s.objects s.maps Prod.snd :=
  fun name entry found => (holds.known name entry.1 entry.2 found).named

def mapState (s : Store Name K V) (name : Name) : State K V :=
  match s.maps[name]? with
  | none => ∅
  | some (_, ref) => (s.objects ref).roll.tail.state

theorem Holds.mapState {s : Store Name K V} (holds : Holds history s) (name : Name) :
    s.mapState name = contentsOf history name := by
  unfold Store.mapState contentsOf
  cases found : s.maps[name]? with
  | none =>
    have empty := mapHistory_of_unwritten (holds.unknown name found)
    have follows : Follows (KvMap.initial name : KvMap Name K V).roll.stamps (mapHistory history name) :=
      Follows.unwritten empty
    exact follows.tail_state
  | some entry => exact (holds.known name entry.1 entry.2 found).follows.tail_state

def written (changes : OrderedChanges Name K V) (name : Name) : Write K V :=
  match changes[name]? with
  | some (_, .transaction cs) => cs.writes
  | _ => ∅

def Records (changes : OrderedChanges Name K V) (writeSet : WriteSet Name K V) : Prop :=
  ∀ name, writeSet[name]? = if (written changes name).isEmpty then none else some (written changes name)

/-- Change sets that were checked: what is written goes to a map of the table,
or to a new one that really changes. -/
structure Accepts (s : Store Name K V) (changes : OrderedChanges Name K V) (newMaps : ExtTreeMap Name Nat) :
    Prop where
  transactions : ∀ (name : Name) ref c, changes[name]? = some (ref, c) →
    (s.objects ref).name = name ∧ ∃ cs, c = .transaction cs
  target : ∀ (name : Name) ref (cs : ChangeSet K V), changes[name]? = some (ref, .transaction cs) →
    cs.hasWrites = true →
    (∃ created, s.maps[name]? = some (created, ref)) ∨
      (newMaps[name]? = some ref ∧ Kv.changes (∅ : State K V) cs.writes = true)
  fresh : ∀ (name : Name) ref, newMaps[name]? = some ref → s.maps[name]? = none ∧ ref < s.nextObject ∧
    (s.objects ref).name = name ∧ (s.objects ref).roll = .initial

section Commit
variable {history : List (WriteSet Name K V)} {s : Store Name K V} {changes : OrderedChanges Name K V}
  {newMaps : ExtTreeMap Name Nat} {writeSet : WriteSet Name K V} {name : Name}

omit [Inhabited V] in
theorem Records.getD (records : Records changes writeSet) (name : Name) :
    writeSet[name]?.getD ∅ = written changes name := by
  rw [records name]
  split
  case isTrue empty => exact (ExtTreeMap.isEmpty_iff.mp empty).symm
  case isFalse => rfl

omit [Inhabited V] in
theorem Accepts.named (accepts : Accepts s changes newMaps) : Named s.objects changes Prod.fst :=
  fun name entry found => (accepts.transactions name entry.1 entry.2 found).1

omit [Inhabited V] in
theorem Accepts.new_named (accepts : Accepts s changes newMaps) : Named s.objects newMaps id :=
  fun name entry found => (accepts.fresh name entry found).2.2.1

omit [Inhabited V] in
theorem Accepts.written_of (accepts : Accepts s changes newMaps)
    (nonempty : (written changes name).isEmpty = false) :
    ∃ ref cs, changes[name]? = some (ref, .transaction cs) ∧ written changes name = cs.writes ∧
      cs.hasWrites = true := by
  unfold written at nonempty ⊢
  cases found : changes[name]? with
  | none => simp [found] at nonempty
  | some entry =>
    obtain ⟨ref, c⟩ := entry
    obtain ⟨_, cs, rfl⟩ := accepts.transactions name ref c found
    simp only [found] at nonempty ⊢
    exact ⟨ref, cs, rfl, rfl, by simp [ChangeSet.hasWrites, nonempty]⟩

def applied (s : Store Name K V) (v : Nat) (changes : OrderedChanges Name K V)
    (newMaps : ExtTreeMap Name Nat) : Store Name K V :=
  (s.publish v changes newMaps).commitAll v changes

omit [Inhabited V] in
theorem publish_frame (v : Nat) (changes : OrderedChanges Name K V) (newMaps : ExtTreeMap Name Nat) :
    ∃ maps objects, s.publish v changes newMaps = { s with maps, objects } := by
  unfold publish
  induction newMaps.toList generalizing s with
  | nil => exact ⟨s.maps, s.objects, rfl⟩
  | cons e entries ih =>
    obtain ⟨maps, objects, same⟩ := ih (s := if writesTo changes e.1 then s.addDynamicMap v e.1 e.2 else s)
    refine ⟨maps, objects, same.trans ?_⟩
    split <;> rfl

theorem applied_frame (v : Nat) (changes : OrderedChanges Name K V) (newMaps : ExtTreeMap Name Nat) :
    ∃ maps objects, s.applied v changes newMaps = { s with maps, objects } := by
  obtain ⟨maps, objects, same⟩ := publish_frame (s := s) v changes newMaps
  exact ⟨maps, ((s.publish v changes newMaps).commitAll v changes).objects, by
    rw [applied, commitAll, same]⟩

inductive Applies (s : Store Name K V) (changes : OrderedChanges Name K V)
    (resolve : Store Name K V → Bool → Nat × Store Name K V) (newMaps : ExtTreeMap Name Nat) :
    Option Nat × Store Name K V → Prop where
  | conflict : Applies s changes resolve newMaps (none, s)
  | readOnly (idle : ∀ (name : Name) ref c, changes[name]? = some (ref, c) → c.hasWrites = false) :
      Applies s changes resolve newMaps (some noVersion, s)
  | written (prepared : ∀ (name : Name) ref c, changes[name]? = some (ref, c) → c.prepare (s.objects ref) = true)
      (unknown : ∀ (name : Name) ref, newMaps[name]? = some ref → s.getMap s.version name = none)
      (writes : ∃ (name : Name) (ref : Nat) (c : Changes K V), changes[name]? = some (ref, c) ∧ c.hasWrites = true) :
      Applies s changes resolve newMaps
        (some (resolve s (!newMaps.isEmpty)).1,
          (resolve s (!newMaps.isEmpty)).2.applied (resolve s (!newMaps.isEmpty)).1 changes newMaps)

theorem applyChanges_applies (s : Store Name K V) (changes : OrderedChanges Name K V)
    (resolve : Store Name K V → Bool → Nat × Store Name K V) (newMaps : ExtTreeMap Name Nat) :
    Applies s changes resolve newMaps (s.applyChanges changes resolve newMaps) := by
  unfold applyChanges
  dsimp only
  split
  case isFalse => exact .conflict
  case isTrue checked =>
    rw [Bool.and_eq_true, List.all_eq_true, List.all_eq_true] at checked
    split
    case isTrue writes =>
      obtain ⟨⟨name, ref, c⟩, member, has⟩ := List.any_eq_true.mp writes
      refine .written (fun name ref c found => ?_) (fun name ref found => ?_)
        ⟨name, ref, c, ExtTreeMap.mem_toList_iff_getElem?_eq_some.mp member, has⟩
      · exact checked.1 (name, ref, c) (ExtTreeMap.mem_toList_iff_getElem?_eq_some.mpr found)
      · exact isNone_iff_eq_none.mp
          (checked.2 (name, ref) (ExtTreeMap.mem_toList_iff_getElem?_eq_some.mpr found))
    case isFalse idle =>
      refine .readOnly fun name ref c found => ?_
      have all := List.any_eq_false.mp (Bool.not_eq_true _ ▸ idle)
      exact Bool.not_eq_true _ ▸ all (name, ref, c) (ExtTreeMap.mem_toList_iff_getElem?_eq_some.mpr found)

omit [Inhabited V] in
theorem Accepts.named_published (accepts : Accepts s changes newMaps) (v : Nat) :
    Named (s.publish v changes newMaps).objects changes Prod.fst := by
  intro other entry member
  rw [publish_name v changes newMaps accepts.new_named]
  exact accepts.named other entry member

theorem Accepts.known_object (accepts : Accepts s changes newMaps) (v : Nat)
    (holds : (s.objects ref).name = name) (found : s.maps[name]? = some (created, ref)) :
    ∃ cs : ChangeSet K V, cs.writes = written changes name ∧
      (s.applied v changes newMaps).objects ref = (s.objects ref).commit cs v := by
  have unpublished : (s.publish v changes newMaps).objects ref = s.objects ref := by
    apply publish_other
    intro other published
    obtain ⟨absent, _, named, _⟩ := accepts.fresh other ref published
    rw [holds] at named
    rw [← named, found] at absent
    cases absent
  by_cases changed : ∃ c, changes[name]? = some (ref, c)
  · obtain ⟨c, member⟩ := changed
    obtain ⟨_, cs, rfl⟩ := accepts.transactions name ref c member
    refine ⟨cs, by simp [written, member], ?_⟩
    rw [applied, commitAll_own (accepts.named_published v) v member, unpublished]
    rfl
  -- The change set of this name, if any, is for another object and writes nothing.
  have nothing : (written changes name).isEmpty = true := by
    by_contra nonempty
    obtain ⟨other, cs, member, -, writes⟩ := accepts.written_of (Bool.not_eq_true _ ▸ nonempty)
    rcases accepts.target name other cs member writes with ⟨_, known⟩ | ⟨isNew, -⟩
    · rw [found] at known
      cases known
      exact changed ⟨_, member⟩
    · rw [(accepts.fresh name other isNew).1] at found
      cases found
  refine ⟨{ rollbackCounter := 0, state := ∅, committed := ∅, startVersion := 0 },
    (ExtTreeMap.isEmpty_iff.mp nothing).symm, ?_⟩
  rw [applied, commitAll_other v fun other c member => ?_, unpublished]
  · simp [KvMap.commit]
  · have sameName := (accepts.transactions other ref c member).1
    rw [holds] at sameName
    exact changed ⟨c, sameName ▸ member⟩

theorem Accepts.new_object (accepts : Accepts s changes newMaps) (v : Nat)
    (found : newMaps[name]? = some ref) (nonempty : (written changes name).isEmpty = false) :
    ∃ cs : ChangeSet K V, cs.writes = written changes name ∧ Kv.changes (∅ : State K V) cs.writes = true ∧
      (s.applied v changes newMaps).objects ref =
        KvMap.commit { s.objects ref with globalHook := s.globalHooks name, mapHook := s.mapHooks name } cs v := by
  obtain ⟨other, cs, member, same, writes⟩ := accepts.written_of nonempty
  have absent := (accepts.fresh name ref found).1
  rcases accepts.target name other cs member writes with ⟨_, known⟩ | ⟨isNew, real⟩
  · rw [absent] at known
    cases known
  rw [found] at isNew
  cases isNew
  have writesHere : writesTo changes name = true := by simp [writesTo, member, Changes.hasWrites, writes]
  refine ⟨cs, same.symm, real, ?_⟩
  rw [applied, commitAll_own (accepts.named_published v) v member, publish_object v changes newMaps accepts.new_named found writesHere]
  rfl

omit [Inhabited V] in
theorem Accepts.writesTo_eq (accepts : Accepts s changes newMaps) (name : Name) :
    writesTo changes name = !(written changes name).isEmpty := by
  unfold writesTo written
  cases found : changes[name]? with
  | none => simp
  | some entry =>
    obtain ⟨ref, c⟩ := entry
    obtain ⟨_, cs, rfl⟩ := accepts.transactions name ref c found
    simp [Changes.hasWrites, ChangeSet.hasWrites]

theorem Accepts.maps_applied (accepts : Accepts s changes newMaps) (v : Nat) (name : Name) :
    (s.applied v changes newMaps).maps[name]? =
      match newMaps[name]? with
      | some ref => if (written changes name).isEmpty then s.maps[name]? else some (v, ref)
      | none => s.maps[name]? := by
  have published := publish_maps (s := s) v changes newMaps name
  rw [accepts.writesTo_eq] at published
  refine Eq.trans published ?_
  cases newMaps[name]? with
  | none => rfl
  | some ref => cases (written changes name).isEmpty <;> rfl

/-- A map that is not in the table afterwards was not, and nothing is written to it. -/
theorem Accepts.absent (accepts : Accepts s changes newMaps)
    (found : (s.applied v changes newMaps).maps[name]? = none) :
    s.maps[name]? = none ∧ (written changes name).isEmpty = true := by
  rw [accepts.maps_applied] at found
  cases isNew : newMaps[name]? with
  | some fresh =>
    simp only [isNew] at found
    split at found
    case isTrue empty => exact ⟨found, empty⟩
    case isFalse => cases found
  | none =>
    simp only [isNew] at found
    refine ⟨found, ?_⟩
    by_contra nonempty
    obtain ⟨other, cs, known, -, writes⟩ := accepts.written_of (Bool.not_eq_true _ ▸ nonempty)
    rcases accepts.target name other cs known writes with ⟨_, inTable⟩ | ⟨published, -⟩
    · rw [found] at inTable
      cases inTable
    · rw [isNew] at published
      cases published

theorem Known.commit {s t : Store Name K V} (known : Known history s name created ref)
    (compacted : s.compacted ≤ history.length) (cs : ChangeSet K V) (writeSet : WriteSet Name K V)
    (writes : writeSet[name]?.getD ∅ = cs.writes)
    (object : t.objects ref = (s.objects ref).commit cs (history.length + 1))
    (frame : ∃ maps objects, t = { s with maps, objects }) :
    Known (history ++ [writeSet]) t name created ref := by
  obtain ⟨maps, objects, rfl⟩ := frame
  constructor
  · exact known.allocated
  · rw [object, KvMap.commit_name, known.named]
  · rw [object, KvMap.commit_globalHook, known.hooked]
  · rw [object, mapHistory_snoc, writes, ← length_mapHistory history name]
    exact known.follows.commit cs
  · rw [object, KvMap.commit_head]
    exact known.head_le
  · intro c member
    rw [object] at member
    rcases KvMap.commit_rest _ _ _ member with old | new
    · exact known.later c old
    · exact new ▸ Nat.lt_succ_of_le compacted
  · exact known.first.snoc writeSet
  · rw [object, KvMap.commit_head]
    exact known.kept.imp_right fun ⟨p, member, same⟩ => ⟨p, KvMap.stamps_commit _ _ _ member, same⟩

theorem Known.create {s t : Store Name K V} (unwritten : ∀ writeSet ∈ history, name ∉ writeSet)
    (fresh : ref < s.nextObject ∧ (s.objects ref).name = name ∧ (s.objects ref).roll = .initial)
    (cs : ChangeSet K V) (writeSet : WriteSet Name K V) (writes : writeSet[name]? = some cs.writes)
    (real : Kv.changes (∅ : State K V) cs.writes = true) (hooks : Bool)
    (compacted : s.compacted ≤ history.length)
    (object : t.objects ref =
      KvMap.commit { s.objects ref with globalHook := s.globalHooks name, mapHook := hooks } cs (history.length + 1))
    (frame : ∃ maps objects, t = { s with maps, objects }) :
    Known (history ++ [writeSet]) t name (history.length + 1) ref := by
  obtain ⟨maps, objects, rfl⟩ := frame
  obtain ⟨allocated, named, initial⟩ := fresh
  have follows : Follows ({ s.objects ref with globalHook := s.globalHooks name, mapHook := hooks }).roll.stamps
      (mapHistory history name) := by
    simpa only [initial] using Follows.unwritten (mapHistory_of_unwritten unwritten)
  constructor
  · exact allocated
  · rw [object, KvMap.commit_name, named]
  · rw [object, KvMap.commit_globalHook]
  · rw [object, mapHistory_snoc, writes, ← length_mapHistory history name]
    exact follows.commit cs
  · rw [object, KvMap.commit_head, initial]
    exact Nat.zero_le _
  · intro c member
    rw [object] at member
    rcases KvMap.commit_rest _ _ _ member with old | new
    · simp [initial, Roll.initial] at old
    · exact new ▸ Nat.lt_succ_of_le compacted
  · constructor
    · simp
    · simpa using unwritten
    · refine ⟨writeSet, ?_, ?_⟩
      · rw [take_of_length_le (by simp)]
        simp
      · rw [ExtTreeMap.mem_iff_isSome_getElem?, writes]
        rfl
  · -- The writes are not empty and change something, so a state was added.
    refine .inr ⟨(history.length + 1, applyWrites (history.length + 1) ∅ cs.writes), ?_, rfl⟩
    have nonempty : cs.writes.isEmpty = false := by
      by_contra empty
      rw [Bool.not_eq_false, ExtTreeMap.isEmpty_iff] at empty
      simp [empty, Kv.changes, ExtTreeMap.toList_eq_nil_iff.mpr] at real
    have tail : (s.objects ref).roll.tail.state = ∅ := by rw [initial]; rfl
    rw [object, KvMap.commit]
    simp only [nonempty, tail, real, if_true, Bool.false_eq_true, if_false, Roll.stamps_push]
    simp

theorem Holds.applied (holds : Holds history s) (accepts : Accepts s changes newMaps)
    (records : Records changes writeSet) :
    Holds (history ++ [writeSet]) (s.applied (history.length + 1) changes newMaps) := by
  have frame := applied_frame (s := s) (history.length + 1) changes newMaps
  have maps := accepts.maps_applied (history.length + 1)
  constructor
  · obtain ⟨_, _, same⟩ := frame
    rw [same, length_append]
    exact Nat.le_add_right_of_le holds.compacted_le
  · intro name created ref found
    rw [maps name] at found
    cases isNew : newMaps[name]? with
    | none =>
      simp only [isNew] at found
      have known := holds.known name created ref found
      obtain ⟨cs, writes, object⟩ := accepts.known_object (history.length + 1) known.named found
      exact known.commit holds.compacted_le cs writeSet (by rw [records.getD, writes]) object frame
    | some fresh =>
      have absent := accepts.fresh name fresh isNew
      simp only [isNew, absent.1] at found
      split at found
      · cases found
      rename_i nonempty
      cases found
      obtain ⟨cs, writes, real, object⟩ :=
        accepts.new_object (history.length + 1) isNew (Bool.not_eq_true _ ▸ nonempty)
      refine Known.create (holds.unknown name absent.1) absent.2 cs writeSet ?_ real _ holds.compacted_le
        object frame
      rw [records name, if_neg nonempty, writes]
  · intro name found ws member
    have absent := accepts.absent found
    rcases mem_append.mp member with old | new
    · exact holds.unknown name absent.1 ws old
    obtain rfl := mem_singleton.mp new
    rw [ExtTreeMap.mem_iff_isSome_getElem?, records name, if_pos absent.2]
    simp

end Commit

section Maintenance
variable {history : List (WriteSet Name K V)} {s : Store Name K V}

theorem Known.compact (known : Known history s name created ref) (holds : Holds history s)
    (found : s.maps[name]? = some (created, ref)) (reached : v ≤ s.version) (inside : v ≤ history.length)
    (onward : s.compacted ≤ v) : Known history (s.compact v) name created ref := by
  have object := compact_own holds.named reached found
  obtain ⟨objects, hookCalls, frame⟩ := compact_frame reached
  have moved := known.follows.compact_head (Nat.le_trans known.head_le onward) (by simpa using inside)
  rw [frame] at object ⊢
  constructor
  · exact known.allocated
  · rw [object]
    exact known.named
  · rw [object]
    exact known.hooked
  · rw [object]
    exact known.follows.compact v
  · rw [object]
    exact moved.1
  · rw [object]
    have increasing : (((s.objects ref).roll.head :: (s.objects ref).roll.rest).map fun c => c.version).Pairwise
        (· < ·) := by
      have := known.follows.increasing
      rw [Roll.stamps, pairwise_map] at this
      exact pairwise_map.mpr this
    exact (KvMap.compactRoll_head _ v _ _ increasing (Nat.le_trans known.head_le onward)).2
  · exact known.first
  · rw [object]
    -- The state of the creation is the first one, was dropped for a later one, or is still there.
    obtain ⟨dropped, split⟩ :=
      KvMap.compactRoll_stamps (s.objects ref).globalHook v (s.objects ref).roll.head (s.objects ref).roll.rest
    have stamps : (s.objects ref).roll.stamps = dropped ++ ((s.objects ref).compact v).roll.stamps := split
    have increasing := known.follows.increasing
    have first : (((s.objects ref).compact v).roll.head.version, ((s.objects ref).compact v).roll.head.state) ∈
        (s.objects ref).roll.stamps := stamps ▸ mem_append_right _ (Roll.head_mem _)
    rcases known.kept with before | ⟨p, member, same⟩
    · exact .inl (Nat.le_trans before (Roll.head_le increasing first))
    rw [stamps] at member increasing
    rcases mem_append.mp member with gone | stays
    · have := (pairwise_append.mp increasing).2.2 p gone _ (Roll.head_mem _)
      exact .inl (by dsimp only at this ⊢; omega)
    · exact .inr ⟨p, stays, same⟩

theorem Holds.compact (holds : Holds history s) (versions : s.version = history.length)
    (onward : s.compacted ≤ v) : Holds history (s.compact v) := by
  by_cases reached : v ≤ s.version
  · obtain ⟨objects, hookCalls, frame⟩ := compact_frame reached
    constructor
    · rw [frame]
      exact versions ▸ reached
    · intro name created ref found
      rw [frame] at found
      exact (holds.known name created ref found).compact holds found reached (versions ▸ reached) onward
    · intro name found
      rw [frame] at found
      exact holds.unknown name found
  · unfold Store.compact
    rwa [if_pos (Nat.lt_of_not_le reached)]

theorem Known.rollback (known : Known history s name created ref) (holds : Holds history s)
    (found : s.maps[name]? = some (created, ref)) (inside : v ≤ history.length) (onward : s.compacted ≤ v)
    (created_le : created ≤ v) : Known (history.take v) (s.rollbackMaps v) name created ref := by
  have object := rollbackMaps_own (v := v) holds.named found
  have kept := Nat.le_trans known.head_le onward
  have stamps := KvMap.stamps_rollback known.follows.increasing kept
  constructor
  · exact known.allocated
  · rw [object]
    exact known.named
  · rw [object]
    exact known.hooked
  · rw [object, mapHistory_take]
    exact known.follows.rollback_map kept (by simpa using inside)
  · rw [object]
    exact known.head_le
  · intro c member
    rw [object] at member
    exact known.later c (( rdropWhile_prefix _ _).subset member)
  · exact known.first.take created_le
  · rw [object, stamps]
    refine known.kept.imp_right fun ⟨p, member, same⟩ => ⟨p, mem_filter.mpr ⟨member, ?_⟩, same⟩
    simpa [same] using created_le

theorem Holds.rollbackMaps (holds : Holds history s) (inside : v ≤ history.length) (onward : s.compacted ≤ v) :
    Holds (history.take v) (s.rollbackMaps v) := by
  constructor
  · rw [length_take, Nat.min_eq_left inside]
    exact onward
  · intro name created ref found
    rw [rollbackMaps_maps, filter_eq_some_iff] at found
    exact (holds.known name created ref found.1).rollback holds found.1 inside onward (by simpa using found.2)
  · intro name found writeSet member
    rw [rollbackMaps_maps] at found
    cases known : s.maps[name]? with
    | none => exact holds.unknown name known writeSet (mem_of_mem_take member)
    | some entry =>
      obtain ⟨created, ref⟩ := entry
      simp only [known, filter_some, ite_eq_right_iff, decide_eq_true_eq, reduceCtorEq, imp_false] at found
      refine (holds.known name created ref known).first.before writeSet ?_
      exact take_subset_take_left _ (by omega) member

theorem Holds.newObject (holds : Holds history s) (name : Name) : Holds history (s.newObject name).2 := by
  constructor
  · exact holds.compacted_le
  · intro other created ref found
    have known := holds.known other created ref found
    have object : (s.newObject name).2.objects ref = s.objects ref :=
      Function.update_of_ne (Nat.ne_of_lt known.allocated) _ _
    constructor
    · exact Nat.lt_succ_of_lt known.allocated
    · exact object ▸ known.named
    · exact object ▸ known.hooked
    · exact object ▸ known.follows
    · exact object ▸ known.head_le
    · exact object ▸ known.later
    · exact known.first
    · exact object ▸ known.kept
  · exact holds.unknown

omit [Inhabited V] in
theorem rollback_cases (rolled : s.rollback txid term = some t) : s.compacted ≤ txid.version ∧
    ((s.version ≤ txid.version ∧
        t = { s with termOfNextVersion := term, termOfLastVersion := txid.term }) ∨
      (txid.version < s.version ∧ ∃ r : Replication (WriteSet Name K V), r.version = txid.version ∧
        r.lastReplicated = txid.version ∧ r.pendingTxs = ∅ ∧ r.termOfNextVersion = term ∧
        t = ({ s with toReplication := r }).rollbackMaps txid.version)) := by
  unfold rollback at rolled
  split at rolled
  · cases rolled
  rename_i onward
  refine ⟨Nat.le_of_not_lt onward, ?_⟩
  dsimp only at rolled
  split at rolled
  · rename_i nothing
    exact .inl ⟨nothing, (some.inj rolled).symm⟩
  · rename_i below
    exact .inr ⟨Nat.lt_of_not_le below, _, rfl, rfl, rfl, rfl, (some.inj rolled).symm⟩

theorem Holds.rollback (holds : Holds history s) (versions : s.version = history.length)
    (rolled : s.rollback txid term = some t) :
    Holds (history.take txid.version) t ∧ t.version = (history.take txid.version).length := by
  obtain ⟨onward, ⟨above, rfl⟩ | ⟨below, r, version, -, -, -, rfl⟩⟩ := rollback_cases rolled
  · rw [take_of_length_le (by omega)]
    exact ⟨holds.bookkeeping _ s.lastNewMap, versions⟩
  have inside : txid.version ≤ history.length := by omega
  refine ⟨(holds.bookkeeping r s.lastNewMap).rollbackMaps inside onward, ?_⟩
  rw [length_take, Nat.min_eq_left inside]
  exact version

end Maintenance
end Store
end CCF.Kv
