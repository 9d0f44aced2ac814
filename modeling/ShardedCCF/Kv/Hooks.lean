import ShardedCCF.Kv.Rollback

/-! The global hook of a map is called with the write sets of its commits, each
once and in order, when they are compacted. -/
namespace CCF.Kv
open List Option
open Std (ExtTreeMap)

variable {Name K V : Type} [LinearOrder Name] [LinearOrder K]

def callsFor (calls : List (Name × Nat × Write K V)) (name : Name) : List (Nat × Write K V) :=
  calls.filterMap fun call => if call.1 = name then some call.2 else none

theorem callsFor_append (first second : List (Name × Nat × Write K V)) (name : Name) :
    callsFor (first ++ second) name = callsFor first name ++ callsFor second name := filterMap_append

theorem callsFor_flatMap {B : Type} (f : B → List (Nat × Write K V)) (entries : List (Name × B)) (name : Name)
    (distinct : (entries.map Prod.fst).Nodup) :
    callsFor (entries.flatMap fun e => (f e.2).map fun delta => (e.1, delta)) name =
      ((entries.find? fun e => e.1 = name).map fun e => f e.2).getD [] := by
  induction entries with
  | nil => rfl
  | cons e entries ih =>
    rw [map_cons, nodup_cons] at distinct
    rw [flatMap_cons, callsFor_append, ih distinct.2]
    by_cases same : e.1 = name
    · have others : (entries.find? fun e => e.1 = name) = none := by
        rw [find?_eq_none]
        intro other member isName
        exact distinct.1 (same.trans (of_decide_eq_true isName).symm ▸ List.mem_map_of_mem member)
      have own : callsFor ((f e.2).map fun delta => (e.1, delta)) name = f e.2 := by
        simp [callsFor, filterMap_map, same]
      rw [others, own]
      simp [same]
    have none : callsFor ((f e.2).map fun delta => (e.1, delta)) name = [] := by
      simp [callsFor, filterMap_map, same]
    simp [none, same]

/-- The write sets of a map in the history, with their versions. -/
def committedWrites (history : List (WriteSet Name K V)) (name : Name) : List (Nat × Write K V) :=
  (history.zipIdx 1).filterMap fun entry => entry.1[name]?.map fun writes => (entry.2, writes)

theorem committedWrites_snoc (history : List (WriteSet Name K V)) (writeSet : WriteSet Name K V) (name : Name) :
    committedWrites (history ++ [writeSet]) name =
      committedWrites history name ++ (writeSet[name]?.map fun writes => (history.length + 1, writes)).toList := by
  simp only [committedWrites, zipIdx_append, filterMap_append, zipIdx_singleton]
  rw [Nat.add_comm 1]
  congr 1

theorem committedWrites_of_unwritten {history : List (WriteSet Name K V)}
    (unwritten : ∀ writeSet ∈ history, name ∉ writeSet) : committedWrites history name = [] := by
  rw [committedWrites, filterMap_eq_nil_iff]
  intro entry member
  rw [ExtTreeMap.getElem?_eq_none (unwritten entry.1 (fst_mem_of_mem_zipIdx member))]
  rfl

theorem committedWrites_take (history : List (WriteSet Name K V)) (name : Name) (v : Nat) :
    committedWrites (history.take v) name = (committedWrites history name).filter fun entry => entry.1 ≤ v := by
  induction history using reverseRecOn with
  | nil => simp [committedWrites]
  | append_singleton history writeSet ih =>
    rw [committedWrites_snoc, filter_append, ← ih]
    rcases Nat.lt_or_ge history.length v with whole | inside
    · rw [take_of_length_le (by simpa using whole), committedWrites_snoc, take_of_length_le (by omega)]
      congr 1
      cases writeSet[name]? with
      | none => rfl
      | some writes => simp [Nat.succ_le_of_lt whole]
    rw [take_append_of_le_length inside]
    cases writeSet[name]? with
    | none => simp
    | some writes => simp [Nat.not_le_of_lt (Nat.lt_succ_of_le inside)]

def Store.pendingWrites (s : Store Name K V) (name : Name) : List (Nat × Write K V) :=
  match s.maps[name]? with
  | none => []
  | some (_, ref) => (s.objects ref).roll.rest.map fun c => (c.version, c.writes)

/-- The calls made and the calls to come are the write sets of the history. -/
structure Store.Hooked (history : List (WriteSet Name K V)) (s : Store Name K V) (name : Name) : Prop where
  calls : callsFor s.hookCalls name ++ s.pendingWrites name = committedWrites history name
  called : ∀ call ∈ callsFor s.hookCalls name, call.1 ≤ s.compacted
  object : ∀ created ref, s.maps[name]? = some (created, ref) → (s.objects ref).commitDeltas = [] ∧
    (s.objects ref).roll.head.writes.isEmpty = true ∧ ∀ c ∈ (s.objects ref).roll.rest, c.writes.isEmpty = false

namespace KvMap

theorem compactRoll_deltas (v : Nat) (head : LocalCommit K V) (rest : List (LocalCommit K V))
    (written : ∀ c ∈ rest, c.writes.isEmpty = false)
    (once : rest ≠ [] → head.version = v → head.writes.isEmpty = false) :
    (compactRoll true v head rest).2.2 ++ ((compactRoll true v head rest).2.1.map fun c => (c.version, c.writes)) =
        (if head.writes.isEmpty then [] else [(head.version, head.writes)]) ++
          rest.map (fun c => (c.version, c.writes)) ∧
      (compactRoll true v head rest).1.writes.isEmpty = true ∧
      ∀ c ∈ (compactRoll true v head rest).2.1, c ∈ rest := by
  induction rest generalizing head with
  | nil => cases empty : head.writes.isEmpty <;> simp [compactRoll, moveWrites, empty]
  | cons next rest ih =>
    unfold compactRoll
    split
    case isTrue same =>
      have nonempty := once (by simp) same
      simp [moveWrites, nonempty]
    case isFalse =>
      dsimp only
      split
      case isTrue => cases empty : head.writes.isEmpty <;> simp [moveWrites, empty]
      case isFalse =>
        have nonempty := written next mem_cons_self
        obtain ⟨deltas, cleared, kept⟩ := ih next (fun c member => written c (mem_cons_of_mem _ member))
          (fun _ _ => nonempty)
        refine ⟨?_, cleared, fun c member => mem_cons_of_mem _ (kept c member)⟩
        rw [append_assoc, deltas, nonempty]
        cases head.writes.isEmpty <;> simp [moveWrites]

theorem compactRoll_delta_le (v : Nat) (head : LocalCommit K V) (rest : List (LocalCommit K V))
    (reached : head.version ≤ v) : ∀ delta ∈ (compactRoll true v head rest).2.2, delta.1 ≤ v := by
  have own : ∀ (hook : Bool) (c : LocalCommit K V), c.version ≤ v → ∀ delta ∈ (moveWrites hook c).2, delta.1 ≤ v := by
    intro hook c below delta member
    cases hook with
    | true =>
      obtain rfl := mem_singleton.mp member
      exact below
    | false => cases member
  induction rest generalizing head with
  | nil => exact own _ head reached
  | cons next rest ih =>
    unfold compactRoll
    split
    · exact own _ head reached
    dsimp only
    split
    · exact own _ head reached
    rename_i notAbove
    intro delta member
    rcases mem_append.mp member with here | later
    · exact own _ head reached delta here
    · exact ih next (Nat.le_of_not_lt notAbove) delta later

omit [LinearOrder Name] in
theorem commit_of_changes [Inhabited V] (m : KvMap Name K V) (cs : ChangeSet K V) (v : Nat)
    (nonempty : cs.writes.isEmpty = false) (real : Kv.changes m.roll.tail.state cs.writes = true) :
    m.commit cs v =
      { m with roll := m.roll.push ⟨v, applyWrites v m.roll.tail.state cs.writes, cs.writes⟩ } := by
  simp [commit, nonempty, real]

end KvMap

namespace Store
variable {history : List (WriteSet Name K V)} {s : Store Name K V} {name : Name}

theorem Hooked.frame {t : Store Name K V} (hooked : s.Hooked history name) (calls : t.hookCalls = s.hookCalls)
    (compacted : t.compacted = s.compacted) (maps : t.maps = s.maps)
    (objects : ∀ created ref, s.maps[name]? = some (created, ref) → t.objects ref = s.objects ref) :
    t.Hooked history name := by
  constructor
  · rw [← hooked.calls, calls, pendingWrites, pendingWrites, maps]
    cases found : s.maps[name]? with
    | none => rfl
    | some entry =>
      obtain ⟨created, ref⟩ := entry
      simp only [objects created ref found]
  · rw [calls, compacted]
    exact hooked.called
  · intro created ref found
    rw [maps] at found
    rw [objects created ref found]
    exact hooked.object created ref found

variable [Inhabited V]

theorem Hooked.commit {t : Store Name K V} (hooked : s.Hooked history name)
    (found : s.maps[name]? = some (created, ref)) (cs : ChangeSet K V) (writeSet : WriteSet Name K V)
    (writes : writeSet[name]? = if cs.writes.isEmpty then none else some cs.writes)
    (real : cs.writes.isEmpty = false → Kv.changes (s.objects ref).roll.tail.state cs.writes = true)
    (object : t.objects ref = (s.objects ref).commit cs (history.length + 1))
    (calls : t.hookCalls = s.hookCalls) (compacted : t.compacted = s.compacted)
    (known : t.maps[name]? = some (created, ref)) : t.Hooked (history ++ [writeSet]) name := by
  obtain ⟨deltas, cleared, written⟩ := hooked.object created ref found
  have before := hooked.calls
  simp only [pendingWrites, found] at before
  cases empty : cs.writes.isEmpty with
  | true =>
    have same : t.objects ref = s.objects ref := by
      rw [object]
      simp [KvMap.commit, empty]
    constructor
    · rw [committedWrites_snoc, writes, empty, ← before, calls]
      simp only [pendingWrites, known, same]
      simp
    · rw [calls, compacted]
      exact hooked.called
    · intro created' ref' found'
      rw [known] at found'
      cases found'
      exact ⟨by rw [same, deltas], by rw [same, cleared], by rwa [same]⟩
  | false =>
    rw [KvMap.commit_of_changes _ _ _ empty (real empty)] at object
    constructor
    · rw [committedWrites_snoc, writes, empty, ← before, calls]
      simp only [pendingWrites, known, object, Roll.push]
      simp
    · rw [calls, compacted]
      exact hooked.called
    · intro created' ref' found'
      rw [known] at found'
      cases found'
      refine ⟨by rw [object, deltas], by rw [object]; exact cleared, fun c member => ?_⟩
      rw [object] at member
      rcases mem_append.mp member with old | new
      · exact written c old
      · obtain rfl := mem_singleton.mp new
        exact empty

theorem Hooked.applied {changes : OrderedChanges Name K V} {newMaps : ExtTreeMap Name Nat}
    {writeSet : WriteSet Name K V} (hooked : s.Hooked history name) (holds : s.Holds history)
    (accepts : Accepts s changes newMaps) (records : Records changes writeSet)
    (real : ∀ ref cs, changes[name]? = some (ref, .transaction cs) → cs.hasWrites = true →
      Kv.changes (s.objects ref).roll.tail.state cs.writes = true)
    (clean : ∀ ref, newMaps[name]? = some ref → (s.objects ref).commitDeltas = []) :
    (s.applied (history.length + 1) changes newMaps).Hooked (history ++ [writeSet]) name := by
  obtain ⟨calls, compacted⟩ : (s.applied (history.length + 1) changes newMaps).hookCalls = s.hookCalls ∧
      (s.applied (history.length + 1) changes newMaps).compacted = s.compacted := by
    obtain ⟨maps, objects, frame⟩ := applied_frame (s := s) (history.length + 1) changes newMaps
    rw [frame]
    exact ⟨rfl, rfl⟩
  cases found : s.maps[name]? with
  | some entry =>
    obtain ⟨created, ref⟩ := entry
    have known := holds.known name created ref found
    obtain ⟨cs, writes, object⟩ := accepts.known_object (history.length + 1) known.named found
    have stays : (s.applied (history.length + 1) changes newMaps).maps[name]? = some (created, ref) := by
      rw [accepts.maps_applied]
      split
      · rename_i fresh isNew
        rw [(accepts.fresh name fresh isNew).1] at found
        cases found
      · exact found
    refine hooked.commit found cs writeSet (by rw [records name, writes]) (fun nonempty => ?_) object calls
      compacted stays
    rw [writes] at nonempty ⊢
    obtain ⟨other, cs', member, same, has⟩ := accepts.written_of nonempty
    rcases accepts.target name other cs' member has with ⟨_, inTable⟩ | ⟨isNew, -⟩
    · rw [found] at inTable
      cases inTable
      rw [same]
      exact real ref cs' member has
    · rw [(accepts.fresh name other isNew).1] at found
      cases found
  | none =>
    have nothing : callsFor s.hookCalls name = [] := by
      have before := hooked.calls
      rw [committedWrites_of_unwritten (holds.unknown name found)] at before
      exact (append_eq_nil_iff.mp before).1
    cases after : (s.applied (history.length + 1) changes newMaps).maps[name]? with
    | none =>
      obtain ⟨-, empty⟩ := accepts.absent after
      constructor
      · rw [committedWrites_snoc, committedWrites_of_unwritten (holds.unknown name found), records name, empty,
          pendingWrites, after, calls]
        simpa using nothing
      · rw [calls, compacted]
        exact hooked.called
      · intro created ref inTable
        rw [after] at inTable
        cases inTable
    | some entry =>
      have published := accepts.maps_applied (history.length + 1) name
      rw [after, found] at published
      split at published
      · rename_i ref isNew
        split at published
        · cases published
        rename_i nonempty
        cases published
        rw [Bool.not_eq_true] at nonempty
        obtain ⟨cs, writes, changed, object⟩ := accepts.new_object (history.length + 1) isNew nonempty
        have initial := (accepts.fresh name ref isNew).2.2.2
        rw [KvMap.commit_of_changes _ _ _ (by rw [writes, nonempty]) (by rw [initial]; exact changed)] at object
        constructor
        · rw [committedWrites_snoc, committedWrites_of_unwritten (holds.unknown name found), records name, nonempty,
            pendingWrites, after, ← writes]
          simp only [object, Roll.push, initial, Roll.initial, calls, nothing]
          simp
        · rw [calls, compacted]
          exact hooked.called
        · intro created' ref' inTable
          rw [after] at inTable
          cases inTable
          refine ⟨by rw [object, clean ref isNew], ?_, fun c member => ?_⟩
          · rw [object, initial]
            rfl
          · simp only [object, Roll.push, initial, Roll.initial, nil_append, mem_singleton] at member
            rw [member, writes]
            exact nonempty
      · cases published

omit [Inhabited V] in
theorem callsFor_compact (named : Named s.objects s.maps Prod.snd) (reached : v ≤ s.version) (name : Name) :
    callsFor (s.compact v).hookCalls name = callsFor s.hookCalls name ++
      match s.maps[name]? with
      | none => []
      | some (_, ref) => ((s.objects ref).compact v).postCompact.1 := by
  have calls : (s.compact v).hookCalls = s.hookCalls ++ s.maps.toList.flatMap fun e =>
      ((s.updateMaps fun m => m.compact v).objects e.2.2).postCompact.1.map fun delta => (e.1, delta) := by
    unfold compact
    rw [if_neg (Nat.not_lt.mpr reached)]
    rfl
  rw [calls, callsFor_append, callsFor_flatMap (fun entry : Nat × Nat =>
    ((s.updateMaps fun m => m.compact v).objects entry.2).postCompact.1) _ _ (Lib.nodup_keys_toList s.maps)]
  congr 1
  cases found : s.maps[name]? with
  | none =>
    have absent : (s.maps.toList.find? fun e => e.1 = name) = none := by
      rw [find?_eq_none]
      intro e member isName
      have := ExtTreeMap.mem_toList_iff_getElem?_eq_some.mp member
      rw [of_decide_eq_true isName, found] at this
      cases this
    rw [absent]
    rfl
  | some entry =>
    obtain ⟨created, ref⟩ := entry
    have present : (s.maps.toList.find? fun e => e.1 = name) = some (name, created, ref) := by
      have member := ExtTreeMap.mem_toList_iff_getElem?_eq_some.mpr found
      cases first : (s.maps.toList.find? fun e => e.1 = name) with
      | none =>
        rw [find?_eq_none] at first
        exact absurd (decide_eq_true rfl) (first _ member)
      | some e =>
        have known := ExtTreeMap.mem_toList_iff_getElem?_eq_some.mp (mem_of_find?_eq_some first)
        have isName : e.1 = name := by simpa using find?_some first
        rw [isName, found] at known
        rw [some.inj known, ← isName]
    rw [present]
    simp only [map_some, getD_some]
    rw [updateMaps_own named _ found]

theorem Hooked.compact (hooked : s.Hooked history name) (holds : s.Holds history)
    (hook : s.globalHooks name = true)
    (strict : s.compacted < v ∨ (s.compacted = v ∧ s.maps[name]? = none)) :
    (s.compact v).Hooked history name := by
  by_cases reached : v ≤ s.version
  case neg =>
    have same : s.compact v = s := if_pos (Nat.lt_of_not_le reached)
    rwa [same]
  obtain ⟨objects, hookCalls, frame⟩ := compact_frame reached
  have maps : (s.compact v).maps = s.maps := by rw [frame]
  have compacted : (s.compact v).compacted = v := by rw [frame]
  have calls := callsFor_compact holds.named reached name
  have before := hooked.calls
  have onward : s.compacted ≤ v := by omega
  cases found : s.maps[name]? with
  | none =>
    simp only [found, append_nil] at calls
    simp only [pendingWrites, found] at before
    constructor
    · rw [calls, pendingWrites, maps, found]
      exact before
    · rw [calls, compacted]
      exact fun call member => Nat.le_trans (hooked.called call member) onward
    · intro created ref inTable
      rw [maps, found] at inTable
      cases inTable
  | some entry =>
    obtain ⟨created, ref⟩ := entry
    have known := holds.known name created ref found
    obtain ⟨deltas, cleared, written⟩ := hooked.object created ref found
    have object := compact_own holds.named reached found
    have later : s.compacted < v := by
      rcases strict with later | ⟨-, absent⟩
      · exact later
      · rw [found] at absent
        cases absent
    have isHooked : (s.objects ref).globalHook = true := known.hooked.trans hook
    obtain ⟨moved, emptied, kept⟩ := KvMap.compactRoll_deltas v (s.objects ref).roll.head (s.objects ref).roll.rest
      written (fun _ same => absurd known.head_le (by omega))
    rw [cleared, if_pos rfl, nil_append] at moved
    simp only [found, KvMap.postCompact, KvMap.compact, isHooked, if_true, deltas, nil_append] at calls
    simp only [pendingWrites, found] at before
    constructor
    · rw [calls, pendingWrites, maps, found]
      simp only [object, KvMap.compact, isHooked]
      rw [append_assoc, moved, before]
    · -- What is moved out was not moved before, and is not later than the version.
      rw [calls, compacted]
      intro call member
      rcases mem_append.mp member with old | new
      · exact Nat.le_trans (hooked.called call old) onward
      · exact KvMap.compactRoll_delta_le v _ _ (Nat.le_trans known.head_le onward) call new
    · intro created' ref' inTable
      rw [maps, found] at inTable
      cases inTable
      rw [object]
      refine ⟨rfl, ?_, ?_⟩
      · simp only [KvMap.compact, isHooked]
        exact emptied
      · simp only [KvMap.compact, isHooked]
        exact fun c member => written c (kept c member)

theorem Hooked.rollbackMaps (hooked : s.Hooked history name) (holds : s.Holds history) (onward : s.compacted ≤ v) :
    (s.rollbackMaps v).Hooked (history.take v) name := by
  have before := hooked.calls
  have called : (callsFor s.hookCalls name).filter (fun call => call.1 ≤ v) = callsFor s.hookCalls name := by
    rw [filter_eq_self]
    exact fun call member => decide_eq_true (Nat.le_trans (hooked.called call member) onward)
  have cut : callsFor s.hookCalls name ++ (s.pendingWrites name).filter (fun call => call.1 ≤ v) =
      committedWrites (history.take v) name := by
    rw [committedWrites_take, ← before, filter_append, called]
  have maps := rollbackMaps_maps (s := s) (v := v) name
  cases found : s.maps[name]? with
  | none =>
    simp only [found, filter_none] at maps
    constructor
    · rw [← cut]
      simp only [pendingWrites, maps, found]
      rfl
    · exact hooked.called
    · intro created ref inTable
      rw [maps] at inTable
      cases inTable
  | some entry =>
    obtain ⟨created, ref⟩ := entry
    have known := holds.known name created ref found
    obtain ⟨deltas, cleared, written⟩ := hooked.object created ref found
    have object := rollbackMaps_own (v := v) holds.named found
    have increasing : ((s.objects ref).roll.rest.map fun c => c.version).Pairwise (· < ·) := by
      have := known.follows.increasing
      simp only [Roll.stamps, Roll.commits, map_cons, pairwise_cons, pairwise_map] at this
      exact pairwise_map.mpr this.2
    by_cases kept : created ≤ v
    · simp only [found, filter_some, kept, decide_true, if_true] at maps
      have rest : ((s.rollbackMaps v).objects ref).roll.rest =
          (s.objects ref).roll.rest.filter fun c => c.version ≤ v := by
        rw [object]
        exact rdropWhile_eq_filter increasing
      constructor
      · rw [← cut]
        simp only [pendingWrites, maps, found, rest, List.filter_map]
        rfl
      · exact hooked.called
      · intro created' ref' inTable
        rw [maps] at inTable
        cases inTable
        refine ⟨by rw [object]; exact deltas, by rw [object]; exact cleared, fun c member => ?_⟩
        rw [rest] at member
        exact written c (mem_of_mem_filter member)
    · simp only [found, filter_some, kept, decide_false] at maps
      -- The map was first written after the version, so nothing was called for it.
      have unwritten : ∀ writeSet ∈ history.take v, name ∉ writeSet := fun writeSet member =>
        known.first.before writeSet (take_subset_take_left _ (by omega) member)
      have nothing := (append_eq_nil_iff.mp (cut.trans (committedWrites_of_unwritten unwritten))).1
      constructor
      · rw [committedWrites_of_unwritten unwritten]
        simp only [pendingWrites, maps]
        exact (append_nil _).trans nothing
      · exact hooked.called
      · intro created' ref' inTable
        rw [maps] at inTable
        cases inTable

theorem Hooked.rollback {t : Store Name K V} (hooked : s.Hooked history name) (holds : s.Holds history)
    (versions : s.version = history.length) (rolled : s.rollback txid term = some t) :
    t.Hooked (history.take txid.version) name := by
  obtain ⟨onward, ⟨above, rfl⟩ | ⟨below, r, -, -, -, -, rfl⟩⟩ := rollback_cases rolled
  · rw [take_of_length_le (by omega)]
    exact hooked.frame rfl rfl rfl fun _ _ _ => rfl
  · have moved : Hooked history { s with toReplication := r } name := hooked.frame rfl rfl rfl fun _ _ _ => rfl
    exact moved.rollbackMaps (holds.bookkeeping r s.lastNewMap) onward

end Store
namespace System
variable {history : List (WriteSet Name K V)} {s t : System Name K V} {name : Name}

/-- Compactions are at increasing versions. One at version 0 comes before the
creation of any map with a hook. -/
def advances (taken : Transition Name K V) : Bool :=
  match taken.action with
  | .compact v =>
    taken.pre.store.compacted < v ||
      (taken.pre.store.compacted = v && taken.pre.store.maps.keys.all fun name => !taken.pre.store.globalHooks name)
  | _ => true

theorem goesOn_of_advances {taken : Transition Name K V} (advance : advances taken = true) : goesOn taken = true := by
  unfold advances at advance
  unfold goesOn
  split
  · rename_i v is
    simp only [is, Bool.or_eq_true, Bool.and_eq_true, decide_eq_true_eq] at advance ⊢
    omega
  · rfl

variable [Inhabited V]

theorem Consistent.hooked_written (consistent : Consistent history s) (hooked : s.store.Hooked history name)
    (live : (s.txs i).committed = false)
    (prepared : ∀ (name : Name) ref cs, (s.txs i).allChanges[name]? = some (ref, cs) →
      (s.store.objects ref).prepare cs = true)
    (unknown : ∀ (name : Name) ref, (s.txs i).createdMaps[name]? = some ref →
      s.store.getMap s.store.version name = none)
    (applied : a = (s.store.nextVersion (!(s.txs i).createdMaps.isEmpty)).2.applied (s.store.version + 1)
      (s.txs i).changes (s.txs i).createdMaps)
    (r : Replication (WriteSet Name K V)) :
    Store.Hooked (history ++ [(s.txs i).writeSet]) { a with toReplication := r } name := by
  have accepts := consistent.accepts live prepared unknown
  generalize resolved : (s.store.nextVersion (!(s.txs i).createdMaps.isEmpty)).2 = s₁ at applied
  obtain ⟨r₁, lastNewMap, rfl⟩ : ∃ r₁ lastNewMap, s₁ = { s.store with toReplication := r₁, lastNewMap } :=
    ⟨_, _, resolved.symm⟩
  have accepts₁ : Store.Accepts { s.store with toReplication := r₁, lastNewMap } (s.txs i).changes
      (s.txs i).createdMaps := ⟨accepts.transactions, accepts.target, accepts.fresh⟩
  have hooked₁ : Store.Hooked history { s.store with toReplication := r₁, lastNewMap } name :=
    hooked.frame rfl rfl rfl fun _ _ _ => rfl
  have after := hooked₁.applied (consistent.holds.bookkeeping r₁ lastNewMap) accepts₁ (s.txs i).records_writeSet
    (fun ref cs found has => by
      obtain ⟨cs', same, member⟩ := Tx.changes_eq_some found
      cases same
      exact ((consistent.fits i).changed name ref cs member).2.2.changes
        (KvMap.counter_of_prepare (prepared name ref cs member) has) has)
    (fun ref found => (consistent.owned i live name ref found).1.2)
  rw [← consistent.version, ← applied] at after
  exact after.frame rfl rfl rfl fun _ _ _ => rfl

theorem Consistent.hooked_step (consistent : Consistent history s) (hooked : s.store.Hooked history name)
    (hook : s.store.globalHooks name = true) (advance : advances ⟨s, a, t⟩ = true) (moved : s.step a = some t) :
    t.store.Hooked (extend history ⟨s, a, t⟩) name ∧ t.store.globalHooks name = true := by
  cases a with
  | handle i other =>
    have acquires := (s.txs i).getHandleByName_acquires s.store other
    simp only [System.step, some.injEq] at moved
    subst moved
    generalize (s.txs i).getHandleByName s.store other = result at acquires
    cases acquires with
    | again => exact ⟨hooked, hook⟩
    | known => exact ⟨hooked, hook⟩
    | conflict => exact ⟨hooked, hook⟩
    | fresh =>
      refine ⟨hooked.frame rfl rfl rfl fun created ref found => ?_, hook⟩
      exact Function.update_of_ne (Nat.ne_of_lt (consistent.holds.known name created ref found).allocated) _ _
  | operate i other op =>
    simp only [System.step] at moved
    split at moved
    · cases moved
    · cases moved
      exact ⟨hooked, hook⟩
  | compact v =>
    cases moved
    refine ⟨hooked.compact consistent.holds hook ?_, ?_⟩
    · simp only [advances, Bool.or_eq_true, Bool.and_eq_true, decide_eq_true_eq, List.all_eq_true] at advance
      rcases advance with later | ⟨same, unhooked⟩
      · exact .inl later
      refine .inr ⟨same, ExtTreeMap.getElem?_eq_none fun member => ?_⟩
      have := unhooked name (ExtTreeMap.mem_keys.mpr member)
      simp [hook] at this
    · by_cases reached : v ≤ s.store.version
      · obtain ⟨_, _, frame⟩ := Store.compact_frame reached
        rw [frame]
        exact hook
      have same : s.store.compact v = s.store := if_pos (Nat.lt_of_not_le reached)
      rw [same]
      exact hook
  | rollback txid term =>
    obtain ⟨store, rolled, rfl⟩ := map_eq_some_iff.mp moved
    refine ⟨hooked.rollback consistent.holds consistent.version rolled, ?_⟩
    obtain ⟨-, ⟨-, rfl⟩ | ⟨-, r, -, -, -, -, rfl⟩⟩ := Store.rollback_cases rolled <;> exact hook
  | commit i consensus =>
    obtain ⟨outcome, committed, rfl⟩ := map_eq_some_iff.mp moved
    obtain ⟨live, commits⟩ := Tx.commit_commits committed
    have unmoved : ¬ s.store.version = s.store.version + 1 := by omega
    cases commits with
    | empty nothing | conflict | readOnly idle =>
      simp only [extend, if_neg unmoved]
      exact ⟨hooked, hook⟩
    | written prepared unknown writes applied replicated =>
      rename_i a result batch r
      have version := Tx.written_version applied replicated
      simp only [extend, version, if_true]
      refine ⟨consistent.hooked_written hooked live prepared unknown applied r, ?_⟩
      obtain ⟨maps, objects, frame⟩ := Store.applied_frame
        (s := (s.store.nextVersion (!(s.txs i).createdMaps.isEmpty)).2) (s.store.version + 1)
        (s.txs i).changes (s.txs i).createdMaps
      rw [applied, frame]
      exact hook

def hookedStore : Store Nat Nat Nat := { Store.empty with globalHooks := fun _ => true }

/-- The versions of the compactions, from the newest to the oldest. -/
def compactions (trace : List (Transition Nat Nat Nat)) : List Nat :=
  trace.filterMap fun taken =>
    match taken.action with
    | .compact v => some v
    | _ => none

end System
end CCF.Kv
