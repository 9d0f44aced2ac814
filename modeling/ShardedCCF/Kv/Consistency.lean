import ShardedCCF.Kv.History

/-! Open transactions and the store they work on. A change set whose map was not
rolled back since belongs to a map of the table, or to a map that only its
transaction knows. -/
namespace CCF.Kv
open Lib Function
open Std (ExtTreeMap)

variable {Name K V : Type} [LinearOrder Name] [LinearOrder K]

/-- A change set against its map: only keys of its state are removed, and they
are still there unless the map was rolled back. -/
structure ChangeSet.Backed (m : KvMap Name K V) (cs : ChangeSet K V) : Prop where
  removed : ∀ k : K, cs.writes[k]? = some none → k ∈ cs.state
  counter : cs.rollbackCounter ≤ m.roll.rollbackCounter
  keys : cs.rollbackCounter = m.roll.rollbackCounter → ∀ k ∈ cs.state, k ∈ m.roll.tail.state

structure ChangeSet.Extends (cs cs' : ChangeSet K V) : Prop where
  rollbackCounter : cs'.rollbackCounter = cs.rollbackCounter
  state : cs'.state = cs.state
  committed : cs'.committed = cs.committed
  startVersion : cs'.startVersion = cs.startVersion
  removed : (∀ k : K, cs.writes[k]? = some none → k ∈ cs.state) →
    ∀ k : K, cs'.writes[k]? = some none → k ∈ cs'.state

namespace ChangeSet

theorem Extends.refl (cs : ChangeSet K V) : cs.Extends cs := ⟨rfl, rfl, rfl, rfl, fun removed => removed⟩

theorem Extends.trans {a b c : ChangeSet K V} (first : a.Extends b) (second : b.Extends c) : a.Extends c :=
  ⟨second.rollbackCounter.trans first.rollbackCounter, second.state.trans first.state,
    second.committed.trans first.committed, second.startVersion.trans first.startVersion,
    fun removed => second.removed (first.removed removed)⟩

section
variable (cs : ChangeSet K V)

theorem readKey_extends (key : K) : cs.Extends (cs.readKey key).2 := by
  unfold readKey
  split
  · exact .refl cs
  · split <;> exact ⟨rfl, rfl, rfl, rfl, fun removed => removed⟩

theorem put_extends (key : K) (value : V) : cs.Extends (cs.put key value) := by
  refine ⟨rfl, rfl, rfl, rfl, fun removed k found => ?_⟩
  obtain ⟨-, ⟨⟩⟩ | ⟨-, old⟩ := insert_eq_some found
  exact removed k old

theorem remove_extends (key : K) : cs.Extends (cs.remove key).2 := by
  have recorded : key ∈ cs.state → cs.Extends { cs with writes := cs.writes.insert key none } := by
    refine fun present => ⟨rfl, rfl, rfl, rfl, fun removed k found => ?_⟩
    obtain ⟨rfl, -⟩ | ⟨-, old⟩ := insert_eq_some found
    · exact present
    · exact removed k old
  unfold remove
  split
  · split
    · rename_i present
      exact recorded (ExtTreeMap.contains_iff_mem.mp present)
    · exact ⟨rfl, rfl, rfl, rfl, fun removed k found => removed k (erase_eq_some found).2⟩
  split
  · rename_i present
    exact recorded (ExtTreeMap.contains_iff_mem.mp present)
  · exact .refl cs

theorem foreach_extends (visit : K → V → Bool) : cs.Extends (cs.foreach visit).2 :=
  ⟨rfl, rfl, rfl, rfl, fun removed => removed⟩

theorem clear_extends : cs.Extends cs.clear := by
  have removals : ∀ (pairs : List (K × V)) (cs : ChangeSet K V),
      cs.Extends (pairs.foldl (fun cs pair => (cs.remove pair.1).2) cs) := by
    intro pairs
    induction pairs with
    | nil => exact fun cs => .refl cs
    | cons pair pairs ih => exact fun cs => (cs.remove_extends pair.1).trans (ih _)
  exact (cs.foreach_extends fun _ _ => true).trans (removals _ _)

theorem operate_extends (op : Operation K V) : cs.Extends (cs.operate op).2 := by
  cases op with
  | get key => exact cs.readKey_extends key
  | has key => exact cs.readKey_extends key
  | foreach visit => exact cs.foreach_extends visit
  | size => exact cs.foreach_extends fun _ _ => true
  | put key value => exact cs.put_extends key value
  | remove key => exact cs.remove_extends key
  | clear => exact cs.clear_extends

end

omit [LinearOrder Name] in
theorem Backed.changes {m : KvMap Name K V} {cs : ChangeSet K V} (backed : cs.Backed m)
    (counter : cs.rollbackCounter = m.roll.rollbackCounter) (has : cs.hasWrites = true) :
    Kv.changes m.roll.tail.state cs.writes = true := by
  simp only [hasWrites, Bool.not_eq_true'] at has
  obtain ⟨⟨k, written⟩, entry⟩ := List.exists_mem_of_ne_nil cs.writes.toList fun empty => by
    rw [ExtTreeMap.toList_eq_nil_iff.mp empty] at has
    simp at has
  refine List.any_eq_true.mpr ⟨(k, written), entry, ?_⟩
  cases written with
  | some value => rfl
  | none =>
    have present := backed.removed k (ExtTreeMap.mem_toList_iff_getElem?_eq_some.mp entry)
    simp [ExtTreeMap.contains_iff_mem.mpr (backed.keys counter k present)]

omit [LinearOrder Name] in
theorem Backed.extends {m : KvMap Name K V} {cs cs' : ChangeSet K V} (backed : cs.Backed m)
    (extended : cs.Extends cs') : cs'.Backed m := by
  constructor
  · exact extended.removed backed.removed
  · rw [extended.rollbackCounter]
    exact backed.counter
  · rw [extended.rollbackCounter, extended.state]
    exact backed.keys

end ChangeSet

structure Tx.Fits (s : Store Name K V) (tx : Tx Name K V) : Prop where
  created : ∀ (name : Name) ref, tx.createdMaps[name]? = some ref →
    ref < s.nextObject ∧ (s.objects ref).name = name
  changed : ∀ (name : Name) ref cs, tx.allChanges[name]? = some (ref, cs) →
    ref < s.nextObject ∧ (s.objects ref).name = name ∧ cs.Backed (s.objects ref)
  current : tx.committed = false → ∀ (name : Name) ref cs, tx.allChanges[name]? = some (ref, cs) →
    cs.rollbackCounter = (s.objects ref).roll.rollbackCounter →
      (∃ created, s.maps[name]? = some (created, ref)) ∨ tx.createdMaps[name]? = some ref

structure Store.Evolves (s t : Store Name K V) : Prop where
  allocated : s.nextObject ≤ t.nextObject
  name : ∀ i < s.nextObject, (t.objects i).name = (s.objects i).name
  counter : ∀ i < s.nextObject, (s.objects i).roll.rollbackCounter ≤ (t.objects i).roll.rollbackCounter
  keys : ∀ i < s.nextObject, (t.objects i).roll.rollbackCounter = (s.objects i).roll.rollbackCounter →
    ∀ k ∈ (s.objects i).roll.tail.state, k ∈ (t.objects i).roll.tail.state
  known : ∀ (name : Name) created i, s.maps[name]? = some (created, i) →
    (t.objects i).roll.rollbackCounter = (s.objects i).roll.rollbackCounter →
      ∃ created, t.maps[name]? = some (created, i)

theorem ChangeSet.Backed.evolves {s t : Store Name K V} {cs : ChangeSet K V} (evolves : s.Evolves t)
    (allocated : i < s.nextObject) (backed : cs.Backed (s.objects i)) : cs.Backed (t.objects i) := by
  have moved := evolves.counter i allocated
  constructor
  · exact backed.removed
  · exact Nat.le_trans backed.counter moved
  · intro same k member
    have before : cs.rollbackCounter = (s.objects i).roll.rollbackCounter := by
      have := backed.counter
      omega
    exact evolves.keys i allocated (same.symm.trans before) k (backed.keys before k member)

theorem Tx.Fits.evolves {s t : Store Name K V} {tx : Tx Name K V} (evolves : s.Evolves t) (fits : tx.Fits s) :
    tx.Fits t := by
  constructor
  · intro name ref found
    obtain ⟨allocated, named⟩ := fits.created name ref found
    exact ⟨Nat.lt_of_lt_of_le allocated evolves.allocated, (evolves.name ref allocated).trans named⟩
  · intro name ref cs found
    obtain ⟨allocated, named, backed⟩ := fits.changed name ref cs found
    exact ⟨Nat.lt_of_lt_of_le allocated evolves.allocated, (evolves.name ref allocated).trans named,
      backed.evolves evolves allocated⟩
  · intro live name ref cs found same
    obtain ⟨allocated, named, backed⟩ := fits.changed name ref cs found
    have moved := evolves.counter ref allocated
    have before : cs.rollbackCounter = (s.objects ref).roll.rollbackCounter := by
      have := backed.counter
      omega
    rcases fits.current live name ref cs found before with ⟨created, known⟩ | own
    · exact .inl (evolves.known name created ref known (same.symm.trans before))
    · exact .inr own

theorem Store.Evolves.bookkeeping (s : Store Name K V) (r : Replication (WriteSet Name K V)) (lastNewMap : Nat) :
    s.Evolves { s with toReplication := r, lastNewMap } :=
  ⟨Nat.le_refl _, fun _ _ => rfl, fun _ _ => Nat.le_refl _, fun _ _ _ _ member => member,
    fun _ created _ found _ => ⟨created, found⟩⟩

variable [Inhabited V]

namespace Store
variable {history : List (WriteSet Name K V)} {s : Store Name K V}

omit [Inhabited V] in
theorem Evolves.newObject (name : Name) : s.Evolves (s.newObject name).2 := by
  have same : ∀ i < s.nextObject, (s.newObject name).2.objects i = s.objects i :=
    fun i allocated => update_of_ne (Nat.ne_of_lt allocated) _ _
  constructor
  · exact Nat.le_succ _
  · exact fun i allocated => by rw [same i allocated]
  · exact fun i allocated => by rw [same i allocated]
  · exact fun i allocated _ k member => by rwa [same i allocated]
  · exact fun _ created i found _ => ⟨created, found⟩

section
variable {changes : OrderedChanges Name K V}

section
variable {newMaps : ExtTreeMap Name Nat}

theorem Accepts.object_frame (accepts : Accepts s changes newMaps) (v i : Nat) :
    ∃ m : KvMap Name K V, m.name = (s.objects i).name ∧ m.roll = (s.objects i).roll ∧
      ((s.applied v changes newMaps).objects i = m ∨
        ∃ cs, (s.applied v changes newMaps).objects i = m.commit cs v) := by
  refine ⟨(s.publish v changes newMaps).objects i, publish_name v changes newMaps accepts.new_named i, ?_, ?_⟩
  · by_cases published : ∃ name : Name, newMaps[name]? = some i ∧ writesTo changes name = true
    · obtain ⟨name, found, written⟩ := published
      rw [publish_object v changes newMaps accepts.new_named found written]
    · rw [publish_other v changes newMaps fun name found => ?_]
      exact Bool.not_eq_true _ ▸ fun written => published ⟨name, found, written⟩
  · by_cases changed : ∃ (name : Name) (c : Changes K V), changes[name]? = some (i, c)
    · obtain ⟨name, c, found⟩ := changed
      obtain ⟨_, cs, rfl⟩ := accepts.transactions name i c found
      exact .inr ⟨cs, commitAll_own (accepts.named_published v) v found⟩
    · exact .inl (commitAll_other v fun name c found => changed ⟨name, c, found⟩)

theorem applied_other (v : Nat) (unchanged : ∀ (name : Name) c, changes[name]? ≠ some (i, c))
    (old : ∀ name : Name, newMaps[name]? ≠ some i) : (s.applied v changes newMaps).objects i = s.objects i := by
  rw [applied, commitAll_other v unchanged, publish_other v changes newMaps fun name found => absurd found (old name)]

theorem Evolves.applied (accepts : Accepts s changes newMaps) (v : Nat) :
    s.Evolves (s.applied v changes newMaps) := by
  obtain ⟨maps, objects, frame⟩ := applied_frame (s := s) v changes newMaps
  constructor
  · rw [frame]
  · intro i _
    obtain ⟨m, name, -, same | ⟨cs, same⟩⟩ := accepts.object_frame v i <;> simp [same, name]
  · intro i _
    obtain ⟨m, -, roll, same | ⟨cs, same⟩⟩ := accepts.object_frame v i <;> simp [same, roll]
  · intro i _ _ k member
    obtain ⟨m, -, roll, same | ⟨cs, same⟩⟩ := accepts.object_frame v i
    · rwa [same, roll]
    · rw [same]
      exact m.commit_keys cs v (roll ▸ member)
  · intro name created i found _
    rw [accepts.maps_applied v name]
    split
    case h_1 ref isNew =>
      rw [(accepts.fresh name ref isNew).1] at found
      cases found
    case h_2 => exact ⟨created, found⟩

end

end

theorem Evolves.compact (holds : Holds history s) (v : Nat) : s.Evolves (s.compact v) := by
  by_cases reached : v ≤ s.version
  case neg =>
    have same : s.compact v = s := if_pos (Nat.lt_of_not_le reached)
    rw [same]
    exact .bookkeeping s s.toReplication s.lastNewMap
  obtain ⟨objects, hookCalls, frame⟩ := compact_frame reached
  have object : ∀ i, (s.compact v).objects i = s.objects i ∨
      (s.compact v).objects i = { (s.objects i).compact v with commitDeltas := [] } := by
    intro i
    by_cases known : ∃ (name : Name) (created : Nat), s.maps[name]? = some (created, i)
    · obtain ⟨name, created, found⟩ := known
      exact .inr (compact_own holds.named reached found)
    · exact .inl (compact_other fun name created found => known ⟨name, created, found⟩)
  constructor
  · rw [frame]
  · intro i _
    rcases object i with same | same <;> rw [same]
    rfl
  · intro i _
    rcases object i with same | same <;> rw [same]
    exact Nat.le_refl _
  · intro i _ _ k member
    rcases object i with same | same <;> rw [same]
    · exact member
    · rwa [((s.objects i).compact_tail v).2]
  · intro name created i found _
    exact ⟨created, by rwa [frame]⟩

/-- A map whose creation is rolled back shows it to those who still hold it. -/
theorem Known.forgotten (known : Known history s name created ref) (onward : s.compacted ≤ v)
    (later : v < created) :
    ((s.objects ref).rollback v).roll.rollbackCounter = (s.objects ref).roll.rollbackCounter + 1 := by
  rcases (s.objects ref).rollback_cases v with same | moved
  · have kept := Nat.le_trans known.head_le onward
    have stamps := KvMap.stamps_rollback known.follows.increasing kept
    rw [same] at stamps
    rcases known.kept with before | ⟨p, member, is⟩
    · omega
    rw [stamps] at member
    have := (List.mem_filter.mp member).2
    simp only [decide_eq_true_eq] at this
    omega
  · exact moved

theorem Evolves.rollbackMaps (holds : Holds history s) (onward : s.compacted ≤ v) :
    s.Evolves (s.rollbackMaps v) := by
  have object : ∀ i, (s.rollbackMaps v).objects i = s.objects i ∨
      (s.rollbackMaps v).objects i = (s.objects i).rollback v := by
    intro i
    by_cases known : ∃ (name : Name) (created : Nat), s.maps[name]? = some (created, i)
    · obtain ⟨name, created, found⟩ := known
      exact .inr (rollbackMaps_own holds.named found)
    · exact .inl (rollbackMaps_other fun name created found => known ⟨name, created, found⟩)
  constructor
  · exact Nat.le_refl _
  · intro i _
    rcases object i with same | same <;> rw [same]
    rfl
  · intro i _
    rcases object i with same | same <;> rw [same]
    rcases (s.objects i).rollback_cases v with unmoved | moved
    · rw [unmoved]
    · omega
  · intro i _ counters k member
    rcases object i with same | same <;> rw [same] at counters ⊢
    · exact member
    rcases (s.objects i).rollback_cases v with unmoved | moved
    · rwa [unmoved]
    · omega
  · intro name created i found counters
    rw [rollbackMaps_own holds.named found] at counters
    refine ⟨created, ?_⟩
    rw [rollbackMaps_maps, found, Option.filter_some]
    split
    · rfl
    rename_i later
    have := (holds.known name created i found).forgotten onward (by simpa using later)
    omega

end Store
namespace System

def Unused (m : KvMap Name K V) : Prop := m.roll = .initial ∧ m.commitDeltas = []

/-- Objects that a transaction has created belong to it until it commits. -/
def Private (s : System Name K V) (t ref : Nat) : Prop :=
  Unused (s.store.objects ref) ∧ (∀ (name : Name) created, s.store.maps[name]? ≠ some (created, ref)) ∧
    ∀ u ≠ t, (∀ (name : Name) cs, (s.txs u).allChanges[name]? ≠ some (ref, cs)) ∧
      ∀ name : Name, (s.txs u).createdMaps[name]? ≠ some ref

structure Consistent (history : List (WriteSet Name K V)) (s : System Name K V) : Prop where
  holds : s.store.Holds history
  version : s.store.version = history.length
  fits : ∀ t, (s.txs t).Fits s.store
  owned : ∀ t, (s.txs t).committed = false → ∀ (name : Name) ref,
    (s.txs t).createdMaps[name]? = some ref → s.Private t ref

variable {history : List (WriteSet Name K V)} {s : System Name K V}

theorem Consistent.initial (s : Store Name K V) (empty : s.maps = ∅) (start : s.version = 0)
    (uncompacted : s.compacted = 0) : Consistent [] { store := s } := by
  constructor
  · constructor
    · simp [uncompacted]
    · simp [empty]
    · simp
  · exact start
  · intro t
    constructor <;> simp
  · simp

theorem Consistent.evolve {store : Store Name K V} (consistent : Consistent history s) (evolves : s.store.Evolves store)
    (holds : store.Holds history') (version : store.version = history'.length)
    (others : ∀ i < s.store.nextObject, (∀ (name : Name) created, s.store.maps[name]? ≠ some (created, i)) →
      store.objects i = s.store.objects i ∧ ∀ (name : Name) created, store.maps[name]? ≠ some (created, i)) :
    Consistent history' { s with store } := by
  constructor
  · exact holds
  · exact version
  · exact fun t => (consistent.fits t).evolves evolves
  · intro t live name ref found
    obtain ⟨initial, unknown, single⟩ := consistent.owned t live name ref found
    obtain ⟨same, still⟩ := others ref ((consistent.fits t).created name ref found).1 unknown
    exact ⟨by rwa [same], still, single⟩

theorem Consistent.compact (consistent : Consistent history s) (onward : s.store.compacted ≤ v) :
    Consistent history { s with store := s.store.compact v } := by
  obtain ⟨version, maps⟩ : (s.store.compact v).version = s.store.version ∧ (s.store.compact v).maps = s.store.maps := by
    by_cases reached : v ≤ s.store.version
    · obtain ⟨_, _, frame⟩ := Store.compact_frame reached
      rw [frame]
      exact ⟨rfl, rfl⟩
    · rw [show s.store.compact v = s.store from if_pos (Nat.lt_of_not_le reached)]
      exact ⟨rfl, rfl⟩
  exact consistent.evolve (.compact consistent.holds v) (consistent.holds.compact consistent.version onward)
    (version.trans consistent.version) fun i _ unknown => ⟨Store.compact_other unknown, maps ▸ unknown⟩

theorem Consistent.rollback {store : Store Name K V} (consistent : Consistent history s)
    (rolled : s.store.rollback txid term = some store) :
    Consistent (history.take txid.version) { s with store } := by
  obtain ⟨holds, version⟩ := consistent.holds.rollback consistent.version rolled
  obtain ⟨onward, ⟨above, rfl⟩ | ⟨below, r, -, -, -, -, rfl⟩⟩ := Store.rollback_cases rolled
  · exact consistent.evolve (.bookkeeping _ _ _) holds version fun _ _ unknown => ⟨rfl, unknown⟩
  have evolves := Store.Evolves.rollbackMaps (consistent.holds.bookkeeping r s.store.lastNewMap) onward
  refine consistent.evolve ⟨evolves.allocated, evolves.name, evolves.counter, evolves.keys, evolves.known⟩
    holds version fun i _ unknown => ⟨Store.rollbackMaps_other unknown, fun name created found => ?_⟩
  rw [Store.rollbackMaps_maps, Option.filter_eq_some_iff] at found
  exact unknown name created found.1

theorem Consistent.setTx (consistent : Consistent history s) (t : Nat) (fits : tx.Fits s.store)
    (owned : tx.committed = false → ∀ (name : Name) ref, tx.createdMaps[name]? = some ref → s.Private t ref)
    (held : ∀ (name : Name) ref cs, tx.allChanges[name]? = some (ref, cs) →
      (∃ cs, (s.txs t).allChanges[name]? = some (ref, cs)) ∨
        (∃ created, s.store.maps[name]? = some (created, ref)) ∨
        ∀ u ≠ t, ∀ other : Name, (s.txs u).createdMaps[other]? ≠ some ref)
    (made : ∀ (name : Name) ref, tx.createdMaps[name]? = some ref →
      (s.txs t).createdMaps[name]? = some ref ∨
        ∀ u ≠ t, ∀ other : Name, (s.txs u).createdMaps[other]? ≠ some ref) :
    Consistent history (s.setTx t tx) := by
  constructor
  · exact consistent.holds
  · exact consistent.version
  · intro u
    by_cases same : u = t
    · subst same
      simpa [System.setTx] using fits
    · simpa [System.setTx, update_of_ne same] using consistent.fits u
  · intro u live name ref found
    by_cases same : u = t
    · subst same
      simp only [System.setTx, update_self] at live found
      obtain ⟨initial, unknown, single⟩ := owned live name ref found
      refine ⟨initial, unknown, fun w apart => ?_⟩
      simpa [System.setTx, update_of_ne apart] using single w apart
    simp only [System.setTx, update_of_ne same] at live found
    obtain ⟨initial, unknown, single⟩ := consistent.owned u live name ref found
    refine ⟨initial, unknown, fun w apart => ?_⟩
    by_cases isT : w = t
    · subst isT
      simp only [System.setTx, update_self]
      constructor
      · intro other cs member
        rcases held other ref cs member with ⟨old, before⟩ | ⟨created, known⟩ | fresh
        · exact (single w apart).1 other old before
        · exact unknown other created known
        · exact fresh u (Ne.symm apart) name found
      · intro other member
        rcases made other ref member with before | fresh
        · exact (single w apart).2 other before
        · exact fresh u (Ne.symm apart) name found
    · simpa [System.setTx, update_of_ne isT] using single w apart

theorem Consistent.operate (consistent : Consistent history s)
    (found : (s.txs t).allChanges[name]? = some (ref, cs)) (op : Operation K V) :
    Consistent history (s.setTx t
      { s.txs t with allChanges := (s.txs t).allChanges.insert name (ref, (cs.operate op).2) }) := by
  have fits := consistent.fits t
  have extended := cs.operate_extends op
  have inserted : ∀ (other : Name) i cs', ((s.txs t).allChanges.insert name (ref, (cs.operate op).2))[other]? =
      some (i, cs') → ∃ cs, (s.txs t).allChanges[other]? = some (i, cs) ∧ cs.Extends cs' := by
    intro other i cs' member
    obtain ⟨rfl, ⟨⟩⟩ | ⟨-, old⟩ := insert_eq_some member
    · exact ⟨cs, found, extended⟩
    · exact ⟨cs', old, .refl cs'⟩
  refine consistent.setTx t ?_ (consistent.owned t) ?_ fun _ _ made => .inl made
  · constructor
    · exact fits.created
    · intro other i cs' member
      obtain ⟨cs, before, grown⟩ := inserted other i cs' member
      obtain ⟨allocated, named, backed⟩ := fits.changed other i cs before
      exact ⟨allocated, named, backed.extends grown⟩
    · intro live other i cs' member same
      obtain ⟨cs, before, grown⟩ := inserted other i cs' member
      exact fits.current live other i cs before (grown.rollbackCounter ▸ same)
  · intro other i cs' member
    obtain ⟨cs, before, -⟩ := inserted other i cs' member
    exact .inl ⟨cs, before⟩

theorem backed_of_createChangeSet {store : Store Name K V} (known : store.Known history name created ref)
    (available : (store.objects ref).createChangeSet v = some cs) :
    cs.Backed (store.objects ref) ∧ cs.rollbackCounter = (store.objects ref).roll.rollbackCounter := by
  obtain ⟨c, found, rfl⟩ := Option.map_eq_some_iff.mp available
  obtain ⟨member, -, -⟩ := Roll.lastAt_spec known.follows.increasing found
  refine ⟨⟨fun k written => ?_, Nat.le_refl _, fun _ k present => ?_⟩, rfl⟩
  · simp at written
  · have state := known.follows.states _ member
    simp only at state present
    rw [state] at present
    rw [known.follows.tail_state]
    exact mem_contents_of_take present

theorem Consistent.handle (consistent : Consistent history s) (t : Nat) (name : Name) :
    Consistent history
      { s.setTx t ((s.txs t).getHandleByName s.store name).2.1 with
        store := ((s.txs t).getHandleByName s.store name).2.2 } := by
  have acquires := (s.txs t).getHandleByName_acquires s.store name
  have fits := consistent.fits t
  obtain ⟨changes, created, committed⟩ := (s.txs t).fixReadTxid_fields s.store
  generalize (s.txs t).getHandleByName s.store name = result at acquires
  cases acquires with
  | again held =>
    exact consistent.setTx t fits (consistent.owned t) (fun _ _ cs member => .inl ⟨cs, member⟩)
      fun _ _ made => .inl made
  | conflict isNew found unavailable =>
    refine consistent.setTx t ⟨?_, ?_, ?_⟩ ?_ ?_ ?_
    · rw [created]
      exact fits.created
    · rw [changes]
      exact fits.changed
    · rw [committed, changes, created]
      exact fits.current
    · rw [committed, created]
      exact consistent.owned t
    · rw [changes]
      exact fun _ _ cs member => .inl ⟨cs, member⟩
    · rw [created]
      exact fun _ _ made => .inl made
  | known isNew found reached available =>
    rename_i version ref cs
    have known := consistent.holds.known name version ref found
    obtain ⟨backed, counter⟩ := backed_of_createChangeSet known available
    refine consistent.setTx t ⟨?_, ?_, ?_⟩ ?_ ?_ ?_
    · rw [created]
      exact fits.created
    · intro other i cs' member
      obtain ⟨rfl, ⟨⟩⟩ | ⟨-, old⟩ := insert_eq_some member
      · exact ⟨known.allocated, known.named, backed⟩
      · exact fits.changed other i cs' old
    · intro live other i cs' member same
      rw [created]
      obtain ⟨rfl, ⟨⟩⟩ | ⟨-, old⟩ := insert_eq_some member
      · exact .inl ⟨version, found⟩
      · exact fits.current (committed ▸ live) other i cs' old same
    · rw [committed, created]
      exact consistent.owned t
    · intro other i cs' member
      obtain ⟨rfl, ⟨⟩⟩ | ⟨-, old⟩ := insert_eq_some member
      · exact .inr (.inl ⟨version, found⟩)
      · exact .inl ⟨cs', old⟩
    · rw [created]
      exact fun _ _ made => .inl made
  | fresh isNew unknown =>
    have grown : Consistent history { s with store := (s.store.newObject name).2 } := by
      refine consistent.evolve (.newObject name) (consistent.holds.newObject name) consistent.version ?_
      exact fun i allocated unknown => ⟨update_of_ne (Nat.ne_of_lt allocated) _ _, unknown⟩
    have object : (s.store.newObject name).2.objects s.store.nextObject = .initial name := update_self ..
    have unmade : ∀ u, ∀ other : Name, (s.txs u).createdMaps[other]? ≠ some s.store.nextObject :=
      fun u other made => Nat.lt_irrefl _ ((consistent.fits u).created other _ made).1
    have unheld : ∀ u, ∀ (other : Name) cs, (s.txs u).allChanges[other]? ≠ some (s.store.nextObject, cs) :=
      fun u other cs held => Nat.lt_irrefl _ ((consistent.fits u).changed other _ cs held).1
    refine grown.setTx t ⟨?_, ?_, ?_⟩ ?_ ?_ ?_
    · intro other ref made
      obtain ⟨rfl, rfl⟩ | ⟨-, old⟩ := insert_eq_some made
      · exact ⟨Nat.lt_succ_self _, by rw [object]; rfl⟩
      · exact (grown.fits t).created other ref old
    · intro other ref cs held
      obtain ⟨rfl, ⟨⟩⟩ | ⟨-, old⟩ := insert_eq_some held
      · refine ⟨Nat.lt_succ_self _, by rw [object]; rfl, ?_⟩
        rw [object]
        constructor <;> simp [Tx.freshChangeSet, KvMap.initial, Roll.initial]
      · exact (grown.fits t).changed other ref cs old
    · intro live other ref cs held same
      rw [ExtTreeMap.getElem?_insert] at held ⊢
      split at held
      · rename_i isName
        cases held
        rw [if_pos isName]
        exact .inr rfl
      rename_i apart
      rw [if_neg apart]
      exact (grown.fits t).current (committed ▸ live) other ref cs held same
    · intro live other ref made
      obtain ⟨-, rfl⟩ | ⟨-, old⟩ := insert_eq_some made
      · refine ⟨by rw [object]; exact ⟨rfl, rfl⟩, fun known created found => ?_, fun u _ => ⟨unheld u, unmade u⟩⟩
        exact Nat.lt_irrefl _ (consistent.holds.known known created _ found).allocated
      · exact grown.owned t (committed ▸ live) other ref old
    · intro other ref cs held
      obtain ⟨-, ⟨⟩⟩ | ⟨-, old⟩ := insert_eq_some held
      · exact .inr (.inr fun u _ => unmade u)
      · exact .inl ⟨cs, old⟩
    · intro other ref made
      obtain ⟨-, rfl⟩ | ⟨-, old⟩ := insert_eq_some made
      · exact .inr fun u _ => unmade u
      · exact .inl old

end System

omit [LinearOrder Name] [Inhabited V] in
theorem KvMap.counter_of_prepare {m : KvMap Name K V} {cs : ChangeSet K V}
    (passed : m.prepare cs = true) (has : cs.hasWrites = true) :
    cs.rollbackCounter = m.roll.rollbackCounter := by
  unfold KvMap.prepare at passed
  simp only [ChangeSet.hasWrites, Bool.not_eq_true'] at has
  rw [if_neg (by simp [has])] at passed
  by_contra apart
  rw [if_pos apart] at passed
  cases passed

namespace Tx
variable {tx : Tx Name K V} {s : Store Name K V}

omit [Inhabited V] in
theorem getElem?_changes (tx : Tx Name K V) (name : Name) :
    tx.changes[name]? = tx.allChanges[name]?.map fun (ref, cs) => (ref, .transaction cs) := by
  rw [changes, ExtTreeMap.getElem?_map]

omit [Inhabited V] in
theorem changes_eq_some {name : Name} {ref : Nat} {c : Changes K V} (found : tx.changes[name]? = some (ref, c)) :
    ∃ cs, c = .transaction cs ∧ tx.allChanges[name]? = some (ref, cs) := by
  rw [getElem?_changes, Option.map_eq_some_iff] at found
  obtain ⟨⟨i, cs⟩, member, same⟩ := found
  cases same
  exact ⟨cs, rfl, member⟩

omit [Inhabited V] in
theorem records_writeSet (tx : Tx Name K V) : Store.Records tx.changes tx.writeSet := by
  intro name
  rw [writeSet, ExtTreeMap.getElem?_filterMap', Store.written, getElem?_changes]
  cases tx.allChanges[name]? with
  | none => simp
  | some entry => cases empty : entry.2.writes.isEmpty <;> simp [ChangeSet.hasWrites, empty]

/-- What a commit does to the transaction and the store. The bookkeeping that
remains to be done is that of replication. -/
inductive Commits (tx : Tx Name K V) (s : Store Name K V) :
    Option (Consensus (WriteSet Name K V)) →
    CommitResult × Option (List (BatchEntry (WriteSet Name K V)) × Nat) × Tx Name K V × Store Name K V →
    Prop where
  | empty (nothing : tx.allChanges.isEmpty = true) :
      Commits tx s consensus (.success, none, { tx with committed := true, success := true }, s)
  | conflict : Commits tx s consensus (.failConflict, none, { tx with success := false }, s)
  | readOnly (idle : ∀ (name : Name) ref cs, tx.allChanges[name]? = some (ref, cs) → cs.hasWrites = false) :
      Commits tx s consensus
        (.success, none, { tx with committed := true, success := true, version := noVersion }, s)
  | written (prepared : ∀ (name : Name) ref cs, tx.allChanges[name]? = some (ref, cs) →
        (s.objects ref).prepare cs = true)
      (unknown : ∀ (name : Name) ref, tx.createdMaps[name]? = some ref → s.getMap s.version name = none)
      (writes : ∃ (name : Name) (ref : Nat) (cs : ChangeSet K V),
        tx.allChanges[name]? = some (ref, cs) ∧ cs.hasWrites = true)
      (applied : a = (s.nextVersion (!tx.createdMaps.isEmpty)).2.applied (s.version + 1) tx.changes tx.createdMaps)
      (replicated : (result, batch, r) =
        match consensus with
        | none => (.success, none, a.toReplication)
        | some c => a.toReplication.commit c ⟨tx.commitView, s.version + 1⟩ (tx.serialise s) false) :
      Commits tx s consensus
        (result, batch, { tx with committed := true, success := true, version := s.version + 1 },
          { a with toReplication := r })

theorem commit_commits (committed : tx.commit s consensus = some outcome) :
    tx.committed = false ∧ Commits tx s consensus outcome := by
  unfold commit at committed
  split at committed
  · cases committed
  rename_i live
  refine ⟨Bool.not_eq_true _ ▸ live, ?_⟩
  split at committed
  · rename_i nothing
    cases committed
    exact .empty nothing
  have applies := s.applyChanges_applies tx.changes Store.nextVersion tx.createdMaps
  generalize s.applyChanges tx.changes Store.nextVersion tx.createdMaps = result at applies committed
  cases applies with
  | conflict =>
    cases committed
    exact .conflict
  | readOnly idle =>
    cases committed
    refine .readOnly fun name ref cs found => ?_
    exact idle name ref (.transaction cs) (by rw [getElem?_changes, found]; rfl)
  | written prepared unknown writes =>
    obtain ⟨name, ref, c, found, has⟩ := writes
    obtain ⟨cs, rfl, member⟩ := changes_eq_some found
    have version : (s.nextVersion (!tx.createdMaps.isEmpty)).1 = s.version + 1 := rfl
    simp only [version, noVersion, Nat.add_eq_zero_iff, Nat.one_ne_zero, and_false, if_false] at committed
    have checked : ∀ (name : Name) ref cs, tx.allChanges[name]? = some (ref, cs) →
        (s.objects ref).prepare cs = true := fun name ref cs found =>
      prepared name ref (.transaction cs) (by rw [getElem?_changes, found]; rfl)
    cases consensus with
    | none =>
      cases committed
      exact .written checked unknown ⟨name, ref, cs, member, has⟩ rfl rfl
    | some c =>
      cases committed
      refine .written checked unknown ⟨name, ref, cs, member, has⟩ rfl ?_
      have serialised : ({ tx with committed := true, success := true, version := s.version + 1 }).serialise
          ((s.nextVersion (!tx.createdMaps.isEmpty)).2.applied (s.version + 1) tx.changes tx.createdMaps) =
            tx.serialise s := by
        obtain ⟨_, _, frame⟩ := Store.applied_frame (s := (s.nextVersion (!tx.createdMaps.isEmpty)).2)
          (s.version + 1) tx.changes tx.createdMaps
        rw [frame]
        rfl
      rw [serialised]

theorem written_version {consensus : Option (Consensus (WriteSet Name K V))}
    (applied : a = (s.nextVersion (!tx.createdMaps.isEmpty)).2.applied (s.version + 1) tx.changes tx.createdMaps)
    (replicated : (result, batch, r) =
      match consensus with
      | none => (.success, none, a.toReplication)
      | some c => a.toReplication.commit c ⟨tx.commitView, s.version + 1⟩ (tx.serialise s) false) :
    r.version = s.version + 1 := by
  obtain ⟨maps, objects, frame⟩ := Store.applied_frame (s := (s.nextVersion (!tx.createdMaps.isEmpty)).2)
    (s.version + 1) tx.changes tx.createdMaps
  have taken : a.version = s.version + 1 := by
    rw [applied, frame]
    rfl
  cases consensus with
  | none =>
    cases replicated
    exact taken
  | some c =>
    have same : r = (a.toReplication.commit c ⟨tx.commitView, s.version + 1⟩ (tx.serialise s) false).2.2 :=
      congrArg (fun x => x.2.2) replicated
    rw [same, Replication.commit_version, taken]

/-- A change set with writes that passed its check belongs to the table or is
for a new map. -/
theorem Fits.accepts (fits : tx.Fits s) (live : tx.committed = false) (holds : s.Holds history)
    (versions : s.version = history.length)
    (initial : ∀ (name : Name) ref, tx.createdMaps[name]? = some ref → (s.objects ref).roll = .initial)
    (prepared : ∀ (name : Name) ref cs, tx.allChanges[name]? = some (ref, cs) → (s.objects ref).prepare cs = true)
    (unknown : ∀ (name : Name) ref, tx.createdMaps[name]? = some ref → s.getMap s.version name = none) :
    s.Accepts tx.changes tx.createdMaps := by
  constructor
  · intro name ref c found
    obtain ⟨cs, rfl, member⟩ := changes_eq_some found
    exact ⟨(fits.changed name ref cs member).2.1, cs, rfl⟩
  · intro name ref cs found has
    obtain ⟨_, same, member⟩ := changes_eq_some found
    cases same
    have counter := KvMap.counter_of_prepare (prepared name ref cs member) has
    refine (fits.current live name ref cs member counter).imp id fun own => ⟨own, ?_⟩
    have real := (fits.changed name ref cs member).2.2.changes counter has
    rw [initial name ref own] at real
    exact real
  · intro name ref found
    obtain ⟨allocated, named⟩ := fits.created name ref found
    refine ⟨?_, allocated, named, initial name ref found⟩
    have absent := unknown name ref found
    unfold Store.getMap at absent
    cases inTable : s.maps[name]? with
    | none => rfl
    | some entry =>
      have inside := (holds.known name entry.1 entry.2 inTable).first.inside
      simp only [inTable] at absent
      rw [if_pos (.inl (versions ▸ inside))] at absent
      cases absent

end Tx

namespace System
variable {history : List (WriteSet Name K V)} {s : System Name K V}

theorem Consistent.accepts (consistent : Consistent history s) (live : (s.txs t).committed = false)
    (prepared : ∀ (name : Name) ref cs, (s.txs t).allChanges[name]? = some (ref, cs) →
      (s.store.objects ref).prepare cs = true)
    (unknown : ∀ (name : Name) ref, (s.txs t).createdMaps[name]? = some ref →
      s.store.getMap s.store.version name = none) :
    s.store.Accepts (s.txs t).changes (s.txs t).createdMaps :=
  (consistent.fits t).accepts live consistent.holds consistent.version
    (fun name ref found => (consistent.owned t live name ref found).1.1) prepared unknown

theorem Consistent.written (consistent : Consistent history s) (live : (s.txs t).committed = false)
    (prepared : ∀ (name : Name) ref cs, (s.txs t).allChanges[name]? = some (ref, cs) →
      (s.store.objects ref).prepare cs = true)
    (unknown : ∀ (name : Name) ref, (s.txs t).createdMaps[name]? = some ref →
      s.store.getMap s.store.version name = none)
    (applied : a = (s.store.nextVersion (!(s.txs t).createdMaps.isEmpty)).2.applied (s.store.version + 1)
      (s.txs t).changes (s.txs t).createdMaps)
    (r : Replication (WriteSet Name K V)) (version : r.version = s.store.version + 1) :
    Consistent (history ++ [(s.txs t).writeSet])
      { s.setTx t { s.txs t with committed := true, success := true, version := s.store.version + 1 } with
        store := { a with toReplication := r } } := by
  have accepts := consistent.accepts live prepared unknown
  generalize resolved : (s.store.nextVersion (!(s.txs t).createdMaps.isEmpty)).2 = s₁ at applied
  obtain ⟨r₁, lastNewMap, rfl⟩ : ∃ r₁ lastNewMap, s₁ = { s.store with toReplication := r₁, lastNewMap } :=
    ⟨_, _, resolved.symm⟩
  have accepts₁ : Store.Accepts { s.store with toReplication := r₁, lastNewMap } (s.txs t).changes
      (s.txs t).createdMaps := ⟨accepts.transactions, accepts.target, accepts.fresh⟩
  have evolves : ∀ u, (s.txs u).Fits { a with toReplication := r } := fun u =>
    (((consistent.fits u).evolves (.bookkeeping s.store r₁ lastNewMap)).evolves
      (applied ▸ .applied accepts₁ (s.store.version + 1))).evolves (.bookkeeping a r a.lastNewMap)
  constructor
  · rw [applied, consistent.version]
    exact ((consistent.holds.bookkeeping r₁ lastNewMap).applied accepts₁ (s.txs t).records_writeSet).bookkeeping r _
  · rw [List.length_append, ← consistent.version]
    exact version
  · intro u
    by_cases same : u = t
    · subst same
      simp only [System.setTx, update_self]
      exact ⟨(evolves u).created, (evolves u).changed, fun live => by cases live⟩
    · simpa [System.setTx, update_of_ne same] using evolves u
  · intro u alive name ref found
    by_cases same : u = t
    · subst same
      simp [System.setTx] at alive
    simp only [System.setTx, update_of_ne same] at alive found
    obtain ⟨initial, absent, single⟩ := consistent.owned u alive name ref found
    have apart := single t (Ne.symm same)
    refine ⟨?_, ?_, fun w other => ?_⟩
    · have untouched : a.objects ref = s.store.objects ref := by
        rw [applied]
        refine Store.applied_other _ (fun other c member => ?_) apart.2
        obtain ⟨cs, -, held⟩ := Tx.changes_eq_some member
        exact apart.1 other cs held
      exact untouched ▸ initial
    · intro other created known
      rw [applied, accepts₁.maps_applied] at known
      split at known
      · rename_i isNew
        split at known
        · exact absent other created known
        · cases known
          exact apart.2 other isNew
      · exact absent other created known
    · by_cases isT : w = t
      · subst isT
        simpa [System.setTx] using apart
      · simpa [System.setTx, update_of_ne isT] using single w other

end System
end CCF.Kv
