import ShardedCCF.Kv.Tx
import ShardedCCF.Kv.Roll

/-! What the operations of the store do to its table of maps and to the map
objects, name by name and object by object. -/
namespace CCF.Kv
open Lib List Option Function
open Std (ExtTreeMap)

variable {Name K V : Type} [LinearOrder Name] [LinearOrder K]

namespace Store
variable {B : Type} {s : Store Name K V} {name : Name} {created ref i : Nat}

def Named (objects : Nat → KvMap Name K V) (table : ExtTreeMap Name B) (ref : B → Nat) : Prop :=
  ∀ (name : Name) entry, table[name]? = some entry → (objects (ref entry)).name = name

section
variable {objects : Nat → KvMap Name K V}

theorem Named.nodup {table : ExtTreeMap Name B} {ref : B → Nat} (named : Named objects table ref) :
    (table.toList.map fun e => ref e.2).Nodup := by
  rw [nodup_iff_pairwise_ne, pairwise_map]
  refine Pairwise.imp_of_mem ?_ (ExtTreeMap.distinct_keys_toList (t := table))
  intro a b memberA memberB apart same
  have nameA := named a.1 a.2 (ExtTreeMap.mem_toList_iff_getElem?_eq_some.mp memberA)
  have nameB := named b.1 b.2 (ExtTreeMap.mem_toList_iff_getElem?_eq_some.mp memberB)
  rw [same, nameB] at nameA
  exact apart (compare_eq_iff_eq.mpr nameA.symm)

theorem foldl_update_own {table : ExtTreeMap Name B} (ref : B → Nat) (named : Named objects table ref)
    (f : B → KvMap Name K V → KvMap Name K V) (found : table[name]? = some entry) :
    (table.toList.foldl (fun objects e =>
      Function.update objects (ref e.2) (f e.2 (objects (ref e.2)))) objects) (ref entry) =
        f entry (objects (ref entry)) := by
  refine foldl_own (fun o i => o i) (fun e : Name × B => ref e.2) (fun e => f e.2) ?_ _
    named.nodup objects (ExtTreeMap.mem_toList_iff_getElem?_eq_some.mpr found)
  intro o e i
  by_cases same : ref e.2 = i
  · simp [← same]
  · simp [same, update_of_ne (Ne.symm same)]

theorem foldl_update_other {table : ExtTreeMap Name B} (ref : B → Nat) (f : B → KvMap Name K V → KvMap Name K V)
    (other : ∀ (name : Name) entry, table[name]? = some entry → ref entry ≠ i) : (table.toList.foldl (fun objects e =>
      Function.update objects (ref e.2) (f e.2 (objects (ref e.2)))) objects) i = objects i := by
  refine foldl_other (fun o i => o i) (fun e : Name × B => ref e.2) (fun e => f e.2) ?_ _ objects ?_
  · intro o e i
    by_cases same : ref e.2 = i
    · simp [← same]
    · simp [same, update_of_ne (Ne.symm same)]
  · intro member
    obtain ⟨e, known, same⟩ := List.mem_map.mp member
    exact other e.1 e.2 (ExtTreeMap.mem_toList_iff_getElem?_eq_some.mp known) same

end

theorem updateMaps_own (named : Named s.objects s.maps Prod.snd) (f : KvMap Name K V → KvMap Name K V)
    (found : s.maps[name]? = some (created, ref)) : (s.updateMaps f).objects ref = f (s.objects ref) :=
  foldl_update_own Prod.snd named (fun _ => f) found

theorem updateMaps_other (f : KvMap Name K V → KvMap Name K V)
    (other : ∀ (name : Name) created, s.maps[name]? ≠ some (created, i)) :
    (s.updateMaps f).objects i = s.objects i :=
  foldl_update_other Prod.snd (fun _ => f) fun name entry found same => other name entry.1 (same ▸ found)

section Publish
variable (v : Nat) (changes : OrderedChanges Name K V) (newMaps : ExtTreeMap Name Nat)

def writesTo (name : Name) : Bool := changes[name]?.any fun (_, c) => c.hasWrites

theorem publish_maps (name : Name) :
    (s.publish v changes newMaps).maps[name]? =
      match newMaps[name]? with
      | some ref => if writesTo changes name then some (v, ref) else s.maps[name]?
      | none => s.maps[name]? := by
  have acts : ∀ (s : Store Name K V) (e : Name × Nat) (i : Name),
      (if writesTo changes e.1 then s.addDynamicMap v e.1 e.2 else s).maps[i]? =
        if e.1 = i then (if writesTo changes e.1 then some (v, e.2) else s.maps[i]?) else s.maps[i]? := by
    intro s e i
    split
    · simp [addDynamicMap, ExtTreeMap.getElem?_insert]
    · simp
  cases found : newMaps[name]? with
  | none =>
    have absent : name ∉ newMaps.toList.map Prod.fst := by
      rw [mem_keys_toList, ExtTreeMap.mem_iff_isSome_getElem?, found]
      simp
    exact foldl_other (fun s i => s.maps[i]?) Prod.fst _ acts newMaps.toList s absent
  | some ref =>
    have member := ExtTreeMap.mem_toList_iff_getElem?_eq_some.mpr found
    exact foldl_own (fun s i => s.maps[i]?) Prod.fst
      (fun e x => if writesTo changes e.1 then some (v, e.2) else x) acts newMaps.toList
      (nodup_keys_toList newMaps) s member

/-- The object and the hooks of the store, which publishing does not change. -/
def dressing (s : Store Name K V) (ref : Nat) : KvMap Name K V × (Name → Bool) × (Name → Bool) :=
  (s.objects ref, s.globalHooks, s.mapHooks)

theorem dressing_addDynamicMap (s : Store Name K V) (e : Name × Nat) (i : Nat) :
    (if writesTo changes e.1 then s.addDynamicMap v e.1 e.2 else s).dressing i =
      if e.2 = i then
        if writesTo changes e.1 then
          ({ s.objects i with globalHook := s.globalHooks e.1, mapHook := s.mapHooks e.1 },
            s.globalHooks, s.mapHooks)
        else s.dressing i
      else s.dressing i := by
  split
  · by_cases same : e.2 = i
    · simp [addDynamicMap, dressing, same]
    · simp [addDynamicMap, dressing, same, update_of_ne (Ne.symm same)]
  · simp

theorem publish_object (named : Named s.objects newMaps id) (found : newMaps[name]? = some ref)
    (written : writesTo changes name = true) :
    (s.publish v changes newMaps).objects ref =
      { s.objects ref with globalHook := s.globalHooks name, mapHook := s.mapHooks name } := by
  have own := foldl_own (fun (s : Store Name K V) i => s.dressing i) Prod.snd
    (fun e x => if writesTo changes e.1 then
      ({ x.1 with globalHook := x.2.1 e.1, mapHook := x.2.2 e.1 }, x.2) else x)
    (dressing_addDynamicMap v changes) newMaps.toList named.nodup s
    (ExtTreeMap.mem_toList_iff_getElem?_eq_some.mpr found)
  simp only [written, if_true] at own
  exact congrArg Prod.fst own

theorem publish_other (other : ∀ name : Name, newMaps[name]? = some i → writesTo changes name = false) :
    (s.publish v changes newMaps).objects i = s.objects i := by
  have kept : ∀ entries : List (Name × Nat), (∀ e ∈ entries, e.2 = i → writesTo changes e.1 = false) →
      ∀ s : Store Name K V, (entries.foldl (fun s e =>
        if writesTo changes e.1 then s.addDynamicMap v e.1 e.2 else s) s).objects i = s.objects i := by
    intro entries idle
    induction entries with
    | nil => exact fun _ => rfl
    | cons e entries ih =>
      intro s
      rw [foldl_cons, ih fun e member => idle e (mem_cons_of_mem _ member)]
      split
      case isTrue written =>
        have apart : i ≠ e.2 := fun same => by
          simp [idle e mem_cons_self same.symm] at written
        simp [addDynamicMap, update_of_ne apart]
      case isFalse => rfl
  refine kept newMaps.toList (fun e member same => ?_) s
  exact other e.1 (same ▸ ExtTreeMap.mem_toList_iff_getElem?_eq_some.mp member)

theorem publish_name (named : Named s.objects newMaps id) (i : Nat) :
    ((s.publish v changes newMaps).objects i).name = (s.objects i).name := by
  by_cases published : ∃ name : Name, newMaps[name]? = some i ∧ writesTo changes name = true
  · obtain ⟨name, found, written⟩ := published
    rw [publish_object v changes newMaps named found written]
  · rw [publish_other v changes newMaps fun name found => ?_]
    exact Bool.not_eq_true _ ▸ fun written => published ⟨name, found, written⟩

end Publish

theorem commitAll_own [Inhabited V] {changes : OrderedChanges Name K V} (named : Named s.objects changes Prod.fst)
    (v : Nat) (found : changes[name]? = some (ref, c)) :
    (s.commitAll v changes).objects ref = c.commit (s.objects ref) v :=
  foldl_update_own Prod.fst named (fun e m => e.2.commit m v) found

theorem commitAll_other [Inhabited V] {changes : OrderedChanges Name K V} (v : Nat)
    (other : ∀ (name : Name) c, changes[name]? ≠ some (i, c)) :
    (s.commitAll v changes).objects i = s.objects i :=
  foldl_update_other Prod.fst (fun (e : Nat × Changes K V) m => e.2.commit m v)
    fun name entry found same => other name entry.2 (same ▸ found)

/-- A compaction changes every map of the table, and nothing else does. -/
theorem compact_own (named : Named s.objects s.maps Prod.snd) (reached : v ≤ s.version)
    (found : s.maps[name]? = some (created, ref)) :
    (s.compact v).objects ref = { (s.objects ref).compact v with commitDeltas := [] } := by
  have compacted := updateMaps_own named (fun m => m.compact v) found
  have stillNamed : Named (s.updateMaps fun m => m.compact v).objects s.maps Prod.snd := by
    intro other entry member
    rw [updateMaps_own named _ member]
    exact named other entry member
  unfold compact
  rw [if_neg (Nat.not_lt.mpr reached)]
  have cleared := updateMaps_own (s := { s.updateMaps (fun m => m.compact v) with compacted := v }) stillNamed
    (fun m => m.postCompact.2) found
  exact cleared.trans (congrArg (fun m => { m with commitDeltas := [] }) compacted)

theorem compact_other (other : ∀ (name : Name) created, s.maps[name]? ≠ some (created, i)) :
    (s.compact v).objects i = s.objects i := by
  unfold compact
  split
  · rfl
  have compacted := updateMaps_other (fun m => m.compact v) other
  have cleared := updateMaps_other (s := { s.updateMaps (fun m => m.compact v) with compacted := v })
    (fun m => m.postCompact.2) other
  exact cleared.trans compacted

theorem compact_frame (reached : v ≤ s.version) :
    ∃ objects hookCalls, s.compact v = { s with compacted := v, objects, hookCalls } := by
  unfold compact
  rw [if_neg (Nat.not_lt.mpr reached)]
  exact ⟨_, _, rfl⟩

theorem rollbackMaps_own (named : Named s.objects s.maps Prod.snd) (found : s.maps[name]? = some (created, ref)) :
    (s.rollbackMaps v).objects ref = (s.objects ref).rollback v :=
  updateMaps_own named (fun m => m.rollback v) found

theorem rollbackMaps_other (other : ∀ (name : Name) created, s.maps[name]? ≠ some (created, i)) :
    (s.rollbackMaps v).objects i = s.objects i := updateMaps_other (fun m => m.rollback v) other

theorem rollbackMaps_maps (name : Name) :
    (s.rollbackMaps v).maps[name]? = s.maps[name]?.filter fun entry => entry.1 ≤ v := by
  simp [rollbackMaps, updateMaps]

end Store
namespace Tx
variable {tx : Tx Name K V} {s : Store Name K V}

def freshChangeSet : ChangeSet K V := { rollbackCounter := 0, state := ∅, committed := ∅, startVersion := 0 }

omit [LinearOrder Name] in
theorem createChangeSet_initial (name : Name) (v : Nat) :
    (KvMap.initial name : KvMap Name K V).createChangeSet v = some freshChangeSet := by
  simp [KvMap.createChangeSet, KvMap.initial, Roll.lastAt, Roll.commits, Roll.initial, freshChangeSet]

/-- Whether a handle exists already, is over a map of the table, cannot be had
because of a compaction, or is over a new map. -/
inductive Acquires (tx : Tx Name K V) (s : Store Name K V) (name : Name) :
    Bool × Tx Name K V × Store Name K V → Prop where
  | again (held : name ∈ tx.allChanges) : Acquires tx s name (true, tx, s)
  | known (isNew : name ∉ tx.allChanges) (found : s.maps[name]? = some (created, ref))
      (reached : created ≤ (tx.fixReadTxid s).1.version ∨ created = noVersion)
      (available : (s.objects ref).createChangeSet (tx.fixReadTxid s).1.version = some cs) :
      Acquires tx s name
        (true, { (tx.fixReadTxid s).2 with allChanges := tx.allChanges.insert name (ref, cs) }, s)
  | conflict (isNew : name ∉ tx.allChanges) (found : s.maps[name]? = some (created, ref))
      (unavailable : (s.objects ref).createChangeSet (tx.fixReadTxid s).1.version = none) :
      Acquires tx s name (false, (tx.fixReadTxid s).2, s)
  | fresh (isNew : name ∉ tx.allChanges)
      (unknown : ∀ created ref, s.maps[name]? = some (created, ref) →
        (tx.fixReadTxid s).1.version < created) :
      Acquires tx s name
        (true,
          { (tx.fixReadTxid s).2 with
            allChanges := tx.allChanges.insert name (s.nextObject, freshChangeSet)
            createdMaps := tx.createdMaps.insert name s.nextObject },
          (s.newObject name).2)

theorem fixReadTxid_fields (tx : Tx Name K V) (s : Store Name K V) :
    (tx.fixReadTxid s).2.allChanges = tx.allChanges ∧ (tx.fixReadTxid s).2.createdMaps = tx.createdMaps ∧
      (tx.fixReadTxid s).2.committed = tx.committed := by
  unfold fixReadTxid
  split <;> exact ⟨rfl, rfl, rfl⟩

theorem getHandleByName_acquires (tx : Tx Name K V) (s : Store Name K V) (name : Name) :
    Acquires tx s name (tx.getHandleByName s name) := by
  unfold getHandleByName
  split
  case isTrue held => exact .again (ExtTreeMap.contains_iff_mem.mp held)
  case isFalse isNew =>
    obtain ⟨changes, created, -⟩ := fixReadTxid_fields tx s
    unfold getMapAndChangeSetByName
    dsimp only
    cases found : s.getMap (tx.fixReadTxid s).1.version name with
    | some ref =>
      dsimp only
      unfold Store.getMap at found
      split at found
      · cases found
      rename_i created inTable known
      split at found
      · rename_i reached
        cases found
        cases available : (s.objects ref).createChangeSet (tx.fixReadTxid s).1.version with
        | none => exact .conflict isNew known available
        | some cs =>
          dsimp only [map_some]
          rw [changes]
          exact .known isNew known reached available
      · cases found
    | none =>
      have object : (s.newObject name).2.objects (s.newObject name).1 = .initial name := by
        simp [Store.newObject]
      rw [object, createChangeSet_initial]
      rw [changes, created]
      refine .fresh isNew fun version ref known => ?_
      unfold Store.getMap at found
      rw [known] at found
      simp only [ite_eq_right_iff, reduceCtorEq, imp_false, not_or] at found
      omega

end Tx

theorem System.acquired_cases [Inhabited V] {s t : System Name K V} {name : Name} (isNew : name ∉ (s.txs i).allChanges)
    (moved : s.step (.handle i name) = some t) (held : (t.txs i).allChanges[name]? = some (ref, cs)) :
    (∃ created, s.store.maps[name]? = some (created, ref) ∧
      (s.store.objects ref).createChangeSet ((s.txs i).fixReadTxid s.store).1.version = some cs) ∨
    cs = Tx.freshChangeSet ∧ ∀ created ref, s.store.maps[name]? = some (created, ref) →
      ((s.txs i).fixReadTxid s.store).1.version < created := by
  have acquires := (s.txs i).getHandleByName_acquires s.store name
  simp only [System.step, some.injEq] at moved
  subst moved
  simp only [System.setTx, update_self] at held
  generalize (s.txs i).getHandleByName s.store name = result at acquires held
  cases acquires with
  | again old => exact absurd old isNew
  | conflict _ found unavailable =>
    simp only [((s.txs i).fixReadTxid_fields s.store).1] at held
    exact absurd (mem_of_eq_some held) isNew
  | known _ found _ available =>
    simp only [ExtTreeMap.getElem?_insert_self, some.injEq, Prod.mk.injEq] at held
    obtain ⟨rfl, rfl⟩ := held
    exact .inl ⟨_, found, available⟩
  | fresh _ unknown =>
    simp only [ExtTreeMap.getElem?_insert_self, some.injEq, Prod.mk.injEq] at held
    exact .inr ⟨held.2.symm, unknown⟩
end CCF.Kv
