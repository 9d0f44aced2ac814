import ShardedCCF.Kv.Map
import ShardedCCF.Kv.Replication

/-! The store: its maps by name, how change sets are applied to them, compaction
and rollback. Map objects live outside the table of maps, since a transaction
can hold one that the store has forgotten or does not know yet. -/
namespace CCF.Kv
open Std (ExtTreeMap)

variable {Name K V : Type} [LinearOrder Name] [LinearOrder K]

abbrev WriteSet (Name K V : Type) [LinearOrder Name] [LinearOrder K] := ExtTreeMap Name (Write K V)

structure Store (Name K V : Type) [LinearOrder Name] [LinearOrder K] extends
    Replication (WriteSet Name K V) where
  /-- The version at which each map was created, and its object. -/
  maps : ExtTreeMap Name (Nat × Nat) := ∅
  objects : Nat → KvMap Name K V
  nextObject : Nat := 0
  lastNewMap : Nat := noVersion
  compacted : Nat := 0
  globalHooks : Name → Bool := fun _ => false
  mapHooks : Name → Bool := fun _ => false
  isMapReplicated : Name → Bool := fun _ => true
  hookCalls : List (Name × Nat × Write K V) := []

inductive Changes (K V : Type) [LinearOrder K] where
  | transaction (cs : ChangeSet K V)
  | snapshot (state : State K V) (version : Nat)

namespace Changes

def hasWrites : Changes K V → Bool
  | .transaction cs => cs.hasWrites
  | .snapshot _ _ => true

/-- Snapshots never conflict. -/
def prepare (m : KvMap Name K V) : Changes K V → Bool
  | .transaction cs => m.prepare cs
  | .snapshot _ _ => true

/-- A snapshot is committed at the version of its own map. -/
def commit [Inhabited V] (m : KvMap Name K V) (v : Nat) : Changes K V → KvMap Name K V
  | .transaction cs => m.commit cs v
  | .snapshot state version => m.commitSnapshot state version

end Changes

/-- Change sets by name, each with the map object it applies to. -/
abbrev OrderedChanges (Name K V : Type) [LinearOrder Name] [LinearOrder K] :=
  ExtTreeMap Name (Nat × Changes K V)

namespace Store

def empty [Inhabited Name] : Store Name K V := { objects := fun _ => .initial default }

def getMap (s : Store Name K V) (v : Nat) (name : Name) : Option Nat :=
  match s.maps[name]? with
  | none => none
  | some (created, ref) => if created ≤ v ∨ created = noVersion then some ref else none

def newObject (s : Store Name K V) (name : Name) : Nat × Store Name K V :=
  (s.nextObject,
    { s with
      objects := Function.update s.objects s.nextObject (.initial name)
      nextObject := s.nextObject + 1 })

def addDynamicMap (s : Store Name K V) (v : Nat) (name : Name) (ref : Nat) : Store Name K V :=
  { s with
    maps := s.maps.insert name (v, ref)
    objects := Function.update s.objects ref
      { s.objects ref with globalHook := s.globalHooks name, mapHook := s.mapHooks name } }

def nextVersion (s : Store Name K V) (commitNewMap : Bool) : Nat × Store Name K V :=
  let (v, r) := s.toReplication.nextVersion
  (v, { s with toReplication := r, lastNewMap := if commitNewMap then v else s.lastNewMap })

/-- New maps are published if something is written to them. -/
def publish (s : Store Name K V) (v : Nat) (changes : OrderedChanges Name K V)
    (newMaps : ExtTreeMap Name Nat) : Store Name K V :=
  newMaps.toList.foldl (fun s (name, ref) =>
    if (changes[name]?.any fun (_, c) => c.hasWrites) then s.addDynamicMap v name ref else s) s

def commitAll [Inhabited V] (s : Store Name K V) (v : Nat) (changes : OrderedChanges Name K V) :
    Store Name K V :=
  { s with objects := changes.toList.foldl (fun objects (_, ref, c) =>
      Function.update objects ref (c.commit (objects ref) v)) s.objects }

/-- Checks all change sets and applies them if none conflicts. The version is
taken only if something is written. -/
def applyChanges [Inhabited V] (s : Store Name K V) (changes : OrderedChanges Name K V)
    (resolve : Store Name K V → Bool → Nat × Store Name K V) (newMaps : ExtTreeMap Name Nat) :
    Option Nat × Store Name K V :=
  let prepared := changes.toList.all fun (_, ref, c) => c.prepare (s.objects ref)
  let unknown := newMaps.toList.all fun (name, _) => (s.getMap s.version name).isNone
  if prepared && unknown then
    if changes.toList.any fun (_, _, c) => c.hasWrites then
      let (v, s) := resolve s (!newMaps.isEmpty)
      (some v, (s.publish v changes newMaps).commitAll v changes)
    else (some noVersion, s)
  else (none, s)

def updateMaps (s : Store Name K V) (f : KvMap Name K V → KvMap Name K V) : Store Name K V :=
  { s with objects := s.maps.toList.foldl (fun objects (_, _, ref) =>
      Function.update objects ref (f (objects ref))) s.objects }

def postCompact (s : Store Name K V) : Store Name K V :=
  { s.updateMaps fun m => m.postCompact.2 with
    hookCalls := s.hookCalls ++ s.maps.toList.flatMap fun (name, _, ref) =>
      (s.objects ref).postCompact.1.map fun delta => (name, delta) }

def compact (s : Store Name K V) (v : Nat) : Store Name K V :=
  if v > s.version then s
  else { s.updateMaps fun m => m.compact v with compacted := v }.postCompact

/-- Maps that were created later are rolled back too, for those who still hold
them, and then forgotten. -/
def rollbackMaps (s : Store Name K V) (v : Nat) : Store Name K V :=
  { s.updateMaps fun m => m.rollback v with maps := s.maps.filter fun _ (created, _) => created ≤ v }

/-- The terms are updated also if there is nothing to roll back. The result is
`none` for a version before the compacted one, which throws. -/
def rollback (s : Store Name K V) (txid : TxID) (termOfNextVersion : Nat) : Option (Store Name K V) :=
  if txid.version < s.compacted then none
  else
    let s := { s with termOfNextVersion, termOfLastVersion := txid.term }
    if txid.version ≥ s.version then some s
    else
      some ({ s with
        version := txid.version
        lastReplicated := txid.version
        rollbackCount := s.rollbackCount + 1
        pendingTxs := ∅ }.rollbackMaps txid.version)

end Store
end CCF.Kv
