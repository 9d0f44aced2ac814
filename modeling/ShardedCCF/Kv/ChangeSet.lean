import ShardedCCF.Lib.TreeMap

/-! The change set of a transaction over one map, and the operations of a map
handle on it. A state is the finite map that a persistent hash map stands for. -/
namespace CCF.Kv
open Std (ExtTreeMap)

/-- Version 0 stands for no version at all. -/
abbrev noVersion : Nat := 0

/-- A value with the version of its last write, negative if that was a removal. -/
structure VersionV (V : Type) where
  version : Int
  readVersion : Nat
  value : V
  deriving DecidableEq, Repr

def isDeleted (version : Int) : Bool := version < 0

variable {K V : Type} [LinearOrder K]

abbrev State (K V : Type) [LinearOrder K] := ExtTreeMap K (VersionV V)

/-- The version of a key when it was read, and of the last transaction that had
read it before. -/
abbrev Read (K : Type) [LinearOrder K] := ExtTreeMap K (Int × Nat)

/-- A written value, or `none` for a removal. -/
abbrev Write (K V : Type) [LinearOrder K] := ExtTreeMap K (Option V)

structure ChangeSet (K V : Type) [LinearOrder K] where
  rollbackCounter : Nat
  state : State K V
  committed : State K V
  startVersion : Nat
  readVersion : Nat := noVersion
  reads : Read K := ∅
  writes : Write K V := ∅

namespace ChangeSet

def hasWrites (cs : ChangeSet K V) : Bool := !cs.writes.isEmpty

/-- A written key is not a dependency; any other key is, also when it is absent. -/
def readKey (cs : ChangeSet K V) (key : K) : Option V × ChangeSet K V :=
  match cs.writes[key]? with
  | some written => (written, cs)
  | none =>
    match cs.state[key]? with
    | none => (none, { cs with reads := cs.reads.insertIfNew key (noVersion, noVersion) })
    | some found =>
      (if isDeleted found.version then none else some found.value,
        { cs with reads := cs.reads.insertIfNew key (found.version, found.readVersion) })

def get (cs : ChangeSet K V) (key : K) : Option V × ChangeSet K V := cs.readKey key

def has (cs : ChangeSet K V) (key : K) : Bool × ChangeSet K V :=
  ((cs.readKey key).1.isSome, (cs.readKey key).2)

def put (cs : ChangeSet K V) (key : K) (value : V) : ChangeSet K V :=
  { cs with writes := cs.writes.insert key (some value) }

/-- A removal is recorded only for a key of the state; a key that is only
written by this transaction is forgotten. -/
def remove (cs : ChangeSet K V) (key : K) : Bool × ChangeSet K V :=
  if cs.writes.contains key then
    if cs.state.contains key then (true, { cs with writes := cs.writes.insert key none })
    else (true, { cs with writes := cs.writes.erase key })
  else if cs.state.contains key then (true, { cs with writes := cs.writes.insert key none })
  else (false, cs)

/-- What an iteration passes to its visitor: the state without what the
transaction has written, then the written values. -/
def visible (cs : ChangeSet K V) : List (K × V) :=
  (cs.state.toList.filter fun (key, found) => !cs.writes.contains key && !isDeleted found.version).map
      (fun (key, found) => (key, found.value)) ++
    cs.writes.toList.filterMap fun (key, written) => written.map fun value => (key, value)

def visited (visit : K → V → Bool) : List (K × V) → List (K × V)
  | [] => []
  | (key, value) :: rest =>
    if visit key value then (key, value) :: visited visit rest else [(key, value)]

/-- An iteration depends on the version of the whole map. -/
def foreach (cs : ChangeSet K V) (visit : K → V → Bool) : List (K × V) × ChangeSet K V :=
  (visited visit cs.visible, { cs with readVersion := cs.startVersion })

def size (cs : ChangeSet K V) : Nat × ChangeSet K V :=
  let (pairs, cs) := cs.foreach fun _ _ => true
  (pairs.length, cs)

def clear (cs : ChangeSet K V) : ChangeSet K V :=
  let (pairs, cs) := cs.foreach fun _ _ => true
  pairs.foldl (fun cs (key, _) => (cs.remove key).2) cs

def getGloballyCommitted (cs : ChangeSet K V) (key : K) : Option V :=
  match cs.committed[key]? with
  | none => none
  | some found => if isDeleted found.version then none else some found.value

end ChangeSet
end CCF.Kv
