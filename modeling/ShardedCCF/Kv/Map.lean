import ShardedCCF.Kv.ChangeSet

/-! A map of the store: its roll of local commits, the check and the commit of
a change set, compaction and rollback. The roll is never empty. -/
namespace CCF.Kv
open Std (ExtTreeMap)

variable {K V : Type} [LinearOrder K]

inductive SecurityDomain where
  | publicDomain | privateDomain
  deriving DecidableEq, Repr

structure LocalCommit (K V : Type) [LinearOrder K] where
  version : Nat
  state : State K V
  writes : Write K V

structure Roll (K V : Type) [LinearOrder K] where
  head : LocalCommit K V
  rest : List (LocalCommit K V)
  rollbackCounter : Nat

/-- A map object. What its hooks are called with is kept where the hooks are. -/
structure KvMap (Name K V : Type) [LinearOrder K] where
  name : Name
  roll : Roll K V
  globalHook : Bool := false
  mapHook : Bool := false
  commitDeltas : List (Nat × Write K V) := []

namespace Roll

def commits (roll : Roll K V) : List (LocalCommit K V) := roll.head :: roll.rest

def tail (roll : Roll K V) : LocalCommit K V := roll.rest.getLastD roll.head

def initial : Roll K V := ⟨⟨0, ∅, ∅⟩, [], 0⟩

def push (roll : Roll K V) (c : LocalCommit K V) : Roll K V := { roll with rest := roll.rest ++ [c] }

def lastAt (roll : Roll K V) (version : Nat) : Option (LocalCommit K V) :=
  roll.commits.reverse.find? fun c => c.version ≤ version

end Roll

/-- One written key at its new version. A removal marks the key if it exists. -/
def applyWrite [Inhabited V] (v : Nat) (state : State K V) (key : K) : Option V → State K V
  | some value => state.insert key ⟨v, v, value⟩
  | none => if state.contains key then state.insert key ⟨-v, v, default⟩ else state

def applyWrites [Inhabited V] (v : Nat) (state : State K V) (writes : Write K V) : State K V :=
  writes.toList.foldl (fun state (key, written) => applyWrite v state key written) state

/-- Whether the writes change the state: a value is written, or an existing key
is removed. -/
def changes (state : State K V) (writes : Write K V) : Bool :=
  writes.toList.any fun (key, written) => written.isSome || state.contains key

namespace KvMap
variable {Name : Type}

def initial (name : Name) : KvMap Name K V := { name, roll := .initial }

/-- The key still is as the transaction read it. -/
def readHolds (current : State K V) (key : K) (version : Int) : Bool :=
  match current[key]? with
  | none => version = noVersion
  | some found => version ≠ noVersion && version = found.version

/-- Whether a change set still applies. One without writes always does. -/
def prepare (m : KvMap Name K V) (cs : ChangeSet K V) : Bool :=
  if cs.writes.isEmpty then true
  else if cs.rollbackCounter ≠ m.roll.rollbackCounter then false
  else if cs.readVersion ≠ noVersion ∧ cs.readVersion ≠ m.roll.tail.version then false
  else cs.reads.toList.all fun (key, version, _) => readHolds m.roll.tail.state key version

def commit [Inhabited V] (m : KvMap Name K V) (cs : ChangeSet K V) (v : Nat) : KvMap Name K V :=
  if cs.writes.isEmpty then m
  else if changes m.roll.tail.state cs.writes then
    { m with roll := m.roll.push ⟨v, applyWrites v m.roll.tail.state cs.writes, cs.writes⟩ }
  else m

/-- A snapshot replaces the roll. Its state is copied for the hooks, if there are any. -/
def commitSnapshot (m : KvMap Name K V) (state : State K V) (version : Nat) : KvMap Name K V :=
  let writes : Write K V :=
    if m.globalHook || m.mapHook then
      state.map fun _ found => if isDeleted found.version then none else some found.value
    else ∅
  { m with roll := ⟨⟨version, state, writes⟩, [], m.roll.rollbackCounter + 1⟩ }

/-- The writes of a commit are moved out for the global hook. -/
def moveWrites (hook : Bool) (c : LocalCommit K V) : LocalCommit K V × List (Nat × Write K V) :=
  if hook then ({ c with writes := ∅ }, [(c.version, c.writes)]) else (c, [])

/-- The commits that stay, and the deltas for the global hook. A commit at the
version itself stays; others do if the next one may be rolled back or is missing. -/
def compactRoll (hook : Bool) (v : Nat) (head : LocalCommit K V) :
    List (LocalCommit K V) → LocalCommit K V × List (LocalCommit K V) × List (Nat × Write K V)
  | [] =>
    let (head, delta) := moveWrites (hook && !head.writes.isEmpty) head
    (head, [], delta)
  | next :: rest =>
    if head.version = v then
      let (head, delta) := moveWrites hook head
      (head, next :: rest, delta)
    else
      let (head, delta) := moveWrites (hook && !head.writes.isEmpty) head
      if next.version > v then (head, next :: rest, delta)
      else
        let (kept, rest, deltas) := compactRoll hook v next rest
        (kept, rest, delta ++ deltas)

def compact (m : KvMap Name K V) (v : Nat) : KvMap Name K V :=
  let (head, rest, deltas) := compactRoll m.globalHook v m.roll.head m.roll.rest
  { m with roll := { m.roll with head, rest }, commitDeltas := m.commitDeltas ++ deltas }

/-- What the global hook is called with, and the map afterwards. -/
def postCompact (m : KvMap Name K V) : List (Nat × Write K V) × KvMap Name K V :=
  (if m.globalHook then m.commitDeltas else [], { m with commitDeltas := [] })

def rollback (m : KvMap Name K V) (v : Nat) : KvMap Name K V :=
  let rest := m.roll.rest.rdropWhile fun c => v < c.version
  let rollbackCounter := m.roll.rollbackCounter + if rest.length < m.roll.rest.length then 1 else 0
  { m with roll := { m.roll with rest, rollbackCounter } }

/-- The version and state of the map at the last commit at or before the version. -/
def snapshot (m : KvMap Name K V) (v : Nat) : Nat × State K V :=
  let c := (m.roll.lastAt v).getD m.roll.head
  (c.version, c.state)

/-- No change set if the version is earlier than anything in the roll. -/
def createChangeSet (m : KvMap Name K V) (version : Nat) : Option (ChangeSet K V) :=
  (m.roll.lastAt version).map fun c =>
    { rollbackCounter := m.roll.rollbackCounter
      state := c.state
      committed := m.roll.head.state
      startVersion := c.version }

end KvMap
end CCF.Kv
