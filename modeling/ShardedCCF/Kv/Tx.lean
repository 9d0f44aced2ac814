import ShardedCCF.Kv.Store
import ShardedCCF.Lib.Run

/-! Transactions over the store: how handles are acquired, what the operations of
a handle return, and `CommittableTx::commit`. A system is a store with its open
transactions, whose calls interleave with compactions and rollbacks. -/
namespace CCF.Kv
open Std (ExtTreeMap)

variable {Name K V : Type} [LinearOrder Name] [LinearOrder K]

structure Tx (Name K V : Type) [LinearOrder Name] [LinearOrder K] where
  readTxid : Option TxID := none
  commitView : Nat := 0
  allChanges : ExtTreeMap Name (Nat × ChangeSet K V) := ∅
  createdMaps : ExtTreeMap Name Nat := ∅
  committed : Bool := false
  success : Bool := false
  version : Nat := noVersion

/-- The operations of a map handle on the state and the writes of its transaction. -/
inductive Operation (K V : Type) where
  | get (key : K)
  | has (key : K)
  | foreach (visit : K → V → Bool)
  | size
  | put (key : K) (value : V)
  | remove (key : K)
  | clear

inductive Observation (K V : Type) where
  | value (found : Option V)
  | flag (found : Bool)
  | pairs (visited : List (K × V))
  | count (n : Nat)
  | nothing
  deriving DecidableEq

def ChangeSet.operate (cs : ChangeSet K V) : Operation K V → Observation K V × ChangeSet K V
  | .get key => (.value (cs.get key).1, (cs.get key).2)
  | .has key => (.flag (cs.has key).1, (cs.has key).2)
  | .foreach visit => (.pairs (cs.foreach visit).1, (cs.foreach visit).2)
  | .size => (.count cs.size.1, cs.size.2)
  | .put key value => (.nothing, cs.put key value)
  | .remove key => (.flag (cs.remove key).1, (cs.remove key).2)
  | .clear => (.nothing, cs.clear)

namespace Store

def currentTxid (s : Store Name K V) : TxID := ⟨s.termOfLastVersion, s.version⟩

end Store

namespace Tx

/-- The first handle fixes the version that all maps are read at. -/
def fixReadTxid (tx : Tx Name K V) (s : Store Name K V) : TxID × Tx Name K V :=
  match tx.readTxid with
  | some txid => (txid, tx)
  | none => (s.currentTxid, { tx with readTxid := some s.currentTxid, commitView := s.termOfNextVersion })

/-- A map that the store does not know at the read version is created for this
transaction. The result is `none` if the change set cannot be created, which
throws `CompactedVersionConflict`. -/
def getMapAndChangeSetByName (tx : Tx Name K V) (s : Store Name K V) (name : Name) :
    Option (Nat × ChangeSet K V) × Tx Name K V × Store Name K V :=
  let (readTxid, tx) := tx.fixReadTxid s
  match s.getMap readTxid.version name with
  | some ref =>
    (((s.objects ref).createChangeSet readTxid.version).map fun cs => (ref, cs), tx, s)
  | none =>
    let (ref, s) := s.newObject name
    (((s.objects ref).createChangeSet readTxid.version).map fun cs => (ref, cs),
      { tx with createdMaps := tx.createdMaps.insert name ref }, s)

def getHandleByName (tx : Tx Name K V) (s : Store Name K V) (name : Name) :
    Bool × Tx Name K V × Store Name K V :=
  if tx.allChanges.contains name then (true, tx, s)
  else
    match tx.getMapAndChangeSetByName s name with
    | (some changes, tx, s) => (true, { tx with allChanges := tx.allChanges.insert name changes }, s)
    | (none, tx, s) => (false, tx, s)

def changes (tx : Tx Name K V) : OrderedChanges Name K V :=
  tx.allChanges.map fun _ (ref, cs) => (ref, .transaction cs)

def writeSet (tx : Tx Name K V) : WriteSet Name K V :=
  tx.allChanges.filterMap fun _ (_, cs) => if cs.hasWrites then some cs.writes else none

def serialise (tx : Tx Name K V) (s : Store Name K V) : WriteSet Name K V :=
  tx.writeSet.filter fun name _ => s.isMapReplicated name

/-- Without consensus a commit is only local. With one, the batch that it is
handed, if any, is returned with its view. -/
def commit [Inhabited V] (tx : Tx Name K V) (s : Store Name K V)
    (consensus : Option (Consensus (WriteSet Name K V))) :
    Option (CommitResult × Option (List (BatchEntry (WriteSet Name K V)) × Nat) × Tx Name K V ×
      Store Name K V) :=
  if tx.committed then none
  else if tx.allChanges.isEmpty then
    some (.success, none, { tx with committed := true, success := true }, s)
  else
    match s.applyChanges tx.changes Store.nextVersion tx.createdMaps with
    | (none, s) => some (.failConflict, none, { tx with success := false }, s)
    | (some version, s) =>
      let tx := { tx with committed := true, success := true, version }
      if version = noVersion then some (.success, none, tx, s)
      else
        match consensus with
        | none => some (.success, none, tx, s)
        | some c =>
          let (result, batch, r) :=
            s.toReplication.commit c ⟨tx.commitView, version⟩ (tx.serialise s) false
          some (result, batch, tx, { s with toReplication := r })

end Tx

structure System (Name K V : Type) [LinearOrder Name] [LinearOrder K] where
  store : Store Name K V
  txs : Nat → Tx Name K V := fun _ => {}

inductive Action (Name K V : Type) [LinearOrder Name] [LinearOrder K] where
  | handle (t : Nat) (name : Name)
  | operate (t : Nat) (name : Name) (op : Operation K V)
  | commit (t : Nat) (consensus : Option (Consensus (WriteSet Name K V)))
  | compact (v : Nat)
  | rollback (txid : TxID) (termOfNextVersion : Nat)

namespace System

def setTx (s : System Name K V) (t : Nat) (tx : Tx Name K V) : System Name K V :=
  { s with txs := Function.update s.txs t tx }

/-- A call that throws leaves no state, except that of a handle. -/
def step [Inhabited V] (s : System Name K V) : Action Name K V → Option (System Name K V)
  | .handle t name =>
    let (_, tx, store) := (s.txs t).getHandleByName s.store name
    some { s.setTx t tx with store }
  | .operate t name op =>
    match (s.txs t).allChanges[name]? with
    | none => none
    | some (ref, cs) =>
      some (s.setTx t
        { s.txs t with allChanges := (s.txs t).allChanges.insert name (ref, (cs.operate op).2) })
  | .commit t consensus =>
    ((s.txs t).commit s.store consensus).map fun (_, _, tx, store) => { s.setTx t tx with store }
  | .compact v => some { s with store := s.store.compact v }
  | .rollback txid term => (s.store.rollback txid term).map fun store => { s with store }

end System
end CCF.Kv
