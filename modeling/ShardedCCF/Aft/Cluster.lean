import ShardedCCF.Aft.Raft
import ShardedCCF.Lib.Run

/-! A cluster: the nodes and the messages in flight. A step is a tick of one
node, a call of `replicate` on it, or the delivery or loss of any message, so
runs cover every interleaving, reordering and loss. -/
namespace CCF.Aft
open Std (ExtTreeMap)

variable {NodeId : Type} [LinearOrder NodeId]

structure Envelope (NodeId : Type) where
  source : NodeId
  dest : NodeId
  message : Message NodeId
  deriving DecidableEq

structure Cluster (NodeId : Type) [LinearOrder NodeId] where
  node : NodeId → Node NodeId
  net : List (Envelope NodeId)

structure Settings (NodeId : Type) [LinearOrder NodeId] where
  requestTimeout : Nat := 100
  electionTimeout : Nat := 5000
  reconfigurationType : ReconfigurationType := .oneTransaction
  /-- Nodes that join a two-transaction service start as learners. -/
  learner : NodeId → Bool := fun _ => false
  /-- The configuration all nodes start from; without one, the first
  reconfiguration entry introduces it. -/
  configuration : Option (Nodes NodeId) := none

inductive Action (NodeId : Type) where
  | tick (env : Env NodeId) (n : NodeId) (elapsed : Nat)
  | replicate (env : Env NodeId) (n : NodeId) (entries : List (Entry NodeId)) (term : Nat)
  | deliver (env : Env NodeId) (k : Nat)
  | lose (k : Nat)

namespace Node

def initial (settings : Settings NodeId) (n : NodeId) : Node NodeId :=
  let s : Node NodeId :=
    { myNodeId := n
      requestTimeout := settings.requestTimeout
      electionTimeout := settings.electionTimeout
      reconfigurationType := settings.reconfigurationType
      membershipState := if settings.learner n then .learner else .active }
  match settings.configuration with
  | none => s
  | some conf => s.addConfiguration {} 0 conf [] []

def initialPrimary (settings : Settings NodeId) (n : NodeId) : Node NodeId :=
  Result.state ((initial settings n).forceBecomePrimary {})

def initialBackup (settings : Settings NodeId) (n : NodeId) : Node NodeId :=
  Result.state ((initial settings n).initAsBackup {} 0 0 [])

/-- The state after a call of `replicate`, whether it returns or throws. -/
def replicated (env : Env NodeId) (s : Node NodeId) (entries : List (Entry NodeId)) (term : Nat) :
    Node NodeId :=
  match s.replicate env entries term with
  | .ok (s, _) => s
  | .error thrown => thrown.state

def envelopes (s : Node NodeId) (source : NodeId) : List (Envelope NodeId) :=
  s.outbox.map fun (dest, message) => ⟨source, dest, message⟩

end Node

/-- The store writes the term of the transaction into the header of its entry. -/
def Entry.stamp (term : Nat) (e : Entry NodeId) : Entry NodeId := { e with term }

namespace Cluster

def initial (settings : Settings NodeId) (primary : NodeId) : Cluster NodeId :=
  let first := Node.initialPrimary settings primary
  { node := fun n => if n = primary then { first with outbox := [] }
      else Node.initialBackup settings n
    net := first.envelopes primary }

def put (c : Cluster NodeId) (n : NodeId) (s : Node NodeId) : Cluster NodeId :=
  { node := Function.update c.node n { s with outbox := [] }
    net := c.net ++ s.envelopes n }

def step (c : Cluster NodeId) : Action NodeId → Option (Cluster NodeId)
  | .tick env n elapsed => some (c.put n (Result.state ((c.node n).periodic env elapsed)))
  | .replicate env n entries term =>
    some (c.put n ((c.node n).replicated env (entries.map (Entry.stamp term)) term))
  | .deliver env k =>
    match c.net[k]? with
    | none => none
    | some m =>
      some ({ c with net := c.net.eraseIdx k }.put m.dest
        ((c.node m.dest).recvMessage env m.source m.message))
  | .lose k => if k < c.net.length then some { c with net := c.net.eraseIdx k } else none

abbrev Trace (NodeId : Type) [LinearOrder NodeId] :=
  List (Lib.Transition (Cluster NodeId) (Action NodeId))

abbrev Run (settings : Settings NodeId) (primary : NodeId) (trace : Trace NodeId)
    (c : Cluster NodeId) : Prop :=
  Lib.Run step (initial settings primary) trace c

end Cluster
end CCF.Aft
