import ShardedCCF.Aft.Log
import ShardedCCF.Lib.TreeMap

/-! The state of one `Aft` instance under CFT, and the operations on it that
send nothing but AppendEntries: node table, configurations, retirement,
rollback and commit. -/
namespace CCF.Aft
open Std (ExtTreeMap)

variable {NodeId : Type} [LinearOrder NodeId]

abbrev Nodes (NodeId : Type) [LinearOrder NodeId] := ExtTreeMap NodeId NodeInfo

structure Configuration (NodeId : Type) [LinearOrder NodeId] where
  idx : Nat
  nodes : Nodes NodeId
  rid : Nat

structure NodeState where
  nodeInfo : NodeInfo
  sentIdx : Nat
  matchIdx : Nat
  lastAckTimeout : Nat := 0
  deriving DecidableEq

structure Node (NodeId : Type) [LinearOrder NodeId] extends Ballot NodeId, Log NodeId where
  myNodeId : NodeId
  ticking : Bool := false
  configurations : List (Configuration NodeId) := []
  nodes : ExtTreeMap NodeId NodeState := ∅
  learnerNodes : ExtTreeMap NodeId Nat := ∅
  retiredNodes : ExtTreeMap NodeId Nat := ∅
  orcSets : ExtTreeMap Nat (Finset NodeId) := ∅
  reconfigurationType : ReconfigurationType := .oneTransaction
  membershipState : MembershipState := .active
  retirementPhase : Option RetirementPhase := none
  retirementIdx : Option Nat := none
  retirementCommittableIdx : Option Nat := none
  /-- An assertion about the retirement has failed; a release build goes on. -/
  assertionFailed : Bool := false
  timeoutElapsed : Nat := 0
  requestTimeout : Nat := 100
  electionTimeout : Nat := 5000
  electionIndex : Nat := 0
  shouldSign : Bool := false
  cftWatermarkIdx : Nat := 0
  entrySizeNotLimited : Nat := 0
  entryCount : Nat := 0
  entriesBatchSize : Nat := 20
  batchWindowSum : Int := 0
  outbox : List (NodeId × Message NodeId) := []

/-- What a call takes from outside the node: the random draw for the election
timer, whether a channel takes a message, and whether the store deserialises,
applies and verifies an entry. -/
structure Env (NodeId : Type) where
  draw : Nat := 0
  sendAuthenticated : NodeId → Bool := fun _ => true
  storeAccepts : Entry NodeId → Bool := fun _ => true

inductive Fault where
  | versionMovesBackwards | termAlreadyInitialised | matchBeyondLog | commitBeyondLog
  | missingNode | emptyConfiguration | alreadyLeader | malformedPayload | missingOrcSet
  deriving DecidableEq, Repr

/-- An exception leaves the state as it was when it was thrown. -/
structure Thrown (NodeId : Type) [LinearOrder NodeId] where
  fault : Fault
  state : Node NodeId

abbrev Result (NodeId : Type) [LinearOrder NodeId] := Except (Thrown NodeId) (Node NodeId)

def Result.state : Result NodeId → Node NodeId
  | .ok s => s
  | .error thrown => thrown.state

def getQuorum (n : Nat) : Nat := n / 2 + 1

def appendEntriesSizeLimit : Nat := 20000

def batchWindowSize : Nat := 100

/-- The nodes after a change: trusted nodes and learners are added, retiring and
retired ones removed. -/
def applyDelta (delta : List (NodeId × Option NodeInfo)) (conf : Nodes NodeId) : Nodes NodeId :=
  delta.foldl (fun conf (id, info) => match info with
    | some info => conf.insertIfNew id info
    | none => conf.erase id) conf

namespace Node

def isLearner (s : Node NodeId) : Bool := s.membershipState = .learner

def isRetired (s : Node NodeId) : Bool := s.membershipState = .retired

def isRetiring (s : Node NodeId) : Bool := s.membershipState = .retirementInitiated

def canEndorsePrimary (s : Node NodeId) : Bool := !s.isRetired && !s.isLearner

/-- The retirement phases are ordered; an absent phase is below all of them. -/
def retirementAtLeast (s : Node NodeId) (bound : RetirementPhase) : Bool :=
  s.retirementPhase.any fun phase => bound.rank ≤ phase.rank

def getLatestConfiguration (s : Node NodeId) : Nodes NodeId :=
  (s.configurations.getLast?.map (·.nodes)).getD ∅

def isSelfInLatestConfig (s : Node NodeId) : Bool := s.getLatestConfiguration.contains s.myNodeId

def startTicking (s : Node NodeId) : Node NodeId := { s with ticking := true, timeoutElapsed := 0 }

def startTickingIfNecessary (s : Node NodeId) : Node NodeId :=
  if !s.ticking && s.isSelfInLatestConfig then s.startTicking else s

def restartElectionTimeout (env : Env NodeId) (s : Node NodeId) : Node NodeId :=
  { s with timeoutElapsed := env.draw }

def clearOrcSets (s : Node NodeId) : Node NodeId :=
  { s with orcSets := s.orcSets.map fun _ _ => ∅ }

def resetLastAckTimeouts (s : Node NodeId) : Node NodeId :=
  { s with nodes := s.nodes.map fun _ n => { n with lastAckTimeout := 0 } }

/-- The C++ adds a `size_t` to an `int`, so the window sum wraps at 32 bits. -/
def updateBatchSize (s : Node NodeId) : Node NodeId :=
  let avgEntrySize := if s.entryCount = 0 then appendEntriesSizeLimit
    else s.entrySizeNotLimited / s.entryCount
  let batchSize := if avgEntrySize = 0 then appendEntriesSizeLimit / 2
    else appendEntriesSizeLimit / avgEntrySize
  let batchAvg := s.batchWindowSum.tdiv batchWindowSize
  let batchWindowSum := (s.batchWindowSum + (batchSize - batchAvg)).bmod (2 ^ 32)
  { s with
    batchWindowSum
    entriesBatchSize := (max (batchWindowSum.tdiv batchWindowSize) 1).toNat }

def send (s : Node NodeId) (dest : NodeId) (m : Message NodeId) : Node NodeId :=
  { s with outbox := s.outbox ++ [(dest, m)] }

/-- A message the channel refuses is gone: no response or vote is sent twice. -/
def sendAuthenticated (env : Env NodeId) (s : Node NodeId) (dest : NodeId)
    (m : Message NodeId) : Node NodeId :=
  if env.sendAuthenticated dest then s.send dest m else s

/-- A retired node sends no heartbeats once its retirement is complete. Every
caller passes a key of the node table. -/
def sendAppendEntriesRange (env : Env NodeId) (s : Node NodeId) (dest : NodeId)
    (startIdx endIdx : Nat) : Node NodeId :=
  if s.isRetired && s.retirementAtLeast .completed && startIdx ≥ endIdx then s
  else
    match s.nodes[dest]? with
    | none => s
    | some node =>
      if env.sendAuthenticated dest then
        { s.send dest (s.appendEntriesMessage s.currentView startIdx endIdx) with
          nodes := s.nodes.insert dest { node with sentIdx := endIdx } }
      else s

def sendBatches (env : Env NodeId) (dest : NodeId) : Nat → Node NodeId → Nat → Node NodeId
  | 0, s, _ => s
  | fuel + 1, s, startIdx =>
    let endIdx := s.calculateEndIndex s.entriesBatchSize startIdx
    let s := s.sendAppendEntriesRange env dest startIdx endIdx
    if endIdx = s.lastIdx then s
    else sendBatches env dest fuel s (min (endIdx + 1) s.lastIdx)

/-- Every batch but the last moves `start_idx` forward, so the loop body runs at
most `last_idx + 1` times. -/
def sendAppendEntries (env : Env NodeId) (s : Node NodeId) (dest : NodeId)
    (startIdx : Nat) : Node NodeId :=
  sendBatches env dest (s.lastIdx + 1) s startIdx

def sendToAll (env : Env NodeId) (s : Node NodeId) : Node NodeId :=
  s.nodes.toList.foldl (fun s (id, node) => s.sendAppendEntries env id (node.sentIdx + 1)) s

def becomeRetiring (s : Node NodeId) : Node NodeId :=
  { s with membershipState := .retirementInitiated }

def assertRetirement (s : Node NodeId) (idx : Nat) : RetirementPhase → Bool
  | .committed => s.isRetiring && s.retirementPhase.isNone
  | .ordered => s.retirementIdx.isNone
  | .signed => s.retirementIdx.any (· ≤ idx)
  | .completed => true

def becomeRetired (s : Node NodeId) (idx : Nat) (phase : RetirementPhase) : Node NodeId :=
  let s := { s with assertionFailed := s.assertionFailed || !s.assertRetirement idx phase }
  let s := match phase with
    | .committed => s
    | .ordered => { s with retirementIdx := some idx }
    | .signed => { s with retirementCommittableIdx := some idx }
    | .completed => { s with leaderId := none, leadershipState := none }
  { s with membershipState := .retired, retirementPhase := some phase }

def activeNodes (s : Node NodeId) : Nodes NodeId :=
  s.configurations.foldl
    (fun active conf => conf.nodes.toList.foldl (fun m (id, info) => m.insertIfNew id info) active) ∅

def addNodeState (env : Env NodeId) (s : Node NodeId) (id : NodeId) (info : NodeInfo) :
    Node NodeId :=
  if id = s.myNodeId then s
  else if s.nodes.contains id then s
  else
    let index := s.lastIdx + 1
    let s := { s with nodes := s.nodes.insertIfNew id ⟨info, index, 0, 0⟩ }
    if s.isPrimary then s.sendAppendEntries env id index else s

def createAndRemoveNodeState (env : Env NodeId) (s : Node NodeId) : Node NodeId :=
  let active := s.activeNodes
  let s := { s with nodes := s.nodes.filter fun id _ => active.contains id }
  active.toList.foldl (fun s (id, info) => s.addNodeState env id info) s

/-- The bookkeeping of learners and retired nodes in a two-transaction
reconfiguration. -/
def recordLearnersAndRetired (s : Node NodeId) (idx : Nat) (conf : Nodes NodeId)
    (newLearnerNodes newRetiredNodes : List NodeId) : Node NodeId :=
  let s := { s with
    learnerNodes := newLearnerNodes.foldl (fun m id => m.insertIfNew id idx) s.learnerNodes
    retiredNodes := newRetiredNodes.foldl (fun m id => m.insertIfNew id idx) s.retiredNodes }
  let promoted := fun id => conf.contains id && s.nodes.contains id && !newLearnerNodes.contains id
  let s :=
    if s.configurations.isEmpty then s
    else
      let s := { s with learnerNodes := s.learnerNodes.filter fun id _ => !promoted id }
      if s.isLearner && conf.contains s.myNodeId then
        { s with leadershipState := some .follower, membershipState := .active }
      else s
  { s with orcSets := s.orcSets.insertIfNew idx ∅ }

/-- In a one-transaction reconfiguration the node is retired by the first
configuration without it; in a two-transaction one, by the next after that. -/
def observeConfiguration (s : Node NodeId) (idx : Nat) (conf : Nodes NodeId)
    (newLearnerNodes newRetiredNodes : List NodeId) : Node NodeId :=
  let last := s.configurations.getLast?
  match s.reconfigurationType with
  | .oneTransaction =>
    if (last.any fun c => c.nodes.contains s.myNodeId) && !conf.contains s.myNodeId then
      s.becomeRetired idx .ordered
    else s
  | .twoTransaction =>
    let s :=
      if (last.any fun c => !c.nodes.contains s.myNodeId) && !conf.contains s.myNodeId &&
          (s.isRetiring || (s.isRetired && s.retirementPhase = some .committed)) then
        s.becomeRetired idx .ordered
      else s
    s.recordLearnersAndRetired idx conf newLearnerNodes newRetiredNodes

/-- The first configuration is always new: the C++ compares it with the `back()`
of an empty list. -/
def addConfiguration (env : Env NodeId) (s : Node NodeId) (idx : Nat) (conf : Nodes NodeId)
    (newLearnerNodes newRetiredNodes : List NodeId) : Node NodeId :=
  let s := s.observeConfiguration idx conf newLearnerNodes newRetiredNodes
  if s.configurations.getLast?.any fun c => conf = c.nodes then s
  else
    let newConfig : Configuration NodeId := { idx, nodes := conf, rid := idx }
    { s with configurations := s.configurations ++ [newConfig] }.createAndRemoveNodeState env

/-- `ConfigurationChangeHook::call`. -/
def configurationChange (env : Env NodeId) (s : Node NodeId) (version : Nat)
    (change : ConfigurationChange NodeId) : Node NodeId :=
  if change.cfgDelta.isEmpty then s
  else s.addConfiguration env version (applyDelta change.cfgDelta s.getLatestConfiguration)
    change.learners change.retiredNodes

def callHooks (env : Env NodeId) (s : Node NodeId) (e : Entry NodeId) : Node NodeId :=
  e.hooks.foldl (fun s change => s.configurationChange env e.index change) s

/-- The code asserts that a signed retirement has its committable index. -/
def unsignRetirement (s : Node NodeId) (idx : Nat) : Node NodeId :=
  let s := { s with assertionFailed := s.assertionFailed ||
    (s.isRetired && s.retirementPhase = some RetirementPhase.signed &&
      s.retirementCommittableIdx.isNone) }
  if s.isRetired && s.retirementPhase = some .signed && s.retirementCommittableIdx.any (idx < ·)
  then { s with retirementCommittableIdx := none, retirementPhase := some .ordered }
  else s

/-- The code asserts that an ordered retirement has its index. -/
def unorderRetirement (s : Node NodeId) (idx : Nat) : Node NodeId :=
  let s := { s with assertionFailed := s.assertionFailed ||
    (s.isRetired && s.retirementPhase = some RetirementPhase.ordered && s.retirementIdx.isNone) }
  if s.isRetired && s.retirementPhase = some .ordered && s.retirementIdx.any (idx < ·) then
    { s with
      retirementIdx := none
      retirementPhase := none
      membershipState := match s.reconfigurationType with
        | .oneTransaction => .active
        | .twoTransaction => .retirementInitiated }
  else s

/-- A rollback may undo both phases of a retirement at once. -/
def rollbackRetirement (s : Node NodeId) (idx : Nat) : Node NodeId :=
  (s.unsignRetirement idx).unorderRetirement idx

def rollbackLearnersAndRetired (s : Node NodeId) (idx : Nat) : Node NodeId :=
  match s.reconfigurationType with
  | .oneTransaction => s
  | .twoTransaction =>
    { s with
      learnerNodes := s.learnerNodes.filter fun _ added => added ≤ idx
      retiredNodes := s.retiredNodes.filter fun _ added => added ≤ idx }

def rollbackConfigurations (env : Env NodeId) (s : Node NodeId) (idx : Nat) : Node NodeId :=
  let kept := s.configurations.rdropWhile fun conf => idx < conf.idx
  let t := { s with configurations := kept }.rollbackLearnersAndRetired idx
  if kept.length ≠ s.configurations.length then t.createAndRemoveNodeState env else t

def rollback (env : Env NodeId) (s : Node NodeId) (idx : Nat) : Node NodeId :=
  if idx < s.commitIdx then s
  else
    let s := { s with toLog := s.toLog.rollback s.currentView idx }
    (s.rollbackRetirement idx).rollbackConfigurations env idx

def numTrusted (s : Node NodeId) (c : Configuration NodeId) : Nat :=
  c.nodes.keys.countP fun id =>
    (s.nodes.contains id && !s.learnerNodes.contains id) || (id = s.myNodeId && !s.isLearner)

def numRetired (s : Node NodeId) (c next : Configuration NodeId) : Nat :=
  c.nodes.keys.countP fun id =>
    !next.nodes.contains id && s.retiredNodes[id]?.any (· ≤ s.commitIdx)

def numRequiredRetirements (c next : Configuration NodeId) : Nat :=
  c.nodes.keys.countP fun id => !next.nodes.contains id

def observeRemoval (s : Node NodeId) (idx : Nat) (c next : Configuration NodeId) : Node NodeId :=
  if !s.isRetired && c.nodes.contains s.myNodeId && !next.nodes.contains s.myNodeId then
    if s.isRetiring then s.becomeRetired idx .committed else s.becomeRetiring
  else s

/-- In a two-transaction reconfiguration the front configuration is left when
every node of the next one is trusted and every removed node is retired. -/
def canSwitch (s : Node NodeId) (c next : Configuration NodeId) : Bool :=
  s.numTrusted next = next.nodes.size && s.numRetired c next = numRequiredRetirements c next

def switchConfiguration (s : Node NodeId) (c next : Configuration NodeId)
    (rest : List (Configuration NodeId)) : Node NodeId :=
  let s :=
    if s.isLearner && next.nodes.contains s.myNodeId then
      { s with leadershipState := some .follower, membershipState := .active }
    else s
  { s with
    learnerNodes := s.learnerNodes.filter fun id _ => !next.nodes.contains id
    retiredNodes := s.retiredNodes.filter fun id _ =>
      !c.nodes.contains id || next.nodes.contains id
    configurations := next :: rest }

/-- The loop over the configurations that are followed by a committed one. Only
the one-transaction branch reports that the configurations changed. -/
def dropSuperseded (idx : Nat) : Nat → Node NodeId → Bool → Node NodeId × Bool
  | 0, s, changed => (s, changed)
  | fuel + 1, s, changed =>
    match s.configurations with
    | c :: next :: rest =>
      if idx < next.idx then (s, changed)
      else match s.reconfigurationType with
        | .oneTransaction => dropSuperseded idx fuel { s with configurations := next :: rest } true
        | .twoTransaction =>
          let s := s.observeRemoval idx c next
          if s.canSwitch c next then
            dropSuperseded idx fuel (s.switchConfiguration c next rest) changed
          else (s, changed)
    | _ => (s, changed)

def completeRetirement (s : Node NodeId) (idx : Nat) : Node NodeId :=
  if s.isRetired && s.retirementPhase = some .signed && s.retirementCommittableIdx.any (· ≤ idx)
  then s.becomeRetired idx .completed
  else s

def commit (env : Env NodeId) (s : Node NodeId) (idx : Nat) : Result NodeId :=
  if idx > s.lastIdx then .error ⟨.commitBeyondLog, s⟩
  else if idx ≤ s.commitIdx then .ok s
  else
    let s := { s with commitIdx := idx }.completeRetirement idx
    let (s, changed) := dropSuperseded idx s.configurations.length s false
    .ok (if changed then s.createAndRemoveNodeState env else s)

/-- The committable indices at or below `idx` are popped, the last of them is
committed. -/
def commitIfPossible (env : Env NodeId) (s : Node NodeId) (idx : Nat) : Result NodeId :=
  if idx > s.commitIdx ∧ s.getTermInternal idx ≤ s.currentView then
    let popped := s.committableIndices.takeWhile (· ≤ idx)
    let s := { s with committableIndices := s.committableIndices.dropWhile (· ≤ idx) }
    match popped.getLast? with
    | none => .ok s
    | some highestCommittable => s.commit env highestCommittable
  else .ok s

/-- `none` is the exception of `nodes.at` for a node without an entry. -/
def matchIndices (s : Node NodeId) (c : Configuration NodeId) : Option (List Nat) :=
  c.nodes.keys.mapM fun id =>
    if id = s.myNodeId then some s.lastIdx else s.nodes[id]?.map (·.matchIdx)

def confirmed (s : Node NodeId) (c : Configuration NodeId) : Except Fault Nat :=
  match s.matchIndices c with
  | none => .error .missingNode
  | some indices =>
    match (indices.insertionSort (· ≤ ·))[(indices.length - 1) / 2]? with
    | none => .error .emptyConfiguration
    | some idx => .ok idx

/-- The majority is checked separately for each active configuration. -/
def updateCommit (env : Env NodeId) (s : Node NodeId) : Result NodeId :=
  match s.configurations.mapM s.confirmed with
  | .error fault => .error ⟨fault, s⟩
  | .ok watermarks =>
    let s := { s with cftWatermarkIdx := watermarks.min?.getD s.cftWatermarkIdx }
    if s.cftWatermarkIdx > s.lastIdx then .error ⟨.matchBeyondLog, s⟩
    else s.commitIfPossible env s.cftWatermarkIdx

end Node
end CCF.Aft
