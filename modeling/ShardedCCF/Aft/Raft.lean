import ShardedCCF.Aft.Node

/-! The leadership transitions, the four message handlers, `replicate` and
`periodic`. A handler that throws keeps what it changed before; `recv_message`
catches the exception. -/
namespace CCF.Aft
open Std (ExtTreeMap)

variable {NodeId : Type} [LinearOrder NodeId]

namespace Node

def forgetLeader (env : Env NodeId) (s : Node NodeId) : Node NodeId :=
  (({ s with leaderId := none }.restartElectionTimeout env).clearOrcSets).resetLastAckTimeouts

/-- A retired node, a learner or a retiring node keeps its leadership state. -/
def followIfActive (s : Node NodeId) : Node NodeId :=
  if s.canEndorsePrimary && !s.isRetiring then { s with leadershipState := some .follower } else s

def becomeFollower (env : Env NodeId) (s : Node NodeId) : Node NodeId :=
  ((s.forgetLeader env).rollback env s.lastCommittableIndex).followIfActive

def becomeAwareOfNewTerm (env : Env NodeId) (s : Node NodeId) (term : Nat) : Node NodeId :=
  { { s with currentView := term, votedFor := none, votesForMe := ∅ }.becomeFollower env with
    isNewFollower := true }

/-- The part of `become_leader` that may throw: a node that has committed
something discards what is not signed; otherwise the store learns its term, once. -/
def prepareToLead (env : Env NodeId) (s : Node NodeId) : Result NodeId :=
  let s := { s with electionIndex := s.lastCommittableIndex, committableIndices := [] }
  if s.commitIdx > 0 then .ok (s.rollback env s.electionIndex)
  else if s.termOfNextVersion ≠ 0 then .error ⟨.termAlreadyInitialised, s⟩
  else .ok { s with termOfNextVersion := s.currentView }

def resetAndSend (env : Env NodeId) (s : Node NodeId) (id : NodeId) : Node NodeId :=
  let reset := fun node : NodeState => { node with matchIdx := 0, sentIdx := s.lastIdx }
  let s := { s with nodes := s.nodes.alter id (Option.map reset) }
  s.sendAppendEntries env id (s.lastIdx + 1)

def assumeLeadership (s : Node NodeId) : Node NodeId :=
  { s with
    leadershipState := some .leader
    leaderId := some s.myNodeId
    shouldSign := true
    timeoutElapsed := 0 }.resetLastAckTimeouts

/-- A node without others commits at once; otherwise every other node is sent an
empty AppendEntries. -/
def startLeading (env : Env NodeId) (s : Node NodeId) : Result NodeId :=
  if s.nodes.isEmpty then s.commit env s.lastIdx
  else .ok (s.nodes.keys.foldl (resetAndSend env) s)

def becomeLeader (env : Env NodeId) (s : Node NodeId) : Result NodeId :=
  if s.isRetired then .ok s
  else s.prepareToLead env >>= fun s => s.assumeLeadership.startLeading env

/-- The voters whose majority elects the node, or `none` for an ineligible voter. -/
def electorateSize (s : Node NodeId) (voter : NodeId) : Option Nat :=
  match s.reconfigurationType with
  | .oneTransaction => some (s.nodes.size + 1)
  | .twoTransaction =>
    (s.configurations.head?.filter fun c => c.nodes.contains voter).map (·.nodes.size)

def addVoteForMe (env : Env NodeId) (s : Node NodeId) (voter : NodeId) : Result NodeId :=
  match s.electorateSize voter with
  | none => .ok s
  | some size =>
    let s := { s with votesForMe := insert voter s.votesForMe }
    if s.votesForMe.card ≥ getQuorum size then s.becomeLeader env else .ok s

def sendRequestVote (env : Env NodeId) (s : Node NodeId) (dest : NodeId) : Node NodeId :=
  s.sendAuthenticated env dest (s.requestVoteMessage s.currentView)

def stand (env : Env NodeId) (s : Node NodeId) : Node NodeId :=
  ({ s with
    leadershipState := some .candidate
    leaderId := none
    votedFor := some s.myNodeId
    votesForMe := ∅
    currentView := s.currentView + 1 }.clearOrcSets.restartElectionTimeout env).resetLastAckTimeouts

def becomeCandidate (env : Env NodeId) (s : Node NodeId) : Result NodeId :=
  (s.stand env).addVoteForMe env s.myNodeId >>= fun s =>
    .ok (s.nodes.keys.foldl (sendRequestVote env) s)

def sendRequestVoteResponse (env : Env NodeId) (s : Node NodeId) (dest : NodeId)
    (answer : Bool) : Node NodeId :=
  s.sendAuthenticated env dest (.requestVoteResponse { term := s.currentView, voteGranted := answer })

def answerRequestVote (env : Env NodeId) (s : Node NodeId) (source : NodeId) (r : RequestVote) :
    Node NodeId :=
  if s.leaderId.isSome then s.sendRequestVoteResponse env source false
  else if s.votedFor.any (· ≠ source) then s.sendRequestVoteResponse env source false
  else if s.upToDate r then
    { s.restartElectionTimeout env with
      leaderId := none
      votedFor := some source }.sendRequestVoteResponse env source true
  else s.sendRequestVoteResponse env source false

def recvRequestVote (env : Env NodeId) (s : Node NodeId) (source : NodeId) (r : RequestVote) :
    Node NodeId :=
  if s.currentView > r.term then s.sendRequestVoteResponse env source false
  else if s.currentView < r.term then
    (s.becomeAwareOfNewTerm env r.term).answerRequestVote env source r
  else s.answerRequestVote env source r

def recvRequestVoteResponse (env : Env NodeId) (s : Node NodeId) (source : NodeId)
    (r : RequestVoteResponse) : Result NodeId :=
  if s.leadershipState ≠ some .candidate then .ok s
  else if !s.nodes.contains source then .ok s
  else if s.currentView < r.term then .ok (s.becomeAwareOfNewTerm env r.term)
  else if s.currentView ≠ r.term then .ok s
  else if !r.voteGranted then .ok s
  else s.addVoteForMe env source

/-- With a rejected (view, index) the answer is the highest index that may still match. -/
def sendAppendEntriesResponse (env : Env NodeId) (s : Node NodeId) (dest : NodeId)
    (answer : AppendEntriesResponseType) (rejected : Option (Nat × Nat)) : Node NodeId :=
  let response : AppendEntriesResponse := match answer, rejected with
    | .fail, some (view, seqno) =>
      let idx := s.findHighestPossibleMatch view seqno
      { term := s.getTermInternal idx, lastLogIdx := idx, success := answer }
    | _, _ => { term := s.currentView, lastLogIdx := s.lastIdx, success := answer }
  s.sendAuthenticated env dest (.appendEntriesResponse response)

/-- Why reading the payload stopped: skipping an entry throws, reading one is
answered with a failure. -/
inductive PayloadError where
  | skip | malformed
  deriving DecidableEq

/-- The entries above `last_idx` among the next `count`, with their indices. -/
def readEntries (lastIdx : Nat) : Nat → Nat → List (Entry NodeId) →
    Except PayloadError (List (Entry NodeId × Nat))
  | _, 0, _ => .ok []
  | i, _ + 1, [] => .error (if i ≤ lastIdx then .skip else .malformed)
  | i, count + 1, e :: payload => do
    let items ← readEntries lastIdx (i + 1) count payload
    return if i ≤ lastIdx then items else (e, i) :: items

/-- `CFTExecutionWrapper::apply`: the header must be the expected transaction ID. -/
def applyEntry (env : Env NodeId) (e : Entry NodeId) (term idx : Nat) : ApplyResult :=
  if env.storeAccepts e && e.term = term && e.index = idx then e.kind.result else .fail

def updateViewHistory (s : Node NodeId) (idx view : Nat) : Result NodeId :=
  match s.viewHistory.update idx view with
  | none => .error ⟨.versionMovesBackwards, s⟩
  | some viewHistory => .ok { s with viewHistory }

def signRetirement (s : Node NodeId) (idx : Nat) : Node NodeId :=
  if s.isRetired && s.retirementPhase = some .ordered then s.becomeRetired idx .signed else s

/-- A signature tells that everything since the previous one is of its term. -/
def deserialiseSignature (env : Env NodeId) (s : Node NodeId) (r : AppendEntries)
    (e : Entry NodeId) (i : Nat) : Result NodeId :=
  let s := s.signRetirement i
  let s := { s with committableIndices := s.committableIndices ++ [i] }
  if e.term = 0 then .ok s
  else
    (if r.termOfIdx = 0 then s.updateViewHistory 1 r.term
      else s.updateViewHistory (r.prevIdx + 1) e.term) >>= fun s =>
    s.commitIfPossible env r.leaderCommitIdx

/-- The hooks and the timer, which run before the entry is in the ledger. -/
def prepareEntry (env : Env NodeId) (s : Node NodeId) (e : Entry NodeId) (i : Nat) : Node NodeId :=
  let s := { s with lastIdx := i }.callHooks env e
  if e.isSignature then s.startTickingIfNecessary else s

def executeEntry (env : Env NodeId) (s : Node NodeId) (r : AppendEntries) (e : Entry NodeId)
    (i : Nat) : Result NodeId :=
  let s := s.prepareEntry env e i
  let s := { s with ledger := s.ledger ++ [e] }
  if e.isSignature then s.deserialiseSignature env r e i else .ok s

/-- If the batch ends in a view that no signature announced, that view started
right after the last signature. -/
def inferView (s : Node NodeId) (r : AppendEntries) : Result NodeId :=
  let lci := s.lastCommittableIndex
  if r.termOfIdx = 0 then s.updateViewHistory 1 r.term
  else if r.idx > lci then s.updateViewHistory (lci + 1) r.termOfIdx
  else .ok s

def executeAppendEntriesFinish (env : Env NodeId) (s : Node NodeId) (source : NodeId)
    (r : AppendEntries) : Result NodeId :=
  s.commitIfPossible env r.leaderCommitIdx >>= fun s =>
  s.inferView r >>= fun s =>
  .ok (s.sendAppendEntriesResponse env source .ok none)

def executeAppendEntriesSync (env : Env NodeId) (source : NodeId) (r : AppendEntries) :
    Node NodeId → List (Entry NodeId × Nat) → Result NodeId
  | s, [] => s.executeAppendEntriesFinish env source r
  | s, (e, i) :: items =>
    if applyEntry env e r.termOfIdx i = .fail then
      .ok ({ s with toLog := s.toLog.truncate (i - 1) }.sendAppendEntriesResponse env source .fail none)
    else s.executeEntry env r e i >>= fun s => executeAppendEntriesSync env source r s items

/-- The first AppendEntries of a view may roll back a committable suffix. -/
def rollbackNewFollower (env : Env NodeId) (s : Node NodeId) (prevIdx : Nat) : Node NodeId :=
  if s.isNewFollower then
    { (if s.lastIdx > prevIdx then s.rollback env prevIdx else s) with isNewFollower := false }
  else s

def recogniseLeader (env : Env NodeId) (s : Node NodeId) (source : NodeId) : Node NodeId :=
  { s.restartElectionTimeout env with leaderId := some source }

def executeBatch (env : Env NodeId) (s : Node NodeId) (source : NodeId) (r : AppendEntries)
    (payload : List (Entry NodeId)) : Result NodeId :=
  match readEntries s.lastIdx (r.prevIdx + 1) (r.idx - r.prevIdx) payload with
  | .error .skip => .error ⟨.malformedPayload, s⟩
  | .error .malformed => .ok (s.sendAppendEntriesResponse env source .fail none)
  | .ok items => executeAppendEntriesSync env source r s items

def acceptAppendEntries (env : Env NodeId) (s : Node NodeId) (source : NodeId) (r : AppendEntries)
    (payload : List (Entry NodeId)) : Result NodeId :=
  let s := s.recogniseLeader env source
  if r.prevIdx < s.commitIdx then .ok s
  else if r.prevIdx > s.lastIdx then .ok s
  else (s.rollbackNewFollower env r.prevIdx).executeBatch env source r payload

def checkAppendEntries (env : Env NodeId) (s : Node NodeId) (source : NodeId) (r : AppendEntries)
    (payload : List (Entry NodeId)) : Result NodeId :=
  let prevTerm := s.getTermInternal r.prevIdx
  if prevTerm ≠ r.prevTerm then
    if prevTerm = 0 then .ok (s.sendAppendEntriesResponse env source .fail none)
    else .ok (s.sendAppendEntriesResponse env source .fail (some (r.prevTerm, r.prevIdx)))
  else if s.isRetired && s.retirementAtLeast .completed &&
      s.retirementCommittableIdx.all (· < r.idx) then
    .ok (s.sendAppendEntriesResponse env source .fail none)
  else s.acceptAppendEntries env source r payload

def recvAppendEntries (env : Env NodeId) (s : Node NodeId) (source : NodeId) (r : AppendEntries)
    (payload : List (Entry NodeId)) : Result NodeId :=
  if s.currentView = r.term ∧ s.leadershipState = some .candidate then
    (s.becomeAwareOfNewTerm env r.term).checkAppendEntries env source r payload
  else if s.currentView < r.term then
    (s.becomeAwareOfNewTerm env r.term).checkAppendEntries env source r payload
  else if s.currentView > r.term then .ok (s.sendAppendEntriesResponse env source .fail none)
  else s.checkAppendEntries env source r payload

def setNodeState (s : Node NodeId) (id : NodeId) (f : NodeState → NodeState) : Node NodeId :=
  { s with nodes := s.nodes.alter id (Option.map f) }

/-- A failed response resets `sent_idx` to the match; its index is only an
estimate, which replaces an unset match and otherwise can lower it. -/
def recordFailure (s : Node NodeId) (source : NodeId) (r : AppendEntriesResponse) : Node NodeId :=
  let thisMatch := s.findHighestPossibleMatch r.term r.lastLogIdx
  s.setNodeState source fun node =>
    let matchIdx := if node.matchIdx = 0 then thisMatch else min node.matchIdx thisMatch
    { node with matchIdx, sentIdx := matchIdx }

def recordMatch (s : Node NodeId) (source : NodeId) (r : AppendEntriesResponse) : Node NodeId :=
  s.setNodeState source fun node => { node with matchIdx := min r.lastLogIdx s.lastIdx }

def recordResponse (env : Env NodeId) (s : Node NodeId) (source : NodeId) (node : NodeState)
    (r : AppendEntriesResponse) : Result NodeId :=
  match r.success with
  | .ok =>
    if s.currentView ≠ r.term then .ok s
    else if r.lastLogIdx < node.matchIdx then .ok s
    else (s.recordMatch source r).updateCommit env
  | .fail => .ok (s.recordFailure source r)
  | .requireEvidence =>
    .ok ((s.recordMatch source r).setNodeState source fun node =>
      { node with sentIdx := node.matchIdx })

def recvAppendEntriesResponse (env : Env NodeId) (s : Node NodeId) (source : NodeId)
    (r : AppendEntriesResponse) : Result NodeId :=
  if s.leadershipState ≠ some .leader then .ok s
  else
    match s.nodes[source]? with
    | none => .ok s
    | some node =>
      let s := s.setNodeState source fun node => { node with lastAckTimeout := 0 }
      if s.currentView < r.term then .ok (s.becomeAwareOfNewTerm env r.term)
      else s.recordResponse env source node r

/-- The exception ends the call; nothing it did is undone. -/
def recvMessage (env : Env NodeId) (s : Node NodeId) (source : NodeId) :
    Message NodeId → Node NodeId
  | .appendEntries r payload => Result.state (s.recvAppendEntries env source r payload)
  | .appendEntriesResponse r => Result.state (s.recvAppendEntriesResponse env source r)
  | .requestVote r => s.recvRequestVote env source r
  | .requestVoteResponse r => Result.state (s.recvRequestVoteResponse env source r)

def recordSignature (s : Node NodeId) (index : Nat) : Node NodeId :=
  let s := s.signRetirement index
  { s with committableIndices := s.committableIndices ++ [index] }.startTickingIfNecessary

def sendIfLarge (env : Env NodeId) (s : Node NodeId) : Node NodeId :=
  if s.entrySizeNotLimited ≥ appendEntriesSizeLimit then
    { s.updateBatchSize with entryCount := 0, entrySizeNotLimited := 0 }.sendToAll env
  else s

def putEntry (s : Node NodeId) (e : Entry NodeId) : Node NodeId :=
  { s with
    lastIdx := e.index
    ledger := s.ledger ++ [e]
    entrySizeNotLimited := s.entrySizeNotLimited + e.data.length
    entryCount := s.entryCount + 1 }

/-- One entry of `replicate`. The hooks run before the entry is in the log. -/
def replicateEntry (env : Env NodeId) (s : Node NodeId) (e : Entry NodeId) : Result NodeId :=
  let s := s.callHooks env e
  let s := if e.isSignature then s.recordSignature e.index else s
  (s.putEntry e).updateViewHistory e.index s.currentView >>= fun s => .ok (s.sendIfLarge env)

/-- The result is false at the first entry that is out of order or comes after
the signature over the node's retirement. -/
def replicateEntries (env : Env NodeId) :
    Node NodeId → List (Entry NodeId) → Except (Thrown NodeId) (Node NodeId × Bool)
  | s, [] => .ok (s, true)
  | s, e :: entries =>
    if e.index ≠ s.lastIdx + 1 then .ok (s, false)
    else if s.retirementCommittableIdx.isSome then .ok (s, false)
    else s.replicateEntry env e >>= fun s => replicateEntries env s entries

def replicate (env : Env NodeId) (s : Node NodeId) (entries : List (Entry NodeId)) (term : Nat) :
    Except (Thrown NodeId) (Node NodeId × Bool) :=
  if s.leadershipState ≠ some .leader then .ok (s.rollback env s.lastIdx, false)
  else if term ≠ s.currentView then .ok (s, false)
  else
    replicateEntries env s entries >>= fun (s, replicated) =>
      if replicated && s.nodes.isEmpty then (s.updateCommit env).map fun s => (s, true)
      else .ok (s, replicated)

def sendIfDue (env : Env NodeId) (s : Node NodeId) : Node NodeId :=
  if s.timeoutElapsed ≥ s.requestTimeout then
    { s with timeoutElapsed := 0 }.updateBatchSize.sendToAll env
  else s

/-- CheckQuorum: a primary that has not heard from a majority of its backups
for an election timeout steps down. -/
def checkQuorum (env : Env NodeId) (s : Node NodeId) (elapsed : Nat) : Node NodeId :=
  let s := { s with nodes := s.nodes.map fun _ node =>
    { node with lastAckTimeout := node.lastAckTimeout + elapsed } }
  let unheard := s.nodes.toList.countP fun (_, node) => s.electionTimeout ≤ node.lastAckTimeout
  if unheard ≥ getQuorum s.nodes.size then s.becomeFollower env else s

def periodicLeader (env : Env NodeId) (s : Node NodeId) (elapsed : Nat) : Node NodeId :=
  (s.sendIfDue env).checkQuorum env elapsed

def periodic (env : Env NodeId) (s : Node NodeId) (elapsed : Nat) : Result NodeId :=
  let s := { s with timeoutElapsed := s.timeoutElapsed + elapsed }
  if s.isPrimary then .ok (s.periodicLeader env elapsed)
  else if s.canEndorsePrimary && s.ticking && s.timeoutElapsed ≥ s.electionTimeout then
    s.becomeCandidate env
  else .ok s

def forceBecomePrimary (env : Env NodeId) (s : Node NodeId) : Result NodeId :=
  if s.leaderId.isSome then .error ⟨.alreadyLeader, s⟩
  else { s with currentView := s.currentView + startingViewChange }.becomeLeader env

/-- Leadership after a recovery, with the log taken from a recovered ledger. -/
def forceBecomePrimaryAt (env : Env NodeId) (s : Node NodeId) (index term : Nat) (terms : List Nat)
    (commitIdx : Nat) : Result NodeId :=
  if s.leaderId.isSome then .error ⟨.alreadyLeader, s⟩
  else
    let s := { s with currentView := term, lastIdx := index, commitIdx }
    match ViewHistory.initialise terms with
    | none => .error ⟨.versionMovesBackwards, s⟩
    | some viewHistory =>
      { s with viewHistory }.updateViewHistory index term >>= fun s =>
        { s with currentView := s.currentView + startingViewChange }.becomeLeader env

def initAsBackup (env : Env NodeId) (s : Node NodeId) (index term : Nat) (termHistory : List Nat) :
    Result NodeId :=
  let s := { s with lastIdx := index, commitIdx := index }
  match ViewHistory.initialise termHistory with
  | none => .error ⟨.versionMovesBackwards, s⟩
  | some viewHistory =>
    .ok ({ s with viewHistory, ledgerStart := index }.becomeAwareOfNewTerm env term)

/-- The nodes of the configuration once a quorum of them has reported it. -/
def orc (s : Node NodeId) (rid : Nat) (id : NodeId) :
    Except (Thrown NodeId) (Node NodeId × Option (Nodes NodeId)) :=
  match s.orcSets[rid]? with
  | none => .error ⟨.missingOrcSet, s⟩
  | some reported =>
    match s.configurations.find? (·.rid = rid) with
    | none => .ok (s, none)
    | some conf =>
      if conf.nodes.contains id then
        let reported := insert id reported
        let s := { s with orcSets := s.orcSets.insert rid reported }
        .ok (s, if reported.card ≥ getQuorum conf.nodes.size then some conf.nodes else none)
      else .ok (s, none)

def updateParameters (s : Node NodeId) (reconfigurationType : ReconfigurationType) : Node NodeId :=
  { s with reconfigurationType }

end Node
end CCF.Aft
