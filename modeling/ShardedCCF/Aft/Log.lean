import ShardedCCF.Aft.ViewHistory

/-! The two parts of a node's state that the safety of the protocol rests on:
the ballot, and the log with its view history and committable indices. The host
ledger appears as the list of its entries, the store through its
`term_of_next_version`, which can be initialised only once. -/
namespace CCF.Aft

structure Ballot (NodeId : Type) where
  currentView : Nat := 0
  leadershipState : Option LeadershipState := none
  leaderId : Option NodeId := none
  votedFor : Option NodeId := none
  votesForMe : Finset NodeId := ∅

def Ballot.isPrimary (b : Ballot NodeId) : Bool := b.leadershipState = some .leader

structure Log (NodeId : Type) where
  lastIdx : Nat := 0
  commitIdx : Nat := 0
  viewHistory : ViewHistory := .empty
  isNewFollower : Bool := false
  committableIndices : List Nat := []
  /-- Entries up to this index are covered by the snapshot the node started from. -/
  ledgerStart : Nat := 0
  ledger : List (Entry NodeId) := []
  termOfNextVersion : Nat := 0

namespace Log

def lastCommittableIndex (l : Log NodeId) : Nat := l.committableIndices.getLastD l.commitIdx

def getTermInternal (l : Log NodeId) (idx : Nat) : Nat :=
  if idx > l.lastIdx then 0 else l.viewHistory.viewAt idx

/-- The entries of a range, which the host appends to the message it sends if its
ledger goes back so far. -/
def entriesBetween (l : Log NodeId) (prevIdx idx : Nat) : List (Entry NodeId) :=
  if prevIdx < l.ledgerStart then []
  else (l.ledger.drop (prevIdx - l.ledgerStart)).take (idx - prevIdx)

def truncate (l : Log NodeId) (idx : Nat) : Log NodeId :=
  { l with ledger := l.ledger.take (idx - l.ledgerStart) }

/-- A request to roll back committed entries is ignored. -/
def rollback (l : Log NodeId) (view idx : Nat) : Log NodeId :=
  if idx < l.commitIdx then l
  else
    { l.truncate idx with
      termOfNextVersion := view
      lastIdx := idx
      viewHistory := l.viewHistory.rollback idx
      committableIndices := l.committableIndices.rdropWhile fun i => idx < i }

/-- Each round moves to the end of an earlier view, until a view not above
`view` is reached. -/
def probeMatch (l : Log NodeId) (view : Nat) : Nat → Nat → Nat
  | 0, probe => probe
  | fuel + 1, probe =>
    if l.viewHistory.viewAt probe > view then
      l.probeMatch view fuel (l.viewHistory.startOfView (l.viewHistory.viewAt probe) - 1)
    else probe

def findHighestPossibleMatch (l : Log NodeId) (view seqno : Nat) : Nat :=
  let probe := min seqno l.lastIdx
  l.probeMatch view (probe + 1) probe

/-- At most `batchSize` further entries, all of one term. -/
def calculateEndIndex (l : Log NodeId) (batchSize startIdx : Nat) : Nat :=
  let endOfTerm := l.viewHistory.endOfView (l.viewHistory.viewAt startIdx)
  min (startIdx + batchSize) (if endOfTerm ≠ 0 then endOfTerm else l.lastIdx)

/-- No view starts behind the log; before the first entry view 1 may have started. -/
def Bounded (l : Log NodeId) : Prop := ∀ v ∈ l.viewHistory.views, v ≤ max 1 l.lastIdx

theorem calculateEndIndex_behind {l : Log NodeId} (bounded : l.Bounded) (batchSize : Nat) :
    l.calculateEndIndex batchSize (l.lastIdx + 1) = l.lastIdx := by
  have last : l.viewHistory.viewAt (l.lastIdx + 1) = l.viewHistory.views.length :=
    l.viewHistory.viewAt_eq_length fun v member => (bounded v member).trans (by omega)
  have open_ended : l.viewHistory.endOfView l.viewHistory.views.length = 0 := by
    simp [ViewHistory.endOfView]
  simp only [calculateEndIndex, last, open_ended, ne_eq, not_true_eq_false, if_false]
  omega

def appendEntriesMessage (l : Log NodeId) (view startIdx endIdx : Nat) : Message NodeId :=
  .appendEntries
    { idx := endIdx
      prevIdx := startIdx - 1
      term := view
      prevTerm := l.getTermInternal (startIdx - 1)
      leaderCommitIdx := l.commitIdx
      termOfIdx := l.getTermInternal endIdx }
    (l.entriesBetween (startIdx - 1) endIdx)

def requestVoteMessage (l : Log NodeId) (view : Nat) : Message NodeId :=
  .requestVote
    { term := view
      lastCommittableIdx := l.lastCommittableIndex
      termOfLastCommittableIdx := l.getTermInternal l.lastCommittableIndex }

/-- The sender's committable log is at least as up to date as the node's. -/
def upToDate (l : Log NodeId) (r : RequestVote) : Bool :=
  let last := l.lastCommittableIndex
  let term := l.getTermInternal last
  r.termOfLastCommittableIdx > term ||
    (r.termOfLastCommittableIdx = term && r.lastCommittableIdx ≥ last)

end Log
end CCF.Aft
