import Mathlib

/-! Data exchanged by the consensus layer: the enumerations of kv_types.h, the
messages of raft_types.h and the ledger entries that AppendEntries carry. Only
the CFT branches of the implementation are modelled; the BFT remnants log an
unsupported consensus type and do nothing. -/
namespace CCF.Aft

/-- Indices, terms and versions are unsigned 64-bit counters that only grow by
one, or by `startingViewChange` once: the model counts them in `Nat`. -/
def startingViewChange : Nat := 2

inductive LeadershipState where
  | leader | follower | candidate
  deriving DecidableEq, Repr

inductive MembershipState where
  | learner | active | retirementInitiated | retired
  deriving DecidableEq, Repr

inductive RetirementPhase where
  | committed | ordered | signed | completed
  deriving DecidableEq, Repr

/-- The numeric values of the enumeration, which the code compares with `<`. -/
def RetirementPhase.rank : RetirementPhase → Nat
  | .committed => 0
  | .ordered => 1
  | .signed => 2
  | .completed => 3

inductive ReconfigurationType where
  | oneTransaction | twoTransaction
  deriving DecidableEq, Repr

structure NodeInfo where
  hostname : String
  port : String
  deriving DecidableEq, Repr

/-- A `ConfigurationChangeHook`: the nodes an entry trusts (`some`) or retires
(`none`), with the learners and the retired nodes of a two-transaction change. -/
structure ConfigurationChange (NodeId : Type) where
  cfgDelta : List (NodeId × Option NodeInfo)
  learners : List NodeId
  retiredNodes : List NodeId
  deriving DecidableEq, Repr

inductive ApplyResult where
  | pass | passSignature | passSnapshotEvidence | passEncryptedPastLedgerSecret | fail
  deriving DecidableEq, Repr

/-- What the store finds in an entry that it accepts. A transaction over the
signatures table makes the entry globally committable. -/
inductive EntryKind where
  | plain | signature | snapshotEvidence | encryptedPastLedgerSecret
  deriving DecidableEq, Repr

def EntryKind.result : EntryKind → ApplyResult
  | .plain => .pass
  | .signature => .passSignature
  | .snapshotEvidence => .passSnapshotEvidence
  | .encryptedPastLedgerSecret => .passEncryptedPastLedgerSecret

/-- A serialised entry: the TxID of its header, the bytes and what applying
them yields. The term is that of the primary that created the entry. -/
structure Entry (NodeId : Type) where
  term : Nat
  index : Nat
  kind : EntryKind
  hooks : List (ConfigurationChange NodeId)
  data : List UInt8
  deriving DecidableEq, Repr

def Entry.isSignature (e : Entry NodeId) : Bool := e.kind = .signature

structure AppendEntries where
  idx : Nat
  prevIdx : Nat
  term : Nat
  prevTerm : Nat
  leaderCommitIdx : Nat
  termOfIdx : Nat
  deriving DecidableEq, Repr

inductive AppendEntriesResponseType where
  | ok | fail | requireEvidence
  deriving DecidableEq, Repr

structure AppendEntriesResponse where
  term : Nat
  lastLogIdx : Nat
  success : AppendEntriesResponseType
  deriving DecidableEq, Repr

structure RequestVote where
  term : Nat
  lastCommittableIdx : Nat
  termOfLastCommittableIdx : Nat
  deriving DecidableEq, Repr

structure RequestVoteResponse where
  term : Nat
  voteGranted : Bool
  deriving DecidableEq, Repr

/-- The host completes an AppendEntries with the entries of its range as it
leaves the node, in the order of the truncations the node asks for. -/
inductive Message (NodeId : Type) where
  | appendEntries (r : AppendEntries) (payload : List (Entry NodeId))
  | appendEntriesResponse (r : AppendEntriesResponse)
  | requestVote (r : RequestVote)
  | requestVoteResponse (r : RequestVoteResponse)
  deriving DecidableEq, Repr

end CCF.Aft
