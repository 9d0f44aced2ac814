import ShardedCCF.Aft.LogMachine
import ShardedCCF.Aft.Sending

/-! What the safety of the protocol depends on: the ballot, the log, the node
table as a set of peers and their confirmed indices. A `Micro` step is one
change of a replica with the messages it sends; every operation of a node is a
sequence of such steps, so an invariant of the protocol is proved step by step
here and nowhere else. -/
namespace CCF.Aft
open Std (ExtTreeMap)

variable {NodeId : Type} [LinearOrder NodeId]

/-- How much a run restricts its nodes. With fixed membership no entry
reconfigures the service. Under one-transaction reconfiguration no node leads a
view that another node leads, nor one it merely hears of. -/
inductive Mode where
  | fixedMembership | oneTransaction | unrestricted
  deriving DecidableEq

structure Replica (NodeId : Type) extends Ballot NodeId, Log NodeId where
  id : NodeId
  ticking : Bool
  known : Finset NodeId
  matchOf : NodeId → Nat

def Node.replica (s : Node NodeId) : Replica NodeId where
  toBallot := s.toBallot
  toLog := s.toLog
  id := s.myNodeId
  ticking := s.ticking
  known := s.nodes.keys.toFinset
  matchOf := s.matchOf

def Entry.Plain (e : Entry NodeId) : Prop := ∀ change ∈ e.hooks, change.cfgDelta = []

def Message.Refuses : Message NodeId → Prop
  | .requestVoteResponse r => r.voteGranted = false
  | .appendEntriesResponse r => r.success = .fail
  | _ => False

namespace Replica

def members (r : Replica NodeId) : Finset NodeId := insert r.id r.known

def reached (r : Replica NodeId) (id : NodeId) : Nat := if id = r.id then r.lastIdx else r.matchOf id

def Confirmed (r : Replica NodeId) (idx : Nat) : Prop :=
  getQuorum r.members.card ≤ (r.members.filter fun id => idx ≤ r.reached id).card

def Elected (r : Replica NodeId) : Prop :=
  r.id ∉ r.known ∧ getQuorum (r.known.card + 1) ≤ r.votesForMe.card

/-- Follower of the view, as `become_follower` leaves it. -/
def follow (r : Replica NodeId) (view : Nat) (role : Option LeadershipState)
    (known : Finset NodeId) (matchOf : NodeId → Nat) : Replica NodeId :=
  { r with
    currentView := view
    leadershipState := role
    leaderId := none
    toLog := r.toLog.rollback view r.lastCommittableIndex
    known, matchOf }

def adopt (r : Replica NodeId) (view : Nat) (role : Option LeadershipState)
    (known : Finset NodeId) (matchOf : NodeId → Nat) : Replica NodeId :=
  { r.follow view role known matchOf with
    votedFor := none
    votesForMe := ∅
    isNewFollower := true }

def stand (r : Replica NodeId) : Replica NodeId :=
  { r with
    leadershipState := some .candidate
    leaderId := none
    votedFor := some r.id
    votesForMe := ∅
    currentView := r.currentView + 1 }

def lead (r : Replica NodeId) (log : Log NodeId) (known : Finset NodeId) : Replica NodeId :=
  { r with
    leadershipState := some .leader
    leaderId := some r.id
    toLog := log
    known
    matchOf := fun _ => 0 }

def setMatch (r : Replica NodeId) (id : NodeId) (idx : Nat) : Replica NodeId :=
  { r with matchOf := Function.update r.matchOf id idx }

def setLog (r : Replica NodeId) (log : Log NodeId) (known : Finset NodeId)
    (matchOf : NodeId → Nat) : Replica NodeId :=
  { r with toLog := log, known, matchOf }

def Keeps (mode : Mode) (r : Replica NodeId) (known : Finset NodeId) (matchOf : NodeId → Nat) :
    Prop :=
  mode = .fixedMembership → known = r.known ∧ matchOf = r.matchOf

/-- A retired node or a learner keeps its leadership state when it steps down. -/
def MayBecome (mode : Mode) (r : Replica NodeId) (role : Option LeadershipState) : Prop :=
  role = some .follower ∨ mode ≠ .fixedMembership ∧ role = r.leadershipState ∧
    (mode = .oneTransaction → role ≠ some .candidate)

/-- A retiring node can stay candidate when it adopts a view; its store then
knows a term. -/
def Initialised (r : Replica NodeId) : Prop :=
  r.leadershipState = some .candidate → r.termOfNextVersion ≠ 0

def Backup (mode : Mode) (r : Replica NodeId) : Prop :=
  mode ≠ .unrestricted → r.leadershipState ≠ some .leader ∧ r.leadershipState ≠ some .candidate

end Replica

/-- A new primary without peers commits its whole log at once. -/
def Launches (prepared : Log NodeId) (known : Finset NodeId) (log : Log NodeId) : Prop :=
  log = prepared ∨ known = ∅ ∧ log = (prepared.commit prepared.lastIdx).log

abbrev Sent (NodeId : Type) := List (NodeId × Message NodeId)

/-- What a run may assume of its steps: beside the mode, conditions on the state
in which a node steps down, stands for election, takes a failed response or
accepts a batch. -/
structure Rules (NodeId : Type) where
  mode : Mode
  /-- The log of a node that was primary when a call of `replicate` began. -/
  commands : NodeId → Log NodeId → Prop
  commands_append : ∀ n l view e, 1 ≤ view → commands n l → commands n (l.append view e).log
  commands_commit : ∀ n l view idx, commands n l → commands n (l.commitIfPossible view idx).log
  adopt : Replica NodeId → Prop
  stepDown : Replica NodeId → Option LeadershipState → Prop
  stand : Replica NodeId → Prop
  nack : Replica NodeId → NodeId → AppendEntriesResponse → Prop
  accept : Env NodeId → Log NodeId → NodeId → AppendEntries → List (Entry NodeId) → Prop

def Mode.rules (mode : Mode) : Rules NodeId where
  mode := mode
  commands _ _ := True
  commands_append _ _ _ _ _ _ := trivial
  commands_commit _ _ _ _ _ := trivial
  adopt _ := True
  stepDown _ _ := True
  stand _ := True
  nack _ _ _ := True
  accept _ _ _ _ _ := True

/-- A primary. Without restrictions a call of `replicate` may lose its primary
on the way: the promotion of a learner makes it a follower. -/
def Replica.Empowered (rules : Rules NodeId) (r : Replica NodeId) : Prop :=
  r.leadershipState = some .leader ∨
    rules.mode = .unrestricted ∧ rules.commands r.id r.toLog ∧ 1 ≤ r.currentView ∧ r.termOfNextVersion ≠ 0

/-- The steps a node is made of while it handles `received`, or no message at
all. A step that changes the log may change the node table with it. -/
inductive Micro (rules : Rules NodeId) (received : Option (NodeId × Message NodeId)) :
    Replica NodeId → Sent NodeId → Replica NodeId → Prop where
  | refuse (dest : NodeId) : m.Refuses → Micro rules received r [(dest, m)] r
  | sendEntries : r.Empowered rules → dest ≠ r.id → Node.Sendable r.toLog r.currentView m →
      Micro rules received r [(dest, m)] r
  /-- A primary that executes the batch of another one. -/
  | stray : rules.mode = .unrestricted → r.leadershipState = some .leader → dest ≠ r.id →
      received = some (source, .appendEntries other batch) →
      ae.term = r.currentView → (r.toLog.Bounded → ae.idx ≤ ae.prevIdx) → Micro rules received r [(dest, .appendEntries ae payload)] r
  | askVote (dest : NodeId) :
      r.leadershipState = some .candidate ∨ r.leadershipState = some .leader →
      Micro rules received r [(dest, r.requestVoteMessage r.currentView)] r
  | adopt : (r.currentView < view ∨
        view = r.currentView ∧ r.leadershipState = some .candidate ∧
          ∃ source ae payload, received = some (source, .appendEntries ae payload) ∧
            ae.term = view) →
      rules.adopt r → r.MayBecome rules.mode role →
      (rules.mode ≠ .unrestricted → role ≠ some .leader) →
      r.Keeps rules.mode known matchOf → Micro rules received r [] (r.adopt view role known matchOf)
  | stepDown : r.leadershipState = some .leader → rules.stepDown r role →
      r.MayBecome rules.mode role → r.Keeps rules.mode known matchOf →
      Micro rules received r [] (r.follow r.currentView role known matchOf)
  | stand : r.ticking = true → r.leadershipState ≠ some .leader → rules.stand r →
      Micro rules received r [] r.stand
  | vote : r.leadershipState = some .candidate →
      (voter = r.id ∨ voter ∈ r.known ∧ ∃ a, received = some (voter, .requestVoteResponse a) ∧
        a.term = r.currentView ∧ a.voteGranted = true) →
      Micro rules received r [] { r with votesForMe := insert voter r.votesForMe }
  | lead : r.leadershipState = some .candidate → (rules.mode ≠ .unrestricted → r.Elected) →
      r.commitIdx > 0 → (rules.mode = .fixedMembership → known = r.known) →
      Launches ({ r.toLog with committableIndices := [] }.rollback r.currentView
        r.lastCommittableIndex) known log →
      Micro rules received r [] (r.lead log known)
  | leadFresh : r.leadershipState = some .candidate → (rules.mode ≠ .unrestricted → r.Elected) →
      r.commitIdx = 0 → r.termOfNextVersion = 0 →
      Launches { r.toLog with committableIndices := [], termOfNextVersion := r.currentView } r.known
        log →
      Micro rules received r [] (r.lead log r.known)
  /-- The store refuses a second initialisation of its term. -/
  | leadFail : r.leadershipState = some .candidate → r.commitIdx = 0 → r.termOfNextVersion ≠ 0 →
      Micro rules received r [] { r with committableIndices := [] }
  | grant : received = some (source, .requestVote rv) → rv.term = r.currentView →
      r.leaderId = none → (r.votedFor = none ∨ r.votedFor = some source) → r.upToDate rv = true →
      (msgs = [] ∨ msgs = [(source, .requestVoteResponse ⟨r.currentView, true⟩)]) →
      Micro rules received r msgs { r with votedFor := some source }
  | recognise : received = some (source, .appendEntries ae payload) → ae.term = r.currentView →
      r.Backup rules.mode → Micro rules received r [] { r with leaderId := some source }
  | accept (env : Env NodeId) : received = some (source, .appendEntries ae payload) →
      ae.term = r.currentView → r.getTermInternal ae.prevIdx = ae.prevTerm →
      r.commitIdx ≤ ae.prevIdx → ae.prevIdx ≤ r.lastIdx → r.Backup rules.mode →
      r.leaderId = some source → r.Initialised → rules.accept env r.toLog source ae payload →
      r.Keeps rules.mode known matchOf →
      r.toLog.accept env r.currentView ae payload = (log, done) →
      (msgs = [] ∨ done = true ∧
        msgs = [(source, .appendEntriesResponse ⟨r.currentView, log.lastIdx, .ok⟩)]) →
      Micro rules received r msgs (r.setLog log known matchOf)
  | append : r.Empowered rules → e.term = r.currentView → e.index = r.lastIdx + 1 →
      (rules.mode = .fixedMembership → e.Plain) → r.Keeps rules.mode known matchOf →
      Micro rules received r [] (r.setLog (r.toLog.append r.currentView e).log known matchOf)
  | commitConfirmed : r.Empowered rules → (rules.mode = .fixedMembership → r.Confirmed idx) →
      idx ≤ r.lastIdx → r.Keeps rules.mode known matchOf →
      Micro rules received r []
        (r.setLog (r.toLog.commitIfPossible r.currentView idx).log known matchOf)
  | ack : r.leadershipState = some .leader →
      received = some (source, .appendEntriesResponse aer) → source ∈ r.known →
      aer.success = .ok → aer.term = r.currentView → r.matchOf source ≤ aer.lastLogIdx →
      Micro rules received r [] (r.setMatch source (min aer.lastLogIdx r.lastIdx))
  | nack : r.leadershipState = some .leader →
      received = some (source, .appendEntriesResponse aer) → source ∈ r.known →
      aer.success = .fail → aer.term ≤ r.currentView → rules.nack r source aer →
      Micro rules received r [] (r.setMatch source
        (if r.matchOf source = 0 then r.findHighestPossibleMatch aer.term aer.lastLogIdx
          else min (r.matchOf source) (r.findHighestPossibleMatch aer.term aer.lastLogIdx)))
  | requireEvidence : r.leadershipState = some .leader →
      received = some (source, .appendEntriesResponse aer) → aer.success = .requireEvidence →
      Micro rules received r [] (r.setMatch source idx)
  /-- A call of `replicate` on a node that is not primary. -/
  | discard : r.leadershipState ≠ some .leader →
      (rules.mode = .oneTransaction → r.leadershipState = some .candidate → known = r.known) →
      r.Keeps rules.mode known matchOf →
      Micro rules received r [] (r.setLog (r.toLog.rollback r.currentView r.lastIdx) known matchOf)
  /-- The end of a retirement, or the promotion of a learner. -/
  | demote (leaderId : Option NodeId) : rules.mode ≠ .fixedMembership →
      (rules.mode = .oneTransaction → r.leadershipState ≠ some .candidate) → r.Initialised →
      role = none ∨ role = some .follower →
      Micro rules received r [] { r with leadershipState := role, leaderId }
  | startTicking : r.Empowered rules ∨
        (∃ source ae payload, received = some (source, .appendEntries ae payload) ∧
          ae.term = r.currentView) →
      Micro rules received r [] { r with ticking := true }

inductive Path (rules : Rules NodeId) (received : Option (NodeId × Message NodeId)) :
    Replica NodeId → Sent NodeId → Replica NodeId → Prop where
  | refl (r : Replica NodeId) : Path rules received r [] r
  | tail : Path rules received r msgs t → Micro rules received t more u →
      Path rules received r (msgs ++ more) u

namespace Path
variable {rules : Rules NodeId} {received : Option (NodeId × Message NodeId)} {r t u : Replica NodeId}
  {msgs more : Sent NodeId}

theorem trans (first : Path rules received r msgs t) (second : Path rules received t more u) :
    Path rules received r (msgs ++ more) u := by
  induction second with
  | refl => rwa [List.append_nil]
  | tail _ micro ih =>
    rw [← List.append_assoc]
    exact ih.tail micro

theorem single (micro : Micro rules received r msgs t) : Path rules received r msgs t := by
  have path := (Path.refl r).tail micro
  rwa [List.nil_append] at path

theorem head (micro : Micro rules received r [] t) (rest : Path rules received t msgs u) :
    Path rules received r msgs u := by
  have path := (single micro).trans rest
  rwa [List.nil_append] at path

theorem silently (first : Path rules received r msgs t) (rest : Path rules received t [] u) :
    Path rules received r msgs u := by
  have path := first.trans rest
  rwa [List.append_nil] at path

theorem sends (each : ∀ m ∈ msgs, Micro rules received r [m] r) : Path rules received r msgs r := by
  induction msgs with
  | nil => exact .refl r
  | cons m msgs ih =>
    exact (single (each m List.mem_cons_self)).trans
      (ih fun m member => each m (List.mem_cons_of_mem _ member))

end Path
end CCF.Aft
