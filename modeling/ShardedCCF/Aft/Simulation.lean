import ShardedCCF.Aft.Refinement

/-! The operations of a cluster as micro steps: replication, the timer and the
delivery of a message. An invariant of replicas and sent messages that every
micro step keeps therefore holds along the runs of the cluster. -/
namespace CCF.Aft
open List Function
open Std (ExtTreeMap)

variable {NodeId : Type} [LinearOrder NodeId]

namespace Node
variable (env : Env NodeId) (s : Node NodeId) {t : Node NodeId}
variable {rules : Rules NodeId} {received : Option (NodeId × Message NodeId)}

/-- A node that may append: a primary in a restricted run; without restrictions
a node that was one when the call began. -/
structure Commands (rules : Rules NodeId) : Prop where
  leader : rules.mode ≠ .unrestricted → s.leadershipState = some .leader
  grounded : rules.mode = .unrestricted →
    rules.commands s.myNodeId s.toLog ∧ 1 ≤ s.currentView ∧ s.termOfNextVersion ≠ 0

theorem Commands.empowered {s : Node NodeId} (commands : s.Commands rules) :
    s.replica.Empowered rules := by
  by_cases limited : rules.mode = .unrestricted
  · exact .inr ⟨limited, commands.grounded limited⟩
  · exact .inl (commands.leader limited)

theorem Commands.congr {s : Node NodeId} (commands : s.Commands rules)
    (role : rules.mode ≠ .unrestricted → t.leadershipState = s.leadershipState)
    (view : t.currentView = s.currentView) (store : t.termOfNextVersion = s.termOfNextVersion)
    (log : 1 ≤ s.currentView → rules.commands s.myNodeId s.toLog → rules.commands t.myNodeId t.toLog) :
    t.Commands rules where
  leader := fun limited => (role limited).trans (commands.leader limited)
  grounded := by
    intro free
    obtain ⟨commanding, grounded⟩ := commands.grounded free
    rw [view, store]
    exact ⟨log grounded.1 commanding, grounded⟩

theorem recordSignature_carries {mode : Mode} {sends : Message NodeId → Prop} (idx : Nat) :
    Carries mode sends i i s (s.recordSignature idx) := by
  unfold recordSignature
  refine ((s.signRetirement_carries idx).trans ?_).trans (startTickingIfNecessary_carries _)
  exact .of_ballot rfl rfl rfl id rfl rfl

theorem recordSignature_ballot (idx : Nat) : (s.recordSignature idx).toBallot = s.toBallot := by
  have signed : (s.signRetirement idx).toBallot = s.toBallot := by
    unfold signRetirement
    split <;> rfl
  unfold recordSignature startTickingIfNecessary
  dsimp only
  split <;> exact signed

theorem recordSignature_toLog (idx : Nat) :
    (s.recordSignature idx).toLog = s.toLog.addCommittable idx := by
  unfold recordSignature
  rw [startTickingIfNecessary_toLog, signRetirement_toLog]
  rfl

def noteEntry (e : Entry NodeId) : Node NodeId :=
  let s := s.callHooks env e
  if e.isSignature then s.recordSignature e.index else s

theorem noteEntry_carries {mode : Mode} (e : Entry NodeId)
    (plain : mode = .fixedMembership → e.Plain)
    (settled : mode ≠ .unrestricted → s.leadershipState ≠ some .candidate) :
    Carries mode (Sendable s.toLog s.currentView) e.index e.index s (s.noteEntry env e) := by
  have hooked : Carries mode (Sendable s.toLog s.currentView) e.index e.index s (s.callHooks env e) := by
    intro regular
    obtain ⟨regular, frame⟩ := s.callHooks_carries env e plain settled regular
    exact ⟨regular, frame.mono fun m => And.left⟩
  unfold noteEntry
  split
  · exact hooked.trans (recordSignature_carries _ _)
  · exact hooked

theorem noteEntry_toLog (e : Entry NodeId) :
    (s.noteEntry env e).toLog = if e.isSignature then s.toLog.addCommittable e.index else s.toLog := by
  unfold noteEntry
  split
  · rw [recordSignature_toLog, callHooks_toLog]
  · exact callHooks_toLog ..

theorem noteEntry_role (e : Entry NodeId) (one : s.reconfigurationType = .oneTransaction) :
    (s.noteEntry env e).toBallot = s.toBallot := by
  unfold noteEntry
  split
  · rw [recordSignature_ballot, callHooks_ballot env s e one]
  · exact callHooks_ballot env s e one

theorem putEntry_refines (e : Entry NodeId) (commands : s.Commands rules)
    (term : e.term = s.currentView) (index : e.index = s.lastIdx + 1)
    (plain : rules.mode = .fixedMembership → e.Plain) :
    s.Regular rules.mode s.lastIdx →
      let t := Result.state (((s.noteEntry env e).putEntry e).updateViewHistory e.index
        (s.noteEntry env e).currentView)
      Refines rules received s t ∧ t.Commands rules ∧ t.currentView = s.currentView := by
  intro regular
  have settled : rules.mode ≠ .unrestricted → s.leadershipState ≠ some .candidate := by
    intro limited candidate
    simp [commands.leader limited] at candidate
  obtain ⟨noted, frame⟩ := s.noteEntry_carries env e plain settled (regular.mono (by omega))
  have log := s.noteEntry_toLog env e
  have role : rules.mode ≠ .unrestricted →
      (s.noteEntry env e).leadershipState = s.leadershipState := fun limited => by
    rw [s.noteEntry_role env e (regular.restricted limited).oneTransaction]
  generalize s.noteEntry env e = u at noted frame log role
  have put : Carries rules.mode (Sendable s.toLog s.currentView) e.index e.index u (u.putEntry e) :=
    .of_ballot rfl rfl rfl id rfl rfl
  have carried := put.trans (updateViewHistory_carries (u.putEntry e) e.index u.currentView)
  have appended : (Result.state ((u.putEntry e).updateViewHistory e.index u.currentView)).toLog =
      (s.toLog.append s.currentView e).log := by
    rw [Result.state_toLog, updateViewHistory_toLog, Log.append, ← log, frame.view_eq]
    rfl
  have settles := ((if e.isSignature then s.toLog.addCommittable e.index else s.toLog).push e
    e.index).updateViewHistory_settles e.index s.currentView
  have kept : ∀ l : Log NodeId, l = (s.toLog.append s.currentView e).log →
      l.lastIdx = e.index ∧ l.termOfNextVersion = s.termOfNextVersion := by
    rintro l rfl
    obtain ⟨_, _, _, equal⟩ := settles
    rw [Log.append, equal]
    refine ⟨rfl, ?_⟩
    split <;> rfl
  have unchanged : (Result.state ((u.putEntry e).updateViewHistory e.index u.currentView)
      ).leadershipState = u.leadershipState := by
    unfold updateViewHistory
    split <;> rfl
  obtain ⟨regularT, frameT⟩ := carried noted
  generalize Result.state ((u.putEntry e).updateViewHistory e.index u.currentView) = t
    at regularT frameT appended unchanged
  obtain ⟨last, store⟩ := kept t.toLog appended
  have whole := frame.trans frameT
  have commandsT : t.Commands rules := by
    refine commands.congr (fun limited => unchanged.trans (role limited)) whole.view_eq store ?_
    intro viewed commanding
    rw [whole.id_eq, appended]
    exact rules.commands_append _ _ _ _ viewed commanding
  refine ⟨fun _ => ⟨last ▸ regularT, ?_⟩, commandsT, whole.view_eq⟩
  obtain ⟨msgs, sent, able⟩ := whole.sent
  refine ⟨msgs, sent, ?_⟩
  have sends : Path rules received s.replica msgs s.replica :=
    .sends fun m member => .sendEntries commands.empowered (able m member).2.1 (able m member).2.2
  have step : Micro rules received s.replica []
      (s.replica.setLog t.toLog t.replica.known t.replica.matchOf) := by
    rw [appended]
    exact .append commands.empowered term index plain fun isFixed => table_eq (whole.nodes isFixed)
  refine sends.silently (.head step (whole.path (.inl ?_) fun candidate => ?_))
  · by_cases limited : rules.mode = .unrestricted
    · obtain ⟨-, grounded⟩ := commands.grounded limited
      refine .inr ⟨limited, ?_, grounded.1, store ▸ grounded.2⟩
      show rules.commands s.myNodeId t.toLog
      rw [← whole.id_eq]
      exact (commandsT.grounded limited).1
    · exact .inl (commands.leader limited)
  · by_cases limited : rules.mode = .unrestricted
    · exact store ▸ (commands.grounded limited).2.2
    · exact absurd candidate (settled limited)

theorem sendIfLarge_refines (commands : s.Commands rules) :
    Refines rules received s (s.sendIfLarge env) ∧ (s.sendIfLarge env).Commands rules ∧
      (s.sendIfLarge env).currentView = s.currentView := by
  unfold sendIfLarge
  split
  · let u : Node NodeId := { s.updateBatchSize with entryCount := 0, entrySizeNotLimited := 0 }
    have sends : Broadcasts u (u.sendToAll env) := u.sendToAll_broadcasts env
    have empowered : u.replica.Empowered rules := commands.empowered
    have quietly : Refines rules received s u := .quiet rfl rfl rfl rfl
    have view : (u.sendToAll env).currentView = u.currentView := congrArg (·.currentView) sends.frame
    refine ⟨quietly.trans (.of_broadcasts sends empowered), ?_, view⟩
    exact commands.congr (fun _ => congrArg (·.leadershipState) sends.frame)
      view (congrArg (·.termOfNextVersion) sends.frame)
      fun _ commanding => by rwa [sends.frame]
  · exact ⟨.refl s, commands, rfl⟩

theorem replicateEntry_refines (e : Entry NodeId) (commands : s.Commands rules)
    (term : e.term = s.currentView) (index : e.index = s.lastIdx + 1)
    (plain : rules.mode = .fixedMembership → e.Plain) (regular : s.Regular rules.mode s.lastIdx) :
    Refines rules received s (Result.state (s.replicateEntry env e)) ∧
      ∀ t, s.replicateEntry env e = .ok t →
        t.Commands rules ∧ t.currentView = s.currentView := by
  have put : Refines rules received s _ ∧ _ :=
    s.putEntry_refines env e commands term index plain regular
  show Refines rules received s (Result.state
      (((s.noteEntry env e).putEntry e).updateViewHistory e.index (s.noteEntry env e).currentView >>=
        fun s => .ok (s.sendIfLarge env))) ∧ ∀ t,
    (((s.noteEntry env e).putEntry e).updateViewHistory e.index (s.noteEntry env e).currentView >>=
        fun s => .ok (s.sendIfLarge env)) = .ok t → _
  cases result : ((s.noteEntry env e).putEntry e).updateViewHistory e.index
      (s.noteEntry env e).currentView with
  | error thrown =>
    rw [result] at put
    exact ⟨put.1, fun t ends => by cases ends⟩
  | ok u =>
    rw [result] at put
    obtain ⟨reached, commandsU, view⟩ := put
    obtain ⟨sends, commandsT, viewT⟩ := u.sendIfLarge_refines env commandsU
    refine ⟨reached.trans sends, fun t ends => ?_⟩
    cases ends
    exact ⟨commandsT, viewT.trans view⟩

theorem replicateEntries_refines (entries : List (Entry NodeId)) (commands : s.Commands rules)
    (term : ∀ e ∈ entries, e.term = s.currentView)
    (plain : rules.mode = .fixedMembership → ∀ e ∈ entries, e.Plain)
    (regular : s.Regular rules.mode s.lastIdx) :
    (∀ t b, replicateEntries env s entries = .ok (t, b) →
        Refines rules received s t ∧ t.Commands rules) ∧
      ∀ thrown, replicateEntries env s entries = .error thrown →
        Refines rules received s thrown.state := by
  induction entries generalizing s with
  | nil =>
    refine ⟨fun t b ends => ?_, fun thrown ends => by cases ends⟩
    cases ends
    exact ⟨.refl s, commands⟩
  | cons e entries ih =>
    have stops : (∀ t b, Except.ok (s, false) = (.ok (t, b) : Except (Thrown NodeId) (Node NodeId × Bool)) →
        Refines rules received s t ∧ t.Commands rules) := by
      intro t b ends
      cases ends
      exact ⟨.refl s, commands⟩
    unfold replicateEntries
    split
    · exact ⟨stops, fun thrown ends => by cases ends⟩
    rename_i index
    split
    · exact ⟨stops, fun thrown ends => by cases ends⟩
    have replicates : Refines rules received s _ ∧ _ := s.replicateEntry_refines env e commands
      (term e mem_cons_self) (not_not.mp index)
      (fun isFixed => plain isFixed e mem_cons_self) regular
    obtain ⟨first, keeps⟩ := replicates
    cases result : s.replicateEntry env e with
    | error thrown =>
      rw [result] at first
      refine ⟨fun t b ends => ?_, fun thrown' ends => ?_⟩
      · cases ends
      · cases ends
        exact first
    | ok u =>
      rw [result] at first
      obtain ⟨commandsU, view⟩ := keeps u result
      have rest := ih u commandsU (fun e member => by rw [view]; exact term e (mem_cons_of_mem _ member))
        (fun isFixed e member => plain isFixed e (mem_cons_of_mem _ member)) (first regular).1
      exact ⟨fun t b ends => ⟨first.trans (rest.1 t b ends).1, (rest.1 t b ends).2⟩,
        fun thrown ends => first.trans (rest.2 thrown ends)⟩

theorem discard_refines (backup : s.leadershipState ≠ some .leader) :
    Refines rules received s (s.rollback env s.lastIdx) := by
  intro regular
  have carried : Carries rules.mode (fun _ => False) _ _ s _ := s.rollback_carries env s.lastIdx
  obtain ⟨kept, frame⟩ := carried regular
  obtain ⟨ballot, ticking, outbox⟩ := s.rollback_ballot env s.lastIdx regular.covered
  refine ⟨kept, [], by rw [append_nil, outbox], .single ?_⟩
  have equal : (s.rollback env s.lastIdx).replica = s.replica.setLog
      (s.toLog.rollback s.currentView s.lastIdx) (s.rollback env s.lastIdx).replica.known
      (s.rollback env s.lastIdx).replica.matchOf :=
    replica_eq ballot (s.rollback_toLog env s.lastIdx) frame.id_eq ticking rfl rfl
  rw [equal]
  refine .discard backup (fun one _ => ?_) fun isFixed => table_eq (frame.nodes isFixed)
  have restricted := regular.restricted (by rw [one]; decide)
  exact (table_eq (s.rollback_nodes env s.lastIdx regular.covered restricted.bounded)).1

theorem replicated_refines (entries : List (Entry NodeId)) (term : Nat)
    (grounded : rules.mode = .unrestricted → s.leadershipState = some .leader →
      rules.commands s.myNodeId s.toLog ∧ 1 ≤ s.currentView ∧ s.termOfNextVersion ≠ 0)
    (stamped : ∀ e ∈ entries, e.term = term)
    (plain : rules.mode = .fixedMembership → ∀ e ∈ entries, e.Plain) :
    Refines rules received s (s.replicated env entries term) := by
  unfold replicated replicate
  split_ifs with backup stale
  · exact s.discard_refines env backup
  · exact .refl s
  intro regular
  have leader := not_not.mp backup
  have commands : s.Commands rules := ⟨fun _ => leader, fun free => grounded free leader⟩
  obtain ⟨returns, throws⟩ := s.replicateEntries_refines env entries commands
    (fun e member => (stamped e member).trans (not_not.mp stale)) plain regular
  cases result : replicateEntries env s entries with
  | error thrown => exact throws thrown result regular
  | ok pair =>
    obtain ⟨t, complete⟩ := pair
    obtain ⟨reached, commandsT⟩ := returns t complete result
    simp only [bind, Except.bind]
    by_cases alone : (complete && t.nodes.isEmpty) = true
    · rw [if_pos alone]
      have committed : Refines rules received t (Result.state (t.updateCommit env)) :=
        t.updateCommit_refines env commandsT.empowered
      cases outcome : t.updateCommit env with
      | error thrown | ok u =>
        rw [outcome] at committed
        exact (reached.trans committed) regular
    · rw [if_neg alone]
      exact reached regular

theorem checkQuorum_refines (elapsed : Nat) (leader : s.leadershipState = some .leader)
    (allowed : rules.stepDown s.replica (s.becomeFollower env).leadershipState) :
    Refines rules received s (s.checkQuorum env elapsed) := by
  intro regular
  unfold checkQuorum
  dsimp only
  let u : Node NodeId := { s with nodes := s.nodes.map fun _ node =>
    { node with lastAckTimeout := node.lastAckTimeout + elapsed } }
  have replica : u.replica = s.replica := map_replica s _ fun _ _ => rfl
  have roster : u.roster = s.roster := map_roster s _
  have quietly : Refines rules received s u := .quiet replica roster rfl rfl
  split
  · refine (quietly.trans fun regular => ?_) regular
    obtain ⟨kept, silent, may, known, matchOf, keeps, equal⟩ := u.becomeFollower_spec env regular
    refine ⟨kept, [], by rw [append_nil]; exact silent, .single ?_⟩
    rw [equal]
    refine .stepDown leader ?_ may keeps
    have covered : s.roster.Covered := roster ▸ regular.covered
    rw [replica, becomeFollower_role env u regular.covered]
    rw [becomeFollower_role env s covered] at allowed
    exact allowed
  · exact quietly regular

theorem periodic_refines (elapsed : Nat)
    (stepsDown : s.leadershipState = some .leader →
      rules.stepDown s.replica (s.becomeFollower env).leadershipState)
    (stands : s.leadershipState ≠ some .leader → rules.stand s.replica) :
    Refines rules received s (Result.state (s.periodic env elapsed)) := by
  intro regular
  unfold periodic
  dsimp only
  let u : Node NodeId := { s with timeoutElapsed := s.timeoutElapsed + elapsed }
  have quietly : Refines rules received s u := .quiet rfl rfl rfl rfl
  split
  · rename_i primary
    have leader : s.leadershipState = some .leader := of_decide_eq_true primary
    refine (quietly.trans ?_) regular
    have due : Refines rules received u (u.sendIfDue env) ∧
        (u.sendIfDue env).replica = s.replica ∧ (u.sendIfDue env).roster = s.roster ∧
        (u.sendIfDue env).membershipAfter s.lastCommittableIndex =
          s.membershipAfter s.lastCommittableIndex := by
      unfold sendIfDue
      split
      · let v : Node NodeId := { u with timeoutElapsed := 0 }.updateBatchSize
        have sends : Broadcasts v (v.sendToAll env) := v.sendToAll_broadcasts env
        have first : Refines rules received u v := .quiet rfl rfl rfl rfl
        refine ⟨first.trans (.of_broadcasts sends (.inl leader)), sends.replica_eq,
          sends.roster_eq, ?_⟩
        rw [sends.frame]
        rfl
      · exact ⟨.refl u, rfl, rfl, rfl⟩
    obtain ⟨sends, replica, roster, membership⟩ := due
    refine sends.trans ?_
    show Refines rules received (u.sendIfDue env) ((u.sendIfDue env).checkQuorum env elapsed)
    generalize u.sendIfDue env = w at replica roster membership
    have role : w.leadershipState = s.leadershipState := congrArg (·.leadershipState) replica
    have index : w.lastCommittableIndex = s.lastCommittableIndex :=
      congrArg (·.lastCommittableIndex) replica
    refine w.checkQuorum_refines env elapsed (role.trans leader) ?_
    have allowed := stepsDown leader
    rw [becomeFollower_role env s regular.covered] at allowed
    rw [replica, becomeFollower_role env w (roster ▸ regular.covered), index, membership, role]
    exact allowed
  · rename_i backup
    have backup : s.leadershipState ≠ some .leader := fun leader => backup (decide_eq_true leader)
    split
    · rename_i due
      simp only [Bool.and_eq_true] at due
      exact (quietly.trans (u.becomeCandidate_refines env due.1.2 backup (stands backup) due.1.1))
        regular
    · exact quietly regular

def Admits (rules : Rules NodeId) (source : NodeId) : Message NodeId → Prop
  | .appendEntries r payload =>
    (s.Adopts r.term → s.MayAdopt env rules r.term) ∧
      (rules.mode ≠ .unrestricted → s.currentView = r.term → s.leadershipState ≠ some .leader) ∧
      (s.currentView ≤ r.term → rules.accept env (s.facing env r.term).toLog source r payload) ∧
      (s.currentView ≤ r.term → (s.facing env r.term).leadershipState = some .candidate →
        rules.mode = .unrestricted →
        (s.facing env r.term).termOfNextVersion ≠ 0 ∧ (s.facing env r.term).currentView ≠ 0) ∧
      (rules.mode = .fixedMembership → ∀ e ∈ payload, e.Plain)
  | .appendEntriesResponse r =>
    (s.currentView < r.term → s.MayAdopt env rules r.term) ∧ rules.nack s.replica source r
  | .requestVote r => s.currentView < r.term → s.MayAdopt env rules r.term
  | .requestVoteResponse r => s.currentView < r.term → s.MayAdopt env rules r.term

theorem recvMessage_refines (source : NodeId) (m : Message NodeId)
    (admits : s.Admits env rules source m) :
    Refines rules (some (source, m)) s (s.recvMessage env source m) := by
  cases m with
  | appendEntries r payload =>
    obtain ⟨adopts, exclusive, allowed, initialised, plain⟩ := admits
    exact s.recvAppendEntries_refines env source r payload rfl adopts exclusive allowed initialised
      plain
  | appendEntriesResponse r =>
    exact s.recvAppendEntriesResponse_refines env source r rfl admits.1 admits.2
  | requestVote r => exact s.recvRequestVote_refines env source r rfl admits
  | requestVoteResponse r => exact s.recvRequestVoteResponse_refines env source r rfl admits

end Node

/-- The replicas of a cluster and every message that was ever sent. -/
structure System (NodeId : Type) where
  replica : NodeId → Replica NodeId
  sent : Set (Envelope NodeId)

namespace System

def move (sys : System NodeId) (n : NodeId) (r : Replica NodeId) (msgs : Sent NodeId) :
    System NodeId where
  replica := Function.update sys.replica n r
  sent := { m | m ∈ sys.sent ∨ m.source = n ∧ (m.dest, m.message) ∈ msgs }

def Heard (sys : System NodeId) (n : NodeId) (received : Option (NodeId × Message NodeId)) : Prop :=
  ∀ source m, received = some (source, m) → ⟨source, n, m⟩ ∈ sys.sent

def Preserves (rules : Rules NodeId) (inv : System NodeId → Prop) : Prop :=
  ∀ sys n received msgs r, inv sys → (sys.replica n).id = n → sys.Heard n received →
    Micro rules received (sys.replica n) msgs r → inv (sys.move n r msgs)

end System

theorem Micro.id_eq {rules : Rules NodeId} {received : Option (NodeId × Message NodeId)}
    (micro : Micro rules received r msgs t) : t.id = r.id := by
  cases micro <;> rfl

namespace System
variable {rules : Rules NodeId} {received : Option (NodeId × Message NodeId)}
  {inv : System NodeId → Prop}

theorem move_move (sys : System NodeId) (n : NodeId) (r t : Replica NodeId) (msgs more : Sent NodeId) :
    (sys.move n r msgs).move n t more = sys.move n t (msgs ++ more) := by
  simp only [move, update_idem, Set.mem_ofPred_eq, mem_append, mk.injEq, true_and]
  ext m
  simp only [Set.mem_ofPred_eq]
  tauto

theorem Preserves.path (preserves : Preserves rules inv) {sys : System NodeId} {n : NodeId}
    (holds : inv sys) (named : (sys.replica n).id = n) (heard : sys.Heard n received)
    (path : Path rules received (sys.replica n) msgs t) :
    inv (sys.move n t msgs) ∧ t.id = n := by
  induction path with
  | refl =>
    have same : sys.move n (sys.replica n) [] = sys := by
      simp [move]
    rw [same]
    exact ⟨holds, named⟩
  | tail path micro ih =>
    rename_i r msgs t more u
    obtain ⟨holds, named⟩ := ih
    have moved : (sys.move n t msgs).replica n = t := update_self ..
    rw [← moved] at micro named
    have next := preserves _ n received more u holds named
      (fun source m equal => .inl (heard source m equal)) micro
    rw [move_move] at next
    exact ⟨next, micro.id_eq.trans named⟩

end System

namespace Cluster
variable {rules : Rules NodeId} {inv : System NodeId → Prop}

/-- The system holds the replicas of the cluster and at least the messages in
flight. -/
structure Reflects (c : Cluster NodeId) (sys : System NodeId) : Prop where
  replica_eq : ∀ n, sys.replica n = (c.node n).replica
  in_flight : ∀ m ∈ c.net, m ∈ sys.sent
  outbox : ∀ n, (c.node n).outbox = []
  named : ∀ n, (c.node n).myNodeId = n

def Allows (rules : Rules NodeId) (c : Cluster NodeId) : Action NodeId → Prop
  | .tick env n _ =>
    ((c.node n).leadershipState = some .leader →
      rules.stepDown (c.node n).replica ((c.node n).becomeFollower env).leadershipState) ∧
    ((c.node n).leadershipState ≠ some .leader → rules.stand (c.node n).replica)
  | .replicate _ n entries _ =>
    (rules.mode = .unrestricted → (c.node n).leadershipState = some .leader →
      rules.commands (c.node n).myNodeId (c.node n).toLog ∧ 1 ≤ (c.node n).currentView ∧
        (c.node n).termOfNextVersion ≠ 0) ∧
    (rules.mode = .fixedMembership → ∀ e ∈ entries, e.Plain)
  | .deliver env k =>
    ∀ m, c.net[k]? = some m → (c.node m.dest).Admits env rules m.source m.message
  | .lose _ => True

def Regular (mode : Mode) (c : Cluster NodeId) : Prop :=
  ∀ n, (c.node n).Regular mode (c.node n).lastIdx

theorem put_inv (preserves : System.Preserves rules inv) {c : Cluster NodeId} {sys : System NodeId}
    (reflects : c.Reflects sys) (regular : c.Regular rules.mode) (holds : inv sys)
    (heard : sys.Heard n received) {left : List (Envelope NodeId)} (held : ∀ m ∈ left, m ∈ sys.sent)
    (refines : Node.Refines rules received (c.node n) s) :
    ∃ sys', ({ c with net := left }.put n s).Reflects sys' ∧
      ({ c with net := left }.put n s).Regular rules.mode ∧ inv sys' := by
  obtain ⟨kept, msgs, sent, path⟩ := refines (regular n)
  rw [reflects.outbox, nil_append] at sent
  rw [← reflects.replica_eq n] at path
  have named : (sys.replica n).id = n := by
    rw [reflects.replica_eq]
    exact reflects.named n
  obtain ⟨next, self⟩ := preserves.path holds named heard path
  refine ⟨_, ⟨fun other => ?_, fun m member => ?_, fun other => ?_, fun other => ?_⟩, fun other => ?_,
    next⟩
  · by_cases same : other = n
    · subst same
      simp only [System.move, put, update_self]
      rfl
    · simp only [System.move, put, update_of_ne same]
      exact reflects.replica_eq other
  · rcases mem_append.mp member with old | new
    · exact .inl (held m old)
    rw [Node.envelopes, sent] at new
    obtain ⟨⟨dest, message⟩, sends, rfl⟩ := List.mem_map.mp new
    exact .inr ⟨rfl, sends⟩
  · by_cases same : other = n
    · subst same
      simp only [put, update_self]
    · simp only [put, update_of_ne same]
      exact reflects.outbox other
  · by_cases same : other = n
    · subst same
      simp only [put, update_self]
      exact self
    · simp only [put, update_of_ne same]
      exact reflects.named other
  · by_cases same : other = n
    · subst same
      simp only [put, update_self]
      exact kept.congr rfl rfl id
    · simp only [put, update_of_ne same]
      exact regular other

/-- An invariant that every micro step keeps is kept by every action. -/
theorem step_inv (preserves : System.Preserves rules inv) {c c' : Cluster NodeId}
    {sys : System NodeId} (taken : c.step a = some c') (allows : c.Allows rules a)
    (reflects : c.Reflects sys) (regular : c.Regular rules.mode) (holds : inv sys) :
    ∃ sys', c'.Reflects sys' ∧ c'.Regular rules.mode ∧ inv sys' := by
  have erased : ∀ k, ∀ m ∈ c.net.eraseIdx k, m ∈ sys.sent :=
    fun k m member => reflects.in_flight m (mem_of_mem_eraseIdx member)
  have silent : ∀ n, sys.Heard n none := fun n source m equal => by cases equal
  cases a with
  | tick env n elapsed =>
    cases taken
    exact put_inv preserves reflects regular holds (silent n)
      reflects.in_flight ((c.node n).periodic_refines env elapsed allows.1 allows.2)
  | replicate env n entries term =>
    cases taken
    refine put_inv preserves reflects regular holds (silent n)
      reflects.in_flight ((c.node n).replicated_refines env _ term allows.1 ?_ fun isFixed => ?_)
    · simp [Entry.stamp]
    · simpa [Entry.stamp, Entry.Plain] using allows.2 isFixed
  | deliver env k =>
    unfold step at taken
    cases found : c.net[k]? with
    | none => simp [found] at taken
    | some m =>
      simp only [found, Option.some.injEq] at taken
      rw [← taken]
      refine put_inv preserves reflects regular holds (fun source message equal => ?_) (erased k)
        ((c.node m.dest).recvMessage_refines env m.source m.message (allows m found))
      cases equal
      exact reflects.in_flight m (mem_of_getElem? found)
  | lose k =>
    simp only [step] at taken
    split at taken
    · cases taken
      exact ⟨sys, ⟨reflects.replica_eq, erased k, reflects.outbox, reflects.named⟩, regular, holds⟩
    · cases taken

end Cluster
end CCF.Aft
