import ShardedCCF.Aft.Simulation

/-! The state in which a service starts: one forced primary of view 2 and
backups of view 0, all with empty logs. -/
namespace CCF.Aft
open List
open Std (ExtTreeMap)

variable {NodeId : Type} [LinearOrder NodeId] (settings : Settings NodeId) (n : NodeId)

/-- A node that has done nothing but learn its first configuration. -/
structure Node.Pristine (s : Node NodeId) : Prop where
  ballot : s.toBallot = {}
  log : s.toLog = {}
  self : s.myNodeId = n
  ticking : s.ticking = false
  outbox : s.outbox = []
  type : s.reconfigurationType = settings.reconfigurationType
  membership : s.membershipState = if settings.learner n then .learner else .active
  configurations : s.configurations =
    (settings.configuration.map fun conf => ⟨0, conf, 0⟩).toList
  mem_nodes : ∀ id, id ∈ s.nodes ↔ id ≠ n ∧ ∃ conf, settings.configuration = some conf ∧ id ∈ conf

namespace Node

theorem observeConfiguration_first (s : Node NodeId) (conf : Nodes NodeId)
    (first : s.configurations = []) : ∃ orcSets,
      s.observeConfiguration 0 conf [] [] = { s with orcSets } := by
  unfold observeConfiguration
  split
  · refine ⟨s.orcSets, ?_⟩
    rw [if_neg (by simp [first])]
  refine ⟨s.orcSets.insertIfNew 0 ∅, ?_⟩
  simp only [first, getLast?_nil, Option.any_none, Bool.false_and, Bool.false_eq_true,
    if_false, recordLearnersAndRetired, foldl_nil, isEmpty_nil, if_true]

theorem addConfiguration_first (s : Node NodeId) (conf : Nodes NodeId)
    (first : s.configurations = []) (unknown : s.nodes = ∅) (backup : ¬ s.isPrimary) :
    ∃ orcSets nodes, s.addConfiguration {} 0 conf [] [] =
        { s with orcSets, configurations := [⟨0, conf, 0⟩], nodes } ∧
      ∀ id, id ∈ nodes ↔ id ≠ s.myNodeId ∧ id ∈ conf := by
  obtain ⟨orcSets, observed⟩ := s.observeConfiguration_first conf first
  let pushed : Node NodeId := { s with orcSets, configurations := [⟨0, conf, 0⟩] }
  have built : Rebuilds pushed (pushed.createAndRemoveNodeState {}) :=
    pushed.createAndRemoveNodeState_rebuilds {}
  unfold addConfiguration
  rw [observed]
  simp only [first, getLast?_nil, Option.any_none, Bool.false_eq_true, if_false,
    nil_append]
  generalize pushed.createAndRemoveNodeState {} = t at built
  obtain ⟨msgs, sent, able⟩ := built.sent
  have silent : t.outbox = s.outbox := by
    cases msgs with
    | nil => exact sent.trans (append_nil _)
    | cons m _ => exact absurd (able m mem_cons_self).1 backup
  refine ⟨orcSets, t.nodes, built.frame.trans (by rw [silent]), fun id => ?_⟩
  rw [built.mem_iff]
  simp [pushed, Active, unknown, and_comm]

theorem initial_pristine : Pristine settings n (initial settings n) := by
  unfold initial
  cases configuration : settings.configuration with
  | none =>
    exact
      { ballot := rfl, log := rfl, self := rfl, ticking := rfl, outbox := rfl, type := rfl
        membership := rfl
        configurations := by rw [configuration]; rfl
        mem_nodes := by simp [configuration] }
  | some conf =>
    dsimp only
    obtain ⟨orcSets, nodes, equal, mem⟩ := addConfiguration_first
      ({ myNodeId := n
         requestTimeout := settings.requestTimeout
         electionTimeout := settings.electionTimeout
         reconfigurationType := settings.reconfigurationType
         membershipState := if settings.learner n then .learner else .active } : Node NodeId)
      conf rfl rfl (by simp [Ballot.isPrimary])
    rw [equal]
    exact
      { ballot := rfl, log := rfl, self := rfl, ticking := rfl, outbox := rfl, type := rfl
        membership := rfl
        configurations := by rw [configuration]; rfl
        mem_nodes := by simpa [configuration] using mem }

end Node

/-- The settings suit the mode: one-transaction nodes that start as members, and
with fixed membership one configuration that every node belongs to. -/
structure Settings.Fits (mode : Mode) : Prop where
  restricted : mode ≠ .unrestricted →
    settings.reconfigurationType = .oneTransaction ∧ ∀ n, settings.learner n = false
  fixed : mode = .fixedMembership → ∃ conf, settings.configuration = some conf ∧ ∀ n, n ∈ conf

namespace Node
variable {settings n} {mode : Mode}

theorem Pristine.regular {s : Node NodeId} (pristine : Pristine settings n s)
    (fits : settings.Fits mode) : s.Regular mode s.lastIdx := by
  have active : mode ≠ .unrestricted → s.membershipState = .active := by
    intro limited
    rw [pristine.membership, (fits.restricted limited).2 n]
    rfl
  have index : ∀ conf ∈ s.configurations, conf.idx = 0 := by
    rw [pristine.configurations]
    cases settings.configuration <;> simp
  refine ⟨⟨fun known => ?_, fun id other isActive => ?_⟩, fun limited => ?_, fun isFixed => ?_⟩
  · exact ((pristine.mem_nodes _).mp known).1 pristine.self
  · obtain ⟨conf, member, inside⟩ := isActive
    rw [show s.roster.configurations = s.configurations from rfl, pristine.configurations] at member
    refine (pristine.mem_nodes id).mpr ⟨fun same => other (same.trans pristine.self.symm), ?_⟩
    cases configuration : settings.configuration with
    | none => simp [configuration] at member
    | some c =>
      simp only [configuration, Option.map_some, Option.toList_some, mem_singleton] at member
      exact ⟨c, rfl, by rw [member] at inside; exact inside⟩
  · refine ⟨pristine.type.trans (fits.restricted limited).1, .inl (active limited),
      fun _ => active limited, ?_, fun conf member => by rw [index conf member]; exact Nat.zero_le _⟩
    refine Pairwise.imp_of_mem (R := fun _ _ => True) ?_ (pairwise_of_forall fun _ _ => trivial)
    intro earlier later first second _
    rw [index earlier first]
    exact Nat.zero_le _
  · obtain ⟨conf, configuration, everyone⟩ := fits.fixed isFixed
    refine ⟨active (by rw [isFixed]; decide), ⟨0, conf, 0⟩, ?_, rfl, fun id => ?_⟩
    · rw [pristine.configurations, configuration]
      rfl
    · refine ⟨everyone id, ?_⟩
      by_cases same : id = n
      · exact .inl (same.trans pristine.self.symm)
      · exact .inr ((pristine.mem_nodes id).mpr ⟨same, conf, configuration, everyone id⟩)

def fresh (s : Node NodeId) : Node NodeId :=
  { s with lastIdx := 0, commitIdx := 0, viewHistory := .empty, ledgerStart := 0 }

theorem initAsBackup_fresh (s : Node NodeId) :
    Result.state (s.initAsBackup {} 0 0 []) =
      s.fresh.becomeAwareOfNewTerm {} 0 := by
  have history : ViewHistory.initialise [] = some .empty := rfl
  rfl

structure FreshBackup (mode : Mode) (n : NodeId) (t : Node NodeId) : Prop where
  regular : t.Regular mode t.lastIdx
  outbox : t.outbox = []
  self : t.myNodeId = n
  ticking : t.ticking = false
  log : t.toLog = { isNewFollower := true }
  ballot : ∃ role, t.toBallot = { leadershipState := role } ∧ (role = none ∨ role = some .follower)

theorem initialBackup_fresh (fits : settings.Fits mode) :
    FreshBackup mode n (initialBackup settings n) := by
  have pristine := initial_pristine settings n
  unfold initialBackup
  generalize initial settings n = s at pristine
  rw [s.initAsBackup_fresh]
  have start : s.lastIdx = 0 := by rw [pristine.log]
  have regular := pristine.regular fits
  rw [start] at regular
  have logU : s.fresh.toLog = {} := by
    simp only [fresh, pristine.log]
  have ballotU : s.fresh.toBallot = {} := pristine.ballot
  have regularU : s.fresh.Regular mode s.fresh.lastIdx := regular.congr rfl rfl id
  have selfU : s.fresh.myNodeId = n := pristine.self
  have tickingU : s.fresh.ticking = false := pristine.ticking
  have outboxU : s.fresh.outbox = [] := pristine.outbox
  generalize s.fresh = u at *
  obtain ⟨kept, silent, may, known, matchOf, -, equal⟩ := u.becomeAwareOfNewTerm_spec {} 0 regularU
  generalize u.becomeAwareOfNewTerm {} 0 = t at kept silent may equal
  refine ⟨kept, silent.trans outboxU, ?_, ?_, ?_, t.leadershipState, ?_, ?_⟩
  · exact (congrArg Replica.id equal).trans selfU
  · exact (congrArg Replica.ticking equal).trans tickingU
  · have adopted : t.toLog = { u.toLog.rollback 0 u.lastCommittableIndex with
        isNewFollower := true } := congrArg Replica.toLog equal
    rw [adopted, logU]
    rfl
  · exact congrArg Replica.toBallot equal
  · rcases may with follower | ⟨-, same, -⟩
    · exact .inr follower
    refine .inl (same.trans ?_)
    show u.leadershipState = none
    rw [ballotU]

structure FreshPrimary (mode : Mode) (n : NodeId) (t : Node NodeId) : Prop where
  regular : t.Regular mode t.lastIdx
  self : t.myNodeId = n
  ticking : t.ticking = false
  log : t.toLog = { termOfNextVersion := startingViewChange }
  ballot : t.toBallot =
    { currentView := startingViewChange, leadershipState := some .leader, leaderId := some n }
  unmatched : ∀ id, t.matchOf id = 0
  sent : ∀ m ∈ t.outbox, m.1 ≠ n ∧ Sendable t.toLog t.currentView m.2

def forced (s : Node NodeId) : Node NodeId :=
  { s with
    currentView := s.currentView + startingViewChange
    electionIndex := s.lastCommittableIndex
    committableIndices := []
    termOfNextVersion := s.currentView + startingViewChange }

theorem forceBecomePrimary_fresh (s : Node NodeId) (ballot : s.toBallot = {}) (log : s.toLog = {})
    (member : s.isRetired = false) :
    s.forceBecomePrimary {} = s.forced.assumeLeadership.startLeading {} := by
  have noLeader : s.leaderId.isSome = false := by rw [ballot]; rfl
  have nothing : ¬ s.commitIdx > 0 := by rw [log]; exact Nat.lt_irrefl 0
  have fresh : ¬ s.termOfNextVersion ≠ 0 := by rw [log]; exact fun differ => differ rfl
  unfold forceBecomePrimary becomeLeader prepareToLead
  rw [if_neg (by simp [noLeader]), if_neg (by simpa [isRetired] using member)]
  rw [if_neg nothing, if_neg fresh]
  rfl

theorem initialPrimary_fresh (fits : settings.Fits mode) :
    FreshPrimary mode n (initialPrimary settings n) := by
  have pristine := initial_pristine settings n
  unfold initialPrimary
  generalize initial settings n = s at pristine
  have member : s.isRetired = false := by
    rw [isRetired, pristine.membership]
    split <;> rfl
  rw [s.forceBecomePrimary_fresh pristine.ballot pristine.log member]
  have logV : s.forced.assumeLeadership.toLog = { termOfNextVersion := startingViewChange } := by
    show ({ s.toLog with
      committableIndices := [], termOfNextVersion := s.currentView + startingViewChange } :
        Log NodeId) = _
    rw [pristine.log, pristine.ballot]
    rfl
  have ballotV : s.forced.assumeLeadership.toBallot =
      { currentView := startingViewChange
        leadershipState := some .leader
        leaderId := some n } := by
    show ({ s.toBallot with
      currentView := s.currentView + startingViewChange
      leadershipState := some .leader
      leaderId := some s.myNodeId } : Ballot NodeId) = _
    rw [pristine.ballot, pristine.self]
    rfl
  have regularV : s.forced.assumeLeadership.Regular mode s.forced.assumeLeadership.lastIdx :=
    (pristine.regular fits).congr (resetLastAckTimeouts_roster _) rfl
      (by simp [assumeLeadership, resetLastAckTimeouts])
  have selfV : s.forced.assumeLeadership.myNodeId = n := pristine.self
  have tickingV : s.forced.assumeLeadership.ticking = false := pristine.ticking
  have outboxV : s.forced.assumeLeadership.outbox = [] := pristine.outbox
  generalize s.forced.assumeLeadership = v at *
  unfold startLeading
  split
  · rename_i alone
    have start : v.commit {} v.lastIdx = .ok v := by
      have nothing : v.lastIdx ≤ v.commitIdx := by rw [logV]
      rw [commit, if_neg (by omega), if_pos nothing]
    have nobody : v.nodes = ∅ := by simpa using alone
    rw [start]
    exact ⟨regularV, selfV, tickingV, logV, ballotV,
      fun id => v.matchOf_of_not_mem (by simp [nobody]), by simp [Result.state, outboxV]⟩
  have reset := v.foldl_resetAndSend_resets {} v.nodes.keys
  dsimp only [Result.state]
  generalize v.nodes.keys.foldl (resetAndSend {}) v = t at reset
  obtain ⟨frame, mem, matching, msgs, sent, able⟩ := id reset
  have last : t.lastIdx = v.lastIdx := by rw [frame]
  have membership : t.membershipState = v.membershipState := by rw [frame]
  refine
    { regular := ?_, self := by rw [frame]; exact selfV, ticking := by rw [frame]; exact tickingV
      log := by rw [frame]; exact logV, ballot := by rw [frame]; exact ballotV
      unmatched := fun id => ?_, sent := fun m member => ?_ }
  · rw [last]
    exact regularV.congr reset.roster_eq membership (by rw [frame]; exact id)
  · rw [matching]
    split
    · rfl
    · rename_i absent
      exact v.matchOf_of_not_mem (by simpa using absent)
  · rw [sent, outboxV, nil_append] at member
    obtain ⟨known, sendable⟩ := able m member
    refine ⟨fun toSelf => regularV.covered.self_unknown ?_, by rw [frame]; exact sendable⟩
    rw [toSelf, ← selfV] at known
    exact known

end Node

structure System.Starts (mode : Mode) (primary : NodeId) (sys : System NodeId) : Prop where
  log_primary : (sys.replica primary).toLog = { termOfNextVersion := startingViewChange }
  ballot_primary : (sys.replica primary).toBallot =
    { currentView := startingViewChange
      leadershipState := some .leader
      leaderId := some primary }
  unmatched : ∀ id, (sys.replica primary).matchOf id = 0
  log_backup : ∀ n, n ≠ primary → (sys.replica n).toLog = { isNewFollower := true }
  ballot_backup : ∀ n, n ≠ primary → ∃ role, (sys.replica n).toBallot = { leadershipState := role } ∧
    (role = none ∨ role = some .follower)
  id_eq : ∀ n, (sys.replica n).id = n
  ticking : ∀ n, (sys.replica n).ticking = false
  sent : ∀ m ∈ sys.sent, m.source = primary ∧ m.dest ≠ primary ∧
    Node.Sendable { termOfNextVersion := startingViewChange } startingViewChange m.message
  members : mode = .fixedMembership → ∀ n, (∀ id, id ∈ (sys.replica n).members) ∧
    n ∉ (sys.replica n).known

theorem Cluster.initial_starts {settings : Settings NodeId} {mode : Mode} (primary : NodeId)
    (fits : settings.Fits mode) :
    ∃ sys, (Cluster.initial settings primary).Reflects sys ∧
      (Cluster.initial settings primary).Regular mode ∧ sys.Starts mode primary := by
  let c := Cluster.initial settings primary
  have first : c.node primary = { Node.initialPrimary settings primary with outbox := [] } := by
    simp only [c, Cluster.initial, if_true]
  have other : ∀ n, n ≠ primary → c.node n = Node.initialBackup settings n := by
    intro n differ
    simp only [c, Cluster.initial, if_neg differ]
  have fresh := Node.initialPrimary_fresh (n := primary) fits
  have backup : ∀ n, Node.FreshBackup mode n (Node.initialBackup settings n) :=
    fun n => Node.initialBackup_fresh fits
  have self : ∀ n, (c.node n).myNodeId = n := by
    intro n
    by_cases same : n = primary
    · rw [same, first]
      exact fresh.self
    · rw [other n same]
      exact (backup n).self
  have regular : c.Regular mode := by
    intro n
    by_cases same : n = primary
    · rw [same, first]
      exact fresh.regular.congr rfl rfl id
    · rw [other n same]
      exact (backup n).regular
  refine ⟨⟨fun n => (c.node n).replica, { m | m ∈ c.net }⟩,
    ⟨fun _ => rfl, fun _ member => member, fun n => ?_, self⟩, regular, ?_⟩
  · by_cases same : n = primary
    · rw [same, first]
    · rw [other n same]
      exact (backup n).outbox
  · refine
      { log_primary := ?_, ballot_primary := ?_, unmatched := ?_, log_backup := fun n differ => ?_
        ballot_backup := fun n differ => ?_, id_eq := self, ticking := fun n => ?_
        sent := fun m member => ?_, members := fun isFixed n => ?_ }
    · show (c.node primary).toLog = _
      rw [first]
      exact fresh.log
    · show (c.node primary).toBallot = _
      rw [first]
      exact fresh.ballot
    · show ∀ id, (c.node primary).matchOf id = 0
      rw [first]
      exact fresh.unmatched
    · show (c.node n).toLog = _
      rw [other n differ]
      exact (backup n).log
    · show ∃ role, (c.node n).toBallot = _ ∧ _
      rw [other n differ]
      exact (backup n).ballot
    · show (c.node n).ticking = false
      by_cases same : n = primary
      · rw [same, first]
        exact fresh.ticking
      · rw [other n same]
        exact (backup n).ticking
    · obtain ⟨⟨dest, message⟩, sends, rfl⟩ := List.mem_map.mp member
      obtain ⟨differ, able⟩ := fresh.sent _ sends
      rw [fresh.log, show (Node.initialPrimary settings primary).currentView = startingViewChange by
        rw [fresh.ballot]] at able
      exact ⟨rfl, differ, able⟩
    · obtain ⟨-, conf, -, -, mem⟩ := (regular n).fixed isFixed
      refine ⟨fun id => ?_, fun known => ?_⟩
      · rw [Replica.members, Finset.mem_insert, Node.mem_known]
        exact (mem id).2
      · rw [Node.mem_known] at known
        refine (regular n).covered.self_unknown ?_
        show (c.node n).myNodeId ∈ (c.node n).nodes
        rw [self n]
        exact known

end CCF.Aft
