import ShardedCCF.Aft.Execution
import ShardedCCF.Lib.Majority

/-! Every operation of a node is a sequence of micro steps of its replica, as
long as the operation starts from a regular state and meets the rules of the
run. -/
namespace CCF.Aft
open List
open Std (ExtTreeMap)

variable {NodeId : Type} [LinearOrder NodeId]

namespace Node
variable (env : Env NodeId) (s : Node NodeId) {t : Node NodeId}
variable {rules : Rules NodeId} {received : Option (NodeId × Message NodeId)}

theorem mem_known (id : NodeId) : id ∈ s.replica.known ↔ id ∈ s.nodes := by
  simp [replica]

theorem known_eq {s : Node NodeId} (same : ∀ id, id ∈ t.nodes ↔ id ∈ s.nodes) :
    t.replica.known = s.replica.known := by
  ext id
  rw [mem_known, mem_known, same]

theorem known_card : s.replica.known.card = s.nodes.size := by
  rw [replica, toFinset_card_of_nodup ExtTreeMap.nodup_keys, ExtTreeMap.length_keys]

theorem known_empty (empty : s.nodes.isEmpty = true) : s.replica.known = ∅ := by
  have none : s.nodes = ∅ := by simpa using empty
  simp [replica, none]

theorem table_eq {s : Node NodeId} (same : t.nodes = s.nodes) :
    t.replica.known = s.replica.known ∧ t.replica.matchOf = s.replica.matchOf := by
  constructor
  · simp only [replica, same]
  · funext id
    simp only [replica, Node.matchOf, same]

theorem replica_eq {s : Node NodeId} {r : Replica NodeId} (ballot : s.toBallot = r.toBallot)
    (log : s.toLog = r.toLog) (id : s.myNodeId = r.id) (ticking : s.ticking = r.ticking)
    (known : s.replica.known = r.known) (matching : s.replica.matchOf = r.matchOf) :
    s.replica = r := by
  cases r
  simp only [replica] at *
  simp only [ballot, log, id, ticking, known, matching]

theorem Broadcasts.replica_eq {s : Node NodeId} (sent : Broadcasts s t) : t.replica = s.replica := by
  have frame := sent.frame
  refine Node.replica_eq ?_ ?_ ?_ ?_ (known_eq sent.mem_iff) (funext sent.matchOf_eq)
  all_goals rw [frame]; rfl

theorem map_replica (f : NodeId → NodeState → NodeState)
    (keeps : ∀ id node, (f id node).matchIdx = node.matchIdx) :
    ({ s with nodes := s.nodes.map f } : Node NodeId).replica = s.replica := by
  refine Node.replica_eq rfl rfl rfl rfl (known_eq fun id => ExtTreeMap.mem_map) (funext fun id => ?_)
  show ((s.nodes.map f)[id]?.map (·.matchIdx)).getD 0 = (s.nodes[id]?.map (·.matchIdx)).getD 0
  rw [ExtTreeMap.getElem?_map]
  cases s.nodes[id]? <;> simp [keeps]

theorem resetLastAckTimeouts_replica : s.resetLastAckTimeouts.replica = s.replica :=
  map_replica s _ fun _ _ => rfl

theorem setNodeState_replica {id : NodeId} (f : NodeState → NodeState) (found : s.nodes[id]? = some node) :
    (s.setNodeState id f).replica = s.replica.setMatch id (f node).matchIdx := by
  refine Node.replica_eq rfl rfl rfl rfl (known_eq fun other => mem_alter_map _ _ _ _)
    (funext fun other => ?_)
  show ((s.nodes.alter id (Option.map f))[other]?.map (·.matchIdx)).getD 0 = _
  rw [ExtTreeMap.getElem?_alter]
  unfold Replica.setMatch
  by_cases same : other = id
  · subst same
    simp [found]
  have differ : ¬ compare id other = .eq := fun equal => same (compare_eq_iff_eq.mp equal).symm
  rw [if_neg differ]
  show s.matchOf other = Function.update s.matchOf id _ other
  rw [Function.update_of_ne same]

/-- From a regular state, `t` is reached by micro steps and is regular again. -/
def Refines (rules : Rules NodeId) (received : Option (NodeId × Message NodeId))
    (s t : Node NodeId) : Prop :=
  s.Regular rules.mode s.lastIdx → t.Regular rules.mode t.lastIdx ∧
    ∃ msgs, t.outbox = s.outbox ++ msgs ∧ Path rules received s.replica msgs t.replica

namespace Refines
variable {s u : Node NodeId}

theorem trans (first : Refines rules received s t) (second : Refines rules received t u) :
    Refines rules received s u := by
  intro regular
  obtain ⟨regular, msgs, sent, path⟩ := first regular
  obtain ⟨regular, more, sent', path'⟩ := second regular
  exact ⟨regular, msgs ++ more, by rw [sent', sent, append_assoc], path.trans path'⟩

theorem quiet (replica : t.replica = s.replica) (roster : t.roster = s.roster)
    (membership : t.membershipState = s.membershipState) (outbox : t.outbox = s.outbox) :
    Refines rules received s t := by
  intro regular
  have log : t.toLog = s.toLog := congrArg Replica.toLog replica
  have ballot : t.toBallot = s.toBallot := congrArg Replica.toBallot replica
  refine ⟨?_, [], by rw [outbox, append_nil], replica ▸ .refl _⟩
  rw [log]
  exact regular.congr roster membership (by rw [ballot]; exact id)

theorem refl (s : Node NodeId) : Refines rules received s s := quiet rfl rfl rfl rfl

theorem foldl {α : Type} (f : Node NodeId → α → Node NodeId) (items : List α)
    (good : Node NodeId → Prop) (each : ∀ s, good s → ∀ a ∈ items,
      good (f s a) ∧ Refines rules received s (f s a)) (start : good s) :
    Refines rules received s (items.foldl f s) := by
  induction items generalizing s with
  | nil => exact refl s
  | cons a items ih =>
    obtain ⟨kept, first⟩ := each s start a mem_cons_self
    exact first.trans (ih (fun s started b member => each s started b (mem_cons_of_mem _ member))
      kept)

theorem of_broadcasts (sent : Broadcasts s t) (empowered : s.replica.Empowered rules) :
    Refines rules received s t := by
  intro regular
  have same := sent.replica_eq
  have frame := sent.frame
  obtain ⟨msgs, outbox, able⟩ := sent.sent
  have membership : t.membershipState = s.membershipState := by rw [frame]
  have quietly : Refines rules received s { t with outbox := s.outbox } :=
    quiet same sent.roster_eq membership rfl
  refine ⟨(quietly regular).1.congr rfl rfl id, msgs, outbox, ?_⟩
  rw [same]
  refine .sends fun m member => ?_
  refine .sendEntries empowered (fun toSelf => ?_) (able m member).2
  refine regular.covered.self_unknown ?_
  have known := (able m member).1
  rwa [toSelf] at known

end Refines

theorem forgetLeader_replica :
    (s.forgetLeader env).replica = { s.replica with leaderId := none } :=
  resetLastAckTimeouts_replica _

/-- What `become_follower` leaves, and which leadership state it can leave. -/
theorem becomeFollower_spec {mode : Mode} (regular : s.Regular mode s.lastIdx) :
    (s.becomeFollower env).Regular mode (s.becomeFollower env).lastIdx ∧
    (s.becomeFollower env).outbox = s.outbox ∧
    s.replica.MayBecome mode (s.becomeFollower env).leadershipState ∧
    ∃ known matchOf, s.replica.Keeps mode known matchOf ∧ (s.becomeFollower env).replica =
      s.replica.follow s.currentView (s.becomeFollower env).leadershipState known matchOf := by
  have forgot : (s.forgetLeader env).Regular mode (s.forgetLeader env).lastIdx :=
    regular.congr (forgetLeader_roster s env) rfl id
  have before := s.forgetLeader_replica env
  have outbox : (s.forgetLeader env).outbox = s.outbox := rfl
  unfold becomeFollower
  generalize s.forgetLeader env = u at forgot before outbox
  have carried : Carries mode (fun _ => False) _ _ u _ := u.rollback_carries env s.lastCommittableIndex
  obtain ⟨kept, frame⟩ := carried forgot
  obtain ⟨ballot, ticking, silent⟩ := u.rollback_ballot env s.lastCommittableIndex forgot.covered
  have log := u.rollback_toLog env s.lastCommittableIndex
  generalize u.rollback env s.lastCommittableIndex = v at kept frame ballot ticking silent log
  have role : v.leadershipState = s.leadershipState := by
    rw [ballot]
    exact congrArg (·.leadershipState) before
  have restored : v.replica =
      s.replica.follow s.currentView s.leadershipState v.replica.known v.replica.matchOf := by
    refine replica_eq ?_ ?_ ?_ ?_ rfl rfl
    · rw [ballot]
      exact congrArg Replica.toBallot before
    · rw [log, show u.toLog = s.toLog from congrArg Replica.toLog before,
        show u.currentView = s.currentView from congrArg (·.currentView) before]
      rfl
    · exact frame.id_eq.trans (congrArg Replica.id before)
    · exact ticking.trans (congrArg Replica.ticking before)
  have keeps : s.replica.Keeps mode v.replica.known v.replica.matchOf := by
    intro isFixed
    obtain ⟨known, matching⟩ := table_eq (frame.nodes isFixed)
    have known' : u.replica.known = s.replica.known := by rw [before]
    have matching' : u.replica.matchOf = s.replica.matchOf := by rw [before]
    exact ⟨known.trans known', matching.trans matching'⟩
  unfold followIfActive
  split
  · refine ⟨kept.congr rfl rfl (by simp), silent.trans outbox, .inl rfl, v.replica.known,
      v.replica.matchOf, keeps, ?_⟩
    rw [show ({ v with leadershipState := some .follower } : Node NodeId).replica =
      { v.replica with leadershipState := some .follower } from rfl, restored]
    rfl
  rename_i passive
  refine ⟨kept, silent.trans outbox, .inr ⟨?_, role, ?_⟩, v.replica.known, v.replica.matchOf,
    keeps, role ▸ restored⟩
  · intro isFixed
    have active := (kept.fixed isFixed).active
    simp [canEndorsePrimary, isRetired, isLearner, isRetiring, active] at passive
  · intro one candidate
    have active := (kept.restricted (by rw [one]; decide)).candidate candidate
    simp [canEndorsePrimary, isRetired, isLearner, isRetiring, active] at passive

theorem becomeAwareOfNewTerm_spec {mode : Mode} (term : Nat) (regular : s.Regular mode s.lastIdx) :
    (s.becomeAwareOfNewTerm env term).Regular mode (s.becomeAwareOfNewTerm env term).lastIdx ∧
    (s.becomeAwareOfNewTerm env term).outbox = s.outbox ∧
    s.replica.MayBecome mode (s.becomeAwareOfNewTerm env term).leadershipState ∧
    ∃ known matchOf, s.replica.Keeps mode known matchOf ∧
      (s.becomeAwareOfNewTerm env term).replica = s.replica.adopt term
        (s.becomeAwareOfNewTerm env term).leadershipState known matchOf := by
  let u : Node NodeId := { s with currentView := term, votedFor := none, votesForMe := ∅ }
  have regular' : u.Regular mode u.lastIdx := regular.congr rfl rfl id
  obtain ⟨kept, silent, may, known, matchOf, keeps, equal⟩ := u.becomeFollower_spec env regular'
  refine ⟨kept.congr rfl rfl id, silent, may, known, matchOf, keeps, ?_⟩
  exact congrArg (fun r : Replica NodeId => { r with isNewFollower := true }) equal

/-- A node may adopt the view: the rules allow it, and the node does not lead
a view it has only heard of. -/
def MayAdopt (rules : Rules NodeId) (term : Nat) : Prop :=
  rules.adopt s.replica ∧ (rules.mode ≠ .unrestricted →
    (s.becomeAwareOfNewTerm env term).leadershipState ≠ some .leader)

theorem becomeAwareOfNewTerm_refines (term : Nat) (allowed : s.MayAdopt env rules term)
    (heard : s.currentView < term ∨ term = s.currentView ∧ s.leadershipState = some .candidate ∧
      ∃ source ae payload, received = some (source, .appendEntries ae payload) ∧ ae.term = term) :
    Refines rules received s (s.becomeAwareOfNewTerm env term) := by
  intro regular
  obtain ⟨kept, silent, may, known, matchOf, keeps, equal⟩ :=
    s.becomeAwareOfNewTerm_spec env term regular
  refine ⟨kept, [], by rw [append_nil]; exact silent, .single ?_⟩
  rw [equal]
  exact .adopt heard allowed.1 may allowed.2 keeps

theorem becomeAwareOfNewTerm_backup (term : Nat) (regular : s.Regular rules.mode s.lastIdx)
    (allowed : s.MayAdopt env rules term) :
    (s.becomeAwareOfNewTerm env term).currentView = term ∧
      (s.becomeAwareOfNewTerm env term).replica.Backup rules.mode := by
  obtain ⟨-, -, may, known, matchOf, -, equal⟩ := s.becomeAwareOfNewTerm_spec env term regular
  refine ⟨congrArg (·.currentView) equal, fun limited => ⟨allowed.2 limited, ?_⟩⟩
  rcases may with follower | ⟨unseen, -, settled⟩
  · show (s.becomeAwareOfNewTerm env term).leadershipState ≠ _
    simp [follower]
  refine settled ?_
  cases mode : rules.mode with
  | fixedMembership => exact absurd mode unseen
  | oneTransaction => rfl
  | unrestricted => exact absurd mode limited

/-- What remains after the log and the node table have changed: the node may
have started ticking, and its leadership may have ended. -/
theorem Frame.path {s : Node NodeId} {sends : Message NodeId → Prop}
    (frame : Frame rules.mode sends s t)
    (ticks : (s.replica.setLog t.toLog t.replica.known t.replica.matchOf).Empowered rules ∨
      ∃ source ae payload, received = some (source, .appendEntries ae payload) ∧
        ae.term = s.currentView)
    (initialised : (s.replica.setLog t.toLog t.replica.known t.replica.matchOf).Initialised) :
    Path rules received (s.replica.setLog t.toLog t.replica.known t.replica.matchOf) [] t.replica := by
  let r : Replica NodeId := s.replica.setLog t.toLog t.replica.known t.replica.matchOf
  have ticked : Path rules received r [] { r with ticking := t.ticking } := by
    cases was : s.ticking with
    | true =>
      have now := frame.ticking was
      have same : { r with ticking := t.ticking } = r := by
        show ({ r with ticking := t.ticking } : Replica NodeId) = { r with ticking := s.ticking }
        rw [was, now]
      rw [same]
      exact .refl r
    | false =>
      cases now : t.ticking with
      | true => exact .single (.startTicking ticks)
      | false =>
        have same : ({ r with ticking := false } : Replica NodeId) = r := by
          show ({ r with ticking := false } : Replica NodeId) = { r with ticking := s.ticking }
          rw [was]
        rw [same]
        exact .refl r
  rcases frame.role with ⟨role, leader⟩ | ⟨unseen, settled, demoted⟩
  · have same : t.replica = { r with ticking := t.ticking } := by
      refine replica_eq ?_ rfl frame.id_eq rfl rfl rfl
      show t.toBallot = s.toBallot
      have view := frame.view_eq
      have voted := frame.votedFor_eq
      have votes := frame.votes_eq
      cases tb : t.toBallot
      cases sb : s.toBallot
      simp_all
    rw [same]
    exact ticked
  · have same : t.replica = { r with
        ticking := t.ticking, leadershipState := t.leadershipState, leaderId := t.leaderId } := by
      refine replica_eq ?_ rfl frame.id_eq rfl rfl rfl
      show t.toBallot =
        { s.toBallot with leadershipState := t.leadershipState, leaderId := t.leaderId }
      have view := frame.view_eq
      have voted := frame.votedFor_eq
      have votes := frame.votes_eq
      cases tb : t.toBallot
      cases sb : s.toBallot
      simp_all
    rw [same]
    exact ticked.trans (.single (.demote t.leaderId unseen settled initialised demoted))

/-- `t` is `s` after the nodes `ids` were reset and sent AppendEntries. -/
structure Resets (ids : List NodeId) (s t : Node NodeId) : Prop where
  frame : t = { s with nodes := t.nodes, outbox := t.outbox }
  mem_iff : ∀ id, id ∈ t.nodes ↔ id ∈ s.nodes
  matchOf_eq : ∀ id, t.matchOf id = if id ∈ ids then 0 else s.matchOf id
  sent : ∃ msgs, t.outbox = s.outbox ++ msgs ∧
    ∀ m ∈ msgs, m.1 ∈ s.nodes ∧ Sendable s.toLog s.currentView m.2

theorem resetAndSend_resets (id : NodeId) : Resets [id] s (s.resetAndSend env id) := by
  let reset := fun node : NodeState => { node with matchIdx := 0, sentIdx := s.lastIdx }
  let u : Node NodeId := s.setNodeState id reset
  have mem : ∀ other, other ∈ u.nodes ↔ other ∈ s.nodes := fun other => mem_alter_map _ _ _ _
  have matching : ∀ other, u.matchOf other = if other ∈ [id] then 0 else s.matchOf other := by
    intro other
    show ((s.nodes.alter id (Option.map reset))[other]?.map (·.matchIdx)).getD 0 = _
    rw [ExtTreeMap.getElem?_alter]
    by_cases same : other = id
    · subst same
      rw [if_pos (compare_eq_iff_eq.mpr rfl), if_pos (mem_singleton_self other)]
      cases s.nodes[other]? <;> rfl
    rw [if_neg fun equal => same (compare_eq_iff_eq.mp equal).symm,
      if_neg fun member => same (mem_singleton.mp member)]
    rfl
  have sends : Broadcasts u (s.resetAndSend env id) := u.sendAppendEntries_broadcasts env id s.lastIdx
  obtain ⟨msgs, sent, able⟩ := sends.sent
  exact
    { frame := sends.frame
      mem_iff := fun other => (sends.mem_iff other).trans (mem other)
      matchOf_eq := fun other => (sends.matchOf_eq other).trans (matching other)
      sent := ⟨msgs, sent, fun m member => ⟨(mem _).mp (able m member).1, (able m member).2⟩⟩ }

theorem foldl_resetAndSend_resets (ids : List NodeId) :
    Resets ids s (ids.foldl (resetAndSend env) s) := by
  induction ids generalizing s with
  | nil => exact ⟨rfl, fun _ => .rfl, fun id => by simp, [], by simp⟩
  | cons id ids ih =>
    obtain ⟨frame, mem, matching, msgs, sent, able⟩ := s.resetAndSend_resets env id
    obtain ⟨frame', mem', matching', msgs', sent', able'⟩ := ih (s.resetAndSend env id)
    rw [foldl_cons]
    refine ⟨by rw [frame', frame], fun other => (mem' other).trans (mem other), fun other => ?_,
      msgs ++ msgs', by rw [sent', sent, append_assoc], fun m member => ?_⟩
    · rw [matching', matching]
      by_cases first : other = id
      · simp [first]
      · simp [first]
    · rcases mem_append.mp member with old | new
      · exact able m old
      have := able' m new
      rw [frame] at this
      exact ⟨(mem _).mp (by rw [frame]; exact this.1), this.2⟩

theorem Resets.roster_eq {s : Node NodeId} (reset : Resets ids s t) : t.roster = s.roster := by
  have known : { id | id ∈ t.nodes } = { id | id ∈ s.nodes } := Set.ext reset.mem_iff
  rw [roster, known, reset.frame]
  rfl

theorem matchOf_of_not_mem {id : NodeId} (absent : id ∉ s.nodes) : s.matchOf id = 0 := by
  rw [matchOf, ExtTreeMap.getElem?_eq_none absent]
  rfl

theorem Frame.silent {s : Node NodeId} {mode : Mode} (frame : Frame mode (fun _ => False) s t) :
    t.outbox = s.outbox := by
  obtain ⟨msgs, sent, none⟩ := frame.sent
  cases msgs with
  | nil => rw [sent, append_nil]
  | cons m _ => exact (none m mem_cons_self).2.2.elim

/-- The second half of `become_leader`. `u` is the node as its preparations left
it; they make one step together with the change of role. -/
theorem startLeading_refines {u : Node NodeId} (regular : u.Regular rules.mode u.lastIdx)
    (ballot : u.toBallot = s.toBallot) (self : u.myNodeId = s.myNodeId)
    (ticking : u.ticking = s.ticking) (outbox : u.outbox = s.outbox)
    (leads : ∀ log, Launches u.toLog u.replica.known log →
      Micro rules received s.replica [] (s.replica.lead log u.replica.known)) :
    Refines rules received s (Result.state (u.assumeLeadership.startLeading env)) := by
  have regular : u.assumeLeadership.Regular rules.mode u.lastIdx :=
    regular.congr (resetLastAckTimeouts_roster _) rfl
      (by simp [assumeLeadership, resetLastAckTimeouts])
  have ballot : u.assumeLeadership.toBallot = { s.toBallot with
      leadershipState := some .leader, leaderId := some s.myNodeId } := by
    rw [← ballot, ← self]
    rfl
  have known : u.assumeLeadership.replica.known = u.replica.known := by
    rw [show u.assumeLeadership.replica = { u.replica with
      leadershipState := some .leader, leaderId := some u.myNodeId } from
      resetLastAckTimeouts_replica _]
  have log : u.assumeLeadership.toLog = u.toLog := rfl
  have self : u.assumeLeadership.myNodeId = s.myNodeId := self
  have ticking : u.assumeLeadership.ticking = s.ticking := ticking
  have outbox : u.assumeLeadership.outbox = s.outbox := outbox
  rw [← known, ← log] at leads
  rw [show u.lastIdx = u.assumeLeadership.lastIdx from rfl] at regular
  generalize u.assumeLeadership = v at *
  have leader : v.leadershipState = some .leader := by rw [ballot]
  unfold startLeading
  split
  · rename_i alone
    intro _
    have nobody : v.nodes = ∅ := by simpa using alone
    have carried : Carries rules.mode (fun _ => False) v.lastIdx v.lastIdx v _ :=
      v.commit_carries env v.lastIdx
    have evolved : Evolves (fun _ _ => False) v (Result.state (v.commit env v.lastIdx)) :=
      v.commit_evolves env v.lastIdx
    have committed : (Result.state (v.commit env v.lastIdx)).toLog =
        (v.toLog.commit v.lastIdx).log := by
      rw [Result.state_toLog, commit_toLog]
    have last := (v.toLog.commit_settles v.lastIdx).lastIdx_eq
    have subset := evolved.known_subset regular.covered
    obtain ⟨regularT, frame⟩ := carried regular
    generalize Result.state (v.commit env v.lastIdx) = t at committed regularT frame subset
    have nobodyT : ∀ id, id ∉ t.nodes := fun id known => by simpa [nobody] using subset id known
    refine ⟨by rw [committed, last]; exact regularT, [],
      by rw [frame.silent, outbox, append_nil], ?_⟩
    have same : s.replica.lead t.toLog v.replica.known =
        v.replica.setLog t.toLog t.replica.known t.replica.matchOf := by
      have known : t.replica.known = v.replica.known :=
        known_eq fun id => iff_of_false (nobodyT id) (by simp [nobody])
      have matching : t.replica.matchOf = fun _ => 0 :=
        funext fun id => t.matchOf_of_not_mem (nobodyT id)
      have lead_eq : v.replica = { s.replica with
          leadershipState := some .leader
          leaderId := some s.replica.id
          toLog := v.toLog
          known := v.replica.known
          matchOf := v.replica.matchOf } := replica_eq ballot rfl self ticking rfl rfl
      rw [known, matching, lead_eq]
      rfl
    refine .head (leads t.toLog (.inr ⟨v.known_empty alone, committed⟩)) ?_
    rw [same]
    exact frame.path (.inl (.inl leader)) fun candidate => by
      have leader : (v.replica.setLog t.toLog t.replica.known t.replica.matchOf).leadershipState =
        some .leader := leader
      simp [leader] at candidate
  · have reset := v.foldl_resetAndSend_resets env v.nodes.keys
    dsimp only [Result.state]
    generalize v.nodes.keys.foldl (resetAndSend env) v = t at reset
    obtain ⟨frame, mem, matching, msgs, sent, able⟩ := id reset
    have same : t.replica = s.replica.lead v.toLog v.replica.known := by
      refine replica_eq ?_ ?_ ?_ ?_ (known_eq mem) (funext fun id => ?_)
      · rw [frame]
        exact ballot
      · rw [frame]
        rfl
      · rw [frame]
        exact self
      · rw [frame]
        exact ticking
      · show t.matchOf id = 0
        rw [matching]
        split
        · rfl
        · rename_i absent
          exact v.matchOf_of_not_mem (by simpa using absent)
    intro _
    refine ⟨?_, msgs, by rw [sent, outbox], ?_⟩
    · have last : t.lastIdx = v.lastIdx := by rw [frame]
      have membership : t.membershipState = v.membershipState := by rw [frame]
      rw [last]
      exact regular.congr reset.roster_eq membership (by rw [frame]; exact id)
    · rw [same]
      refine .head (leads v.toLog (.inl rfl)) (.sends fun m member => ?_)
      have view : (s.replica.lead v.toLog v.replica.known).currentView = v.currentView := by
        rw [ballot]
        rfl
      refine .sendEntries (.inl rfl) (fun toSelf => ?_) (view ▸ (able m member).2)
      refine regular.covered.self_unknown ?_
      have member := (able m member).1
      rw [show m.1 = v.myNodeId from toSelf.trans self.symm] at member
      exact member

variable (dest : NodeId) (source : NodeId) (r : AppendEntries) (payload : List (Entry NodeId))

theorem becomeLeader_refines (candidate : s.leadershipState = some .candidate)
    (elected : rules.mode ≠ .unrestricted → s.replica.Elected) :
    Refines rules received s (Result.state (s.becomeLeader env)) := by
  intro regular
  unfold becomeLeader prepareToLead
  split
  · exact Refines.refl s regular
  let u : Node NodeId := { s with electionIndex := s.lastCommittableIndex, committableIndices := [] }
  have cleared : u.Regular rules.mode u.lastIdx := regular.congr rfl rfl id
  dsimp only
  split
  · rename_i committed
    have carried : Carries rules.mode (fun _ => False) u.lastIdx _ u _ :=
      u.rollback_carries env s.lastCommittableIndex
    obtain ⟨kept, frame⟩ := carried cleared
    obtain ⟨ballot, ticking, outbox⟩ := u.rollback_ballot env s.lastCommittableIndex cleared.covered
    refine s.startLeading_refines env kept ballot frame.id_eq ticking outbox (fun log launches => ?_)
      regular
    rw [u.rollback_toLog env s.lastCommittableIndex] at launches
    refine .lead candidate elected committed (fun isFixed => ?_) launches
    exact (table_eq (frame.nodes isFixed)).1
  · have nothing : s.commitIdx = 0 := by
      omega
    split
    · rename_i initialised
      refine ⟨cleared, [], by rw [append_nil]; rfl, .single ?_⟩
      exact .leadFail candidate nothing initialised
    rename_i fresh
    let v : Node NodeId := { u with termOfNextVersion := u.currentView }
    have kept : v.Regular rules.mode v.lastIdx := cleared.congr rfl rfl id
    exact s.startLeading_refines env kept rfl rfl rfl rfl
      (fun log launches => .leadFresh candidate elected nothing (not_not.mp fresh) launches) regular

theorem addVoteForMe_refines (voter : NodeId) (candidate : s.leadershipState = some .candidate)
    (heard : voter = s.myNodeId ∨ voter ∈ s.nodes ∧
      ∃ a, received = some (voter, .requestVoteResponse a) ∧ a.term = s.currentView ∧
        a.voteGranted = true) :
    Refines rules received s (Result.state (s.addVoteForMe env voter)) := by
  intro regular
  unfold addVoteForMe
  cases size : s.electorateSize voter with
  | none => exact Refines.refl s regular
  | some size' =>
    let u : Node NodeId := { s with votesForMe := insert voter s.votesForMe }
    have counted : Refines rules received s u := fun regular =>
      ⟨regular.congr rfl rfl id, [], by rw [append_nil],
        .single (.vote candidate (heard.imp id fun h => ⟨(s.mem_known voter).mpr h.1, h.2⟩))⟩
    dsimp only
    split
    · rename_i quorum
      refine (counted.trans (u.becomeLeader_refines env candidate fun limited => ?_)) regular
      have one := (regular.restricted limited).oneTransaction
      have equal : size' = s.nodes.size + 1 := by simpa [electorateSize, one, eq_comm] using size
      refine ⟨fun known => regular.covered.self_unknown ((s.mem_known _).mp known), ?_⟩
      rw [show u.replica.known = s.replica.known from rfl, known_card, ← equal]
      exact quorum
    · exact counted regular

theorem stand_refines (ticks : s.ticking = true) (backup : s.leadershipState ≠ some .leader)
    (allowed : rules.stand s.replica) (endorses : s.canEndorsePrimary = true) :
    Refines rules received s (s.stand env) := by
  intro regular
  have roster : (s.stand env).roster = s.roster := resetLastAckTimeouts_roster _
  have replica : (s.stand env).replica = s.replica.stand := resetLastAckTimeouts_replica _
  refine ⟨⟨roster ▸ regular.covered, fun limited => ?_, ?_⟩, [], by rw [append_nil]; rfl,
    .single (replica ▸ .stand ticks backup allowed)⟩
  · have restricted := regular.restricted limited
    have active : s.membershipState = .active := by
      rcases restricted.membership with active | retired
      · exact active
      · simp [canEndorsePrimary, isRetired, retired] at endorses
    exact
      { oneTransaction := restricted.oneTransaction
        membership := restricted.membership
        candidate := fun _ => active
        sorted := restricted.sorted
        bounded := restricted.bounded }
  · intro isFixed
    obtain ⟨active, conf, single, start, mem⟩ := regular.fixed isFixed
    refine ⟨active, conf, single, start, fun id => ⟨(mem id).1, ?_⟩⟩
    have known : id ∈ (s.stand env).nodes ↔ id ∈ s.nodes :=
      Set.ext_iff.mp (congrArg Roster.known roster) id
    rw [known]
    exact (mem id).2

/-- A candidate that has counted a vote asks for others, unless it has none to ask. -/
theorem addVoteForMe_role (voter : NodeId) (candidate : s.leadershipState = some .candidate)
    (covered : s.roster.Covered) (ok : s.addVoteForMe env voter = .ok t) :
    t.leadershipState = some .candidate ∨ t.leadershipState = some .leader ∨ t.nodes.keys = [] := by
  unfold addVoteForMe at ok
  split at ok
  · cases ok
    exact .inl candidate
  dsimp only at ok
  split at ok
  · unfold becomeLeader at ok
    split at ok
    · cases ok
      exact .inl candidate
    generalize counted : ({ s with votesForMe := insert voter s.votesForMe } : Node NodeId) = u at ok
    have covered : u.roster.Covered := by rw [← counted]; exact covered
    have prepared : Evolves (fun _ _ => True) u (Result.state (u.prepareToLead env)) :=
      u.prepareToLead_evolves env
    have covered := Roster.covered_of_reaches prepared covered
    cases prepare : u.prepareToLead env with
    | error thrown =>
      rw [prepare] at ok
      cases ok
    | ok v =>
      rw [prepare] at ok covered
      have covered : v.assumeLeadership.roster.Covered := by
        rw [show v.assumeLeadership.roster = v.roster from resetLastAckTimeouts_roster _]
        exact covered
      have ok : v.assumeLeadership.startLeading env = .ok t := ok
      have leader : v.assumeLeadership.leadershipState = some .leader := rfl
      generalize v.assumeLeadership = w at ok covered leader
      unfold startLeading at ok
      split at ok
      · rename_i alone
        have evolved : Evolves (fun _ _ => False) w (Result.state (w.commit env w.lastIdx)) :=
          w.commit_evolves env w.lastIdx
        rw [ok] at evolved
        have evolved : Evolves (fun _ _ => False) w t := evolved
        have nobody : w.nodes = ∅ := by simpa using alone
        refine .inr (.inr (eq_nil_iff_forall_not_mem.mpr fun id member => ?_))
        have known := evolved.known_subset covered id (by simpa using member)
        simp [nobody] at known
      · cases ok
        refine .inr (.inl ?_)
        rw [(w.foldl_resetAndSend_resets env w.nodes.keys).frame]
        exact leader
  · cases ok
    exact .inl candidate

theorem sendAuthenticated_refines (m : Message NodeId) (sends : Micro rules received s.replica [(dest, m)] s.replica) :
    Refines rules received s (s.sendAuthenticated env dest m) := by
  rcases s.sendAuthenticated_eq env dest m with same | sent
  · rw [same]
    exact .refl s
  · rw [sent]
    exact fun regular => ⟨regular.congr rfl rfl id, [(dest, m)], rfl, .single sends⟩

theorem becomeCandidate_refines (ticks : s.ticking = true)
    (backup : s.leadershipState ≠ some .leader) (allowed : rules.stand s.replica)
    (endorses : s.canEndorsePrimary = true) :
    Refines rules received s (Result.state (s.becomeCandidate env)) := by
  intro regular
  have standing : Refines rules received s (s.stand env) :=
    s.stand_refines env ticks backup allowed endorses
  have counting : Refines rules received (s.stand env) _ :=
    (s.stand env).addVoteForMe_refines env s.myNodeId rfl (.inl rfl)
  have both := standing.trans counting
  unfold becomeCandidate
  cases counted : (s.stand env).addVoteForMe env s.myNodeId with
  | error thrown =>
    rw [counted] at both
    exact both regular
  | ok t =>
    rw [counted] at both
    refine (both.trans ?_) regular
    have asks := (s.stand env).addVoteForMe_role env s.myNodeId rfl (standing regular).1.covered counted
    show Refines rules received t (t.nodes.keys.foldl (sendRequestVote env) t)
    rcases or_assoc.mpr asks with role | nobody
    · refine .foldl _ _ (fun u => u.leadershipState = some .candidate ∨
        u.leadershipState = some .leader) (fun u role id _ => ?_) role
      refine ⟨?_, u.sendAuthenticated_refines env id _ (.askVote id role)⟩
      rcases u.sendAuthenticated_eq env id (u.requestVoteMessage u.currentView) with same | sent
      · rw [sendRequestVote, same]
        exact role
      · rw [sendRequestVote, sent]
        exact role
    · rw [nobody]
      exact .refl t

theorem sendRequestVoteResponse_refines : Refines rules received s (s.sendRequestVoteResponse env dest false) :=
  s.sendAuthenticated_refines env dest _ (.refuse dest rfl)

theorem answerRequestVote_refines (r : RequestVote) (heard : received = some (source, .requestVote r))
    (current : s.currentView = r.term) : Refines rules received s (s.answerRequestVote env source r) := by
  unfold answerRequestVote
  split
  · exact s.sendRequestVoteResponse_refines env source
  rename_i leaderless
  split
  · exact s.sendRequestVoteResponse_refines env source
  rename_i free
  split
  · rename_i upToDate
    let u : Node NodeId :=
      { s.restartElectionTimeout env with leaderId := none, votedFor := some source }
    have noLeader : s.leaderId = none := by simpa using leaderless
    have voted : s.votedFor = none ∨ s.votedFor = some source := by
      cases votedFor : s.votedFor with
      | none => exact .inl rfl
      | some other => simpa [votedFor] using free
    have replica : u.replica = { s.replica with votedFor := some source } := by
      refine replica_eq ?_ rfl rfl rfl rfl rfl
      show ({ s.toBallot with leaderId := none, votedFor := some source } : Ballot NodeId) =
        { s.toBallot with votedFor := some source }
      rw [← noLeader]
    intro regular
    rcases u.sendAuthenticated_eq env source
      (.requestVoteResponse ⟨u.currentView, true⟩) with same | sent
    · rw [sendRequestVoteResponse, same]
      refine ⟨regular.congr rfl rfl id, [], by rw [append_nil]; rfl, .single ?_⟩
      rw [replica]
      exact .grant heard current.symm noLeader voted upToDate (.inl rfl)
    rw [sendRequestVoteResponse, sent]
    refine ⟨regular.congr rfl rfl id, [_], rfl, .single ?_⟩
    rw [show (u.send source (.requestVoteResponse ⟨u.currentView, true⟩)).replica = u.replica
      from rfl, replica]
    exact .grant heard current.symm noLeader voted upToDate (.inr rfl)
  · exact s.sendRequestVoteResponse_refines env source

theorem recvRequestVote_refines (r : RequestVote) (heard : received = some (source, .requestVote r))
    (allowed : s.currentView < r.term → s.MayAdopt env rules r.term) :
    Refines rules received s (s.recvRequestVote env source r) := by
  unfold recvRequestVote
  split
  · exact s.sendRequestVoteResponse_refines env source
  split
  · rename_i newer
    intro regular
    have current := (s.becomeAwareOfNewTerm_backup env r.term regular (allowed newer)).1
    exact ((s.becomeAwareOfNewTerm_refines env r.term (allowed newer) (.inl newer)).trans
      (answerRequestVote_refines env _ source r heard current)) regular
  · exact s.answerRequestVote_refines env source r heard (by omega)

theorem recvRequestVoteResponse_refines (r : RequestVoteResponse)
    (heard : received = some (source, .requestVoteResponse r))
    (allowed : s.currentView < r.term → s.MayAdopt env rules r.term) :
    Refines rules received s (Result.state (s.recvRequestVoteResponse env source r)) := by
  unfold recvRequestVoteResponse
  split
  · exact .refl s
  rename_i candidate
  split
  · exact .refl s
  rename_i known
  split
  · rename_i newer
    exact s.becomeAwareOfNewTerm_refines env r.term (allowed newer) (.inl newer)
  split
  · exact .refl s
  rename_i current
  split
  · exact .refl s
  rename_i granted
  refine s.addVoteForMe_refines env source (not_not.mp candidate) (.inr ⟨?_, r, heard, ?_, ?_⟩)
  · simpa using known
  · exact (not_not.mp current).symm
  · simpa using granted

theorem sendAppendEntriesResponse_refines (rejected) : Refines rules received s
      (Result.state (.ok (s.sendAppendEntriesResponse env dest .fail rejected))) := by
  rcases s.sendAppendEntriesResponse_fail env dest rejected with same | ⟨m, refuses, sent⟩
  · rw [same]
    exact .refl s
  · rw [sent]
    exact fun regular => ⟨regular.congr rfl rfl id, [(dest, m)], rfl, .single (.refuse dest refuses)⟩

theorem rollbackNewFollower_carries {mode : Mode} {sends : Message NodeId → Prop} (prevIdx : Nat) :
    Carries mode sends s.lastIdx (s.rollbackNewFollower env prevIdx).lastIdx s
      (s.rollbackNewFollower env prevIdx) := by
  unfold rollbackNewFollower
  split
  · split
    · refine (s.rollback_carries env prevIdx).trans ?_
      exact .of_ballot rfl rfl rfl id rfl rfl
    · exact .of_ballot rfl rfl rfl id rfl rfl
  · exact fun regular => ⟨regular, .refl s⟩

theorem executeBatch_executes {mode : Mode} {bounded : Prop} (source : NodeId) (r : AppendEntries)
    (payload : List (Entry NodeId)) (known : bounded → s.toLog.Bounded) (regular : s.Regular mode s.lastIdx)
    (within : r.prevIdx ≤ s.lastIdx) (plain : mode = .fixedMembership → ∀ e ∈ payload, e.Plain)
    (settled : mode ≠ .unrestricted → s.leadershipState ≠ some .candidate) :
    Executes mode bounded source s (Result.state (s.executeBatch env source r payload))
      (match readEntries s.lastIdx (r.prevIdx + 1) (r.idx - r.prevIdx) payload with
        | .error _ => (s.toLog, false)
        | .ok items => s.toLog.execute env s.currentView r items) := by
  unfold executeBatch
  cases read : readEntries s.lastIdx (r.prevIdx + 1) (r.idx - r.prevIdx) payload with
  | error err =>
    cases err with
    | skip => exact .of_error rfl regular
    | malformed => exact .of_refusal env rfl regular none
  | ok items =>
    obtain ⟨-, equal⟩ := readEntries_eq read
    rw [show max (r.prevIdx + 1) (s.lastIdx + 1) = s.lastIdx + 1 by omega] at equal
    rw [equal]
    refine s.executeAppendEntriesSync_executes env source r _ known within regular
      (fun isFixed e member => ?_) settled
    exact plain isFixed e (mem_of_mem_take (mem_of_mem_drop member))

theorem Executes.path {s : Node NodeId} {source : NodeId} {ae : AppendEntries} {payload : List (Entry NodeId)}
    (executed : Executes rules.mode s.toLog.Bounded source s t
      (s.toLog.accept env s.currentView ae payload))
    (heard : received = some (source, .appendEntries ae payload)) (current : ae.term = s.currentView)
    (matching : s.getTermInternal ae.prevIdx = ae.prevTerm) (uncommitted : s.commitIdx ≤ ae.prevIdx)
    (within : ae.prevIdx ≤ s.lastIdx) (backup : s.replica.Backup rules.mode)
    (leader : s.leaderId = some source)
    (initialised : s.leadershipState = some .candidate → s.termOfNextVersion ≠ 0 ∧ s.currentView ≠ 0)
    (allowed : rules.accept env s.toLog source ae payload) :
    ∃ msgs, t.outbox = s.outbox ++ msgs ∧ Path rules received s.replica msgs t.replica := by
  obtain ⟨log, -, outbox, answer, sent, answered, frame⟩ := executed
  obtain ⟨strays, kept, strayed⟩ := frame.sent
  have kept : outbox = s.outbox ++ strays := kept
  refine ⟨strays ++ answer, by rw [sent, kept, append_assoc], ?_⟩
  have straying : Path rules received s.replica strays s.replica := by
    refine .sends fun m member => ?_
    obtain ⟨primary, other, ⟨ae', payload', equal, term⟩, hollow⟩ := strayed m member
    have leads : s.leadershipState = some .leader := of_decide_eq_true primary
    obtain ⟨dest, m⟩ := m
    dsimp only at equal
    rw [equal]
    refine .stray ?_ leads other heard term fun bounded => hollow bounded ae' payload' equal
    by_contra limited
    exact (backup limited).1 leads
  refine straying.trans ?_
  have keeps : s.replica.Keeps rules.mode t.replica.known t.replica.matchOf :=
    fun isFixed => table_eq (frame.nodes isFixed)
  have accepts : ∀ msgs, (msgs = [] ∨ (s.toLog.accept env s.currentView ae payload).2 = true ∧
        msgs = [(source, .appendEntriesResponse ⟨s.currentView, t.lastIdx, .ok⟩)]) →
      Micro rules received s.replica msgs
        (s.replica.setLog t.toLog t.replica.known t.replica.matchOf) := by
    intro msgs answers
    have result : s.toLog.accept env s.currentView ae payload =
        (t.toLog, (s.toLog.accept env s.currentView ae payload).2) := by rw [log]
    exact .accept env heard current matching uncommitted within backup leader
      (fun candidate => (initialised candidate).1) allowed keeps result answers
  have rest : Path rules received (s.replica.setLog t.toLog t.replica.known t.replica.matchOf) []
      t.replica := by
    refine frame.path (.inr ⟨source, ae, payload, heard, current⟩) fun candidate => ?_
    obtain ⟨known, positive⟩ := initialised candidate
    have store := s.toLog.accept_termOfNextVersion env s.currentView ae payload
    rw [← log] at store
    rcases store with same | view
    · exact same ▸ known
    · exact view ▸ positive
  cases answered with
  | silent => exact .head (accepts [] (.inl rfl)) rest
  | refused refuses => exact (Path.head (accepts [] (.inl rfl)) rest).trans (.single (.refuse _ refuses))
  | confirmed done => exact (Path.single (accepts _ (.inr ⟨done, rfl⟩))).silently rest

theorem acceptAppendEntries_refines (heard : received = some (source, .appendEntries r payload))
    (current : r.term = s.currentView) (matching : s.getTermInternal r.prevIdx = r.prevTerm)
    (backup : s.replica.Backup rules.mode) (allowed : rules.accept env s.toLog source r payload)
    (initialised : s.leadershipState = some .candidate → s.termOfNextVersion ≠ 0 ∧ s.currentView ≠ 0)
    (plain : rules.mode = .fixedMembership → ∀ e ∈ payload, e.Plain) :
    Refines rules received s (Result.state (s.acceptAppendEntries env source r payload)) := by
  intro regular
  have recognised : Refines rules received s (s.recogniseLeader env source) := fun regular =>
    ⟨regular.congr rfl rfl id, [], by rw [append_nil]; rfl,
      .single (.recognise heard current backup)⟩
  unfold acceptAppendEntries
  dsimp only
  split
  · exact recognised regular
  rename_i uncommitted
  split
  · exact recognised regular
  rename_i within
  refine (recognised.trans fun regular => ?_) regular
  have uncommitted : s.commitIdx ≤ r.prevIdx := by
    have : ¬ r.prevIdx < s.commitIdx := uncommitted
    omega
  have within : r.prevIdx ≤ s.lastIdx := by
    have : ¬ r.prevIdx > s.lastIdx := within
    omega
  have start : (s.recogniseLeader env source).toLog = s.toLog := rfl
  have view : (s.recogniseLeader env source).currentView = s.currentView := rfl
  have leader : (s.recogniseLeader env source).leaderId = some source := rfl
  have backup : (s.recogniseLeader env source).replica.Backup rules.mode := backup
  have initialised : (s.recogniseLeader env source).leadershipState = some .candidate →
      (s.recogniseLeader env source).termOfNextVersion ≠ 0 ∧
        (s.recogniseLeader env source).currentView ≠ 0 := initialised
  generalize s.recogniseLeader env source = u at regular start view leader backup initialised
  have carried : Carries rules.mode (Message.Strays u.currentView u.toLog.Bounded) _ _ u _ :=
    u.rollbackNewFollower_carries env r.prevIdx
  obtain ⟨kept, frame⟩ := carried regular
  have log := u.rollbackNewFollower_toLog env r.prevIdx
  have reaches : r.prevIdx ≤ (u.rollbackNewFollower env r.prevIdx).lastIdx := by
    rw [log, start]
    exact s.toLog.rollbackNewFollower_reaches _ within
  have settled : rules.mode ≠ .unrestricted →
      (u.rollbackNewFollower env r.prevIdx).leadershipState ≠ some .candidate := by
    intro limited candidate
    rcases frame.role with ⟨same, -⟩ | ⟨-, -, demoted⟩
    · exact (backup limited).2 (same ▸ candidate)
    · simp [candidate] at demoted
  have known : u.toLog.Bounded → (u.rollbackNewFollower env r.prevIdx).toLog.Bounded := by
    rw [log]
    exact u.toLog.rollbackNewFollower_bounded _ _
  have batch := executeBatch_executes env _ source r payload known kept reaches plain settled
  have executed : Executes rules.mode u.toLog.Bounded source u
      (Result.state ((u.rollbackNewFollower env r.prevIdx).executeBatch env source r payload))
      (u.toLog.accept env u.currentView r payload) := by
    rw [frame.view_eq, log] at batch
    exact .after frame batch
  refine ⟨executed.regular, executed.path env heard ?_ ?_ ?_ ?_ backup leader initialised ?_⟩
  · rw [view, current]
  · rw [start, matching]
  · rwa [start]
  · rwa [start]
  · rwa [start]

theorem checkAppendEntries_refines (heard : received = some (source, .appendEntries r payload))
    (current : r.term = s.currentView) (backup : s.replica.Backup rules.mode)
    (allowed : rules.accept env s.toLog source r payload)
    (initialised : s.leadershipState = some .candidate → s.termOfNextVersion ≠ 0 ∧ s.currentView ≠ 0)
    (plain : rules.mode = .fixedMembership → ∀ e ∈ payload, e.Plain) :
    Refines rules received s (Result.state (s.checkAppendEntries env source r payload)) := by
  unfold checkAppendEntries
  dsimp only
  split
  · split <;> exact s.sendAppendEntriesResponse_refines env source _
  rename_i matching
  split
  · exact s.sendAppendEntriesResponse_refines env source _
  · exact s.acceptAppendEntries_refines env source r payload heard current (not_not.mp matching)
      backup allowed initialised plain

/-- An AppendEntries of the view makes the node adopt it first. -/
def Adopts (view : Nat) : Prop :=
  s.currentView = view ∧ s.leadershipState = some .candidate ∨ s.currentView < view

instance (view : Nat) : Decidable (s.Adopts view) := inferInstanceAs (Decidable (_ ∨ _))

def facing (view : Nat) : Node NodeId :=
  if s.Adopts view then s.becomeAwareOfNewTerm env view else s

theorem recvAppendEntries_refines (heard : received = some (source, .appendEntries r payload))
    (adopts : s.Adopts r.term → s.MayAdopt env rules r.term)
    (exclusive : rules.mode ≠ .unrestricted → s.currentView = r.term → s.leadershipState ≠ some .leader)
    (allowed : s.currentView ≤ r.term → rules.accept env (s.facing env r.term).toLog source r payload)
    (initialised : s.currentView ≤ r.term → (s.facing env r.term).leadershipState = some .candidate → rules.mode = .unrestricted → (s.facing env r.term).termOfNextVersion ≠ 0 ∧ (s.facing env r.term).currentView ≠ 0)
    (plain : rules.mode = .fixedMembership → ∀ e ∈ payload, e.Plain) :
    Refines rules received s (Result.state (s.recvAppendEntries env source r payload)) := by
  intro regular
  have adopting : s.Adopts r.term → Refines rules received s
      (Result.state ((s.becomeAwareOfNewTerm env r.term).checkAppendEntries env source r payload)) := by
    intro adopt
    rw [facing, if_pos adopt] at allowed initialised
    have reaches : s.currentView ≤ r.term := by
      rcases adopt with ⟨same, -⟩ | newer <;> omega
    obtain ⟨current, backup⟩ := s.becomeAwareOfNewTerm_backup env r.term regular (adopts adopt)
    refine (s.becomeAwareOfNewTerm_refines env r.term (adopts adopt) ?_).trans
      (checkAppendEntries_refines env _ source r payload heard current.symm backup (allowed reaches)
        (fun candidate => initialised reaches candidate ?_) plain)
    · rcases adopt with ⟨same, candidate⟩ | newer
      · exact .inr ⟨same.symm, candidate, source, r, payload, heard, rfl⟩
      · exact .inl newer
    · by_contra limited
      exact (backup limited).2 candidate
  unfold recvAppendEntries
  split
  · exact adopting (.inl ‹_›) regular
  rename_i settled
  split
  · exact adopting (.inr ‹_›) regular
  split
  · exact s.sendAppendEntriesResponse_refines env source _ regular
  have current : s.currentView = r.term := by omega
  have stays : ¬ s.Adopts r.term := by
    rintro (candidate | newer)
    · exact settled candidate
    · omega
  rw [facing, if_neg stays] at allowed
  refine s.checkAppendEntries_refines env source r payload heard current.symm (fun limited => ?_)
    (allowed (le_of_eq current)) (fun candidate => absurd ⟨current, candidate⟩ settled) plain regular
  exact ⟨exclusive limited current, fun candidate => settled ⟨current, candidate⟩⟩

/-- The membership that a rollback leaves, from what it reads of the node. -/
def membershipAfter (idx : Nat) : MembershipState :=
  if s.commitIdx ≤ idx ∧ s.membershipState = .retired ∧ s.retirementIdx.any (idx < ·) ∧
      (s.retirementPhase = some .ordered ∨
        s.retirementPhase = some .signed ∧ s.retirementCommittableIdx.any (idx < ·)) then
    match s.reconfigurationType with
    | .oneTransaction => .active
    | .twoTransaction => .retirementInitiated
  else s.membershipState

theorem rollbackRetirement_membershipState (idx : Nat) (uncommitted : s.commitIdx ≤ idx) :
    (s.rollbackRetirement idx).membershipState = s.membershipAfter idx := by
  unfold rollbackRetirement unorderRetirement unsignRetirement membershipAfter
  dsimp only
  cases type : s.reconfigurationType <;> split <;> split <;>
    simp only [isRetired, Bool.and_eq_true, decide_eq_true_eq, type] at * <;> grind

theorem rollbackConfigurations_membershipState (idx : Nat) :
    (s.rollbackConfigurations env idx).membershipState = s.membershipState := by
  have learners : (({ s with configurations := s.keptConfigurations idx } : Node NodeId
      ).rollbackLearnersAndRetired idx).membershipState = s.membershipState := by
    unfold rollbackLearnersAndRetired
    split <;> rfl
  unfold rollbackConfigurations
  dsimp only
  split
  · rw [(createAndRemoveNodeState_rebuilds env _).frame]
    exact learners
  · exact learners

theorem rollback_membershipState (idx : Nat) :
    (s.rollback env idx).membershipState = s.membershipAfter idx := by
  unfold rollback
  split
  · rw [membershipAfter, if_neg fun cond => absurd cond.1 (by omega)]
  rename_i uncommitted
  rw [rollbackConfigurations_membershipState, rollbackRetirement_membershipState]
  · unfold membershipAfter Log.rollback
    rw [if_neg uncommitted]
    rfl
  · unfold Log.rollback
    rw [if_neg uncommitted]
    exact not_lt.mp uncommitted

/-- Only an active node becomes follower; the others keep their leadership state. -/
theorem becomeFollower_role (covered : s.roster.Covered) :
    (s.becomeFollower env).leadershipState =
      if s.membershipAfter s.lastCommittableIndex = .active then some .follower
      else s.leadershipState := by
  have covered : (s.forgetLeader env).roster.Covered := by rwa [forgetLeader_roster]
  have membership := (s.forgetLeader env).rollback_membershipState env s.lastCommittableIndex
  have kept : (s.forgetLeader env).membershipAfter s.lastCommittableIndex =
      s.membershipAfter s.lastCommittableIndex := rfl
  have ballot := ((s.forgetLeader env).rollback_ballot env s.lastCommittableIndex covered).1
  have role : (s.forgetLeader env).leadershipState = s.leadershipState := rfl
  unfold becomeFollower
  generalize (s.forgetLeader env).rollback env s.lastCommittableIndex = u at membership ballot
  rw [kept] at membership
  unfold followIfActive
  rw [← membership]
  cases state : u.membershipState <;>
    simp [canEndorsePrimary, isRetired, isLearner, isRetiring, state, ballot, role]

theorem becomeAwareOfNewTerm_role (term : Nat) (covered : s.roster.Covered) :
    (s.becomeAwareOfNewTerm env term).leadershipState =
      if s.membershipAfter s.lastCommittableIndex = .active then some .follower
      else s.leadershipState :=
  becomeFollower_role env
    { s with currentView := term, votedFor := none, votesForMe := ∅ } covered

theorem matchIndices_eq {c : Configuration NodeId} (found : s.matchIndices c = some indices) :
    indices = c.nodes.keys.map s.replica.reached := by
  refine Lib.mapM_eq_map (fun id idx found => ?_) found
  unfold Replica.reached
  split at found
  · rw [if_pos ‹_›]
    exact Option.some.inj found
  rw [if_neg ‹_›]
  show (s.nodes[id]?.map (·.matchIdx)).getD 0 = idx
  rw [found]
  rfl

/-- With fixed membership the watermark is confirmed by a majority of the members. -/
theorem confirmed_of_watermark {c : Configuration NodeId} (confirms : s.confirmed c = .ok idx)
    (members : ∀ id, id ∈ c.nodes ∧ (id = s.myNodeId ∨ id ∈ s.nodes)) :
    s.replica.Confirmed idx := by
  unfold confirmed at confirms
  split at confirms
  · cases confirms
  rename_i indices found
  split at confirms
  · cases confirms
  rename_i middle
  cases confirms
  have counted := Lib.majority_le_countP middle
  have equal := s.matchIndices_eq found
  have same : c.nodes.keys.toFinset = s.replica.members := by
    ext id
    rw [List.mem_toFinset, ExtTreeMap.mem_keys, Replica.members, Finset.mem_insert, mem_known]
    exact iff_of_true (members id).1 (members id).2
  rw [equal, length_map, countP_map,
    ← toFinset_card_of_nodup ExtTreeMap.nodup_keys, same] at counted
  refine le_trans counted ?_
  rw [countP_eq_length_filter,
    ← toFinset_card_of_nodup (ExtTreeMap.nodup_keys.filter _), toFinset_filter, same]
  exact le_of_eq (congrArg Finset.card (Finset.filter_congr fun id _ => by simp))

theorem updateCommit_refines (empowered : s.replica.Empowered rules) :
    Refines rules received s (Result.state (s.updateCommit env)) := by
  intro regular
  unfold updateCommit
  split
  · exact Refines.refl s regular
  rename_i watermarks confirms
  dsimp only
  let u : Node NodeId := { s with cftWatermarkIdx := watermarks.min?.getD s.cftWatermarkIdx }
  have quietly : Refines rules received s u := .quiet rfl rfl rfl rfl
  split
  · exact quietly regular
  rename_i within
  refine (quietly.trans fun regular => ?_) regular
  have carried : Carries rules.mode (fun _ => False) u.lastIdx u.lastIdx u _ :=
    u.commitIfPossible_carries env u.cftWatermarkIdx
  have log : (Result.state (u.commitIfPossible env u.cftWatermarkIdx)).toLog =
      (u.toLog.commitIfPossible u.currentView u.cftWatermarkIdx).log := by
    rw [Result.state_toLog, commitIfPossible_toLog]
  have settles := u.toLog.commitIfPossible_settles u.currentView u.cftWatermarkIdx
  have confirmed : rules.mode = .fixedMembership → u.replica.Confirmed u.cftWatermarkIdx := by
    intro isFixed
    obtain ⟨-, conf, single, -, members⟩ := regular.fixed isFixed
    rw [show s.configurations = [conf] from single] at confirms
    cases first : s.confirmed conf with
    | error fault =>
      rw [mapM_cons, first] at confirms
      cases confirms
    | ok idx =>
      rw [mapM_cons, first] at confirms
      cases confirms
      exact s.confirmed_of_watermark first members
  obtain ⟨regular, frame⟩ := carried regular
  generalize Result.state (u.commitIfPossible env u.cftWatermarkIdx) = t at log regular frame
  refine ⟨by rw [log, settles.lastIdx_eq]; exact regular, [], by rw [frame.silent, append_nil],
    ?_⟩
  have store : t.termOfNextVersion = u.termOfNextVersion := by
    rw [log, settles.termOfNextVersion_eq]
  refine .head ?_ (frame.path (.inl ?_) fun candidate => ?_)
  · rw [log]
    exact .commitConfirmed empowered confirmed (not_lt.mp within)
      fun isFixed => table_eq (frame.nodes isFixed)
  · rcases empowered with leader | ⟨free, commands, positive, initialised⟩
    · exact .inl leader
    refine .inr ⟨free, ?_, positive, store ▸ initialised⟩
    rw [log]
    exact rules.commands_commit _ _ _ _ commands
  · rcases empowered with leader | ⟨-, -, -, initialised⟩
    · have candidate : u.leadershipState = some .candidate := candidate
      have leader : u.leadershipState = some .leader := leader
      simp [leader] at candidate
    · exact store ▸ initialised

theorem matchOf_eq_of_found {id : NodeId} (found : s.nodes[id]? = some node) :
    s.matchOf id = node.matchIdx := by
  rw [matchOf, found]
  rfl

theorem setNodeState_refines {id : NodeId} (f : NodeState → NodeState)
    (found : s.nodes[id]? = some node)
    (step : Micro rules received s.replica [] (s.replica.setMatch id (f node).matchIdx)) :
    Refines rules received s (s.setNodeState id f) := by
  intro regular
  refine ⟨regular.congr (setNodeState_roster s id f) rfl fun role => role, [],
    by rw [append_nil]; rfl, .single ?_⟩
  rwa [s.setNodeState_replica f found]

theorem getElem?_setNodeState {id : NodeId} (f : NodeState → NodeState)
    (found : s.nodes[id]? = some node) : (s.setNodeState id f).nodes[id]? = some (f node) := by
  rw [setNodeState, ExtTreeMap.getElem?_alter, if_pos (compare_eq_iff_eq.mpr rfl), found]
  rfl

theorem recordResponse_refines (r : AppendEntriesResponse)
    (heard : received = some (source, .appendEntriesResponse r)) (leader : s.leadershipState = some .leader)
    (found : s.nodes[source]? = some node) (current : r.term ≤ s.currentView)
    (allowed : rules.nack s.replica source r) :
    Refines rules received s (Result.state (s.recordResponse env source node r)) := by
  have known : source ∈ s.replica.known := by
    rw [mem_known, ExtTreeMap.mem_iff_isSome_getElem?, found]
    rfl
  have matching := s.matchOf_eq_of_found found
  unfold recordResponse
  split
  · rename_i success
    split
    · exact .refl s
    rename_i term
    split
    · exact .refl s
    refine Refines.trans ?_ (updateCommit_refines env (s.recordMatch source r) (.inl leader))
    refine s.setNodeState_refines _ found ?_
    exact .ack leader heard known success (not_not.mp term).symm
      (show s.matchOf source ≤ _ by omega)
  · rename_i failure
    refine s.setNodeState_refines _ found ?_
    have step := Micro.nack leader heard known failure current allowed
    rw [show s.replica.matchOf source = node.matchIdx from matching] at step
    exact step
  · rename_i evidence
    have first : Refines rules received s (s.recordMatch source r) :=
      s.setNodeState_refines _ found (.requireEvidence leader heard evidence)
    refine first.trans ?_
    exact setNodeState_refines _ _ (s.getElem?_setNodeState _ found)
      (.requireEvidence leader heard evidence)

theorem recvAppendEntriesResponse_refines (r : AppendEntriesResponse)
    (heard : received = some (source, .appendEntriesResponse r))
    (adopts : s.currentView < r.term → s.MayAdopt env rules r.term) (allowed : rules.nack s.replica source r) :
    Refines rules received s (Result.state (s.recvAppendEntriesResponse env source r)) := by
  intro regular
  unfold recvAppendEntriesResponse
  split
  · exact Refines.refl s regular
  rename_i leader
  cases found : s.nodes[source]? with
  | none => exact Refines.refl s regular
  | some node =>
    let acked := fun node : NodeState => { node with lastAckTimeout := 0 }
    have replica : (s.setNodeState source acked).replica = s.replica := by
      rw [s.setNodeState_replica acked found, Replica.setMatch,
        show (acked node).matchIdx = s.replica.matchOf source from (s.matchOf_eq_of_found found).symm,
        Function.update_eq_self]
    have roster := s.setNodeState_roster source acked
    have quietly : Refines rules received s (s.setNodeState source acked) :=
      .quiet replica roster rfl rfl
    dsimp only
    split
    · rename_i newer
      refine (quietly.trans (becomeAwareOfNewTerm_refines env _ r.term ?_ (.inl newer))) regular
      obtain ⟨rule, yields⟩ := adopts newer
      refine ⟨by rw [replica]; exact rule, fun limited => ?_⟩
      have yields := yields limited
      rw [becomeAwareOfNewTerm_role env s r.term regular.covered] at yields
      rw [becomeAwareOfNewTerm_role env _ r.term (roster ▸ regular.covered)]
      exact yields
    rename_i current
    have found := s.getElem?_setNodeState acked found
    refine (quietly.trans (recordResponse_refines env _ source r heard (not_not.mp leader) found
      (not_lt.mp current) ?_)) regular
    rw [replica]
    exact allowed

end Node
end CCF.Aft
