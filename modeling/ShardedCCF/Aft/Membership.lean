import ShardedCCF.Aft.LogEffects
import ShardedCCF.Lib.Lists

/-! Beside the log, bookkeeping of members changes only the node table and the
membership, and may end a leadership. In a restricted run the configurations
stay those of the log, and with fixed membership nothing changes at all. -/
namespace CCF.Aft
open List
open Std (ExtTreeMap)

variable {NodeId : Type} [LinearOrder NodeId]

namespace Node
variable (env : Env NodeId) (s : Node NodeId) {t : Node NodeId}

/-- What the membership of a node has to satisfy: the node table covers the
configurations, and in a restricted run the configurations are those of the log
up to `bound`. -/
structure Restricted (bound : Nat) : Prop where
  oneTransaction : s.reconfigurationType = .oneTransaction
  membership : s.membershipState = .active ∨ s.membershipState = .retired
  candidate : s.leadershipState = some .candidate → s.membershipState = .active
  sorted : s.configurations.Pairwise fun earlier later => earlier.idx ≤ later.idx
  bounded : ∀ conf ∈ s.configurations, conf.idx ≤ bound

structure Fixed : Prop where
  active : s.membershipState = .active
  single : ∃ conf, s.configurations = [conf] ∧ conf.idx = 0 ∧
    ∀ id, id ∈ conf.nodes ∧ (id = s.myNodeId ∨ id ∈ s.nodes)

structure Regular (mode : Mode) (bound : Nat) : Prop where
  covered : s.roster.Covered
  restricted : mode ≠ .unrestricted → s.Restricted bound
  fixed : mode = .fixedMembership → s.Fixed

/-- What bookkeeping of members leaves alone; a message it sends satisfies
`sends`. -/
structure Frame (mode : Mode) (sends : Message NodeId → Prop) (s t : Node NodeId) : Prop where
  id_eq : t.myNodeId = s.myNodeId
  view_eq : t.currentView = s.currentView
  votedFor_eq : t.votedFor = s.votedFor
  votes_eq : t.votesForMe = s.votesForMe
  role : t.leadershipState = s.leadershipState ∧ t.leaderId = s.leaderId ∨
    mode ≠ .fixedMembership ∧
      (mode = .oneTransaction → s.leadershipState ≠ some .candidate) ∧
      (t.leadershipState = none ∨ t.leadershipState = some .follower)
  ticking : s.ticking = true → t.ticking = true
  nodes : mode = .fixedMembership → t.nodes = s.nodes
  sent : ∃ msgs, t.outbox = s.outbox ++ msgs ∧
    ∀ m ∈ msgs, s.isPrimary = true ∧ m.1 ≠ s.myNodeId ∧ sends m.2

namespace Frame
variable {s t u : Node NodeId} {mode : Mode} {sends sends' : Message NodeId → Prop}

theorem of_ballot (ballot : t.toBallot = s.toBallot) (id : t.myNodeId = s.myNodeId)
    (ticking : s.ticking = true → t.ticking = true)
    (nodes : mode = .fixedMembership → t.nodes = s.nodes) (outbox : t.outbox = s.outbox) :
    Frame mode sends s t where
  id_eq := id
  view_eq := by rw [ballot]
  votedFor_eq := by rw [ballot]
  votes_eq := by rw [ballot]
  role := .inl (by rw [ballot]; exact ⟨rfl, rfl⟩)
  ticking := ticking
  nodes := nodes
  sent := ⟨[], by rw [outbox, append_nil], by simp⟩

theorem refl (s : Node NodeId) : Frame mode sends s s :=
  of_ballot rfl rfl id (fun _ => rfl) rfl

theorem primary (frame : Frame mode sends s t) (leads : t.isPrimary = true) :
    s.isPrimary = true ∧ t.leadershipState = s.leadershipState := by
  have leader : t.leadershipState = some .leader := of_decide_eq_true leads
  rcases frame.role with ⟨same, -⟩ | ⟨-, -, none | follower⟩
  · exact ⟨decide_eq_true (same ▸ leader), same⟩
  · simp [leader] at none
  · simp [leader] at follower

theorem mono (frame : Frame mode sends s t) (weaker : ∀ m, sends m → sends' m) :
    Frame mode sends' s t where
  __ := frame
  sent := by
    obtain ⟨msgs, sent, able⟩ := frame.sent
    exact ⟨msgs, sent, fun m member =>
      ⟨(able m member).1, (able m member).2.1, weaker _ (able m member).2.2⟩⟩

theorem trans (first : Frame mode sends s t) (second : Frame mode sends t u) :
    Frame mode sends s u where
  id_eq := second.id_eq.trans first.id_eq
  view_eq := second.view_eq.trans first.view_eq
  votedFor_eq := second.votedFor_eq.trans first.votedFor_eq
  votes_eq := second.votes_eq.trans first.votes_eq
  role := by
    rcases second.role with ⟨same, leader⟩ | ⟨notFixed, notCandidate, demoted⟩
    · rw [same, leader]
      exact first.role
    refine .inr ⟨notFixed, fun one => ?_, demoted⟩
    rcases first.role with ⟨same, -⟩ | ⟨-, before, -⟩
    · exact same ▸ notCandidate one
    · exact before one
  ticking := second.ticking ∘ first.ticking
  nodes := fun fixed => (second.nodes fixed).trans (first.nodes fixed)
  sent := by
    obtain ⟨msgs, sent, able⟩ := first.sent
    obtain ⟨more, sent', able'⟩ := second.sent
    refine ⟨msgs ++ more, by rw [sent', sent, append_assoc], fun m member => ?_⟩
    rcases mem_append.mp member with old | new
    · exact able m old
    · obtain ⟨primary, other, able⟩ := able' m new
      exact ⟨(first.primary primary).1, first.id_eq ▸ other, able⟩

end Frame

namespace Regular
variable {s : Node NodeId} {mode : Mode} {i j : Nat}

theorem mono (regular : s.Regular mode i) (le : i ≤ j) : s.Regular mode j where
  covered := regular.covered
  restricted := fun limited =>
    { regular.restricted limited with
      bounded := fun conf member => ((regular.restricted limited).bounded conf member).trans le }
  fixed := regular.fixed

theorem congr (regular : s.Regular mode i) (roster : t.roster = s.roster)
    (membership : t.membershipState = s.membershipState)
    (role : t.leadershipState = some .candidate → s.leadershipState = some .candidate) :
    t.Regular mode i := by
  have configurations : t.configurations = s.configurations := congrArg Roster.configurations roster
  have self : t.myNodeId = s.myNodeId := congrArg Roster.self roster
  have known : ∀ id, id ∈ t.nodes ↔ id ∈ s.nodes := Set.ext_iff.mp (congrArg Roster.known roster)
  refine ⟨roster ▸ regular.covered, fun limited => ?_, fun isFixed => ?_⟩
  · have restricted := regular.restricted limited
    exact ⟨(congrArg Roster.reconfigurationType roster).trans restricted.oneTransaction,
      membership ▸ restricted.membership, fun candidate => membership ▸ restricted.candidate (role candidate),
      configurations ▸ restricted.sorted, configurations ▸ restricted.bounded⟩
  · obtain ⟨active, conf, single, start, mem⟩ := regular.fixed isFixed
    refine ⟨membership ▸ active, conf, configurations ▸ single, start, fun id => ⟨(mem id).1, ?_⟩⟩
    rw [self, known]
    exact (mem id).2

theorem change (regular : s.Regular mode i) (roster : t.roster = s.roster)
    (membership : mode ≠ .unrestricted → t.membershipState = .active ∨
      t.membershipState = .retired ∧ t.leadershipState ≠ some .candidate)
    (unseen : mode ≠ .fixedMembership) : t.Regular mode i := by
  have configurations : t.configurations = s.configurations := congrArg Roster.configurations roster
  refine ⟨roster ▸ regular.covered, fun limited => ?_, fun isFixed => absurd isFixed unseen⟩
  have restricted := regular.restricted limited
  refine ⟨(congrArg Roster.reconfigurationType roster).trans restricted.oneTransaction, ?_, ?_,
    configurations ▸ restricted.sorted, configurations ▸ restricted.bounded⟩
  · exact (membership limited).imp id And.left
  · exact fun candidate => (membership limited).resolve_right fun retired => retired.2 candidate

theorem fixed_active (regular : s.Regular mode i) (active : s.membershipState ≠ .active) :
    mode ≠ .fixedMembership :=
  fun isFixed => active (regular.fixed isFixed).active

end Regular

def Carries (mode : Mode) (sends : Message NodeId → Prop) (i j : Nat) (s t : Node NodeId) : Prop :=
  s.Regular mode i → t.Regular mode j ∧ Frame mode sends s t

variable {mode : Mode} {sends : Message NodeId → Prop} {i j k : Nat}

theorem Carries.trans {s u : Node NodeId} (first : Carries mode sends i j s t)
    (second : Carries mode sends j k t u) : Carries mode sends i k s u := by
  intro regular
  obtain ⟨regular, frame⟩ := first regular
  obtain ⟨regular, frame'⟩ := second regular
  exact ⟨regular, frame.trans frame'⟩

theorem Carries.of_ballot {s : Node NodeId} (roster : t.roster = s.roster)
    (membership : t.membershipState = s.membershipState) (ballot : t.toBallot = s.toBallot)
    (ticking : s.ticking = true → t.ticking = true) (nodes : t.nodes = s.nodes)
    (outbox : t.outbox = s.outbox) : Carries mode sends i i s t := by
  intro regular
  refine ⟨regular.congr roster membership (by rw [ballot]; exact id), ?_⟩
  exact .of_ballot ballot (congrArg Roster.self roster) ticking (fun _ => nodes) outbox

theorem startTickingIfNecessary_carries : Carries mode sends i i s s.startTickingIfNecessary := by
  unfold startTickingIfNecessary
  split
  · exact .of_ballot rfl rfl rfl (fun _ => rfl) rfl rfl
  · exact .of_ballot rfl rfl rfl id rfl rfl

variable (idx : Nat)

theorem signRetirement_carries : Carries mode sends i i s (s.signRetirement idx) := by
  unfold signRetirement
  split
  · rename_i retired
    simp only [isRetired, Bool.and_eq_true, decide_eq_true_eq] at retired
    exact .of_ballot rfl retired.1.symm rfl id rfl rfl
  · exact .of_ballot rfl rfl rfl id rfl rfl

theorem completeRetirement_carries : Carries mode sends i i s (s.completeRetirement idx) := by
  unfold completeRetirement
  split
  · rename_i complete
    simp only [isRetired, Bool.and_eq_true, decide_eq_true_eq] at complete
    have retired := complete.1.1
    intro regular
    have unseen := regular.fixed_active (by rw [retired]; decide)
    refine ⟨regular.congr rfl retired.symm (by simp [becomeRetired]), ?_⟩
    exact
      { id_eq := rfl, view_eq := rfl, votedFor_eq := rfl, votes_eq := rfl
        role := .inr ⟨unseen, fun one candidate => by
          have := (regular.restricted (by rw [one]; decide)).candidate candidate
          simp [retired] at this, .inl rfl⟩
        ticking := id, nodes := fun _ => rfl, sent := ⟨[], by simp [becomeRetired], by simp⟩ }
  · exact .of_ballot rfl rfl rfl id rfl rfl

/-- Only `ONE_TRANSACTION` nodes return to being active. -/
theorem rollbackRetirement_membership : (s.rollbackRetirement idx).membershipState = s.membershipState ∨
      s.membershipState = .retired ∧
        (s.reconfigurationType = .oneTransaction →
          (s.rollbackRetirement idx).membershipState = .active) := by
  unfold rollbackRetirement unorderRetirement unsignRetirement
  dsimp only
  split <;> split
  all_goals first
    | exact .inl rfl
    | refine .inr ⟨?_, fun one => by simp only [one]⟩
      simp_all [isRetired]

theorem rollbackRetirement_ballot : (s.rollbackRetirement idx).toBallot = s.toBallot ∧
      (s.rollbackRetirement idx).ticking = s.ticking ∧
      (s.rollbackRetirement idx).nodes = s.nodes ∧
      (s.rollbackRetirement idx).outbox = s.outbox := by
  unfold rollbackRetirement unorderRetirement unsignRetirement
  dsimp only
  split <;> split <;> exact ⟨rfl, rfl, rfl, rfl⟩

theorem rollbackRetirement_carries : Carries mode sends i i s (s.rollbackRetirement idx) := by
  obtain ⟨ballot, ticking, nodes, outbox⟩ := s.rollbackRetirement_ballot idx
  have roster := s.rollbackRetirement_roster idx
  rcases s.rollbackRetirement_membership idx with same | ⟨retired, active⟩
  · exact .of_ballot roster same ballot (by rw [ticking]; exact id) nodes outbox
  intro regular
  have unseen := regular.fixed_active (by rw [retired]; decide)
  refine ⟨regular.change roster (fun limited => .inl (active (regular.restricted limited).oneTransaction))
    unseen, ?_⟩
  exact .of_ballot ballot (congrArg Roster.self roster) (by rw [ticking]; exact id)
    (fun _ => nodes) outbox

theorem createAndRemoveNodeState_of_covered (covered : s.roster.Covered) :
    s.createAndRemoveNodeState env =
      { s with nodes := s.nodes.filter fun id _ => s.activeNodes.contains id } :=
  s.createAndRemoveNodeState_of_covers env covered.active_known

def keptConfigurations (idx : Nat) : List (Configuration NodeId) :=
  s.configurations.rdropWhile fun conf => idx < conf.idx

theorem keptConfigurations_prefix : s.keptConfigurations idx <+: s.configurations :=
  rdropWhile_prefix ..

theorem keptConfigurations_le (sorted : s.configurations.Pairwise fun earlier later => earlier.idx ≤ later.idx) :
    ∀ conf ∈ s.keptConfigurations idx, conf.idx ≤ idx :=
  fun _ member => Lib.le_of_mem_rdropWhile sorted member

theorem keptConfigurations_eq (bounded : ∀ conf ∈ s.configurations, conf.idx ≤ idx) :
    s.keptConfigurations idx = s.configurations := by
  refine rdropWhile_eq_self_iff.mpr fun nonempty => ?_
  simpa using bounded _ (getLast_mem nonempty)

theorem rollbackConfigurations_eq (covered : s.roster.Covered) :
    ∃ nodes learnerNodes retiredNodes, s.rollbackConfigurations env idx =
      { s with
        configurations := s.keptConfigurations idx
        nodes, learnerNodes, retiredNodes } ∧
      (s.keptConfigurations idx = s.configurations → nodes = s.nodes) := by
  have shrunk : (({ s with configurations := s.keptConfigurations idx } : Node NodeId
      ).rollbackLearnersAndRetired idx).roster.Covered := by
    rw [rollbackLearnersAndRetired_roster]
    refine ⟨covered.self_unknown, fun id other active => covered.active_known id other ?_⟩
    obtain ⟨conf, member, inside⟩ := active
    exact ⟨conf, (s.keptConfigurations_prefix idx).subset member, inside⟩
  have learners : ∃ learnerNodes retiredNodes,
      ({ s with configurations := s.keptConfigurations idx } : Node NodeId
        ).rollbackLearnersAndRetired idx =
      { s with configurations := s.keptConfigurations idx, learnerNodes, retiredNodes } := by
    unfold rollbackLearnersAndRetired
    split <;> exact ⟨_, _, rfl⟩
  obtain ⟨learnerNodes, retiredNodes, learners⟩ := learners
  rw [learners] at shrunk
  unfold rollbackConfigurations
  dsimp only
  rw [show (s.configurations.rdropWhile fun conf => decide (idx < conf.idx)) =
    s.keptConfigurations idx from rfl, learners]
  split
  · rename_i differ
    rw [createAndRemoveNodeState_of_covered _ _ shrunk]
    exact ⟨_, learnerNodes, retiredNodes, rfl, fun same => absurd (congrArg List.length same) differ⟩
  · exact ⟨_, learnerNodes, retiredNodes, rfl, fun _ => rfl⟩

theorem rollbackConfigurations_carries : Carries mode sends i idx s (s.rollbackConfigurations env idx) := by
  intro regular
  have evolved : Evolves (fun _ _ => True) s (s.rollbackConfigurations env idx) :=
    s.rollbackConfigurations_evolves env idx
  have covered := Roster.covered_of_reaches evolved regular.covered
  obtain ⟨nodes, learnerNodes, retiredNodes, equal, same⟩ :=
    s.rollbackConfigurations_eq env idx regular.covered
  rw [equal] at covered ⊢
  have unchanged : mode = .fixedMembership → s.keptConfigurations idx = s.configurations := by
    intro isFixed
    obtain ⟨-, conf, single, start, -⟩ := regular.fixed isFixed
    refine s.keptConfigurations_eq idx fun conf member => ?_
    rw [single, mem_singleton] at member
    rw [member, start]
    exact Nat.zero_le idx
  refine ⟨⟨covered, fun limited => ?_, fun isFixed => ?_⟩,
    .of_ballot rfl rfl id (fun isFixed => same (unchanged isFixed)) rfl⟩
  · have restricted := regular.restricted limited
    exact
      { oneTransaction := restricted.oneTransaction
        membership := restricted.membership
        candidate := restricted.candidate
        sorted := restricted.sorted.sublist (s.keptConfigurations_prefix idx).sublist
        bounded := s.keptConfigurations_le idx restricted.sorted }
  · obtain ⟨active, conf, single, start, mem⟩ := regular.fixed isFixed
    refine ⟨active, conf, (unchanged isFixed).trans single, start, ?_⟩
    rw [same (unchanged isFixed)]
    exact mem

theorem rollback_carries : Carries mode sends s.lastIdx (s.rollback env idx).lastIdx s (s.rollback env idx) := by
  intro regular
  have last : (s.rollback env idx).lastIdx = if idx < s.commitIdx then s.lastIdx else idx := by
    rw [s.rollback_toLog env idx, Log.rollback]
    split <;> rfl
  rw [last]
  unfold rollback
  split
  · exact ⟨regular, .refl s⟩
  have cut : Carries mode sends s.lastIdx s.lastIdx s
      { s with toLog := s.toLog.rollback s.currentView idx } :=
    .of_ballot rfl rfl rfl id rfl rfl
  exact ((cut.trans (rollbackRetirement_carries _ idx)).trans
    (rollbackConfigurations_carries env _ idx)) regular

theorem rollback_nodes (covered : s.roster.Covered) (bounded : ∀ conf ∈ s.configurations, conf.idx ≤ idx) :
    (s.rollback env idx).nodes = s.nodes := by
  unfold rollback
  split
  · rfl
  dsimp only
  generalize later : ({ s with toLog := s.toLog.rollback s.currentView idx } : Node NodeId
    ).rollbackRetirement idx = t
  have roster : t.roster = s.roster := by rw [← later, rollbackRetirement_roster]; rfl
  have nodes : t.nodes = s.nodes := by rw [← later, (rollbackRetirement_ballot _ idx).2.2.1]
  have configurations : t.configurations = s.configurations :=
    congrArg Roster.configurations roster
  obtain ⟨_, _, _, equal, same⟩ := t.rollbackConfigurations_eq env idx (roster ▸ covered)
  rw [equal]
  exact (same (t.keptConfigurations_eq idx (configurations ▸ bounded))).trans nodes

theorem rollback_ballot (covered : s.roster.Covered) :
    (s.rollback env idx).toBallot = s.toBallot ∧ (s.rollback env idx).ticking = s.ticking ∧
      (s.rollback env idx).outbox = s.outbox := by
  unfold rollback
  split
  · exact ⟨rfl, rfl, rfl⟩
  obtain ⟨ballot, ticking, -, outbox⟩ := rollbackRetirement_ballot
    ({ s with toLog := s.toLog.rollback s.currentView idx } : Node NodeId) idx
  have roster := rollbackRetirement_roster
    ({ s with toLog := s.toLog.rollback s.currentView idx } : Node NodeId) idx
  obtain ⟨_, _, _, equal, -⟩ := rollbackConfigurations_eq env
    (({ s with toLog := s.toLog.rollback s.currentView idx } : Node NodeId).rollbackRetirement idx)
    idx (roster ▸ covered)
  rw [equal]
  exact ⟨ballot, ticking, outbox⟩

theorem recordLearnersAndRetired_frame (conf : Nodes NodeId) (learners retired) :
    Frame .unrestricted sends s (s.recordLearnersAndRetired idx conf learners retired) := by
  unfold recordLearnersAndRetired
  dsimp only
  split
  · exact .of_ballot rfl rfl id (fun _ => rfl) rfl
  split
  · exact
      { id_eq := rfl, view_eq := rfl, votedFor_eq := rfl, votes_eq := rfl
        role := .inr ⟨by decide, by simp, .inr rfl⟩
        ticking := id, nodes := fun _ => rfl, sent := ⟨[], by simp, by simp⟩ }
  · exact .of_ballot rfl rfl id (fun _ => rfl) rfl

theorem Regular.unrestricted {s : Node NodeId} (regular : s.Regular mode i)
    (two : s.reconfigurationType = .twoTransaction) : mode = .unrestricted := by
  by_contra limited
  have one := (regular.restricted limited).oneTransaction
  simp [two] at one

theorem observeConfiguration_carries (conf : Nodes NodeId) (learners retired) (unseen : mode ≠ .fixedMembership)
    (settled : mode ≠ .unrestricted → s.leadershipState ≠ some .candidate) :
    Carries mode sends i i s (s.observeConfiguration idx conf learners retired) := by
  intro regular
  have roster := s.observeConfiguration_roster idx conf learners retired
  unfold observeConfiguration at roster ⊢
  dsimp only at roster ⊢
  split at roster
  · split at roster
    · rw [if_pos ‹_›]
      exact ⟨regular.change roster (fun limited => .inr ⟨rfl, settled limited⟩) unseen,
        .of_ballot rfl rfl id (fun _ => rfl) rfl⟩
    · rw [if_neg ‹_›]
      exact ⟨regular, .refl s⟩
  rename_i two
  obtain rfl := regular.unrestricted two
  refine ⟨⟨roster ▸ regular.covered, by simp, by simp⟩, ?_⟩
  refine Frame.trans ?_ (recordLearnersAndRetired_frame ..)
  split
  · exact .of_ballot rfl rfl id (fun _ => rfl) rfl
  · exact .refl s

theorem Rebuilds.frame_of {s : Node NodeId} (built : Rebuilds s t)
    (unseen : mode ≠ .fixedMembership) (covered : t.roster.Covered) :
    Frame mode (Enrols s.toLog s.currentView) s t := by
  have equal := built.frame
  have self : t.myNodeId = s.myNodeId := by rw [equal]
  obtain ⟨msgs, sent, able⟩ := built.sent
  have other : ∀ m ∈ msgs, m.1 ≠ s.myNodeId := by
    intro m member toSelf
    have known := (able m member).2.1
    rw [toSelf, ← self] at known
    exact covered.self_unknown known
  exact
    { id_eq := self
      view_eq := by rw [equal]
      votedFor_eq := by rw [equal]
      votes_eq := by rw [equal]
      role := .inl (by rw [equal]; exact ⟨rfl, rfl⟩)
      ticking := by rw [equal]; exact id
      nodes := fun isFixed => absurd isFixed unseen
      sent := ⟨msgs, sent, fun m member =>
        ⟨(able m member).1, other m member, (able m member).2.2⟩⟩ }

theorem addConfiguration_carries (conf : Nodes NodeId) (learners retired) (unseen : mode ≠ .fixedMembership)
    (settled : mode ≠ .unrestricted → s.leadershipState ≠ some .candidate) :
    Carries mode (Enrols s.toLog s.currentView) idx idx s
      (s.addConfiguration env idx conf learners retired) := by
  intro regular
  have log := s.observeConfiguration_toLog idx conf learners retired
  have evolved : Evolves (fun _ _ => True) s (s.addConfiguration env idx conf learners retired) :=
    s.addConfiguration_evolves env idx conf learners retired trivial
  have covered := Roster.covered_of_reaches evolved regular.covered
  have observes : Carries mode (Enrols s.toLog s.currentView) idx idx s _ :=
    s.observeConfiguration_carries idx conf learners retired unseen settled
  obtain ⟨observed, frame⟩ := observes regular
  unfold addConfiguration at covered ⊢
  dsimp only at covered ⊢
  generalize s.observeConfiguration idx conf learners retired = u at covered log observed frame ⊢
  split at covered
  · rw [if_pos ‹_›]
    exact ⟨observed, frame⟩
  rw [if_neg ‹_›]
  let pushed : Node NodeId :=
    { u with configurations := u.configurations ++ [{ idx, nodes := conf, rid := idx }] }
  have built : Rebuilds pushed (pushed.createAndRemoveNodeState env) :=
    createAndRemoveNodeState_rebuilds env pushed
  have framed := built.frame_of unseen covered
  rw [← log, ← frame.view_eq]
  refine ⟨⟨covered, fun limited => ?_, fun isFixed => absurd isFixed unseen⟩, ?_⟩
  · have restricted := observed.restricted limited
    rw [built.frame]
    refine ⟨restricted.oneTransaction, restricted.membership, restricted.candidate, ?_, ?_⟩
    · refine pairwise_append.mpr ⟨restricted.sorted, pairwise_singleton .., ?_⟩
      simpa using restricted.bounded
    · intro c member
      rcases mem_append.mp member with old | new
      · exact restricted.bounded c old
      · rw [mem_singleton.mp new]
  · have before : Frame mode (Enrols u.toLog u.currentView) s pushed := by
      rw [log, frame.view_eq]
      exact frame.trans (.of_ballot rfl rfl id (fun _ => rfl) rfl)
    exact before.trans framed

/-- The hooks of an entry push configurations with its index; without
reconfiguration they do nothing. -/
theorem callHooks_carries (e : Entry NodeId) (plain : mode = .fixedMembership → e.Plain)
    (settled : mode ≠ .unrestricted → s.leadershipState ≠ some .candidate) :
    Carries mode (Enrols s.toLog s.currentView) e.index e.index s (s.callHooks env e) := by
  unfold callHooks Entry.Plain at *
  generalize e.hooks = changes at plain ⊢
  induction changes generalizing s with
  | nil => exact fun regular => ⟨regular, .refl s⟩
  | cons change changes ih =>
    intro regular
    have first : Carries mode (Enrols s.toLog s.currentView) e.index e.index s
        (s.configurationChange env e.index change) := by
      unfold configurationChange
      split
      · exact fun regular => ⟨regular, .refl s⟩
      rename_i changes
      refine s.addConfiguration_carries env _ _ _ _ (fun isFixed => ?_) settled
      exact changes (by simp [plain isFixed change mem_cons_self])
    have log : (s.configurationChange env e.index change).toLog = s.toLog := by
      unfold configurationChange
      split
      · rfl
      · exact addConfiguration_toLog ..
    obtain ⟨regular, frame⟩ := first regular
    have rest := ih (s.configurationChange env e.index change)
      (fun limited candidate => ?_) (fun isFixed c member => plain isFixed c (mem_cons_of_mem _ member))
      regular
    · rw [log, frame.view_eq] at rest
      exact ⟨rest.1, frame.trans rest.2⟩
    · rcases frame.role with ⟨same, -⟩ | ⟨-, -, demoted⟩
      · exact settled limited (same ▸ candidate)
      · simp [candidate] at demoted

theorem observeRemoval_frame (c next : Configuration NodeId) : Frame mode sends s (s.observeRemoval idx c next) := by
  unfold observeRemoval
  split
  · split <;> exact .of_ballot rfl rfl id (fun _ => rfl) rfl
  · exact .refl s

theorem switchConfiguration_frame (c next : Configuration NodeId) (rest) :
    Frame .unrestricted sends s (s.switchConfiguration c next rest) := by
  unfold switchConfiguration
  split
  · exact
      { id_eq := rfl, view_eq := rfl, votedFor_eq := rfl, votes_eq := rfl
        role := .inr ⟨by decide, by simp, .inr rfl⟩
        ticking := id, nodes := fun _ => rfl, sent := ⟨[], by simp, by simp⟩ }
  · exact .of_ballot rfl rfl id (fun _ => rfl) rfl

theorem dropSuperseded_carries (idx fuel : Nat) (changed : Bool) :
    Carries mode sends i i s (dropSuperseded idx fuel s changed).1 := by
  induction fuel generalizing s changed with
  | zero => exact fun regular => ⟨regular, .refl s⟩
  | succ fuel ih =>
    intro regular
    unfold dropSuperseded
    split
    · rename_i c next rest front
      split
      · exact ⟨regular, .refl s⟩
      split
      · have dropped : Carries mode sends i i s { s with configurations := next :: rest } := by
          intro regular
          refine ⟨⟨regular.covered.tail front, fun limited => ?_, fun isFixed => ?_⟩,
            .of_ballot rfl rfl id (fun _ => rfl) rfl⟩
          · have restricted := regular.restricted limited
            have sorted := restricted.sorted
            have bounded := restricted.bounded
            rw [front] at sorted bounded
            exact ⟨restricted.oneTransaction, restricted.membership, restricted.candidate,
              sorted.of_cons, fun conf member => bounded conf (mem_cons_of_mem _ member)⟩
          · obtain ⟨-, conf, single, -⟩ := regular.fixed isFixed
            simp [front] at single
        exact (dropped.trans (ih _ true)) regular
      · rename_i two
        obtain rfl := regular.unrestricted two
        dsimp only
        have removal : Frame .unrestricted sends s (s.observeRemoval idx c next) :=
          s.observeRemoval_frame idx c next
        have removed := s.observeRemoval_roster idx c next
        split
        · have covered : ((s.observeRemoval idx c next).switchConfiguration c next rest
              ).roster.Covered := by
            rw [switchConfiguration_roster, removed]
            exact regular.covered.tail front
          obtain ⟨regular, frame⟩ := ih _ changed ⟨covered, by simp, by simp⟩
          exact ⟨regular, (removal.trans (switchConfiguration_frame ..)).trans frame⟩
        · exact ⟨⟨removed ▸ regular.covered, by simp, by simp⟩, removal⟩
    · exact ⟨regular, .refl s⟩

theorem dropSuperseded_of_single (idx fuel : Nat) (changed : Bool)
    (single : s.configurations = [conf]) : dropSuperseded idx fuel s changed = (s, changed) := by
  cases fuel with
  | zero => rfl
  | succ fuel =>
    unfold dropSuperseded
    rw [single]

theorem createAndRemoveNodeState_carries (unseen : mode ≠ .fixedMembership) :
    Carries mode sends i i s (s.createAndRemoveNodeState env) := by
  intro regular
  have covered : (s.createAndRemoveNodeState env).roster.Covered := by
    rw [(s.createAndRemoveNodeState_rebuilds env).roster_eq]
    exact Roster.Exact.toCovered (Roster.rebuild_exact regular.covered.self_unknown)
  rw [s.createAndRemoveNodeState_of_covered env regular.covered] at covered ⊢
  refine ⟨⟨covered, fun limited => ?_, fun isFixed => absurd isFixed unseen⟩,
    .of_ballot rfl rfl id (fun isFixed => absurd isFixed unseen) rfl⟩
  have restricted := regular.restricted limited
  exact ⟨restricted.oneTransaction, restricted.membership, restricted.candidate, restricted.sorted,
    restricted.bounded⟩

theorem commit_carries : Carries mode sends i i s (Result.state (s.commit env idx)) := by
  intro regular
  unfold commit
  split
  · exact ⟨regular, .refl s⟩
  split
  · exact ⟨regular, .refl s⟩
  have moved : Carries mode sends i i s { s with commitIdx := idx } :=
    .of_ballot rfl rfl rfl id rfl rfl
  have completed := (moved.trans (completeRetirement_carries _ idx)) regular
  dsimp only [Result.state]
  generalize ({ s with commitIdx := idx } : Node NodeId).completeRetirement idx = u at completed
  obtain ⟨regular, frame⟩ := completed
  have drops : Carries mode sends i i u _ :=
    u.dropSuperseded_carries idx u.configurations.length false
  split
  · rename_i changed
    have unseen : mode ≠ .fixedMembership := by
      intro isFixed
      obtain ⟨-, conf, single, -⟩ := regular.fixed isFixed
      rw [u.dropSuperseded_of_single idx _ _ single] at changed
      simp at changed
    have rebuilt := (drops.trans (createAndRemoveNodeState_carries env _ unseen)) regular
    exact ⟨rebuilt.1, frame.trans rebuilt.2⟩
  · exact ⟨(drops regular).1, frame.trans (drops regular).2⟩

theorem commitIfPossible_carries : Carries mode sends i i s (Result.state (s.commitIfPossible env idx)) := by
  have popped : Carries mode sends i i s
      { s with committableIndices := s.committableIndices.dropWhile (· ≤ idx) } :=
    .of_ballot rfl rfl rfl id rfl rfl
  unfold commitIfPossible
  split
  · dsimp only
    split
    · exact popped
    · exact popped.trans (commit_carries env _ _)
  · exact fun regular => ⟨regular, .refl s⟩

theorem addConfiguration_ballot (conf : Nodes NodeId) (learners retired)
    (one : s.reconfigurationType = .oneTransaction) :
    (s.addConfiguration env idx conf learners retired).toBallot = s.toBallot := by
  have observed : (s.observeConfiguration idx conf learners retired).toBallot = s.toBallot := by
    unfold observeConfiguration
    dsimp only
    split
    · split <;> rfl
    · simp_all
  unfold addConfiguration
  dsimp only
  split
  · exact observed
  · rw [(createAndRemoveNodeState_rebuilds env _).frame]
    exact observed

theorem callHooks_ballot (e : Entry NodeId) (one : s.reconfigurationType = .oneTransaction) :
    (s.callHooks env e).toBallot = s.toBallot := by
  unfold callHooks
  generalize e.hooks = changes
  induction changes generalizing s with
  | nil => rfl
  | cons change changes ih =>
    have type : (s.configurationChange env e.index change).reconfigurationType =
        .oneTransaction := by
      unfold configurationChange
      split
      · exact one
      have evolved : Evolves (fun _ _ => True) s _ := s.addConfiguration_evolves env e.index
        (applyDelta change.cfgDelta s.getLatestConfiguration) change.learners change.retiredNodes
        trivial
      exact evolved.type_eq.trans one
    rw [foldl_cons, ih _ type, configurationChange]
    split
    · rfl
    · exact addConfiguration_ballot env s _ _ _ _ one

end Node
end CCF.Aft
