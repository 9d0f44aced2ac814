import ShardedCCF.Aft.StepDown

/-! What a node of a one-transaction service keeps about membership: the active
configurations, how far its own retirement has come, and the log both are read
from. Every operation changes this registry by the same few steps: the log is
rolled back, an entry is appended, an index is committed, or the node takes
another role. -/
namespace CCF.Aft
open List
open Std (ExtTreeMap)

variable {NodeId : Type} [LinearOrder NodeId]

structure Registry (NodeId : Type) [LinearOrder NodeId] where
  self : NodeId
  reconfigurationType : ReconfigurationType
  configurations : List (Configuration NodeId)
  membershipState : MembershipState
  retirementPhase : Option RetirementPhase
  retirementIdx : Option Nat
  retirementCommittableIdx : Option Nat
  assertionFailed : Bool
  leadershipState : Option LeadershipState
  lastIdx : Nat
  commitIdx : Nat
  ledgerStart : Nat
  ledger : List (Entry NodeId)

def Node.registry (s : Node NodeId) : Registry NodeId where
  self := s.myNodeId
  reconfigurationType := s.reconfigurationType
  configurations := s.configurations
  membershipState := s.membershipState
  retirementPhase := s.retirementPhase
  retirementIdx := s.retirementIdx
  retirementCommittableIdx := s.retirementCommittableIdx
  assertionFailed := s.assertionFailed
  leadershipState := s.leadershipState
  lastIdx := s.lastIdx
  commitIdx := s.commitIdx
  ledgerStart := s.ledgerStart
  ledger := s.ledger

def superseding (idx : Nat) : List (Configuration NodeId) → List (Configuration NodeId)
  | c :: next :: rest => if idx < next.idx then c :: next :: rest else superseding idx (next :: rest)
  | confs => confs

namespace Registry

def isRetiredIn (r : Registry NodeId) (phase : RetirementPhase) : Bool :=
  r.membershipState = .retired && r.retirementPhase = some phase

theorem isRetiredIn_iff {r : Registry NodeId} {phase : RetirementPhase} :
    r.isRetiredIn phase ↔ r.membershipState = .retired ∧ r.retirementPhase = some phase := by
  simp [isRetiredIn]

def latest (r : Registry NodeId) : Nodes NodeId :=
  (r.configurations.getLast?.map (·.nodes)).getD ∅

def order (r : Registry NodeId) (idx : Nat) : Registry NodeId :=
  { r with
    assertionFailed := r.assertionFailed || !r.retirementIdx.isNone
    retirementIdx := some idx
    membershipState := .retired
    retirementPhase := some .ordered }

def sign (r : Registry NodeId) (idx : Nat) : Registry NodeId :=
  if r.isRetiredIn .ordered then
    { r with
      assertionFailed := r.assertionFailed || !r.retirementIdx.any (· ≤ idx)
      retirementCommittableIdx := some idx
      membershipState := .retired
      retirementPhase := some .signed }
  else r

def complete (r : Registry NodeId) (idx : Nat) : Registry NodeId :=
  if r.isRetiredIn .signed && r.retirementCommittableIdx.any (· ≤ idx) then
    { r with
      assertionFailed := r.assertionFailed || !true
      leadershipState := none
      membershipState := .retired
      retirementPhase := some .completed }
  else r

def observe (r : Registry NodeId) (idx : Nat) (conf : Nodes NodeId) : Registry NodeId :=
  if r.self ∈ r.latest ∧ r.self ∉ conf then r.order idx else r

def addConfiguration (r : Registry NodeId) (idx : Nat) (conf : Nodes NodeId) : Registry NodeId :=
  let r := r.observe idx conf
  if r.configurations.getLast?.any fun c => conf = c.nodes then r
  else { r with configurations := r.configurations ++ [{ idx, nodes := conf, rid := idx }] }

def configurationChange (r : Registry NodeId) (idx : Nat) (change : ConfigurationChange NodeId) :
    Registry NodeId :=
  if change.cfgDelta.isEmpty then r else r.addConfiguration idx (applyDelta change.cfgDelta r.latest)

def callHooks (r : Registry NodeId) (e : Entry NodeId) : Registry NodeId :=
  e.hooks.foldl (fun r change => r.configurationChange e.index change) r

def withLog (r : Registry NodeId) (lastIdx : Nat) (ledger : List (Entry NodeId)) : Registry NodeId :=
  { r with lastIdx, ledger }

def signIf (r : Registry NodeId) (e : Entry NodeId) : Registry NodeId :=
  if e.isSignature then r.sign e.index else r

def append (r : Registry NodeId) (e : Entry NodeId) : Registry NodeId :=
  ((r.callHooks e).signIf e).withLog e.index (r.ledger ++ [e])

def commit (r : Registry NodeId) (idx : Nat) : Registry NodeId :=
  let r := { r with commitIdx := idx }.complete idx
  { r with configurations := superseding idx r.configurations }

def unsign (r : Registry NodeId) (idx : Nat) : Registry NodeId :=
  let r := { r with assertionFailed := r.assertionFailed ||
    (r.isRetiredIn .signed && r.retirementCommittableIdx.isNone) }
  if r.isRetiredIn .signed && r.retirementCommittableIdx.any (idx < ·) then
    { r with retirementCommittableIdx := none, retirementPhase := some .ordered }
  else r

def unorder (r : Registry NodeId) (idx : Nat) : Registry NodeId :=
  let r := { r with assertionFailed := r.assertionFailed ||
    (r.isRetiredIn .ordered && r.retirementIdx.isNone) }
  if r.isRetiredIn .ordered && r.retirementIdx.any (idx < ·) then
    { r with
      retirementIdx := none
      retirementPhase := none
      membershipState := match r.reconfigurationType with
        | .oneTransaction => .active
        | .twoTransaction => .retirementInitiated }
  else r

def truncate (r : Registry NodeId) (idx : Nat) : Registry NodeId :=
  { r with lastIdx := idx, ledger := r.ledger.take (idx - r.ledgerStart) }

def rollback (r : Registry NodeId) (idx : Nat) : Registry NodeId :=
  let r := ((r.truncate idx).unsign idx).unorder idx
  { r with configurations := r.configurations.rdropWhile fun conf => idx < conf.idx }

def initial (settings : Settings NodeId) (n : NodeId) (index : Nat) : Registry NodeId where
  self := n
  reconfigurationType := settings.reconfigurationType
  configurations := (settings.configuration.map fun conf => ⟨0, conf, 0⟩).toList
  membershipState := if settings.learner n then .learner else .active
  retirementPhase := none
  retirementIdx := none
  retirementCommittableIdx := none
  assertionFailed := false
  leadershipState := none
  lastIdx := index
  commitIdx := index
  ledgerStart := index
  ledger := []

/-- One change of the registry; `allowed` restricts the logs an entry may lead
to. A retired node takes no role. -/
inductive Step (allowed : List (Entry NodeId) → Prop) : Registry NodeId → Registry NodeId → Prop where
  | rollback : r.commitIdx ≤ idx → idx ≤ r.lastIdx → Step allowed r (r.rollback idx)
  | append : e.index = r.lastIdx + 1 → allowed (r.ledger ++ [e]) → Step allowed r (r.append e)
  | commit : r.commitIdx < idx → idx ≤ r.lastIdx → Step allowed r (r.commit idx)
  | lead (role : LeadershipState) : r.membershipState ≠ .retired →
      Step allowed r { r with leadershipState := some role }

def Path (allowed : List (Entry NodeId) → Prop) : Registry NodeId → Registry NodeId → Prop :=
  Relation.ReflTransGen (Step allowed)

variable {r : Registry NodeId}

section
variable (r : Registry NodeId) (e : Entry NodeId)

theorem addConfiguration_frame (idx : Nat) (conf : Nodes NodeId) :
    ∃ failed phase since member confs, r.addConfiguration idx conf =
      { r with
        assertionFailed := failed
        retirementPhase := phase
        retirementIdx := since
        membershipState := member
        configurations := confs } := by
  simp only [addConfiguration, observe]
  split <;> split <;> exact ⟨_, _, _, _, _, rfl⟩

/-- The hooks of an entry leave the log and the roles alone. -/
theorem callHooks_frame : ∃ failed phase since member confs, r.callHooks e =
      { r with
        assertionFailed := failed
        retirementPhase := phase
        retirementIdx := since
        membershipState := member
        configurations := confs } := by
  rw [callHooks]
  generalize e.hooks = changes
  induction changes generalizing r with
  | nil => exact ⟨_, _, _, _, _, rfl⟩
  | cons change changes ih =>
    obtain ⟨failed, phase, since, member, confs, equal⟩ := ih (r.configurationChange e.index change)
    rw [foldl_cons, equal, configurationChange]
    split
    · exact ⟨_, _, _, _, _, rfl⟩
    obtain ⟨_, _, _, _, _, added⟩ :=
      r.addConfiguration_frame e.index (applyDelta change.cfgDelta r.latest)
    rw [added]
    exact ⟨_, _, _, _, _, rfl⟩

theorem configurationChange_withLog (idx : Nat) (change : ConfigurationChange NodeId) (lastIdx : Nat)
    (ledger : List (Entry NodeId)) : (r.withLog lastIdx ledger).configurationChange idx change =
      (r.configurationChange idx change).withLog lastIdx ledger := by
  have latest : (r.withLog lastIdx ledger).latest = r.latest := rfl
  have added : ∀ conf, (r.withLog lastIdx ledger).addConfiguration idx conf =
      (r.addConfiguration idx conf).withLog lastIdx ledger := by
    intro conf
    have observed : (r.withLog lastIdx ledger).observe idx conf =
        (r.observe idx conf).withLog lastIdx ledger := by
      rw [observe, observe, apply_ite (fun r => withLog r lastIdx ledger)]
      rfl
    simp only [addConfiguration, observed]
    rw [apply_ite (fun r => withLog r lastIdx ledger)]
    rfl
  rw [configurationChange, configurationChange, latest, added,
    apply_ite (fun r => withLog r lastIdx ledger)]

theorem callHooks_withLog (lastIdx : Nat) (ledger : List (Entry NodeId)) :
    (r.withLog lastIdx ledger).callHooks e = (r.callHooks e).withLog lastIdx ledger := by
  rw [callHooks, callHooks]
  generalize e.hooks = changes
  induction changes generalizing r with
  | nil => rfl
  | cons change changes ih => rw [foldl_cons, foldl_cons, configurationChange_withLog, ih]

theorem sign_withLog (idx lastIdx : Nat) (ledger : List (Entry NodeId)) :
    (r.withLog lastIdx ledger).sign idx = (r.sign idx).withLog lastIdx ledger := by
  rw [sign, sign, apply_ite (fun r => withLog r lastIdx ledger)]
  rfl

theorem signIf_callHooks_ledger : ((r.callHooks e).signIf e).ledger = r.ledger := by
  obtain ⟨_, _, _, _, _, equal⟩ := r.callHooks_frame e
  rw [equal, signIf, sign]
  split_ifs <;> rfl

theorem append_type : (r.append e).reconfigurationType = r.reconfigurationType := by
  obtain ⟨_, _, _, _, _, equal⟩ := r.callHooks_frame e
  show ((r.callHooks e).signIf e).reconfigurationType = _
  rw [equal, signIf, sign]
  split_ifs <;> rfl

end

end Registry

namespace Node
variable (env : Env NodeId) (s : Node NodeId) {t u : Node NodeId}

/-! ### The registry after each change -/

theorem Broadcasts.registry_eq {s : Node NodeId} (sent : Broadcasts s t) : t.registry = s.registry := by
  rw [sent.frame]
  rfl

theorem Rebuilds.registry_eq {s : Node NodeId} (built : Rebuilds s t) : t.registry = s.registry := by
  rw [built.frame]
  rfl

theorem createAndRemoveNodeState_registry :
    (s.createAndRemoveNodeState env).registry = s.registry :=
  (s.createAndRemoveNodeState_rebuilds env).registry_eq

theorem sendAuthenticated_registry (dest : NodeId) (m : Message NodeId) :
    (s.sendAuthenticated env dest m).registry = s.registry := by
  rw [sendAuthenticated]
  split <;> rfl

theorem startTickingIfNecessary_registry : s.startTickingIfNecessary.registry = s.registry := by
  rw [startTickingIfNecessary]
  split <;> rfl

theorem becomeRetired_ordered (idx : Nat) :
    (s.becomeRetired idx .ordered).registry = s.registry.order idx := rfl

theorem signRetirement_registry (idx : Nat) :
    (s.signRetirement idx).registry = s.registry.sign idx :=
  apply_ite registry _ _ _

theorem completeRetirement_registry (idx : Nat) :
    (s.completeRetirement idx).registry = s.registry.complete idx :=
  apply_ite registry _ _ _

theorem mem_latest (id : NodeId) :
    id ∈ s.registry.latest ↔ s.configurations.getLast?.any (fun c => c.nodes.contains id) := by
  show id ∈ (s.configurations.getLast?.map (·.nodes)).getD ∅ ↔ _
  cases s.configurations.getLast? with
  | none => simp
  | some c => simp

section
variable (one : s.reconfigurationType = .oneTransaction)
include one

theorem observeConfiguration_registry (idx : Nat) (conf : Nodes NodeId) (learners retired) :
    (s.observeConfiguration idx conf learners retired).registry = s.registry.observe idx conf := by
  simp only [observeConfiguration, one, Registry.observe, mem_latest]
  rw [apply_ite registry, becomeRetired_ordered]
  have same : ((s.configurations.getLast?.any fun c => c.nodes.contains s.myNodeId) &&
      !conf.contains s.myNodeId) = true ↔
      (s.configurations.getLast?.any fun c => c.nodes.contains s.registry.self) = true ∧
        s.registry.self ∉ conf := by
    rw [Bool.and_eq_true, Bool.not_eq_true', ← Bool.not_eq_true,
      ExtTreeMap.contains_iff_mem]
    rfl
  simp only [same]

theorem addConfiguration_registry (idx : Nat) (conf : Nodes NodeId) (learners retired) :
    (s.addConfiguration env idx conf learners retired).registry =
      s.registry.addConfiguration idx conf := by
  have observed := s.observeConfiguration_registry one idx conf learners retired
  simp only [addConfiguration, Registry.addConfiguration, ← observed]
  rw [apply_ite registry, createAndRemoveNodeState_registry]
  rfl

theorem configurationChange_registry (idx : Nat) (change : ConfigurationChange NodeId) :
    (s.configurationChange env idx change).registry = s.registry.configurationChange idx change := by
  rw [configurationChange, Registry.configurationChange]
  split
  · rfl
  · exact s.addConfiguration_registry env one idx _ _ _

theorem callHooks_registry (e : Entry NodeId) : (s.callHooks env e).registry = s.registry.callHooks e := by
  rw [callHooks, Registry.callHooks]
  generalize e.hooks = changes
  induction changes generalizing s with
  | nil => rfl
  | cons change changes ih =>
    have first := s.configurationChange_registry env one e.index change
    have kept : (s.configurationChange env e.index change).reconfigurationType = .oneTransaction := by
      show (s.configurationChange env e.index change).registry.reconfigurationType = _
      rw [first, Registry.configurationChange]
      split
      · exact one
      obtain ⟨_, _, _, _, _, added⟩ :=
        s.registry.addConfiguration_frame e.index (applyDelta change.cfgDelta s.registry.latest)
      rw [added]
      exact one
    rw [foldl_cons, foldl_cons, ih _ kept, first]

end

theorem rollbackRetirement_registry (idx : Nat) :
    (s.rollbackRetirement idx).registry = (s.registry.unsign idx).unorder idx := by
  have unsigned : (s.unsignRetirement idx).registry = s.registry.unsign idx :=
    apply_ite registry _ _ _
  rw [← unsigned]
  exact apply_ite registry _ _ _

section
variable (one : s.reconfigurationType = .oneTransaction)
include one

theorem rollbackLearnersAndRetired_of_one (idx : Nat) : s.rollbackLearnersAndRetired idx = s := by
  rw [rollbackLearnersAndRetired, one]

theorem rollbackConfigurations_registry (idx : Nat) : (s.rollbackConfigurations env idx).registry = { s.registry with
      configurations := s.registry.configurations.rdropWhile fun conf => idx < conf.idx } := by
  let u : Node NodeId :=
    { s with configurations := s.configurations.rdropWhile fun conf => idx < conf.idx }
  have quiet : u.rollbackLearnersAndRetired idx = u := u.rollbackLearnersAndRetired_of_one one idx
  have rolled : s.rollbackConfigurations env idx =
      if u.configurations.length ≠ s.configurations.length then u.createAndRemoveNodeState env
      else u := by
    simp only [rollbackConfigurations, u] at quiet ⊢
    rw [quiet]
  rw [rolled, apply_ite registry, createAndRemoveNodeState_registry, ite_self]
  rfl

theorem rollback_registry (uncommitted : s.commitIdx ≤ idx) :
    (s.rollback env idx).registry = s.registry.rollback idx := by
  let u : Node NodeId := { s with toLog := s.toLog.rollback s.currentView idx }
  have truncated : u.registry = s.registry.truncate idx := by
    simp only [u, registry, Log.rollback, if_neg (not_lt.mpr uncommitted)]
    rfl
  have kept : (u.rollbackRetirement idx).reconfigurationType = .oneTransaction :=
    (congrArg Roster.reconfigurationType (u.rollbackRetirement_roster idx)).trans one
  rw [rollback, if_neg (not_lt.mpr uncommitted)]
  rw [rollbackConfigurations_registry _ _ kept, rollbackRetirement_registry, truncated]
  rfl

/-- A one-transaction service drops every configuration that is followed by a
committed one. -/
theorem dropSuperseded_registry (idx : Nat) {fuel : Nat} (enough : s.configurations.length ≤ fuel) (changed : Bool) :
    (dropSuperseded idx fuel s changed).1.registry =
      { s.registry with configurations := superseding idx s.configurations } := by
  induction fuel generalizing s changed with
  | zero =>
    have none : s.configurations = [] := length_eq_zero_iff.mp (by omega)
    rw [dropSuperseded, none, superseding]
    · rw [← none]
      rfl
    · simp
  | succ fuel ih =>
    rw [dropSuperseded]
    split
    · rename_i c next rest front
      rw [front, superseding]
      split
      · rw [← front]
        rfl
      split
      · rw [ih { s with configurations := next :: rest } one (by simp_all)]
        rfl
      rename_i two
      rw [one] at two
      cases two
    · rename_i short
      rw [superseding.eq_2 _ _ short]
      rfl

theorem commit_registry (fresh : s.commitIdx < idx) (within : idx ≤ s.lastIdx) :
    (Result.state (s.commit env idx)).registry = s.registry.commit idx := by
  let u : Node NodeId := { s with commitIdx := idx }.completeRetirement idx
  have completed : u.registry = { s.registry with commitIdx := idx }.complete idx :=
    completeRetirement_registry _ idx
  have kept : u.reconfigurationType = .oneTransaction := by
    show u.registry.reconfigurationType = _
    rw [completed, Registry.complete]
    split <;> exact one
  have dropped := u.dropSuperseded_registry kept idx le_rfl false
  rw [commit, if_neg (by omega), if_neg (by omega)]
  show (if (dropSuperseded idx u.configurations.length u false).2
      then (dropSuperseded idx u.configurations.length u false).1.createAndRemoveNodeState env
      else (dropSuperseded idx u.configurations.length u false).1).registry = _
  rw [apply_ite registry, createAndRemoveNodeState_registry, ite_self, dropped, completed]
  simp only [Registry.commit, ← completed]
  rfl

end


/-! ### Every operation is a path of steps -/

variable {allowed : List (Entry NodeId) → Prop}

/-- What is allowed of a ledger is allowed of each ledger it grew from. -/
def Closed (allowed : List (Entry NodeId) → Prop) : Prop := ∀ l l', l <+: l' → allowed l' → allowed l

def Follows (allowed : List (Entry NodeId) → Prop) (s t : Node NodeId) : Prop :=
  s.reconfigurationType = .oneTransaction →
    t.reconfigurationType = .oneTransaction ∧ s.registry.Path allowed t.registry

namespace Follows
variable {s : Node NodeId}

theorem of_eq (same : t.registry = s.registry) : Follows allowed s t := by
  intro one
  refine ⟨(congrArg Registry.reconfigurationType same).trans one, ?_⟩
  rw [same]
  exact .refl

theorem refl (s : Node NodeId) : Follows allowed s s := of_eq rfl

theorem trans (first : Follows allowed s t) (second : Follows allowed t u) : Follows allowed s u := by
  intro one
  obtain ⟨one, path⟩ := first one
  obtain ⟨one, rest⟩ := second one
  exact ⟨one, path.trans rest⟩

theorem after (rest : Follows allowed t u) (same : t.registry = s.registry) : Follows allowed s u :=
  (of_eq same).trans rest

theorem step (taken : s.registry.Step allowed t.registry)
    (kept : t.registry.reconfigurationType = s.registry.reconfigurationType) :
    Follows allowed s t :=
  fun one => ⟨kept.trans one, .single taken⟩

theorem bind {first : Result NodeId} {next : Node NodeId → Result NodeId}
    (begins : Follows allowed s (Result.state first))
    (continues : ∀ t, first = .ok t → Follows allowed t (Result.state (next t))) :
    Follows allowed s (Result.state (first >>= next)) := by
  cases first with
  | error thrown => exact begins
  | ok t => exact begins.trans (continues t rfl)

end Follows

/-- `t` is reached from `s` by steps that only add to the ledger, if all that was
added is allowed. -/
def Grows (allowed : List (Entry NodeId) → Prop) (s t : Node NodeId) : Prop :=
  s.reconfigurationType = .oneTransaction →
    t.reconfigurationType = .oneTransaction ∧ s.ledger <+: t.ledger ∧
      (allowed t.ledger → s.registry.Path allowed t.registry)

def Reaches (allowed : List (Entry NodeId) → Prop) (s t : Node NodeId) : Prop :=
  s.reconfigurationType = .oneTransaction →
    t.reconfigurationType = .oneTransaction ∧
      (allowed t.ledger → s.registry.Path allowed t.registry)

section
variable {s : Node NodeId}

theorem Follows.grows (follows : Follows allowed s t) (same : t.ledger = s.ledger) : Grows allowed s t := by
  intro one
  obtain ⟨one, path⟩ := follows one
  exact ⟨one, by rw [same], fun _ => path⟩

theorem Follows.reaches (follows : Follows allowed s t) : Reaches allowed s t :=
  fun one => ⟨(follows one).1, fun _ => (follows one).2⟩

theorem Grows.reaches (grows : Grows allowed s t) : Reaches allowed s t :=
  fun one => ⟨(grows one).1, (grows one).2.2⟩

theorem Reaches.after (rest : Reaches allowed t u) (first : Follows allowed s t) : Reaches allowed s u := by
  intro one
  obtain ⟨one, path⟩ := first one
  obtain ⟨one, rest⟩ := rest one
  exact ⟨one, fun final => path.trans (rest final)⟩

theorem Grows.trans (first : Grows allowed s t) (second : Grows allowed t u) (closed : Closed allowed) :
    Grows allowed s u := by
  intro one
  obtain ⟨one, grown, path⟩ := first one
  obtain ⟨one, further, rest⟩ := second one
  exact ⟨one, grown.trans further,
    fun final => (path (closed _ _ further final)).trans (rest final)⟩

theorem Grows.of_eq (same : t.registry = s.registry) : Grows allowed s t :=
  (Follows.of_eq same).grows (congrArg Registry.ledger same)

theorem Grows.bind {first : Result NodeId} {next : Node NodeId → Result NodeId} (closed : Closed allowed)
    (begins : Grows allowed s (Result.state first))
    (continues : ∀ t, first = .ok t → Grows allowed t (Result.state (next t))) :
    Grows allowed s (Result.state (first >>= next)) := by
  cases first with
  | error thrown => exact begins
  | ok t => exact begins.trans (continues t rfl) closed

theorem Grows.append {e : Entry NodeId} (next : e.index = s.lastIdx + 1) (appended : t.registry = s.registry.append e) :
    Grows allowed s t := by
  intro one
  have ledger : t.ledger = s.ledger ++ [e] := congrArg Registry.ledger appended
  refine ⟨?_, ?_, fun final => ?_⟩
  · exact (congrArg Registry.reconfigurationType appended).trans (s.registry.append_type e |>.trans one)
  · rw [ledger]
    exact prefix_append ..
  · rw [appended]
    rw [ledger] at final
    exact .single (.append next final)

end

theorem rollback_follows (within : idx ≤ s.lastIdx) : Follows allowed s (s.rollback env idx) := by
  by_cases uncommitted : s.commitIdx ≤ idx
  · intro one
    have rolled := s.rollback_registry env one uncommitted
    have evolves : Evolves (fun _ _ => True) s (s.rollback env idx) := s.rollback_evolves env idx
    refine ⟨evolves.type_eq.trans one, ?_⟩
    rw [rolled]
    exact .single (.rollback uncommitted within)
  · rw [rollback, if_pos (not_le.mp uncommitted)]
    exact .refl s

theorem commit_follows (idx : Nat) : Follows allowed s (Result.state (s.commit env idx)) := by
  by_cases within : idx ≤ s.lastIdx
  · by_cases fresh : s.commitIdx < idx
    · intro one
      have committed := s.commit_registry env one fresh within
      have evolves : Evolves (fun _ _ => True) s (Result.state (s.commit env idx)) :=
        s.commit_evolves env idx
      refine ⟨evolves.type_eq.trans one, ?_⟩
      rw [committed]
      exact .single (.commit fresh within)
    · rw [commit, if_neg (by omega), if_pos (by omega)]
      exact .refl s
  · rw [commit, if_pos (by omega)]
    exact .refl s

theorem commitIfPossible_follows (idx : Nat) :
    Follows allowed s (Result.state (s.commitIfPossible env idx)) := by
  rw [commitIfPossible]
  split
  · dsimp only
    split
    · exact .of_eq rfl
    · exact .after (commit_follows env _ _) rfl
  · exact .refl s

theorem updateCommit_follows : Follows allowed s (Result.state (s.updateCommit env)) := by
  rw [updateCommit]
  split
  · exact .refl s
  dsimp only
  split
  · exact .of_eq rfl
  · exact .after (commitIfPossible_follows env _ _) rfl

theorem lead_follows (role : LeadershipState) (member : s.membershipState ≠ .retired) :
    Follows allowed s { s with leadershipState := some role } :=
  .step (.lead role member) rfl

theorem followIfActive_follows : Follows allowed s s.followIfActive := by
  rw [followIfActive]
  split
  · rename_i active
    refine s.lead_follows .follower fun retired => ?_
    simp [canEndorsePrimary, isRetired, retired] at active
  · exact .refl s

theorem becomeFollower_follows (formed : s.toLog.WellFormed) :
    Follows allowed s (s.becomeFollower env) := by
  have rolled : Follows allowed (s.forgetLeader env)
      ((s.forgetLeader env).rollback env s.lastCommittableIndex) :=
    (s.forgetLeader env).rollback_follows env formed.lastCommittable_le
  exact (Follows.after rolled rfl).trans (followIfActive_follows _)

theorem becomeAwareOfNewTerm_follows (formed : s.toLog.WellFormed) (term : Nat) :
    Follows allowed s (s.becomeAwareOfNewTerm env term) := by
  let u : Node NodeId := { s with currentView := term, votedFor := none, votesForMe := ∅ }
  have stepped : Follows allowed s (u.becomeFollower env) :=
    .after (u.becomeFollower_follows env formed) rfl
  exact stepped.trans (.of_eq rfl)

theorem foldl_registry {α : Type} (f : Node NodeId → α → Node NodeId)
    (each : ∀ s a, (f s a).registry = s.registry) (items : List α) :
    (items.foldl f s).registry = s.registry := by
  induction items generalizing s with
  | nil => rfl
  | cons a items ih => exact (ih (f s a)).trans (each s a)

theorem resetAndSend_registry (id : NodeId) : (s.resetAndSend env id).registry = s.registry := by
  exact (sendAppendEntries_broadcasts env _ id _).registry_eq

theorem startLeading_follows : Follows allowed s (Result.state (s.startLeading env)) := by
  rw [startLeading]
  split
  · exact s.commit_follows env _
  · exact .of_eq (s.foldl_registry _ (fun t id => t.resetAndSend_registry env id) _)

theorem assumeLeadership_follows (member : s.membershipState ≠ .retired) :
    Follows allowed s s.assumeLeadership :=
  (s.lead_follows .leader member).trans (.of_eq rfl)

/-- A node that is not retired leads after it has discarded what is not signed,
and is not retired then either. -/
theorem prepareToLead_follows (formed : s.toLog.WellFormed) :
    Follows allowed s (Result.state (s.prepareToLead env)) := by
  rw [prepareToLead]
  split
  · exact .after (rollback_follows env _ formed.lastCommittable_le) rfl
  split
  · exact .of_eq rfl
  · exact .of_eq rfl

theorem rollback_membershipState_ne (member : s.membershipState ≠ .retired) (idx : Nat) :
    (s.rollback env idx).membershipState ≠ .retired := by
  rw [rollback_membershipState, membershipAfter, if_neg fun retired => member retired.2.1]
  exact member

theorem prepareToLead_membershipState (member : s.membershipState ≠ .retired)
    (ready : s.prepareToLead env = .ok t) : t.membershipState ≠ .retired := by
  rw [prepareToLead] at ready
  split at ready
  · cases ready
    exact rollback_membershipState_ne env
      { s with electionIndex := s.lastCommittableIndex, committableIndices := [] } member _
  split at ready
  · cases ready
  · cases ready
    exact member

theorem becomeLeader_follows (formed : s.toLog.WellFormed) :
    Follows allowed s (Result.state (s.becomeLeader env)) := by
  rw [becomeLeader]
  split
  · exact .refl s
  rename_i active
  have member : s.membershipState ≠ .retired := by simpa [isRetired] using active
  refine .bind (s.prepareToLead_follows env formed) fun t ready => ?_
  exact (t.assumeLeadership_follows (s.prepareToLead_membershipState env member ready)).trans
    (startLeading_follows env _)

theorem addVoteForMe_follows (formed : s.toLog.WellFormed) (voter : NodeId) :
    Follows allowed s (Result.state (s.addVoteForMe env voter)) := by
  rw [addVoteForMe]
  split
  · exact .refl s
  dsimp only
  split
  · exact .after (becomeLeader_follows env _ formed) rfl
  · exact .of_eq rfl

theorem becomeCandidate_follows (formed : s.toLog.WellFormed) (member : s.membershipState ≠ .retired) :
    Follows allowed s (Result.state (s.becomeCandidate env)) := by
  have stands : Follows allowed s (s.stand env) := (s.lead_follows .candidate member).trans (.of_eq rfl)
  refine .bind (stands.trans ((s.stand env).addVoteForMe_follows env formed s.myNodeId)) fun t _ => ?_
  exact .of_eq (t.foldl_registry _ (fun t id => t.sendAuthenticated_registry env id _) _)

theorem answerRequestVote_registry (source : NodeId) (r : RequestVote) :
    (s.answerRequestVote env source r).registry = s.registry := by
  rw [answerRequestVote]
  split
  · exact sendAuthenticated_registry ..
  split
  · exact sendAuthenticated_registry ..
  split
  · exact sendAuthenticated_registry ..
  · exact sendAuthenticated_registry ..

variable (source : NodeId) (r : AppendEntries) (e : Entry NodeId) (payload : List (Entry NodeId))

theorem recvRequestVote_follows (formed : s.toLog.WellFormed) (source : NodeId) (r : RequestVote) :
    Follows allowed s (s.recvRequestVote env source r) := by
  rw [recvRequestVote]
  split
  · exact .of_eq (sendAuthenticated_registry ..)
  split
  · exact (s.becomeAwareOfNewTerm_follows env formed r.term).trans
      (.of_eq (answerRequestVote_registry ..))
  · exact .of_eq (answerRequestVote_registry ..)

theorem recvRequestVoteResponse_follows (formed : s.toLog.WellFormed) (source : NodeId)
    (r : RequestVoteResponse) :
    Follows allowed s (Result.state (s.recvRequestVoteResponse env source r)) := by
  rw [recvRequestVoteResponse]
  split_ifs
  · exact .refl s
  · exact .refl s
  · exact s.becomeAwareOfNewTerm_follows env formed r.term
  · exact .refl s
  · exact .refl s
  · exact s.addVoteForMe_follows env formed source

theorem recordResponse_follows (node : NodeState) (r : AppendEntriesResponse) :
    Follows allowed s (Result.state (s.recordResponse env source node r)) := by
  rw [recordResponse]
  split
  · split_ifs
    · exact .refl s
    · exact .refl s
    · exact .after (updateCommit_follows env _) rfl
  · exact .of_eq rfl
  · exact .of_eq rfl

theorem recvAppendEntriesResponse_follows (formed : s.toLog.WellFormed) (source : NodeId)
    (r : AppendEntriesResponse) :
    Follows allowed s (Result.state (s.recvAppendEntriesResponse env source r)) := by
  rw [recvAppendEntriesResponse]
  split
  · exact .refl s
  split
  · exact .refl s
  dsimp only
  split
  · exact .after (becomeAwareOfNewTerm_follows env (s.setNodeState source _) formed r.term) rfl
  · exact .after (recordResponse_follows env _ source _ r) rfl

theorem sendAppendEntriesResponse_registry (dest : NodeId) (answer : AppendEntriesResponseType)
    (rejected : Option (Nat × Nat)) :
    (s.sendAppendEntriesResponse env dest answer rejected).registry = s.registry :=
  sendAuthenticated_registry ..

theorem updateViewHistory_registry (idx view : Nat) :
    (Result.state (s.updateViewHistory idx view)).registry = s.registry := by
  rw [updateViewHistory]
  split <;> rfl

theorem inferView_registry : (Result.state (s.inferView r)).registry = s.registry := by
  rw [inferView]
  split_ifs
  · exact s.updateViewHistory_registry _ _
  · exact s.updateViewHistory_registry _ _
  · rfl

theorem prepareEntry_registry (one : s.reconfigurationType = .oneTransaction) (e : Entry NodeId)
    (i : Nat) :
    (s.prepareEntry env e i).registry = (s.registry.callHooks e).withLog i s.ledger := by
  let u : Node NodeId := { s with lastIdx := i }
  have hooked : (u.callHooks env e).registry = (s.registry.callHooks e).withLog i s.ledger := by
    rw [callHooks_registry env u one]
    exact s.registry.callHooks_withLog e i s.ledger
  show (if e.isSignature then (u.callHooks env e).startTickingIfNecessary
    else u.callHooks env e).registry = _
  rw [apply_ite registry, startTickingIfNecessary_registry, ite_self, hooked]

theorem deserialiseSignature_follows (i : Nat) :
    Follows allowed (s.signRetirement i) (Result.state (s.deserialiseSignature env r e i)) := by
  let u : Node NodeId := { s.signRetirement i with
    committableIndices := (s.signRetirement i).committableIndices ++ [i] }
  have equal : s.deserialiseSignature env r e i =
      if e.term = 0 then .ok u
      else (if r.termOfIdx = 0 then u.updateViewHistory 1 r.term
        else u.updateViewHistory (r.prevIdx + 1) e.term) >>= fun t =>
          t.commitIfPossible env r.leaderCommitIdx := rfl
  rw [equal]
  split
  · exact .of_eq rfl
  have announced : Follows allowed u (Result.state (if r.termOfIdx = 0
      then u.updateViewHistory 1 r.term else u.updateViewHistory (r.prevIdx + 1) e.term)) := by
    split <;> exact .of_eq (u.updateViewHistory_registry _ _)
  exact .after (.bind announced fun t _ => t.commitIfPossible_follows env _) rfl

theorem deserialiseSignature_ledger (i : Nat) :
    (Result.state (s.deserialiseSignature env r e i)).ledger = s.ledger := by
  have log := Result.state_toLog (s.deserialiseSignature env r e i)
  rw [deserialiseSignature_toLog] at log
  exact (congrArg Log.ledger log).trans
    (s.toLog.deserialiseSignature_settles s.currentView r e i).ledger_eq

theorem executeEntry_grows (next : e.index = s.lastIdx + 1) (closed : Closed allowed) :
    Grows allowed s (Result.state (s.executeEntry env r e e.index)) := by
  intro one
  let u : Node NodeId := { s.prepareEntry env e e.index with
    ledger := (s.prepareEntry env e e.index).ledger ++ [e] }
  have prepared := s.prepareEntry_registry env one e e.index
  have kept : (s.prepareEntry env e e.index).ledger = s.ledger := congrArg Registry.ledger prepared
  have pushed : u.registry = (s.registry.callHooks e).withLog e.index (s.ledger ++ [e]) := by
    show (s.prepareEntry env e e.index).registry.withLog
      (s.prepareEntry env e e.index).registry.lastIdx
      ((s.prepareEntry env e e.index).ledger ++ [e]) = _
    rw [prepared, kept]
    rfl
  have equal : s.executeEntry env r e e.index =
    if e.isSignature then u.deserialiseSignature env r e e.index else .ok u := rfl
  rw [equal]
  split
  · rename_i signature
    have appended : (u.signRetirement e.index).registry = s.registry.append e := by
      rw [signRetirement_registry, pushed, Registry.sign_withLog, Registry.append, Registry.signIf,
        if_pos signature]
      rfl
    have ledger : (u.signRetirement e.index).ledger = u.ledger := by
      rw [show (u.signRetirement e.index).ledger = _ from congrArg Registry.ledger appended]
      exact (congrArg Registry.ledger pushed).symm
    have rest : Grows allowed (u.signRetirement e.index)
        (Result.state (u.deserialiseSignature env r e e.index)) :=
      (u.deserialiseSignature_follows env r e e.index).grows
        ((u.deserialiseSignature_ledger env r e e.index).trans ledger.symm)
    exact (Grows.append next appended).trans rest closed one
  · rename_i plain
    refine Grows.append next ?_ one
    rw [Registry.append, Registry.signIf, if_neg plain]
    exact pushed

theorem commitIfPossible_grows (idx : Nat) :
    Grows allowed s (Result.state (s.commitIfPossible env idx)) := by
  have log := Result.state_toLog (s.commitIfPossible env idx)
  rw [commitIfPossible_toLog] at log
  exact (s.commitIfPossible_follows env idx).grows
    ((congrArg Log.ledger log).trans (s.toLog.commitIfPossible_settles s.currentView idx).ledger_eq)

theorem executeAppendEntriesFinish_grows (closed : Closed allowed) :
    Grows allowed s (Result.state (s.executeAppendEntriesFinish env source r)) := by
  refine .bind closed (s.commitIfPossible_grows env _) fun t _ => ?_
  refine .bind closed (.of_eq (t.inferView_registry r)) fun u _ => ?_
  have sent := u.sendAppendEntriesResponse_registry env source .ok none
  exact .of_eq sent

def Fits (s : Node NodeId) : Prop := s.ledgerStart + s.ledger.length = s.lastIdx

theorem prepareEntry_view (one : s.reconfigurationType = .oneTransaction) (e : Entry NodeId) (i : Nat) :
    (s.prepareEntry env e i).currentView = s.currentView := by
  let u : Node NodeId := { s with lastIdx := i }
  have hooked : (u.callHooks env e).currentView = s.currentView :=
    congrArg Ballot.currentView (u.callHooks_ballot env e one)
  show (if e.isSignature then (u.callHooks env e).startTickingIfNecessary
    else u.callHooks env e).currentView = _
  rw [startTickingIfNecessary]
  split_ifs <;> exact hooked

theorem executeEntry_fits (one : s.reconfigurationType = .oneTransaction) (fits : s.Fits) :
    (Result.state (s.executeEntry env r e (s.lastIdx + 1))).Fits ∧
      (Result.state (s.executeEntry env r e (s.lastIdx + 1))).lastIdx = s.lastIdx + 1 := by
  have log := Result.state_toLog (s.executeEntry env r e (s.lastIdx + 1))
  rw [executeEntry_toLog env s r e _ (s.prepareEntry_view env one e _)] at log
  have settles := s.toLog.executeEntry_settles s.currentView r e (s.lastIdx + 1)
  rw [← log] at settles
  generalize Result.state (s.executeEntry env r e (s.lastIdx + 1)) = t at settles
  have last : t.lastIdx = s.lastIdx + 1 := settles.lastIdx_eq
  have ledger : t.ledger = s.ledger ++ [e] := settles.ledger_eq
  have start : t.ledgerStart = s.ledgerStart := by
    obtain ⟨_, _, _, equal⟩ := settles
    have start := congrArg Log.ledgerStart equal
    exact start
  refine ⟨?_, last⟩
  rw [Fits] at fits ⊢
  rw [ledger, start, last, length_append, length_singleton]
  omega

theorem executeAppendEntriesSync_grows (entries : List (Entry NodeId)) (fits : s.Fits) (closed : Closed allowed) :
    Grows allowed s
      (Result.state (executeAppendEntriesSync env source r s (entries.zipIdx (s.lastIdx + 1)))) := by
  induction entries generalizing s with
  | nil => exact s.executeAppendEntriesFinish_grows env source r closed
  | cons e entries ih =>
    rw [zipIdx_cons, executeAppendEntriesSync]
    split
    · -- the refused entry is not in the ledger yet
      have whole : s.toLog.truncate (s.lastIdx + 1 - 1) = s.toLog := by
        rw [Log.truncate, take_of_length_le (by rw [Fits] at fits; omega)]
      rw [whole]
      have sent := s.sendAppendEntriesResponse_registry env source .fail none
      exact .of_eq sent
    rename_i accepted
    have index : e.index = s.lastIdx + 1 := by
      by_contra other
      simp [applyEntry, other] at accepted
    intro one
    have grown : Grows allowed s (Result.state (s.executeEntry env r e e.index)) :=
      s.executeEntry_grows env r e index closed
    obtain ⟨fits, last⟩ := s.executeEntry_fits env r e one fits
    rw [index] at grown
    refine Grows.bind closed grown (fun t result => ?_) one
    rw [result] at fits last
    have continued := ih t fits
    rw [show t.lastIdx = s.lastIdx + 1 from last] at continued
    exact continued

theorem executeBatch_grows (fits : s.Fits) (within : r.prevIdx ≤ s.lastIdx) (closed : Closed allowed) :
    Grows allowed s (Result.state (s.executeBatch env source r payload)) := by
  rw [executeBatch]
  split
  · exact .of_eq rfl
  · have sent := s.sendAppendEntriesResponse_registry env source .fail none
    exact .of_eq sent
  rename_i items read
  obtain ⟨-, equal⟩ := readEntries_eq read
  rw [equal, show max (r.prevIdx + 1) (s.lastIdx + 1) = s.lastIdx + 1 by omega]
  exact s.executeAppendEntriesSync_grows env source r _ fits closed

theorem rollbackNewFollower_follows (prevIdx : Nat) :
    Follows allowed s (s.rollbackNewFollower env prevIdx) := by
  rw [rollbackNewFollower]
  split
  · split
    · exact (s.rollback_follows env (by omega)).trans (.of_eq rfl)
    · exact .of_eq rfl
  · exact .refl s

theorem acceptAppendEntries_reaches (formed : s.toLog.WellFormed) (closed : Closed allowed) :
    Reaches allowed s (Result.state (s.acceptAppendEntries env source r payload)) := by
  let u : Node NodeId := s.recogniseLeader env source
  have equal : s.acceptAppendEntries env source r payload =
      if r.prevIdx < u.commitIdx then .ok u
      else if r.prevIdx > u.lastIdx then .ok u
      else (u.rollbackNewFollower env r.prevIdx).executeBatch env source r payload := rfl
  rw [equal]
  split
  · exact (Follows.of_eq rfl).reaches
  split
  · exact (Follows.of_eq rfl).reaches
  have within : r.prevIdx ≤ u.lastIdx := by omega
  have log := u.rollbackNewFollower_toLog env r.prevIdx
  have reached : r.prevIdx ≤ (u.rollbackNewFollower env r.prevIdx).lastIdx := by
    rw [log]
    exact u.toLog.rollbackNewFollower_reaches u.currentView within
  have fits : (u.rollbackNewFollower env r.prevIdx).Fits := by
    have formed : u.toLog.WellFormed := formed
    obtain ⟨formed, -⟩ := Log.rollbackNewFollower_sustains u.currentView r.prevIdx formed
    rw [← log] at formed
    exact formed.length.symm
  have rolled : Follows allowed s (u.rollbackNewFollower env r.prevIdx) :=
    .after (u.rollbackNewFollower_follows env r.prevIdx) rfl
  exact (executeBatch_grows env _ source r payload fits reached closed).reaches.after rolled

theorem checkAppendEntries_reaches (formed : s.toLog.WellFormed) (closed : Closed allowed) :
    Reaches allowed s (Result.state (s.checkAppendEntries env source r payload)) := by
  have refused : ∀ rejected, Reaches allowed s
      (Result.state (.ok (s.sendAppendEntriesResponse env source .fail rejected))) := by
    intro rejected
    have sent := s.sendAppendEntriesResponse_registry env source .fail rejected
    exact (Follows.of_eq sent).reaches
  simp only [checkAppendEntries]
  split_ifs
  · exact refused _
  · exact refused _
  · exact refused _
  · exact s.acceptAppendEntries_reaches env source r payload formed closed

theorem becomeAwareOfNewTerm_formed (sound : s.Sound) (term : Nat) :
    (s.becomeAwareOfNewTerm env term).toLog.WellFormed := by
  have formed : s.toLog.WellFormed := sound.grounded.formed
  obtain ⟨rolled, -⟩ := Log.rollback_sustains term formed.lastCommittable_le formed
  rw [s.becomeAwareOfNewTerm_toLog env term sound.covered]
  exact ⟨rolled.length, rolled.start_le, rolled.commit_le, rolled.increasing, rolled.committable⟩

theorem recvAppendEntries_reaches (sound : s.Sound) (closed : Closed allowed) :
    Reaches allowed s (Result.state (s.recvAppendEntries env source r payload)) := by
  have adopted : Reaches allowed s
      (Result.state ((s.becomeAwareOfNewTerm env r.term).checkAppendEntries env source r payload)) :=
    (checkAppendEntries_reaches env _ source r payload (s.becomeAwareOfNewTerm_formed env sound _)
      closed).after (s.becomeAwareOfNewTerm_follows env sound.grounded.formed _)
  rw [recvAppendEntries]
  split_ifs
  · exact adopted
  · exact adopted
  · have sent := s.sendAppendEntriesResponse_registry env source .fail none
    exact (Follows.of_eq sent).reaches
  · exact s.checkAppendEntries_reaches env source r payload sound.grounded.formed closed

theorem recvMessage_reaches (m : Message NodeId) (sound : s.Sound) (closed : Closed allowed) :
    Reaches allowed s (s.recvMessage env source m) := by
  have formed : s.toLog.WellFormed := sound.grounded.formed
  cases m with
  | appendEntries r payload => exact s.recvAppendEntries_reaches env source r payload sound closed
  | appendEntriesResponse r => exact (s.recvAppendEntriesResponse_follows env formed source r).reaches
  | requestVote r => exact (s.recvRequestVote_follows env formed source r).reaches
  | requestVoteResponse r => exact (s.recvRequestVoteResponse_follows env formed source r).reaches

theorem recordSignature_registry (index : Nat) :
    (s.recordSignature index).registry = s.registry.sign index := by
  rw [recordSignature, startTickingIfNecessary_registry]
  exact s.signRetirement_registry index

theorem sendIfLarge_registry : (s.sendIfLarge env).registry = s.registry := by
  rw [sendIfLarge]
  split
  · exact (sendToAll_broadcasts env _).registry_eq
  · rfl

theorem replicateEntry_grows (next : e.index = s.lastIdx + 1) (closed : Closed allowed) :
    Grows allowed s (Result.state (s.replicateEntry env e)) := by
  intro one
  let u : Node NodeId := s.callHooks env e
  let v : Node NodeId := if e.isSignature then u.recordSignature e.index else u
  have hooked : u.registry = s.registry.callHooks e := s.callHooks_registry env one e
  have signed : v.registry = (s.registry.callHooks e).signIf e := by
    rw [apply_ite registry, recordSignature_registry, hooked]
    rfl
  have put : (v.putEntry e).registry = s.registry.append e := by
    have ledger : v.ledger = s.ledger :=
      (congrArg Registry.ledger signed).trans (s.registry.signIf_callHooks_ledger e)
    show v.registry.withLog e.index (v.ledger ++ [e]) = _
    rw [signed, ledger]
    rfl
  have noted : Grows allowed s (Result.state ((v.putEntry e).updateViewHistory e.index v.currentView)) :=
    (Grows.append next put).trans (.of_eq (updateViewHistory_registry ..)) closed
  exact Grows.bind closed noted (fun t _ => .of_eq (t.sendIfLarge_registry env)) one

theorem updateCommit_grows : Grows allowed s (Result.state (s.updateCommit env)) := by
  rw [updateCommit]
  split
  · exact .of_eq rfl
  dsimp only
  split
  · exact .of_eq rfl
  rename_i watermarks _ _
  let u : Node NodeId := { s with cftWatermarkIdx := watermarks.min?.getD s.cftWatermarkIdx }
  exact u.commitIfPossible_grows env _

theorem replicated_reaches (entries : List (Entry NodeId)) (term : Nat)
    (closed : Closed allowed) :
    Reaches allowed s (s.replicated env entries term) :=
  s.replicated_of (fun _ => Grows.of_eq rfl) (fun _ _ _ first second => first.trans second closed) env entries term
    (s.rollback_follows env le_rfl).reaches (fun t e _ next => t.replicateEntry_grows env e next closed)
    (fun t => t.updateCommit_grows env) fun _ grows => grows.reaches

theorem sendIfDue_registry : (s.sendIfDue env).registry = s.registry := by
  rw [sendIfDue]
  split
  · exact (sendToAll_broadcasts env _).registry_eq
  · rfl

theorem checkQuorum_follows (formed : s.toLog.WellFormed) (elapsed : Nat) :
    Follows allowed s (s.checkQuorum env elapsed) := by
  simp only [checkQuorum]
  split
  · exact .after (becomeFollower_follows env _ formed) rfl
  · exact .of_eq rfl

theorem periodic_follows (formed : s.toLog.WellFormed) (elapsed : Nat) :
    Follows allowed s (Result.state (s.periodic env elapsed)) := by
  let u : Node NodeId := { s with timeoutElapsed := s.timeoutElapsed + elapsed }
  have equal : s.periodic env elapsed =
      if u.isPrimary then .ok ((u.sendIfDue env).checkQuorum env elapsed)
      else if u.canEndorsePrimary && u.ticking && u.timeoutElapsed ≥ u.electionTimeout then
        u.becomeCandidate env
      else .ok u := rfl
  rw [equal]
  split
  · have due : (u.sendIfDue env).registry = s.registry := u.sendIfDue_registry env
    have log : (u.sendIfDue env).toLog = s.toLog := by
      rw [sendIfDue]
      split
      · exact (sendToAll_broadcasts env _).toLog_eq
      · rfl
    exact .after ((u.sendIfDue env).checkQuorum_follows env (log ▸ formed) elapsed) due
  split
  · rename_i due
    have member : u.membershipState ≠ .retired := by
      intro retired
      simp [canEndorsePrimary, isRetired, retired] at due
    exact .after (u.becomeCandidate_follows env formed member) rfl
  · exact .of_eq rfl

/-- An operation of a serving node, as steps of its registry. -/
theorem perform_reaches (sound : s.Sound) (serves : s.Serves op)
    (closed : Closed allowed) : Reaches allowed s (s.perform op) := by
  have formed : s.toLog.WellFormed := sound.grounded.formed
  cases op with
  | replicate env entries term => exact s.replicated_reaches env entries term closed
  | recvMessage env source m => exact s.recvMessage_reaches env source m sound closed
  | periodic env elapsed => exact (s.periodic_follows env formed elapsed).reaches
  | rollback env idx => exact (s.rollback_follows env serves).reaches
  | _ => exact serves.elim

/-- A node that starts a service, or joins it from a snapshot at `index`. -/
inductive Begins (settings : Settings NodeId) (n : NodeId) : Nat → Node NodeId → Prop where
  | primary : Begins settings n 0 (initialPrimary settings n)
  | backup (env : Env NodeId) (index term : Nat) (history : List Nat) (joined : Node NodeId) :
      (initial settings n).initAsBackup env index term history = .ok joined →
      Begins settings n index joined

section
variable {settings : Settings NodeId}

theorem Begins.started {n : NodeId} {index : Nat} {s : Node NodeId} (begins : Begins settings n index s) :
    s.Started := by
  cases begins with
  | primary => exact .primary settings n
  | backup env _ term history _ accepted =>
    exact .backup settings n env index term history s accepted

theorem initial_registry (one : settings.reconfigurationType = .oneTransaction) (n : NodeId) :
    (initial settings n).registry = .initial settings n 0 := by
  rw [initial]
  cases configuration : settings.configuration with
  | none =>
    rw [Registry.initial, configuration]
    rfl
  | some conf =>
    rw [addConfiguration_registry _ _ one, Registry.initial, configuration]
    rfl

theorem Begins.path {n : NodeId} {index : Nat} {s : Node NodeId}
    (one : settings.reconfigurationType = .oneTransaction) (begins : Begins settings n index s) :
    s.reconfigurationType = .oneTransaction ∧
      (Registry.initial settings n index).Path allowed s.registry := by
  have pristine := initial_pristine settings n
  have log := pristine.log
  have one' : (initial settings n).reconfigurationType = .oneTransaction := pristine.type.trans one
  have registry := initial_registry one n
  cases begins with
  | primary =>
    have formed : (initial settings n).toLog.WellFormed := by
      rw [log]
      exact ⟨rfl, le_rfl, le_rfl, .nil, by simp⟩
    have follows : Follows allowed (initial settings n) (initialPrimary settings n) := by
      rw [initialPrimary, forceBecomePrimary]
      split
      · exact .refl _
      let u : Node NodeId := { initial settings n with
        currentView := (initial settings n).currentView + startingViewChange }
      exact .after (u.becomeLeader_follows {} formed) rfl
    rw [← registry]
    exact follows one'
  | backup env index term history joined accepted =>
    generalize initial settings n = u at one' log registry accepted
    obtain ⟨viewHistory, rfl⟩ := initAsBackup_ok accepted
    let v : Node NodeId :=
      { u with lastIdx := index, commitIdx := index, viewHistory, ledgerStart := index }
    have formed : v.toLog.WellFormed := by
      have empty : u.ledger = [] := congrArg Log.ledger log
      have committable : u.committableIndices = [] := congrArg Log.committableIndices log
      exact ⟨by simp [v, empty], le_rfl, le_rfl, by simp [v, committable], by simp [v, committable]⟩
    have joined : v.registry = Registry.initial settings n index := by
      show { u.registry with lastIdx := index, commitIdx := index, ledgerStart := index } = _
      rw [registry]
      rfl
    rw [← joined]
    exact v.becomeAwareOfNewTerm_follows env formed term one'

/-- A run of a node is a path of its registry, if the ledger is allowed after
each operation. -/
theorem run_path {n : NodeId} {index : Nat} {first s : Node NodeId}
    {trace : List (Lib.Transition (Node NodeId) (Operation NodeId))}
    (one : settings.reconfigurationType = .oneTransaction) (begins : Begins settings n index first)
    (run : Lib.Run (fun s op => some (s.perform op)) first trace s) (serves : ∀ t ∈ trace, t.pre.Serves t.action)
    (closed : Closed allowed) (lawful : ∀ t ∈ trace, allowed t.post.ledger) :
    s.Sound ∧ s.reconfigurationType = .oneTransaction ∧
      (Registry.initial settings n index).Path allowed s.registry := by
  induction run with
  | start => exact ⟨begins.started.sound, begins.path one⟩
  | @next trace s op t _ taken ih =>
    cases taken
    obtain ⟨sound, one, path⟩ := ih (fun t member => serves t (mem_cons_of_mem _ member))
      (fun t member => lawful t (mem_cons_of_mem _ member))
    have served := serves _ mem_cons_self
    obtain ⟨one, rest⟩ := s.perform_reaches sound served closed one
    exact ⟨(sound.perform served).1, one, path.trans (rest (lawful _ mem_cons_self))⟩

end

end Node
end CCF.Aft
