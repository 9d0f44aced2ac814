import ShardedCCF.Aft.Roster
import ShardedCCF.Lib.Lists

/-! The node table against the configurations, over any sequence of the public
operations of a node. -/
namespace CCF.Aft
open Std (ExtTreeMap)

variable {NodeId : Type} [LinearOrder NodeId]

inductive Operation (NodeId : Type) [LinearOrder NodeId] where
  | addConfiguration (env : Env NodeId) (idx : Nat) (conf : Nodes NodeId)
      (newLearnerNodes newRetiredNodes : List NodeId)
  | startTicking
  | forceBecomePrimary (env : Env NodeId)
  | forceBecomePrimaryAt (env : Env NodeId) (index term : Nat) (terms : List Nat) (commitIdx : Nat)
  | initAsBackup (env : Env NodeId) (index term : Nat) (termHistory : List Nat)
  | replicate (env : Env NodeId) (entries : List (Entry NodeId)) (term : Nat)
  | recvMessage (env : Env NodeId) (source : NodeId) (message : Message NodeId)
  | periodic (env : Env NodeId) (elapsed : Nat)
  | becomeFollower (env : Env NodeId)
  | becomeAwareOfNewTerm (env : Env NodeId) (term : Nat)
  | rollback (env : Env NodeId) (idx : Nat)
  | orc (rid : Nat) (id : NodeId)
  | updateParameters (reconfigurationType : ReconfigurationType)

/-- No reconfiguration of the entry removes another node than `self`. -/
def Entry.KeepsOthers (self : NodeId) (e : Entry NodeId) : Prop :=
  ∀ change ∈ e.hooks, ∀ item ∈ change.cfgDelta, item.2 = none → item.1 = self

instance (self : NodeId) (e : Entry NodeId) : Decidable (e.KeepsOthers self) := by
  unfold Entry.KeepsOthers
  infer_instance

namespace Node

def perform (s : Node NodeId) : Operation NodeId → Node NodeId
  | .addConfiguration env idx conf learners retired => s.addConfiguration env idx conf learners retired
  | .startTicking => s.startTicking
  | .forceBecomePrimary env => Result.state (s.forceBecomePrimary env)
  | .forceBecomePrimaryAt env index term terms commitIdx =>
    Result.state (s.forceBecomePrimaryAt env index term terms commitIdx)
  | .initAsBackup env index term history => Result.state (s.initAsBackup env index term history)
  | .replicate env entries term => s.replicated env entries term
  | .recvMessage env source m => s.recvMessage env source m
  | .periodic env elapsed => Result.state (s.periodic env elapsed)
  | .becomeFollower env => s.becomeFollower env
  | .becomeAwareOfNewTerm env term => s.becomeAwareOfNewTerm env term
  | .rollback env idx => s.rollback env idx
  | .orc rid id => match s.orc rid id with
    | .ok (s, _) => s
    | .error thrown => thrown.state
  | .updateParameters type => s.updateParameters type

/-- The key set of the node table is the union of the configurations without
the node itself. -/
def TableMatches (s : Node NodeId) : Prop := ∀ id, id ∈ s.nodes ↔ s.Active id ∧ id ≠ s.myNodeId

/-- In a two-transaction service, nothing the operation adds removes a node
other than this one. -/
def KeepsOthers (s : Node NodeId) : Operation NodeId → Prop
  | .addConfiguration _ _ conf _ _ => s.reconfigurationType = .twoTransaction →
      Roster.Keeps s.myNodeId s.getLatestConfiguration conf
  | .replicate _ entries _ => s.reconfigurationType = .twoTransaction →
      ∀ e ∈ entries, e.KeepsOthers s.myNodeId
  | .recvMessage _ _ (.appendEntries _ payload) => s.reconfigurationType = .twoTransaction →
      ∀ e ∈ payload, e.KeepsOthers s.myNodeId
  | .updateParameters type => type = .twoTransaction → s.roster.Chained
  | _ => True

theorem keeps_applyDelta (self : NodeId) (delta : List (NodeId × Option NodeInfo))
    (only : ∀ item ∈ delta, item.2 = none → item.1 = self) (latest : Nodes NodeId) :
    Roster.Keeps self latest (applyDelta delta latest) := by
  unfold applyDelta
  induction delta generalizing latest with
  | nil => exact fun _ member _ => member
  | cons item delta ih =>
    intro id member other
    refine ih (fun item member => only item (List.mem_cons_of_mem _ member)) _ id ?_ other
    obtain ⟨key, info⟩ := item
    cases info with
    | some info => exact ExtTreeMap.mem_insertIfNew.mpr (.inr member)
    | none =>
      rw [ExtTreeMap.mem_erase]
      refine ⟨fun same => other ?_, member⟩
      rw [← compare_eq_iff_eq.mp same]
      exact only (key, none) List.mem_cons_self rfl

theorem permits_of_keepsOthers (s : Node NodeId) {entries : List (Entry NodeId)}
    (only : s.reconfigurationType = .twoTransaction → ∀ e ∈ entries, e.KeepsOthers s.myNodeId) :
    Permits s.roster.Retains entries := by
  intro e member change hook latest two
  exact keeps_applyDelta s.myNodeId change.cfgDelta (only two e member change hook) latest

theorem orc_roster (s : Node NodeId) (rid : Nat) (id : NodeId) :
    (s.perform (.orc rid id)).roster = s.roster := by
  simp only [perform, orc]
  split
  · rename_i t found outcome
    split at outcome
    · cases outcome
    split at outcome
    · cases outcome
      rfl
    · split at outcome <;> cases outcome <;> rfl
  rename_i thrown outcome
  split at outcome
  · cases outcome
    rfl
  split at outcome
  · cases outcome
  · split at outcome <;> cases outcome

theorem perform_agrees (s : Node NodeId) (op : Operation NodeId) (keeps : s.KeepsOthers op)
    (agrees : s.roster.Agrees) : (s.perform op).roster.Agrees := by
  have evolved : ∀ {t : Node NodeId}, Evolves s.roster.Retains s t → t.roster.Agrees :=
    fun evolves => Roster.agrees_of_reaches evolves agrees
  cases op with
  | addConfiguration env idx conf learners retired =>
    exact evolved (s.addConfiguration_evolves env idx conf learners retired keeps)
  | startTicking => exact agrees
  | forceBecomePrimary env => exact evolved (s.forceBecomePrimary_evolves env)
  | forceBecomePrimaryAt env index term terms commitIdx =>
    exact evolved (s.forceBecomePrimaryAt_evolves env index term terms commitIdx)
  | initAsBackup env index term history =>
    exact evolved (s.initAsBackup_evolves env index term history)
  | replicate env entries term =>
    exact evolved (s.replicated_evolves env entries term (s.permits_of_keepsOthers keeps))
  | recvMessage env source m =>
    refine evolved (s.recvMessage_evolves env source m ?_)
    cases m with
    | appendEntries r payload => exact s.permits_of_keepsOthers keeps
    | appendEntriesResponse r => trivial
    | requestVote r => trivial
    | requestVoteResponse r => trivial
  | periodic env elapsed => exact evolved (s.periodic_evolves env elapsed)
  | becomeFollower env => exact evolved (s.becomeFollower_evolves env)
  | becomeAwareOfNewTerm env term => exact evolved (s.becomeAwareOfNewTerm_evolves env term)
  | rollback env idx => exact evolved (s.rollback_evolves env idx)
  | orc rid id =>
    rw [orc_roster]
    exact agrees
  | updateParameters type => 
    exact ⟨⟨⟨agrees.self_unknown, agrees.active_known⟩, agrees.known_active⟩, keeps⟩

theorem matchIndices_isSome (s : Node NodeId) (covered : s.roster.Covered)
    {conf : Configuration NodeId} (member : conf ∈ s.configurations) :
    (s.matchIndices conf).isSome := by
  rw [Option.isSome_iff_exists, matchIndices]
  refine Lib.exists_mapM_eq_some fun id inside => ?_
  split
  · exact ⟨_, rfl⟩
  rename_i other
  have known : id ∈ s.nodes :=
    covered.active_known id other ⟨conf, member, ExtTreeMap.mem_keys.mp inside⟩
  rw [ExtTreeMap.getElem?_eq_some_getElem known]
  exact ⟨_, rfl⟩

def start (n : NodeId) (type : ReconfigurationType) (membership : MembershipState) : Node NodeId :=
  { myNodeId := n, reconfigurationType := type, membershipState := membership }

theorem start_agrees (n : NodeId) (type : ReconfigurationType) (membership : MembershipState) :
    (start n type membership).roster.Agrees := by
  refine ⟨⟨⟨?_, ?_⟩, ?_⟩, fun _ => List.isChain_nil⟩
  · simp [start, roster]
  · rintro id - ⟨conf, member, -⟩
    simp [start, roster] at member
  · simp [start, roster]

theorem table_matches_configurations {n : NodeId} {type : ReconfigurationType}
    {membership : MembershipState} {trace : List (Lib.Transition (Node NodeId) (Operation NodeId))}
    {s : Node NodeId}
    (run : Lib.Run (fun s op => some (s.perform op)) (start n type membership) trace s)
    (keeps : ∀ t ∈ trace, t.pre.KeepsOthers t.action) :
    s.TableMatches ∧ ∀ conf ∈ s.configurations, (s.matchIndices conf).isSome := by
  have agrees : s.roster.Agrees := by
    refine run.invariant_of keeps (·.roster.Agrees) (start_agrees n type membership) ?_
    rintro s op t agrees ⟨⟩ kept
    exact perform_agrees s op kept agrees
  refine ⟨fun id => ⟨fun known => ⟨agrees.known_active id known, ?_⟩, fun active => ?_⟩,
    fun conf member => s.matchIndices_isSome agrees.toCovered member⟩
  · rintro rfl
    exact agrees.self_unknown known
  · exact agrees.active_known id active.2 active.1

theorem table_matches_configurations_two_nodes :
    ((start (0 : Fin 2) .twoTransaction .active).perform
      (.addConfiguration {} 0 ((∅ : Nodes (Fin 2)).insert 1 ⟨"h", "1"⟩) [] [])).TableMatches :=
  (table_matches_configurations (.next .start rfl) (by
    simp only [List.mem_singleton, forall_eq]
    exact fun _ id absent _ => absurd absent (by simp [start, getLatestConfiguration]))).1

scoped instance neZero_two : NeZero 2 := ⟨by decide⟩

scoped instance transCmp_two : Std.TransCmp (compare : Fin 2 → Fin 2 → Ordering) := inferInstance

/-- A two-transaction primary of {0, 1} that retires node 1: the configuration
without it is switched to, and its entry stays in the table. -/
def retiringOperations : List (Operation (Fin 2)) :=
  [.addConfiguration {} 0 (((∅ : Nodes (Fin 2)).insert 0 ⟨"h", "0"⟩).insert 1 ⟨"h", "1"⟩) [] [],
    .forceBecomePrimary {},
    .replicate {} [
      { term := 2, index := 1, kind := .plain, data := []
        hooks := [{ cfgDelta := [(1, none)], learners := [], retiredNodes := [] }] },
      { term := 2, index := 2, kind := .plain, data := []
        hooks := [{ cfgDelta := [(1, none)], learners := [], retiredNodes := [1] }] },
      { term := 2, index := 3, kind := .signature, data := [], hooks := [] }] 2,
    .recvMessage {} 1 (.appendEntriesResponse { term := 2, lastLogIdx := 3, success := .ok })]

theorem retired_node_stays_in_table :
    ∃ trace s, Lib.Run (fun s op => some (s.perform op))
      (start (0 : Fin 2) .twoTransaction .active) trace s ∧ ¬ s.TableMatches := by
  refine Lib.exists_run_of (P := fun _ s => s.nodes.contains 1 = true ∧
    ∀ conf ∈ s.configurations, conf.nodes.contains 1 = false) retiringOperations (by decide +kernel) ?_
  intro trace s run ⟨known, inactive⟩ agrees
  obtain ⟨conf, member, inside⟩ := ((agrees 1).mp (ExtTreeMap.mem_iff_contains.mpr known)).1
  rw [ExtTreeMap.mem_iff_contains, inactive conf member] at inside
  cases inside

end Node
end CCF.Aft
