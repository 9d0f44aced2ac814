import ShardedCCF.Aft.Sending

/-! How every operation changes the configurations and the key set of the node
table: a configuration is added and the table rebuilt, configurations are
dropped and the table rebuilt, or the two-transaction switch drops one and the
table stays. What holds of the table follows from these three changes. -/
namespace CCF.Aft
open List hiding next
open Std (ExtTreeMap)

variable {NodeId : Type} [LinearOrder NodeId]

structure Roster (NodeId : Type) [LinearOrder NodeId] where
  self : NodeId
  configurations : List (Configuration NodeId)
  known : Set NodeId
  reconfigurationType : ReconfigurationType

namespace Roster

def Active (r : Roster NodeId) (id : NodeId) : Prop := ∃ conf ∈ r.configurations, id ∈ conf.nodes

def latest (r : Roster NodeId) : Nodes NodeId :=
  (r.configurations.getLast?.map (·.nodes)).getD ∅

def rebuild (r : Roster NodeId) : Roster NodeId :=
  { r with known := { id | r.Active id ∧ (id ∈ r.known ∨ id ≠ r.self) } }

/-- The changes an operation is made of; `permit` restricts what may follow the
latest configuration. Only the two-transaction switch leaves
the table as it was. -/
inductive Step (permit : Nodes NodeId → Nodes NodeId → Prop) :
    Roster NodeId → Roster NodeId → Prop where
  | push (conf : Configuration NodeId) : permit r.latest conf.nodes →
      Step permit r { r with configurations := r.configurations ++ [conf] }.rebuild
  | shrink : confs <:+: r.configurations →
      Step permit r { r with configurations := confs }.rebuild
  | switch : r.reconfigurationType = .twoTransaction → r.configurations = conf :: next :: confs →
      Step permit r { r with configurations := next :: confs }

/-- The table has an entry for every active node but the node itself. -/
structure Covered (r : Roster NodeId) : Prop where
  self_unknown : r.self ∉ r.known
  active_known : ∀ id, id ≠ r.self → r.Active id → id ∈ r.known

structure Exact (r : Roster NodeId) : Prop extends Covered r where
  known_active : ∀ id ∈ r.known, r.Active id

/-- Each configuration keeps the other nodes of the one before it. -/
def Keeps (self : NodeId) (earlier later : Nodes NodeId) : Prop :=
  ∀ id ∈ earlier, id ≠ self → id ∈ later

def Chained (r : Roster NodeId) : Prop :=
  r.configurations.IsChain fun c next => Keeps r.self c.nodes next.nodes

variable {r t : Roster NodeId} {permit : Nodes NodeId → Nodes NodeId → Prop}

theorem rebuild_exact (unknown : r.self ∉ r.known) : r.rebuild.Exact where
  self_unknown := fun known => known.2.elim unknown fun other => other rfl
  active_known := fun _ other active => ⟨active, .inr other⟩
  known_active := fun _ known => known.1

theorem Step.self_eq (step : Step permit r t) : t.self = r.self := by
  cases step <;> rfl

theorem Step.type_eq (step : Step permit r t) : t.reconfigurationType = r.reconfigurationType := by
  cases step <;> rfl

theorem Covered.tail (covered : r.Covered) (front : r.configurations = c :: rest) :
    { r with configurations := rest }.Covered := by
  refine ⟨covered.self_unknown, fun id other active => covered.active_known id other ?_⟩
  obtain ⟨conf, member, inside⟩ := active
  exact ⟨conf, by rw [front]; exact mem_cons_of_mem _ member, inside⟩

theorem Step.covered (step : Step permit r t) (covered : r.Covered) : t.Covered := by
  cases step with
  | push conf | shrink => exact Exact.toCovered (rebuild_exact covered.self_unknown)
  | switch _ front => exact covered.tail front

/-- The exact table of a one-transaction service, and of a two-transaction
service whose configurations keep their nodes. -/
structure Agrees (r : Roster NodeId) : Prop extends Exact r where
  chained : r.reconfigurationType = .twoTransaction → r.Chained

def Retains (r : Roster NodeId) (latest conf : Nodes NodeId) : Prop :=
  r.reconfigurationType = .twoTransaction → Keeps r.self latest conf

theorem Step.agrees (step : Step r.Retains r t) (agrees : r.Agrees) : t.Agrees := by
  cases step with
  | push conf permitted =>
    refine ⟨rebuild_exact agrees.self_unknown, fun two => ?_⟩
    have kept := permitted two
    refine isChain_append.mpr ⟨agrees.chained two, isChain_singleton _, ?_⟩
    intro last isLast first isFirst
    simp only [head?_cons, Option.mem_def, Option.some.injEq] at isFirst
    subst isFirst
    rw [latest, Option.mem_def.mp isLast] at kept
    exact kept
  | shrink within =>
    exact ⟨rebuild_exact agrees.self_unknown,
      fun two => List.IsChain.infix (agrees.chained two) within⟩
  | switch two front =>
    rename_i conf next confs
    have chain := agrees.chained two
    rw [Chained, front, isChain_cons_cons] at chain
    have taken : Step r.Retains r { r with configurations := next :: confs } := .switch two front
    refine ⟨⟨taken.covered agrees.toCovered, ?_⟩, fun _ => chain.2⟩
    intro id known
    obtain ⟨c, member, inside⟩ := agrees.known_active id known
    rw [front] at member
    rcases mem_cons.mp member with rfl | later
    · refine ⟨next, mem_cons_self, chain.1 id inside ?_⟩
      rintro rfl
      exact agrees.self_unknown known
    · exact ⟨c, later, inside⟩

theorem agrees_of_reaches (steps : Relation.ReflTransGen (Step r.Retains) r t)
    (agrees : r.Agrees) : t.Agrees := by
  have general : t.Agrees ∧ t.Retains = r.Retains := by
    induction steps with
    | refl => exact ⟨agrees, rfl⟩
    | tail _ step ih =>
      have same := ih.2
      rw [← same] at step
      refine ⟨step.agrees ih.1, ?_⟩
      rw [← same]
      funext latest conf
      simp only [Retains, step.self_eq, step.type_eq]
  exact general.1

theorem covered_of_reaches (steps : Relation.ReflTransGen (Step permit) r t)
    (covered : r.Covered) : t.Covered := by
  induction steps with
  | refl => exact covered
  | tail _ step ih => exact step.covered ih

end Roster

namespace Node

def roster (s : Node NodeId) : Roster NodeId where
  self := s.myNodeId
  configurations := s.configurations
  known := { id | id ∈ s.nodes }
  reconfigurationType := s.reconfigurationType

def Evolves (permit : Nodes NodeId → Nodes NodeId → Prop) (s t : Node NodeId) : Prop :=
  Relation.ReflTransGen (Roster.Step permit) s.roster t.roster

variable {permit : Nodes NodeId → Nodes NodeId → Prop}

namespace Evolves
variable {s t u : Node NodeId}

theorem of_eq (same : t.roster = s.roster) : Evolves permit s t := by
  rw [Evolves, same]

theorem refl (s : Node NodeId) : Evolves permit s s := of_eq rfl

theorem trans (first : Evolves permit s t) (second : Evolves permit t u) : Evolves permit s u :=
  Relation.ReflTransGen.trans first second

theorem step (taken : Roster.Step permit s.roster t.roster) : Evolves permit s t :=
  .single taken

theorem type_eq (evolved : Evolves permit s t) : t.reconfigurationType = s.reconfigurationType := by
  have general : ∀ r, Relation.ReflTransGen (Roster.Step permit) s.roster r →
      r.reconfigurationType = s.reconfigurationType := by
    intro r steps
    induction steps with
    | refl => rfl
    | tail _ step ih => exact step.type_eq.trans ih
  exact general t.roster evolved

theorem after (rest : Evolves permit t u) (same : t.roster = s.roster) : Evolves permit s u :=
  (of_eq same).trans rest

theorem foldl {α : Type} (f : Node NodeId → α → Node NodeId) (items : List α)
    (each : ∀ s, ∀ a ∈ items, Evolves permit s (f s a)) (s : Node NodeId) :
    Evolves permit s (items.foldl f s) := by
  induction items generalizing s with
  | nil => exact refl s
  | cons a items ih =>
    exact (each s a mem_cons_self).trans
      (ih (fun s b member => each s b (mem_cons_of_mem _ member)) _)

theorem bind {first : Result NodeId} {next : Node NodeId → Result NodeId}
    (begins : Evolves permit s (Result.state first))
    (continues : ∀ t, Evolves permit t (Result.state (next t))) :
    Evolves permit s (Result.state (first >>= next)) := by
  cases first with
  | error thrown => exact begins
  | ok t => exact begins.trans (continues t)

end Evolves

theorem Evolves.known_subset {s t : Node NodeId} (evolved : Evolves (fun _ _ => False) s t)
    (covered : s.roster.Covered) : ∀ id, id ∈ t.nodes → id ∈ s.nodes := by
  have general : ∀ r : Roster NodeId, Relation.ReflTransGen (Roster.Step fun _ _ => False) s.roster r →
      r.Covered ∧ ∀ id ∈ r.known, id ∈ s.roster.known := by
    intro r steps
    induction steps with
    | refl => exact ⟨covered, fun _ known => known⟩
    | tail _ step ih =>
      obtain ⟨covered, subset⟩ := ih
      refine ⟨step.covered covered, fun id known => subset id ?_⟩
      cases step with
      | push _ permitted => exact permitted.elim
      | shrink within =>
        obtain ⟨⟨conf, member, inside⟩, either⟩ := known
        rcases either with known | other
        · exact known
        · exact covered.active_known id other ⟨conf, within.subset member, inside⟩
      | switch => exact known
  exact (general t.roster evolved).2

variable {t : Node NodeId} {e : Entry NodeId} (s : Node NodeId)

theorem Broadcasts.roster_eq {s : Node NodeId} (sent : Broadcasts s t) : t.roster = s.roster := by
  have known : { id | id ∈ t.nodes } = { id | id ∈ s.nodes } := Set.ext sent.mem_iff
  rw [roster, known, sent.frame]
  rfl

theorem Rebuilds.roster_eq {s : Node NodeId} (built : Rebuilds s t) : t.roster = s.roster.rebuild := by
  have known : { id | id ∈ t.nodes } = s.roster.rebuild.known := Set.ext built.mem_iff
  rw [roster, known, built.frame]
  rfl

theorem map_roster (f : NodeId → NodeState → NodeState) :
    { s with nodes := s.nodes.map f }.roster = s.roster := by
  simp [roster]

theorem mem_alter_map (m : ExtTreeMap NodeId NodeState) (id : NodeId) (f : NodeState → NodeState)
    (other : NodeId) : other ∈ m.alter id (Option.map f) ↔ other ∈ m := by
  rw [ExtTreeMap.mem_alter]
  split
  · rename_i same
    rw [Option.isSome_map, ← ExtTreeMap.mem_iff_isSome_getElem?, compare_eq_iff_eq.mp same]
  · exact .rfl

theorem setNodeState_roster (id : NodeId) (f : NodeState → NodeState) :
    (s.setNodeState id f).roster = s.roster := by
  simp [roster, setNodeState, mem_alter_map]

theorem becomeRetired_roster (idx : Nat) (phase : RetirementPhase) :
    (s.becomeRetired idx phase).roster = s.roster := by
  cases phase <;> rfl

theorem recordLearnersAndRetired_roster (idx : Nat) (conf : Nodes NodeId) (learners retired) :
    (s.recordLearnersAndRetired idx conf learners retired).roster = s.roster := by
  unfold recordLearnersAndRetired
  dsimp only
  split
  · rfl
  · split <;> rfl

theorem observeConfiguration_roster (idx : Nat) (conf : Nodes NodeId) (learners retired) :
    (s.observeConfiguration idx conf learners retired).roster = s.roster := by
  unfold observeConfiguration
  dsimp only
  split
  · split
    · exact becomeRetired_roster ..
    · rfl
  rw [recordLearnersAndRetired_roster]
  split
  · exact becomeRetired_roster ..
  · rfl

variable (env : Env NodeId) (idx : Nat) (source : NodeId) (r : AppendEntries) (payload : List (Entry NodeId))

theorem addConfiguration_evolves (conf : Nodes NodeId) (learners retired)
    (permitted : permit s.getLatestConfiguration conf) :
    Evolves permit s (s.addConfiguration env idx conf learners retired) := by
  have observed := s.observeConfiguration_roster idx conf learners retired
  unfold addConfiguration
  dsimp only
  generalize s.observeConfiguration idx conf learners retired = u at observed
  split
  · exact .of_eq observed
  refine .after (.step ?_) observed
  rw [(createAndRemoveNodeState_rebuilds env _).roster_eq]
  refine .push { idx, nodes := conf, rid := idx } ?_
  rwa [observed]

def Permits (permit : Nodes NodeId → Nodes NodeId → Prop) (entries : List (Entry NodeId)) : Prop :=
  ∀ e ∈ entries, ∀ change ∈ e.hooks, ∀ latest, permit latest (applyDelta change.cfgDelta latest)

theorem callHooks_evolves (permitted : Permits permit [e]) : Evolves permit s (s.callHooks env e) := by
  refine .foldl _ _ (fun t change member => ?_) s
  unfold configurationChange
  split
  · exact .refl t
  · exact t.addConfiguration_evolves env _ _ _ _ (permitted e (by simp) change member _)

theorem rollbackRetirement_roster : (s.rollbackRetirement idx).roster = s.roster := by
  unfold rollbackRetirement unorderRetirement unsignRetirement
  dsimp only
  split <;> split <;> rfl

theorem rollbackLearnersAndRetired_roster : (s.rollbackLearnersAndRetired idx).roster = s.roster := by
  unfold rollbackLearnersAndRetired
  split <;> rfl

theorem rollbackConfigurations_evolves : Evolves permit s (s.rollbackConfigurations env idx) := by
  unfold rollbackConfigurations
  have kept := rdropWhile_prefix (fun conf : Configuration NodeId => decide (idx < conf.idx))
    s.configurations
  dsimp only
  split
  · refine .step ?_
    rw [(createAndRemoveNodeState_rebuilds env _).roster_eq, rollbackLearnersAndRetired_roster]
    exact .shrink (r := s.roster) kept.isInfix
  rename_i unchanged
  have same := kept.eq_of_length (not_not.mp unchanged)
  refine .of_eq ?_
  rw [rollbackLearnersAndRetired_roster, same]

theorem rollback_evolves : Evolves permit s (s.rollback env idx) := by
  unfold rollback
  split
  · exact .refl s
  · exact .after (rollbackConfigurations_evolves _ env idx) (rollbackRetirement_roster ..)

theorem observeRemoval_roster (c next : Configuration NodeId) : (s.observeRemoval idx c next).roster = s.roster := by
  unfold observeRemoval
  split
  · split
    · exact becomeRetired_roster ..
    · rfl
  · rfl

theorem switchConfiguration_roster (c next : Configuration NodeId) (rest) :
    (s.switchConfiguration c next rest).roster = { s.roster with configurations := next :: rest } := by
  unfold switchConfiguration
  split <;> rfl

/-- A one-transaction service only drops configurations from the front, and
reports it. -/
theorem dropSuperseded_oneTransaction (idx fuel : Nat) (changed : Bool)
    (one : s.reconfigurationType = .oneTransaction) :
    ∃ confs changed', dropSuperseded idx fuel s changed = ({ s with configurations := confs }, changed') ∧
      confs <:+ s.configurations ∧ (changed → changed') ∧ (¬ changed' → confs = s.configurations) := by
  induction fuel generalizing s changed with
  | zero => exact ⟨_, _, rfl, suffix_rfl, id, fun _ => rfl⟩
  | succ fuel ih =>
    unfold dropSuperseded
    split
    · rename_i c next rest front
      split
      · exact ⟨_, _, rfl, suffix_rfl, id, fun _ => rfl⟩
      split
      · obtain ⟨confs, changed', dropped, suffix, reported, -⟩ :=
          ih { s with configurations := next :: rest } true one
        refine ⟨confs, changed', dropped, ?_, fun _ => reported rfl,
          fun silent => absurd (reported rfl) silent⟩
        rw [front]
        exact suffix.trans (suffix_cons c _)
      rename_i two
      rw [one] at two
      cases two
    · exact ⟨_, _, rfl, suffix_rfl, id, fun _ => rfl⟩

theorem dropSuperseded_twoTransaction (idx fuel : Nat) (changed : Bool)
    (two : s.reconfigurationType = .twoTransaction) :
    Evolves permit s (dropSuperseded idx fuel s changed).1 ∧
      (dropSuperseded idx fuel s changed).2 = changed := by
  induction fuel generalizing s with
  | zero => exact ⟨.refl s, rfl⟩
  | succ fuel ih =>
    unfold dropSuperseded
    split
    · rename_i c next rest front
      split
      · exact ⟨.refl s, rfl⟩
      split
      · rename_i one
        rw [two] at one
        cases one
      have observed := s.observeRemoval_roster idx c next
      dsimp only
      generalize s.observeRemoval idx c next = t at observed
      have still : t.roster.reconfigurationType = .twoTransaction := by rw [observed]; exact two
      split
      · have switched := t.switchConfiguration_roster c next rest
        obtain ⟨evolves, same⟩ := ih (t.switchConfiguration c next rest) (by
          change (t.switchConfiguration c next rest).roster.reconfigurationType = _
          rw [switched]
          exact still)
        refine ⟨.after (.trans (.step ?_) evolves) observed, same⟩
        rw [switched]
        exact .switch still (by rw [observed]; exact front)
      · exact ⟨.of_eq observed, rfl⟩
    · exact ⟨.refl s, rfl⟩

theorem completeRetirement_roster : (s.completeRetirement idx).roster = s.roster := by
  unfold completeRetirement
  split
  · exact becomeRetired_roster ..
  · rfl

theorem commit_evolves : Evolves permit s (Result.state (s.commit env idx)) := by
  unfold commit
  split
  · exact .refl s
  split
  · exact .refl s
  have complete := { s with commitIdx := idx }.completeRetirement_roster idx
  dsimp only
  generalize { s with commitIdx := idx }.completeRetirement idx = t at complete
  refine .after ?_ complete
  cases type : t.reconfigurationType with
  | oneTransaction =>
    obtain ⟨confs, changed, dropped, suffix, -, kept⟩ :=
      t.dropSuperseded_oneTransaction idx t.configurations.length false type
    rw [dropped]
    dsimp only [Result.state]
    split
    · refine .step ?_
      rw [(createAndRemoveNodeState_rebuilds env _).roster_eq]
      exact .shrink (r := t.roster) suffix.isInfix
    rename_i silent
    rw [kept silent]
    exact .refl t
  | twoTransaction =>
    obtain ⟨evolves, silent⟩ :=
      t.dropSuperseded_twoTransaction idx t.configurations.length false type
    simpa [Result.state, silent] using evolves

theorem commitIfPossible_evolves : Evolves permit s (Result.state (s.commitIfPossible env idx)) := by
  unfold commitIfPossible
  split
  · dsimp only
    split
    · exact .of_eq rfl
    · exact .after (commit_evolves _ env _) rfl
  · exact .refl s

theorem updateCommit_evolves : Evolves permit s (Result.state (s.updateCommit env)) := by
  unfold updateCommit
  split
  · exact .refl s
  dsimp only
  split
  · exact .of_eq rfl
  · exact .after (commitIfPossible_evolves _ env _) rfl

theorem resetLastAckTimeouts_roster : s.resetLastAckTimeouts.roster = s.roster := map_roster s _

theorem forgetLeader_roster : (s.forgetLeader env).roster = s.roster := by
  rw [forgetLeader, resetLastAckTimeouts_roster]
  rfl

theorem followIfActive_roster : s.followIfActive.roster = s.roster := by
  unfold followIfActive
  split <;> rfl

theorem becomeFollower_evolves : Evolves permit s (s.becomeFollower env) :=
  .after ((rollback_evolves _ env _).trans (.of_eq (followIfActive_roster _)))
    (s.forgetLeader_roster env)

theorem becomeAwareOfNewTerm_evolves (term : Nat) : Evolves permit s (s.becomeAwareOfNewTerm env term) := by
  have follows : Evolves permit _ (becomeFollower env
      { s with currentView := term, votedFor := none, votesForMe := ∅ }) :=
    becomeFollower_evolves _ env
  exact (Evolves.after follows rfl).trans (.of_eq rfl)

theorem prepareToLead_evolves : Evolves permit s (Result.state (s.prepareToLead env)) := by
  unfold prepareToLead
  dsimp only
  split
  · exact .after (rollback_evolves _ env _) rfl
  · split <;> exact .of_eq rfl

theorem resetAndSend_roster (id : NodeId) : (s.resetAndSend env id).roster = s.roster := by
  unfold resetAndSend
  rw [(sendAppendEntries_broadcasts env _ id _).roster_eq]
  exact s.setNodeState_roster id _

theorem startLeading_evolves : Evolves permit s (Result.state (s.startLeading env)) := by
  unfold startLeading
  split
  · exact s.commit_evolves env _
  · exact .foldl _ _ (fun t id _ => .of_eq (t.resetAndSend_roster env id)) s

theorem becomeLeader_evolves : Evolves permit s (Result.state (s.becomeLeader env)) := by
  unfold becomeLeader
  split
  · exact .refl s
  · refine .bind (s.prepareToLead_evolves env) fun t => ?_
    exact .after (startLeading_evolves _ env) (resetLastAckTimeouts_roster _)

theorem addVoteForMe_evolves (voter : NodeId) : Evolves permit s (Result.state (s.addVoteForMe env voter)) := by
  unfold addVoteForMe
  split
  · exact .refl s
  dsimp only
  split
  · exact .after (becomeLeader_evolves _ env) rfl
  · exact .of_eq rfl

theorem sendAuthenticated_roster (dest : NodeId) (m : Message NodeId) :
    (s.sendAuthenticated env dest m).roster = s.roster := by
  unfold sendAuthenticated
  split <;> rfl

theorem becomeCandidate_evolves : Evolves permit s (Result.state (s.becomeCandidate env)) := by
  refine .bind ?_ fun t => .foldl _ _ (fun u id _ => .of_eq (u.sendAuthenticated_roster env id _)) t
  exact .after (addVoteForMe_evolves _ env _) (resetLastAckTimeouts_roster _)

theorem answerRequestVote_roster (r : RequestVote) : (s.answerRequestVote env source r).roster = s.roster := by
  unfold answerRequestVote sendRequestVoteResponse
  split
  · exact s.sendAuthenticated_roster ..
  split
  · exact s.sendAuthenticated_roster ..
  split
  · rw [sendAuthenticated_roster]
    rfl
  · exact s.sendAuthenticated_roster ..

theorem recvRequestVote_evolves (r : RequestVote) : Evolves permit s (s.recvRequestVote env source r) := by
  unfold recvRequestVote
  split
  · exact .of_eq (s.sendAuthenticated_roster ..)
  split
  · exact (s.becomeAwareOfNewTerm_evolves env _).trans (.of_eq (answerRequestVote_roster ..))
  · exact .of_eq (s.answerRequestVote_roster ..)

theorem recvRequestVoteResponse_evolves (r : RequestVoteResponse) :
    Evolves permit s (Result.state (s.recvRequestVoteResponse env source r)) := by
  unfold recvRequestVoteResponse
  split
  · exact .refl s
  split
  · exact .refl s
  split
  · exact s.becomeAwareOfNewTerm_evolves env _
  split
  · exact .refl s
  split
  · exact .refl s
  · exact s.addVoteForMe_evolves env _

theorem updateViewHistory_evolves (idx view : Nat) :
    Evolves permit s (Result.state (s.updateViewHistory idx view)) := by
  unfold updateViewHistory
  split <;> exact .of_eq rfl

theorem startTickingIfNecessary_roster : s.startTickingIfNecessary.roster = s.roster := by
  unfold startTickingIfNecessary
  split <;> rfl

theorem signRetirement_roster : (s.signRetirement idx).roster = s.roster := by
  unfold signRetirement
  split
  · exact becomeRetired_roster ..
  · rfl

theorem deserialiseSignature_evolves (i : Nat) :
    Evolves permit s (Result.state (s.deserialiseSignature env r e i)) := by
  unfold deserialiseSignature
  refine .after ?_ (s.signRetirement_roster i)
  generalize s.signRetirement i = t
  split
  · exact .of_eq rfl
  refine .bind ?_ fun u => u.commitIfPossible_evolves env _
  split
  · exact .after (updateViewHistory_evolves _ _ _) rfl
  · exact .after (updateViewHistory_evolves _ _ _) rfl

theorem prepareEntry_evolves (i : Nat) (permitted : Permits permit [e]) :
    Evolves permit s (s.prepareEntry env e i) := by
  unfold prepareEntry
  have hooks : Evolves permit s ({ s with lastIdx := i }.callHooks env e) := by
    exact .after (callHooks_evolves _ env permitted) rfl
  split
  · exact hooks.trans (.of_eq (startTickingIfNecessary_roster _))
  · exact hooks

theorem executeEntry_evolves (i : Nat) (permitted : Permits permit [e]) :
    Evolves permit s (Result.state (s.executeEntry env r e i)) := by
  unfold executeEntry
  refine (s.prepareEntry_evolves env i permitted).trans ?_
  generalize s.prepareEntry env e i = t
  split
  · exact .after (deserialiseSignature_evolves _ env r i) rfl
  · exact .of_eq rfl

theorem inferView_evolves : Evolves permit s (Result.state (s.inferView r)) := by
  unfold inferView
  dsimp only
  split
  · exact s.updateViewHistory_evolves _ _
  split
  · exact s.updateViewHistory_evolves _ _
  · exact .refl s

theorem sendAppendEntriesResponse_evolves (dest : NodeId) (answer : AppendEntriesResponseType) (rejected) :
    Evolves permit s (Result.state (.ok (s.sendAppendEntriesResponse env dest answer rejected))) :=
  .of_eq (s.sendAuthenticated_roster env dest _)

theorem executeAppendEntriesFinish_evolves :
    Evolves permit s (Result.state (s.executeAppendEntriesFinish env source r)) := by
  refine .bind (s.commitIfPossible_evolves env _) fun t => .bind (t.inferView_evolves r) fun u => ?_
  exact u.sendAppendEntriesResponse_evolves env source _ _

theorem executeAppendEntriesSync_evolves (items : List (Entry NodeId × Nat))
    (permitted : Permits permit (items.map Prod.fst)) :
    Evolves permit s (Result.state (executeAppendEntriesSync env source r s items)) := by
  induction items generalizing s with
  | nil => exact s.executeAppendEntriesFinish_evolves env source r
  | cons item items ih =>
    unfold executeAppendEntriesSync
    split
    · exact .after (sendAppendEntriesResponse_evolves _ env source _ _) rfl
    refine .bind (s.executeEntry_evolves env r item.2 ?_) fun t => ih t ?_
    · exact fun e member => permitted e (by simp_all)
    · exact fun e member => permitted e (by simp_all)

omit [LinearOrder NodeId] in
theorem readEntries_mem {lastIdx i count : Nat} {payload : List (Entry NodeId)}
    {items : List (Entry NodeId × Nat)} (read : readEntries lastIdx i count payload = .ok items) :
    ∀ item ∈ items, item.1 ∈ payload := by
  fun_induction readEntries lastIdx i count payload generalizing items with
  | case1 => cases read; simp
  | case2 => cases read
  | case3 i count e payload ih =>
    cases rest : readEntries lastIdx (i + 1) count payload with
    | error reason => simp [rest, bind, Except.bind] at read
    | ok tail =>
      have inside := ih rest
      simp only [rest, bind, Except.bind, pure, Except.pure, Except.ok.injEq] at read
      subst read
      intro item member
      split at member
      · exact mem_cons_of_mem _ (inside item member)
      rcases mem_cons.mp member with rfl | member
      · exact mem_cons_self
      · exact mem_cons_of_mem _ (inside item member)

theorem rollbackNewFollower_evolves (prevIdx : Nat) : Evolves permit s (s.rollbackNewFollower env prevIdx) := by
  unfold rollbackNewFollower
  split
  · split
    · exact (s.rollback_evolves env prevIdx).trans (.of_eq rfl)
    · exact .of_eq rfl
  · exact .refl s

section
variable (permitted : Permits permit payload)
include permitted

theorem executeBatch_evolves : Evolves permit s (Result.state (s.executeBatch env source r payload)) := by
  unfold executeBatch
  split
  · exact .refl s
  · exact s.sendAppendEntriesResponse_evolves env source _ _
  rename_i items read
  refine s.executeAppendEntriesSync_evolves env source r items fun e member => permitted e ?_
  obtain ⟨item, within, rfl⟩ := List.mem_map.mp member
  exact readEntries_mem read item within

theorem acceptAppendEntries_evolves :
    Evolves permit s (Result.state (s.acceptAppendEntries env source r payload)) := by
  have recognised : (s.recogniseLeader env source).roster = s.roster := rfl
  unfold acceptAppendEntries
  dsimp only
  split
  · exact .of_eq recognised
  split
  · exact .of_eq recognised
  · exact .after (.trans (rollbackNewFollower_evolves _ env r.prevIdx)
      (executeBatch_evolves _ env source r payload permitted)) recognised

theorem checkAppendEntries_evolves : Evolves permit s (Result.state (s.checkAppendEntries env source r payload)) := by
  unfold checkAppendEntries
  dsimp only
  split
  · split <;> exact s.sendAppendEntriesResponse_evolves env source _ _
  split
  · exact s.sendAppendEntriesResponse_evolves env source _ _
  · exact s.acceptAppendEntries_evolves env source r payload permitted

theorem recvAppendEntries_evolves : Evolves permit s (Result.state (s.recvAppendEntries env source r payload)) := by
  have aware : Evolves permit s (Result.state
      ((s.becomeAwareOfNewTerm env r.term).checkAppendEntries env source r payload)) :=
    (s.becomeAwareOfNewTerm_evolves env _).trans
      (checkAppendEntries_evolves _ env source r payload permitted)
  unfold recvAppendEntries
  split
  · exact aware
  split
  · exact aware
  split
  · exact s.sendAppendEntriesResponse_evolves env source _ _
  · exact s.checkAppendEntries_evolves env source r payload permitted

end

theorem recordResponse_evolves (node : NodeState) (r : AppendEntriesResponse) :
    Evolves permit s (Result.state (s.recordResponse env source node r)) := by
  unfold recordResponse
  split
  · split
    · exact .refl s
    split
    · exact .refl s
    · exact .after (updateCommit_evolves _ env) (s.setNodeState_roster source _)
  · exact .of_eq (s.setNodeState_roster source _)
  · refine .of_eq ((setNodeState_roster _ source _).trans (s.setNodeState_roster source _))

theorem recvAppendEntriesResponse_evolves (r : AppendEntriesResponse) :
    Evolves permit s (Result.state (s.recvAppendEntriesResponse env source r)) := by
  unfold recvAppendEntriesResponse
  split
  · exact .refl s
  split
  · exact .refl s
  dsimp only
  split
  · exact .after (becomeAwareOfNewTerm_evolves _ env _) (s.setNodeState_roster source _)
  · exact .after (recordResponse_evolves _ env source _ r) (s.setNodeState_roster source _)

def PermitsMessage (permit : Nodes NodeId → Nodes NodeId → Prop) : Message NodeId → Prop
  | .appendEntries _ payload => Permits permit payload
  | _ => True

theorem recvMessage_evolves (m : Message NodeId) (permitted : PermitsMessage permit m) :
    Evolves permit s (s.recvMessage env source m) := by
  cases m with
  | appendEntries r payload => exact s.recvAppendEntries_evolves env source r payload permitted
  | appendEntriesResponse r => exact s.recvAppendEntriesResponse_evolves env source r
  | requestVote r => exact s.recvRequestVote_evolves env source r
  | requestVoteResponse r => exact s.recvRequestVoteResponse_evolves env source r

theorem recordSignature_roster (index : Nat) : (s.recordSignature index).roster = s.roster := by
  unfold recordSignature
  rw [startTickingIfNecessary_roster]
  exact s.signRetirement_roster index

theorem sendIfLarge_roster : (s.sendIfLarge env).roster = s.roster := by
  unfold sendIfLarge
  split
  · rw [(sendToAll_broadcasts env _).roster_eq]
    rfl
  · rfl

theorem replicateEntry_evolves (permitted : Permits permit [e]) :
    Evolves permit s (Result.state (s.replicateEntry env e)) := by
  unfold replicateEntry
  refine (s.callHooks_evolves env permitted).trans ?_
  generalize s.callHooks env e = t
  have signed : (if e.isSignature then t.recordSignature e.index else t).roster = t.roster := by
    split
    · exact t.recordSignature_roster _
    · rfl
  dsimp only
  generalize (if e.isSignature then t.recordSignature e.index else t) = u at signed
  refine .after (.bind (.after (updateViewHistory_evolves _ _ _) ?_) fun v => ?_) signed
  · rfl
  · exact .of_eq (v.sendIfLarge_roster env)

section Replication
variable {R : Node NodeId → Node NodeId → Prop} (refl : ∀ s, R s s) (trans : ∀ s t u, R s t → R t u → R s u)
include refl trans

theorem replicateEntries_rel (entries : List (Entry NodeId))
    (each : ∀ s, ∀ e ∈ entries, e.index = s.lastIdx + 1 → R s (Result.state (s.replicateEntry env e))) :
    (∀ t b, replicateEntries env s entries = .ok (t, b) → R s t) ∧
      ∀ thrown, replicateEntries env s entries = .error thrown → R s thrown.state := by
  induction entries generalizing s with
  | nil => simp [replicateEntries, refl]
  | cons e entries ih =>
    unfold replicateEntries
    split
    · simp [refl]
    rename_i next
    split
    · simp [refl]
    have first := each s e mem_cons_self (not_not.mp next)
    cases result : s.replicateEntry env e with
    | error thrown =>
      rw [result] at first
      simpa [bind, Except.bind, Result.state] using first
    | ok t =>
      rw [result] at first
      obtain ⟨returns, throws⟩ := ih t fun s e member => each s e (mem_cons_of_mem _ member)
      exact ⟨fun u b ends => trans _ _ _ first (returns u b ends),
        fun thrown ends => trans _ _ _ first (throws thrown ends)⟩

theorem replicated_of {P : Node NodeId → Prop} (env : Env NodeId) (entries : List (Entry NodeId)) (term : Nat)
    (rolled : P (s.rollback env s.lastIdx))
    (each : ∀ s, ∀ e ∈ entries, e.index = s.lastIdx + 1 → R s (Result.state (s.replicateEntry env e)))
    (commits : ∀ s, R s (Result.state (s.updateCommit env))) (reached : ∀ t, R s t → P t) :
    P (s.replicated env entries term) := by
  unfold replicated replicate
  split_ifs with notLeader stale
  · exact rolled
  · exact reached s (refl s)
  obtain ⟨returns, throws⟩ := s.replicateEntries_rel env refl trans entries each
  cases result : replicateEntries env s entries with
  | error thrown => exact reached _ (throws thrown result)
  | ok pair =>
    obtain ⟨t, complete⟩ := pair
    have first := returns t complete result
    simp only [bind, Except.bind]
    by_cases alone : (complete && t.nodes.isEmpty) = true
    · rw [if_pos alone]
      have committed := commits t
      cases outcome : t.updateCommit env with
      | error thrown | ok u =>
        rw [outcome] at committed
        exact reached _ (trans _ _ _ first committed)
    · rw [if_neg alone]
      exact reached t first

end Replication

theorem replicated_evolves (entries : List (Entry NodeId)) (term : Nat) (permitted : Permits permit entries) :
    Evolves permit s (s.replicated env entries term) :=
  s.replicated_of .refl (fun _ _ _ first second => first.trans second) env entries term (s.rollback_evolves env _)
    (fun t e member _ => t.replicateEntry_evolves env fun e' same => permitted e' (by simp_all))
    (fun t => t.updateCommit_evolves env) fun _ reached => reached

theorem periodic_evolves (elapsed : Nat) : Evolves permit s (Result.state (s.periodic env elapsed)) := by
  unfold periodic
  dsimp only
  split
  · refine .after (s := s) (t := { s with timeoutElapsed := s.timeoutElapsed + elapsed }) ?_ rfl
    generalize { s with timeoutElapsed := s.timeoutElapsed + elapsed } = t
    have due : (t.sendIfDue env).roster = t.roster := by
      unfold sendIfDue
      split
      · rw [(sendToAll_broadcasts env _).roster_eq]
        rfl
      · rfl
    refine .after ?_ due
    unfold periodicLeader checkQuorum
    dsimp only
    split
    · exact .after (becomeFollower_evolves _ env) (map_roster _ _)
    · exact .of_eq (map_roster _ _)
  · split
    · exact .after (becomeCandidate_evolves _ env) rfl
    · exact .of_eq rfl

theorem forceBecomePrimary_evolves : Evolves permit s (Result.state (s.forceBecomePrimary env)) := by
  unfold forceBecomePrimary
  split
  · exact .refl s
  · exact .after (becomeLeader_evolves _ env) rfl

theorem forceBecomePrimaryAt_evolves (index term : Nat) (terms : List Nat) (commitIdx : Nat) :
    Evolves permit s (Result.state (s.forceBecomePrimaryAt env index term terms commitIdx)) := by
  unfold forceBecomePrimaryAt
  split
  · exact .refl s
  split
  · exact .of_eq rfl
  · refine .bind (.after (updateViewHistory_evolves _ _ _) rfl) fun t => ?_
    exact .after (becomeLeader_evolves _ env) rfl

theorem initAsBackup_evolves (index term : Nat) (history : List Nat) :
    Evolves permit s (Result.state (s.initAsBackup env index term history)) := by
  unfold initAsBackup
  split
  · exact .of_eq rfl
  · exact .after (becomeAwareOfNewTerm_evolves _ env term) rfl

end Node
end CCF.Aft
