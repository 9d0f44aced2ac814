import ShardedCCF.Aft.CommitIndex

/-! What a node keeps when it steps down. It rolls back to its last committable
index, and `become_leader` has emptied the queue that index is read from. -/
namespace CCF.Aft
open Std (ExtTreeMap)

variable {NodeId : Type}

namespace Log

/-- Every entry up to a signature of `l` is still there in `l'`. -/
def KeepsSigned (l l' : Log NodeId) : Prop :=
  ∀ i j, i ≤ j → l.SignedAt j → l'.entryAt i = l.entryAt i

theorem entryAt_truncate_above (l : Log NodeId) (above : idx < i) : (l.truncate idx).entryAt i = none := by
  unfold entryAt truncate
  dsimp only
  split
  · rfl
  · exact List.getElem?_take_eq_none (by omega)

theorem rollback_keepsSigned {l : Log NodeId} (formed : l.WellFormed) (view : Nat) :
    l.KeepsSigned (l.rollback view l.lastCommittableIndex) ↔
      ∀ i, l.SignedAt i → i ≤ l.lastCommittableIndex := by
  have committed := formed.le_lastCommittable
  have rolled : ∀ i, (l.rollback view l.lastCommittableIndex).entryAt i =
      (l.truncate l.lastCommittableIndex).entryAt i := by
    intro i
    simp only [rollback, if_neg (not_lt.mpr committed)]
    rfl
  constructor
  · intro keeps i signed
    by_contra above
    obtain ⟨e, found, -⟩ := id signed
    have kept := keeps i i le_rfl signed
    rw [rolled, found] at kept
    rw [l.entryAt_truncate_above (not_le.mp above)] at kept
    cases kept
  · intro below i j le signed
    rw [rolled]
    exact l.entryAt_truncate (le.trans (below j signed))

end Log

variable [LinearOrder NodeId]

scoped instance neZero_three : NeZero 3 := ⟨by decide⟩

scoped instance transCmp_three : Std.TransCmp (compare : Fin 3 → Fin 3 → Ordering) := inferInstance

/-- Three nodes; the timeouts let one tick of 1 send and one of 10 elect. -/
def threeNodes : Settings (Fin 3) where
  requestTimeout := 1
  electionTimeout := 10
  configuration := some ((((∅ : Nodes (Fin 3)).insert 0 ⟨"h", "0"⟩).insert 1 ⟨"h", "1"⟩).insert 2 ⟨"h", "2"⟩)

def signatureEntry (i : Nat) : Entry (Fin 3) :=
  { term := 0, index := i, kind := .signature, data := [], hooks := [] }

namespace Node

/-- The states of a node that is started and then serves; its messages leave it. -/
inductive Reachable : Node NodeId → Prop where
  | start : s.Started → Reachable s
  | step : Reachable s → s.Serves op → Reachable (s.perform op)
  | flush : Reachable s → Reachable { s with outbox := [] }

variable {s : Node NodeId}

theorem Reachable.sound (reachable : s.Reachable) : s.Sound := by
  induction reachable with
  | start started => exact started.sound
  | step _ serves ih => exact (ih.perform serves).1
  | flush _ ih => exact ⟨ih.covered, ih.grounded, by simp⟩

theorem becomeFollower_toLog (env : Env NodeId) (covered : s.roster.Covered) :
    (s.becomeFollower env).toLog = s.toLog.rollback s.currentView s.lastCommittableIndex := by
  obtain ⟨-, -, -, known, matchOf, -, equal⟩ := s.becomeFollower_spec env (.of_covered covered)
  exact congrArg Replica.toLog equal

theorem becomeAwareOfNewTerm_toLog (env : Env NodeId) (term : Nat) (covered : s.roster.Covered) :
    (s.becomeAwareOfNewTerm env term).toLog =
      { s.toLog.rollback term s.lastCommittableIndex with isNewFollower := true } := by
  obtain ⟨-, -, -, known, matchOf, -, equal⟩ :=
    s.becomeAwareOfNewTerm_spec env term (.of_covered covered)
  exact congrArg Replica.toLog equal

end Node

namespace Cluster

theorem put_reachable {c : Cluster NodeId} (op : Operation NodeId) (nodes : ∀ n, (c.node n).Reachable)
    (net : ∀ m ∈ c.net, m.message.InView) (serves : (c.node n).Serves op) :
    (∀ k, ((c.put n ((c.node n).perform op)).node k).Reachable) ∧
      ∀ m ∈ (c.put n ((c.node n).perform op)).net, m.message.InView := by
  have stepped := (nodes n).step serves
  constructor
  · intro k
    by_cases same : k = n
    · subst same
      simpa only [put, Function.update_self] using stepped.flush
    · simpa only [put, Function.update_of_ne same] using nodes k
  · intro m member
    rcases List.mem_append.mp member with old | new
    · exact net m old
    · obtain ⟨sent, sends, rfl⟩ := List.mem_map.mp new
      exact stepped.sound.sent sent sends

theorem step_reachable {c c' : Cluster NodeId} (taken : c.step a = some c')
    (nodes : ∀ n, (c.node n).Reachable) (net : ∀ m ∈ c.net, m.message.InView) :
    (∀ n, (c'.node n).Reachable) ∧ ∀ m ∈ c'.net, m.message.InView := by
  cases a with
  | tick env n elapsed =>
    cases taken
    exact put_reachable (.periodic env elapsed) nodes net trivial
  | replicate env n entries term =>
    cases taken
    exact put_reachable (.replicate env (entries.map (Entry.stamp term)) term) nodes net
      (by simp [Node.Serves, Entry.stamp])
  | deliver env k =>
    unfold step at taken
    cases found : c.net[k]? with
    | none => simp [found] at taken
    | some m =>
      simp only [found, Option.some.injEq] at taken
      rw [← taken]
      exact put_reachable (c := { c with net := c.net.eraseIdx k })
        (.recvMessage env m.source m.message) nodes
        (fun m member => net m (List.mem_of_mem_eraseIdx member))
        (net m (List.mem_of_getElem? found))
  | lose k =>
    simp only [step] at taken
    split at taken
    · cases taken
      exact ⟨nodes, fun m member => net m (List.mem_of_mem_eraseIdx member)⟩
    · cases taken

/-- The nodes of a run are reachable, and only messages of a view are in flight. -/
theorem run_reachable {settings : Settings NodeId} {primary : NodeId} {trace : Trace NodeId}
    {c : Cluster NodeId} (run : Run settings primary trace c) :
    (∀ n, (c.node n).Reachable) ∧ ∀ m ∈ c.net, m.message.InView := by
  induction run with
  | start =>
    have primary' : (Node.initialPrimary settings primary).Reachable := .start (.primary settings primary)
    constructor
    · intro n
      by_cases same : n = primary
      · simpa [initial, same] using primary'.flush
      simp only [initial, if_neg same]
      refine .start (.backup settings n {} 0 0 [] _ ?_)
      rfl
    · intro m member
      obtain ⟨sent, sends, rfl⟩ := List.mem_map.mp member
      exact primary'.sound.sent sent sends
  | next _ taken ih => exact step_reachable taken ih.1 ih.2

end Cluster

/-- Node 0 commits index 1 everywhere and index 2 with node 1, which then wins
view 3 with the vote of node 2. -/
def electedWithSignature : List (Action (Fin 3)) :=
  [.lose 0, .lose 0, .replicate {} 0 [signatureEntry 1] 2, .tick {} 0 1,
    .deliver {} 0, .deliver {} 0, .deliver {} 0, .lose 0,
    .replicate {} 0 [signatureEntry 2] 2, .tick {} 0 1, .deliver {} 0, .lose 0, .deliver {} 0,
    .tick {} 1 10, .lose 0, .deliver {} 0, .deliver {} 0]

end CCF.Aft
