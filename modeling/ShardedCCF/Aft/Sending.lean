import ShardedCCF.Aft.Cluster

/-! What sending AppendEntries and rebuilding the node table do to a node: only
the table and the outbox change, confirmed indices stay, and nothing but ranges
of the node's own log is sent. -/
namespace CCF.Aft
open List
open Std (ExtTreeMap)

variable {NodeId : Type} [LinearOrder NodeId]

/-- Not an AppendEntries with entries. -/
def Message.Hollow (m : Message NodeId) : Prop :=
  ∀ ae payload, m = .appendEntries ae payload → ae.idx ≤ ae.prevIdx

namespace Node

def matchOf (s : Node NodeId) (id : NodeId) : Nat := (s.nodes[id]?.map (·.matchIdx)).getD 0

/-- A message `send_append_entries` may send: a range that starts behind the
sender's log or in it, and ends where `calculate_end_index` says. -/
def Sendable (l : Log NodeId) (view : Nat) (m : Message NodeId) : Prop :=
  ∃ startIdx batchSize, (1 ≤ startIdx ∨ l.lastIdx = 0) ∧
    m = l.appendEntriesMessage view startIdx (l.calculateEndIndex batchSize startIdx)

/-- A message to a node that is new in the table: it is sent from the end of the
log, so it has no entries. -/
def Enrols (l : Log NodeId) (view : Nat) (m : Message NodeId) : Prop :=
  Sendable l view m ∧ (l.Bounded → m.Hollow)

/-- `t` is `s` after sending AppendEntries to nodes of its table. -/
structure Broadcasts (s t : Node NodeId) : Prop where
  frame : t = { s with nodes := t.nodes, outbox := t.outbox }
  mem_iff : ∀ id, id ∈ t.nodes ↔ id ∈ s.nodes
  matchOf_eq : ∀ id, t.matchOf id = s.matchOf id
  sent : ∃ msgs, t.outbox = s.outbox ++ msgs ∧
    ∀ m ∈ msgs, m.1 ∈ s.nodes ∧ Sendable s.toLog s.currentView m.2

namespace Broadcasts
variable {s t u : Node NodeId}

theorem refl (s : Node NodeId) : Broadcasts s s :=
  ⟨rfl, fun _ => .rfl, fun _ => rfl, [], by simp⟩

theorem trans (first : Broadcasts s t) (second : Broadcasts t u) : Broadcasts s u := by
  obtain ⟨frame, mem, matching, msgs, sent, sendable⟩ := first
  obtain ⟨frame', mem', matching', msgs', sent', sendable'⟩ := second
  refine ⟨?_, fun id => (mem' id).trans (mem id), fun id => (matching' id).trans (matching id),
    msgs ++ msgs', by rw [sent', sent, append_assoc], ?_⟩
  · rw [frame', frame]
  · intro m member
    rcases mem_append.mp member with old | new
    · exact sendable m old
    obtain ⟨known, able⟩ := sendable' m new
    rw [frame] at able
    exact ⟨(mem _).mp known, able⟩

theorem foldl {α : Type} (f : Node NodeId → α → Node NodeId) (step : ∀ s a, Broadcasts s (f s a))
    (items : List α) (s : Node NodeId) : Broadcasts s (items.foldl f s) := by
  induction items generalizing s with
  | nil => exact refl s
  | cons a items ih => exact (step s a).trans (ih _)

end Broadcasts

variable (env : Env NodeId) (s : Node NodeId) {id : NodeId}

theorem sendAppendEntriesRange_broadcasts (dest : NodeId) {startIdx : Nat} (batchSize : Nat)
    (valid : 1 ≤ startIdx ∨ s.lastIdx = 0) :
    Broadcasts s (s.sendAppendEntriesRange env dest startIdx
      (s.calculateEndIndex batchSize startIdx)) := by
  unfold sendAppendEntriesRange
  split
  · exact .refl s
  cases found : s.nodes[dest]? with
  | none => exact .refl s
  | some node =>
    have known : dest ∈ s.nodes := by
      rw [ExtTreeMap.mem_iff_isSome_getElem?, found]
      rfl
    dsimp only
    split
    · refine ⟨rfl, ?_, ?_, [_], rfl, ?_⟩
      · intro id
        simp only [ExtTreeMap.mem_insert]
        constructor
        · rintro (same | member)
          · rwa [← compare_eq_iff_eq.mp same]
          · exact member
        · exact .inr
      · intro id
        simp only [matchOf, ExtTreeMap.getElem?_insert]
        split
        · rename_i same
          rw [← compare_eq_iff_eq.mp same, found]
          rfl
        · rfl
      · simp only [mem_singleton, forall_eq]
        exact ⟨known, startIdx, batchSize, valid, rfl⟩
    · exact .refl s

theorem sendBatches_broadcasts (dest : NodeId) (fuel : Nat) {startIdx : Nat}
    (valid : 1 ≤ startIdx ∨ s.lastIdx = 0) :
    Broadcasts s (sendBatches env dest fuel s startIdx) := by
  induction fuel generalizing s startIdx with
  | zero => exact .refl s
  | succ fuel ih =>
    have first := s.sendAppendEntriesRange_broadcasts env dest s.entriesBatchSize valid
    simp only [sendBatches]
    split
    · exact first
    · exact first.trans (ih _ (by omega))

theorem sendAppendEntries_broadcasts (dest : NodeId) (startIdx : Nat) :
    Broadcasts s (s.sendAppendEntries env dest (startIdx + 1)) :=
  s.sendBatches_broadcasts env dest _ (.inl (by omega))

theorem sendToAll_broadcasts : Broadcasts s (s.sendToAll env) :=
  .foldl _ (fun s (id, node) => s.sendAppendEntries_broadcasts env id node.sentIdx) _ s

def Active (id : NodeId) : Prop := ∃ conf ∈ s.configurations, id ∈ conf.nodes

def Covers : Prop := ∀ id, id ≠ s.myNodeId → s.Active id → id ∈ s.nodes

theorem foldl_insertIfNew_mem (items : List (NodeId × NodeInfo)) (m : Nodes NodeId) (id : NodeId) :
    id ∈ items.foldl (fun m (id, info) => m.insertIfNew id info) m ↔
      id ∈ m ∨ id ∈ items.map Prod.fst := by
  induction items generalizing m with
  | nil => simp
  | cons item items ih =>
    rw [foldl_cons, ih, ExtTreeMap.mem_insertIfNew, compare_eq_iff_eq, map_cons,
      mem_cons, eq_comm (a := item.1)]
    tauto

theorem mem_activeNodes (id : NodeId) : id ∈ s.activeNodes ↔ s.Active id := by
  have general : ∀ (confs : List (Configuration NodeId)) (m : Nodes NodeId),
      id ∈ confs.foldl (fun active conf =>
        conf.nodes.toList.foldl (fun m (id, info) => m.insertIfNew id info) active) m ↔
      id ∈ m ∨ ∃ conf ∈ confs, id ∈ conf.nodes := by
    intro confs
    induction confs with
    | nil => simp
    | cons conf confs ih =>
      intro m
      rw [foldl_cons, ih, foldl_insertIfNew_mem, ExtTreeMap.map_fst_toList_eq_keys,
        ExtTreeMap.mem_keys]
      simp only [mem_cons, exists_eq_or_imp, or_assoc]
  simpa [activeNodes, Active] using general s.configurations ∅

/-- `t` is `s` with further nodes in its table, to which a primary has sent
AppendEntries. -/
structure Enlists (s t : Node NodeId) : Prop where
  frame : t = { s with nodes := t.nodes, outbox := t.outbox }
  mem_of_mem : ∀ id, id ∈ s.nodes → id ∈ t.nodes
  sent : ∃ msgs, t.outbox = s.outbox ++ msgs ∧ ∀ m ∈ msgs, s.isPrimary ∧
    m.1 ∈ t.nodes ∧ Enrols s.toLog s.currentView m.2

namespace Enlists
variable {s t u : Node NodeId}

theorem refl (s : Node NodeId) : Enlists s s := ⟨rfl, fun _ known => known, [], by simp⟩

theorem trans (first : Enlists s t) (second : Enlists t u) : Enlists s u := by
  obtain ⟨frame, mem, msgs, sent, sendable⟩ := first
  obtain ⟨frame', mem', msgs', sent', sendable'⟩ := second
  refine ⟨by rw [frame', frame], fun id known => mem' id (mem id known), msgs ++ msgs',
    by rw [sent', sent, append_assoc], ?_⟩
  intro m member
  rcases mem_append.mp member with old | new
  · obtain ⟨primary, known, able⟩ := sendable m old
    exact ⟨primary, mem' _ known, able⟩
  · have := sendable' m new
    rwa [frame] at this

end Enlists


theorem addNodeState_eq (known : id = s.myNodeId ∨ id ∈ s.nodes) (info : NodeInfo) :
    s.addNodeState env id info = s := by
  rcases known with same | member
  · rw [addNodeState, if_pos same]
  rw [addNodeState]
  split
  · rfl
  · rw [if_pos (ExtTreeMap.mem_iff_contains.mp member)]

def enlist (id : NodeId) (info : NodeInfo) : Node NodeId :=
  { s with nodes := s.nodes.insertIfNew id ⟨info, s.lastIdx + 1, 0, 0⟩ }

theorem sendAppendEntries_behind (bounded : s.toLog.Bounded) (dest : NodeId) :
    s.sendAppendEntries env dest (s.lastIdx + 1) =
      s.sendAppendEntriesRange env dest (s.lastIdx + 1) s.lastIdx := by
  have last := Log.calculateEndIndex_behind bounded s.entriesBatchSize
  have sent := s.sendAppendEntriesRange_broadcasts env dest s.entriesBatchSize
    (.inl (Nat.le_add_left 1 s.lastIdx))
  rw [last] at sent
  rw [sendAppendEntries, sendBatches]
  simp only [last]
  rw [if_pos]
  rw [sent.frame]

theorem sendAppendEntries_hollow (bounded : s.toLog.Bounded) (dest : NodeId)
    (sent : (s.sendAppendEntries env dest (s.lastIdx + 1)).outbox = s.outbox ++ msgs)
    (member : m ∈ msgs) : m.2.Hollow := by
  rw [s.sendAppendEntries_behind env bounded, sendAppendEntriesRange] at sent
  have none : s.outbox = s.outbox ++ msgs → m.2.Hollow := by
    intro same
    rw [append_right_eq_self.mp same.symm] at member
    cases member
  split at sent
  · exact none sent
  split at sent
  · exact none sent
  split at sent
  · obtain rfl : [_] = msgs := append_cancel_left sent
    rw [mem_singleton.mp member]
    rintro ae payload equal
    cases equal
    exact le_rfl
  · exact none sent

theorem addNodeState_of_new (other : id ≠ s.myNodeId) (absent : id ∉ s.nodes) (info : NodeInfo) :
    Broadcasts (s.enlist id info) (s.addNodeState env id info) ∧
      (¬ s.isPrimary → s.addNodeState env id info = s.enlist id info) := by
  rw [addNodeState, if_neg other, if_neg (fun present => absent (ExtTreeMap.mem_iff_contains.mpr present))]
  dsimp only
  split
  · rename_i primary
    exact ⟨sendAppendEntries_broadcasts env (s.enlist id info) id s.lastIdx,
      fun backup => absurd primary backup⟩
  · exact ⟨.refl _, fun _ => rfl⟩

theorem mem_addNodeState (info : NodeInfo) (other : NodeId) :
    other ∈ (s.addNodeState env id info).nodes ↔
      other ∈ s.nodes ∨ (other = id ∧ other ≠ s.myNodeId) := by
  by_cases known : id = s.myNodeId ∨ id ∈ s.nodes
  · rw [s.addNodeState_eq env known]
    constructor
    · exact .inl
    · rintro (member | ⟨rfl, other⟩)
      · exact member
      · exact known.resolve_left other
  obtain ⟨notSelf, absent⟩ := not_or.mp known
  rw [(s.addNodeState_of_new env notSelf absent info).1.mem_iff, enlist,
    ExtTreeMap.mem_insertIfNew, compare_eq_iff_eq]
  constructor
  · rintro (rfl | member)
    · exact .inr ⟨rfl, notSelf⟩
    · exact .inl member
  · rintro (member | ⟨rfl, -⟩)
    · exact .inr member
    · exact .inl rfl

theorem addNodeState_enlists (info : NodeInfo) : Enlists s (s.addNodeState env id info) := by
  by_cases known : id = s.myNodeId ∨ id ∈ s.nodes
  · rw [s.addNodeState_eq env known]
    exact .refl s
  obtain ⟨notSelf, absent⟩ := not_or.mp known
  obtain ⟨broadcast, quiet⟩ := s.addNodeState_of_new env notSelf absent info
  obtain ⟨msgs, sent, able⟩ := broadcast.sent
  refine ⟨broadcast.frame, fun other member => (s.mem_addNodeState env info other).mpr (.inl member),
    ?_⟩
  by_cases primary : s.isPrimary
  · refine ⟨msgs, sent, fun m member => ?_⟩
    refine ⟨primary, (broadcast.mem_iff _).mpr (able m member).1, (able m member).2,
      fun bounded => ?_⟩
    rw [addNodeState, if_neg notSelf, if_neg fun present => absent (ExtTreeMap.mem_iff_contains.mpr present)]
      at sent
    simp only [primary, if_true] at sent
    exact (s.enlist id info).sendAppendEntries_hollow env bounded id sent member
  refine ⟨[], ?_, by simp⟩
  rw [quiet primary]
  simp [enlist]

structure Rebuilds (s t : Node NodeId) : Prop where
  frame : t = { s with nodes := t.nodes, outbox := t.outbox }
  mem_iff : ∀ id, id ∈ t.nodes ↔ s.Active id ∧ (id ∈ s.nodes ∨ id ≠ s.myNodeId)
  sent : ∃ msgs, t.outbox = s.outbox ++ msgs ∧ ∀ m ∈ msgs, s.isPrimary ∧
    m.1 ∈ t.nodes ∧ Enrols s.toLog s.currentView m.2

theorem foldl_addNodeState (items : List (NodeId × NodeInfo)) :
    let t := items.foldl (fun s (id, info) => s.addNodeState env id info) s
    Enlists s t ∧ ∀ id, id ∈ t.nodes ↔ id ∈ s.nodes ∨ (id ∈ items.map Prod.fst ∧ id ≠ s.myNodeId) := by
  induction items generalizing s with
  | nil => exact ⟨.refl s, by simp⟩
  | cons item items ih =>
    have first : Enlists s (s.addNodeState env item.1 item.2) := s.addNodeState_enlists env item.2
    obtain ⟨rest, mem⟩ := ih (s.addNodeState env item.1 item.2)
    have self : (s.addNodeState env item.1 item.2).myNodeId = s.myNodeId := by rw [first.frame]
    refine ⟨first.trans rest, fun id => ?_⟩
    rw [foldl_cons, mem id, mem_addNodeState, self, map_cons, mem_cons]
    tauto

theorem mem_filter_active : id ∈ s.nodes.filter (fun id _ => s.activeNodes.contains id) ↔
    id ∈ s.nodes ∧ s.Active id := by
  rw [ExtTreeMap.mem_filter, ← mem_activeNodes]
  constructor
  · rintro ⟨known, active⟩
    rw [ExtTreeMap.getKey_eq, ← ExtTreeMap.mem_iff_contains] at active
    exact ⟨known, active⟩
  · rintro ⟨known, active⟩
    refine ⟨known, ?_⟩
    rwa [ExtTreeMap.getKey_eq, ← ExtTreeMap.mem_iff_contains]

theorem createAndRemoveNodeState_rebuilds : Rebuilds s (s.createAndRemoveNodeState env) := by
  obtain ⟨⟨frame, -, sent⟩, mem⟩ := foldl_addNodeState env
    { s with nodes := s.nodes.filter fun id _ => s.activeNodes.contains id } s.activeNodes.toList
  refine ⟨frame, fun id => ?_, sent⟩
  rw [createAndRemoveNodeState, mem id, ExtTreeMap.map_fst_toList_eq_keys, ExtTreeMap.mem_keys,
    mem_activeNodes, mem_filter_active]
  tauto

theorem createAndRemoveNodeState_of_covers (covers : s.Covers) :
    s.createAndRemoveNodeState env =
      { s with nodes := s.nodes.filter fun id _ => s.activeNodes.contains id } := by
  have known : ∀ item ∈ s.activeNodes.toList, item.1 = s.myNodeId ∨
      item.1 ∈ s.nodes.filter fun id _ => s.activeNodes.contains id := by
    intro item member
    have active : s.Active item.1 := by
      rw [← mem_activeNodes, ← ExtTreeMap.mem_keys, ← ExtTreeMap.map_fst_toList_eq_keys]
      exact List.mem_map_of_mem member
    by_cases self : item.1 = s.myNodeId
    · exact .inl self
    · exact .inr (s.mem_filter_active.mpr ⟨covers _ self active, active⟩)
  rw [createAndRemoveNodeState]
  dsimp only
  generalize s.activeNodes.toList = items at known
  induction items with
  | nil => rfl
  | cons item items ih =>
    rw [foldl_cons, addNodeState_eq]
    · exact ih fun item member => known item (mem_cons_of_mem _ member)
    · exact known item mem_cons_self

end Node
end CCF.Aft
