import ShardedCCF.Aft.Registry
import ShardedCCF.Lib.Slots

/-! The configurations of a one-transaction node against the nodes table. Each
entry carries the change of the table as a delta, and the newest configuration
is what the deltas of the log add up to, whatever was committed or rolled back
on the way. -/
namespace CCF.Aft
open List
open Std (ExtTreeMap)

variable {NodeId : Type} [LinearOrder NodeId]

def applyChanges (changes : List (ConfigurationChange NodeId)) (conf : Nodes NodeId) : Nodes NodeId :=
  changes.foldl (fun conf change => applyDelta change.cfgDelta conf) conf

def changesOf (ledger : List (Entry NodeId)) : List (ConfigurationChange NodeId) :=
  ledger.flatMap (·.hooks)

omit [LinearOrder NodeId] in
theorem changesOf_append (ledger : List (Entry NodeId)) (e : Entry NodeId) :
    changesOf (ledger ++ [e]) = changesOf ledger ++ e.hooks := by
  simp [changesOf]

theorem applyChanges_append (changes more : List (ConfigurationChange NodeId)) (conf : Nodes NodeId) :
    applyChanges (changes ++ more) conf = applyChanges more (applyChanges changes conf) :=
  foldl_append

def latestOf (confs : List (Configuration NodeId)) : Nodes NodeId :=
  (confs.getLast?.map (·.nodes)).getD ∅

def confsUntil (idx : Nat) (confs : List (Configuration NodeId)) : List (Configuration NodeId) :=
  confs.rdropWhile fun conf => idx < conf.idx

theorem confsUntil_append_of_lt {confs more : List (Configuration NodeId)}
    (later : ∀ conf ∈ more, idx < conf.idx) : confsUntil idx (confs ++ more) = confsUntil idx confs := by
  induction more using reverseRecOn with
  | nil => rw [append_nil]
  | append_singleton more conf ih =>
    rw [confsUntil, ← append_assoc, rdropWhile_concat_pos _ _ _ (by
      simpa using later conf (by simp))]
    exact ih fun conf member => later conf (by simp [member])

theorem confsUntil_of_le {confs : List (Configuration NodeId)} (within : ∀ conf ∈ confs, conf.idx ≤ idx) :
    confsUntil idx confs = confs := by
  induction confs using reverseRecOn with
  | nil => rfl
  | append_singleton confs conf _ =>
    rw [confsUntil, rdropWhile_concat_neg _ _ _ (by
      simpa using within conf (by simp))]

theorem confsUntil_confsUntil (confs : List (Configuration NodeId)) (le : i ≤ j) :
    confsUntil i (confsUntil j confs) = confsUntil i confs := by
  induction confs using reverseRecOn with
  | nil => rfl
  | append_singleton confs conf ih =>
    by_cases later : j < conf.idx
    · have dropped : confsUntil j (confs ++ [conf]) = confsUntil j confs :=
        confsUntil_append_of_lt (by simpa using later)
      have earlier : confsUntil i (confs ++ [conf]) = confsUntil i confs :=
        confsUntil_append_of_lt (by simp; omega)
      rw [dropped, earlier, ih]
    have kept : confsUntil j (confs ++ [conf]) = confs ++ [conf] :=
      rdropWhile_concat_neg _ _ _ (by simpa using later)
    rw [kept]

theorem confsUntil_ne_nil {c : Configuration NodeId} (reached : c.idx ≤ j)
    (confs : List (Configuration NodeId)) : confsUntil j (c :: confs) ≠ [] := by
  induction confs using reverseRecOn with
  | nil => simp [confsUntil, rdropWhile_singleton, reached]
  | append_singleton confs conf ih =>
    rw [← cons_append]
    by_cases later : j < conf.idx
    · rw [confsUntil_append_of_lt (by simpa using later)]
      exact ih
    · rw [confsUntil, rdropWhile_concat_neg _ _ _ (by simpa using later)]
      simp

theorem latestOf_confsUntil_cons {confs : List (Configuration NodeId)} (c : Configuration NodeId)
    (kept : confsUntil j confs ≠ []) :
    latestOf (confsUntil j (c :: confs)) = latestOf (confsUntil j confs) := by
  induction confs using reverseRecOn with
  | nil => exact absurd rfl kept
  | append_singleton confs conf ih =>
    rw [← cons_append]
    by_cases later : j < conf.idx
    · rw [confsUntil_append_of_lt (by simpa using later)] at kept ⊢
      rw [ih kept, confsUntil_append_of_lt (by simpa using later)]
    rw [confsUntil, confsUntil, rdropWhile_concat_neg _ _ _ (by simpa using later),
      rdropWhile_concat_neg _ _ _ (by simpa using later)]
    simp only [latestOf, getLast?_concat]

/-- Dropping superseded configurations does not change what is in force later. -/
theorem latestOf_confsUntil_superseding (confs : List (Configuration NodeId)) (le : i ≤ j) :
    latestOf (confsUntil j (superseding i confs)) = latestOf (confsUntil j confs) := by
  fun_induction superseding i confs with
  | case1 => rfl
  | case2 c next rest reached ih =>
    rw [ih, latestOf_confsUntil_cons c (confsUntil_ne_nil (by omega) rest)]
  | case3 => rfl

theorem superseding_suffix (i : Nat) (confs : List (Configuration NodeId)) :
    superseding i confs <:+ confs := by
  fun_induction superseding i confs with
  | case1 => exact suffix_rfl
  | case2 c next rest reached ih => exact ih.trans (suffix_cons c _)
  | case3 => exact suffix_rfl

namespace Registry
variable {r t : Registry NodeId} {base : Nodes NodeId}

/-- The changes of a prefix of the log lead from `base` to the configuration in
force there, at every index the node may still roll back to. -/
structure Tracks (base : Nodes NodeId) (r : Registry NodeId) : Prop where
  start : r.ledgerStart ≤ r.commitIdx
  length : r.ledgerStart + r.ledger.length = r.lastIdx
  commit_le : r.commitIdx ≤ r.lastIdx
  sorted : r.configurations.Pairwise fun earlier later => earlier.idx ≤ later.idx
  bounded : ∀ conf ∈ r.configurations, conf.idx ≤ r.lastIdx
  in_force : ∀ j, r.commitIdx ≤ j → j ≤ r.lastIdx →
    latestOf (confsUntil j r.configurations) =
      applyChanges (changesOf (r.ledger.take (j - r.ledgerStart))) base

theorem Tracks.latest_eq (tracks : r.Tracks base) :
    r.latest = applyChanges (changesOf r.ledger) base := by
  have now := tracks.in_force r.lastIdx tracks.commit_le le_rfl
  have whole : r.ledger.length ≤ r.lastIdx - r.ledgerStart := by
    have length := tracks.length
    omega
  rw [confsUntil_of_le tracks.bounded, take_of_length_le whole] at now
  exact now

section
variable (r : Registry NodeId)

theorem addConfiguration_latest (idx : Nat) (conf : Nodes NodeId) : (r.addConfiguration idx conf).latest = conf ∧
      ∃ more, (r.addConfiguration idx conf).configurations = r.configurations ++ more ∧
        ∀ c ∈ more, c.idx = idx := by
  have observed : (r.observe idx conf).configurations = r.configurations := by
    rw [observe]
    split <;> rfl
  simp only [addConfiguration]
  split
  · rename_i same
    refine ⟨?_, [], by rw [observed, append_nil], by simp⟩
    rw [observed] at same
    obtain ⟨c, last, equal⟩ := Option.any_eq_true _ _ |>.mp same
    rw [latest, observed, last]
    exact (of_decide_eq_true equal).symm
  · refine ⟨by simp [latest], [_], by rw [observed], by simp⟩

theorem configurationChange_latest (idx : Nat) (change : ConfigurationChange NodeId) :
    (r.configurationChange idx change).latest = applyDelta change.cfgDelta r.latest ∧
      ∃ more, (r.configurationChange idx change).configurations = r.configurations ++ more ∧
        ∀ c ∈ more, c.idx = idx := by
  rw [configurationChange]
  split
  · rename_i unchanged
    rw [List.isEmpty_iff.mp unchanged]
    exact ⟨rfl, [], by simp⟩
  · exact r.addConfiguration_latest idx _

theorem callHooks_latest (e : Entry NodeId) : (r.callHooks e).latest = applyChanges e.hooks r.latest ∧
      ∃ more, (r.callHooks e).configurations = r.configurations ++ more ∧ ∀ c ∈ more, c.idx = e.index := by
  rw [callHooks, applyChanges]
  generalize e.hooks = changes
  induction changes generalizing r with
  | nil => exact ⟨rfl, [], by simp⟩
  | cons change changes ih =>
    obtain ⟨latest, more, confs, indexed⟩ := r.configurationChange_latest e.index change
    obtain ⟨latest', more', confs', indexed'⟩ := ih (r.configurationChange e.index change)
    rw [latest] at latest'
    refine ⟨latest', more ++ more', by rw [foldl_cons, confs', confs, append_assoc], ?_⟩
    intro c member
    rcases mem_append.mp member with old | new
    · exact indexed c old
    · exact indexed' c new

theorem signIf_configurations (e : Entry NodeId) : (r.signIf e).configurations = r.configurations := by
  rw [signIf, sign]
  split_ifs <;> rfl

theorem append_frame (e : Entry NodeId) : ∃ failed phase since signed member confs, r.append e =
      { r with
        assertionFailed := failed
        retirementPhase := phase
        retirementIdx := since
        retirementCommittableIdx := signed
        membershipState := member
        configurations := confs
        lastIdx := e.index
        ledger := r.ledger ++ [e] } := by
  obtain ⟨_, _, _, _, _, frame⟩ := r.callHooks_frame e
  rw [append, frame, signIf, sign]
  split_ifs <;> exact ⟨_, _, _, _, _, _, rfl⟩

end

theorem Tracks.append {e : Entry NodeId} (tracks : r.Tracks base) (next : e.index = r.lastIdx + 1) :
    (r.append e).Tracks base := by
  obtain ⟨latest, more, confs, indexed⟩ := r.callHooks_latest e
  obtain ⟨_, _, _, _, _, _, frame⟩ := r.append_frame e
  have commit : (r.append e).commitIdx = r.commitIdx := by
    rw [frame]
  have start : (r.append e).ledgerStart = r.ledgerStart := by
    rw [frame]
  have confs : (r.append e).configurations = r.configurations ++ more :=
    ((r.callHooks e).signIf_configurations e).trans confs
  have ledger : (r.append e).ledger = r.ledger ++ [e] := rfl
  have last : (r.append e).lastIdx = r.lastIdx + 1 := next
  have bounded : ∀ conf ∈ r.configurations ++ more, conf.idx ≤ r.lastIdx + 1 := by
    intro conf member
    rcases mem_append.mp member with old | new
    · exact (tracks.bounded conf old).trans (Nat.le_succ _)
    · rw [indexed conf new, next]
  refine ⟨by rw [start, commit]; exact tracks.start, ?_, ?_, ?_, ?_, ?_⟩
  · rw [ledger, last, start, length_append, ← tracks.length]
    rfl
  · rw [commit, last]
    exact tracks.commit_le.trans (Nat.le_succ _)
  · rw [confs, pairwise_append]
    refine ⟨tracks.sorted, ?_, ?_⟩
    · refine pairwise_of_forall_mem_list fun a first b second => ?_
      rw [indexed a first, indexed b second]
    · intro a old b new
      rw [indexed b new, next]
      exact (tracks.bounded a old).trans (Nat.le_succ _)
  · rw [confs, last]
    exact bounded
  · intro j committed within
    rw [commit] at committed
    have length := tracks.length
    rw [confs, ledger, start]
    by_cases old : j ≤ r.lastIdx
    · rw [confsUntil_append_of_lt, tracks.in_force j committed old, take_append_of_le_length]
      · omega
      · intro conf member
        rw [indexed conf member]
        omega
    rw [confsUntil_of_le (fun conf member => (bounded conf member).trans (by omega)),
      take_of_length_le, changesOf_append, applyChanges_append, ← tracks.latest_eq, ← latest,
      Registry.latest, latestOf, ← confs]
    · rw [show (r.append e).configurations = (r.callHooks e).configurations from
        (r.callHooks e).signIf_configurations e]
    · rw [length_append, length_singleton]
      omega

theorem unsign_frame (r : Registry NodeId) (idx : Nat) :
    ∃ failed phase signed, r.unsign idx =
      { r with
        assertionFailed := failed
        retirementPhase := phase
        retirementCommittableIdx := signed } := by
  simp only [unsign]
  split <;> exact ⟨_, _, _, rfl⟩

theorem unorder_frame (r : Registry NodeId) (idx : Nat) :
    ∃ failed phase since member, r.unorder idx =
      { r with
        assertionFailed := failed
        retirementPhase := phase
        retirementIdx := since
        membershipState := member } := by
  simp only [unorder]
  split <;> exact ⟨_, _, _, _, rfl⟩

theorem rollback_frame (r : Registry NodeId) (idx : Nat) :
    ∃ failed phase since signed member, r.rollback idx =
      { r with
        assertionFailed := failed
        retirementPhase := phase
        retirementIdx := since
        retirementCommittableIdx := signed
        membershipState := member
        lastIdx := idx
        ledger := r.ledger.take (idx - r.ledgerStart)
        configurations := confsUntil idx r.configurations } := by
  obtain ⟨_, _, _, unsigned⟩ := (r.truncate idx).unsign_frame idx
  obtain ⟨_, _, _, _, unordered⟩ := ((r.truncate idx).unsign idx).unorder_frame idx
  rw [rollback, unordered, unsigned]
  exact ⟨_, _, _, _, _, rfl⟩

theorem Tracks.rollback (tracks : r.Tracks base) (uncommitted : r.commitIdx ≤ idx)
    (within : idx ≤ r.lastIdx) : (r.rollback idx).Tracks base := by
  obtain ⟨_, _, _, _, _, frame⟩ := r.rollback_frame idx
  rw [frame]
  have kept_length : r.ledgerStart + (r.ledger.take (idx - r.ledgerStart)).length = idx := by
    have start := tracks.start
    have length := tracks.length
    rw [length_take]
    omega
  refine ⟨tracks.start, kept_length, uncommitted, ?_, ?_, ?_⟩
  · exact tracks.sorted.sublist ( rdropWhile_prefix _ _).sublist
  · intro conf member
    exact Lib.le_of_mem_rdropWhile tracks.sorted member
  · intro j committed below
    show latestOf (confsUntil j (confsUntil idx r.configurations)) =
      applyChanges (changesOf ((r.ledger.take (idx - r.ledgerStart)).take (j - r.ledgerStart))) base
    rw [confsUntil_confsUntil _ below, tracks.in_force j committed (below.trans within),
      take_take, Nat.min_eq_left (Nat.sub_le_sub_right below _)]

theorem commit_frame (r : Registry NodeId) (idx : Nat) :
    ∃ failed phase member role, r.commit idx =
      { r with
        assertionFailed := failed
        retirementPhase := phase
        membershipState := member
        leadershipState := role
        commitIdx := idx
        configurations := superseding idx r.configurations } := by
  simp only [commit, complete]
  split_ifs <;> exact ⟨_, _, _, _, rfl⟩

theorem Tracks.commit (tracks : r.Tracks base) (fresh : r.commitIdx < idx) (within : idx ≤ r.lastIdx) :
    (r.commit idx).Tracks base := by
  obtain ⟨_, _, _, _, frame⟩ := r.commit_frame idx
  rw [frame]
  refine ⟨tracks.start.trans fresh.le, tracks.length, within, ?_, ?_, ?_⟩
  · exact tracks.sorted.sublist (superseding_suffix idx _).sublist
  · intro conf member
    exact tracks.bounded conf ((superseding_suffix idx _).subset member)
  · intro j committed below
    rw [latestOf_confsUntil_superseding _ committed]
    exact tracks.in_force j (fresh.le.trans committed) below

section
variable {allowed : List (Entry NodeId) → Prop}

theorem Step.tracks (step : r.Step allowed t) (tracks : r.Tracks base) : t.Tracks base := by
  cases step with
  | rollback uncommitted within => exact tracks.rollback uncommitted within
  | append next => exact tracks.append next
  | commit fresh within => exact tracks.commit fresh within
  | lead role member =>
    exact ⟨tracks.start, tracks.length, tracks.commit_le, tracks.sorted, tracks.bounded,
      tracks.in_force⟩

theorem Path.tracks (path : r.Path allowed t) (tracks : r.Tracks base) : t.Tracks base := by
  induction path with
  | refl => exact tracks
  | tail _ step ih => exact step.tracks ih

/-- The registry stays that of one node, and its log begins where it began. -/
theorem Step.identity (step : r.Step allowed t) : t.self = r.self ∧ t.ledgerStart = r.ledgerStart := by
  cases step with
  | rollback =>
    obtain ⟨_, _, _, _, _, frame⟩ := r.rollback_frame _
    rw [frame]
    exact ⟨rfl, rfl⟩
  | append =>
    obtain ⟨_, _, _, _, _, _, frame⟩ := r.append_frame _
    rw [frame]
    exact ⟨rfl, rfl⟩
  | commit =>
    obtain ⟨_, _, _, _, frame⟩ := r.commit_frame _
    rw [frame]
    exact ⟨rfl, rfl⟩
  | lead => exact ⟨rfl, rfl⟩

theorem Path.identity (path : r.Path allowed t) : t.self = r.self ∧ t.ledgerStart = r.ledgerStart := by
  induction path with
  | refl => exact ⟨rfl, rfl⟩
  | tail _ step ih => exact ⟨step.identity.1.trans ih.1, step.identity.2.trans ih.2⟩

end

theorem initial_tracks (settings : Settings NodeId) (n : NodeId) (index : Nat) :
    (initial settings n index).Tracks (settings.configuration.getD ∅) := by
  refine ⟨le_rfl, rfl, le_rfl, ?_, ?_, ?_⟩
  · rw [initial]
    cases settings.configuration <;> simp
  · rw [initial]
    cases settings.configuration <;> simp
  · intro j _ _
    show latestOf (confsUntil j (settings.configuration.map fun conf => ⟨0, conf, 0⟩).toList) =
      applyChanges (changesOf (([] : List (Entry NodeId)).take (j - index))) _
    rw [take_nil, confsUntil_of_le]
    · cases settings.configuration <;> rfl
    · cases settings.configuration <;> simp

end Registry

/-! ### The nodes table -/

inductive NodeStatus where
  | pending | trusted | retired | learner | retiring
  deriving DecidableEq

structure NodeRecord where
  status : NodeStatus
  nodeInfo : NodeInfo
  deriving DecidableEq

/-- The writes of a transaction to the nodes table: a new row, or a deletion. -/
abbrev NodesWrite (NodeId : Type) [LinearOrder NodeId] := ExtTreeMap NodeId (Option NodeRecord)

/-- The change of one node: nodes that are not trusted yet do not take part, and
a node that is deleted has been retired before. -/
def NodeRecord.delta : Option NodeRecord → Option (Option NodeInfo)
  | none => none
  | some ni => match ni.status with
    | .pending => none
    | .trusted | .learner => some (some ni.nodeInfo)
    | .retired | .retiring => some none

/-- The constructor of `ConfigurationChangeHook`. -/
def ConfigurationChange.ofWrite (w : NodesWrite NodeId) : ConfigurationChange NodeId where
  cfgDelta := w.toList.filterMap fun (id, ni) => (NodeRecord.delta ni).map (id, ·)
  learners := (w.toList.filter fun (_, ni) => ni.any (·.status = .learner)).map Prod.fst
  retiredNodes := (w.toList.filter fun (_, ni) => ni.any (·.status = .retired)).map Prod.fst

/-- A transaction that does not write the nodes table has no such hook. -/
def hooksOf (w : NodesWrite NodeId) : List (ConfigurationChange NodeId) :=
  if w.isEmpty then [] else [.ofWrite w]

def NodesTable (NodeId : Type) := NodeId → Option NodeRecord

namespace NodesTable

def empty : NodesTable NodeId := fun _ => none

def apply (w : NodesWrite NodeId) (table : NodesTable NodeId) : NodesTable NodeId :=
  fun id => w[id]?.getD (table id)

/-- The table after a log, where `writes` is what each entry writes to it. -/
def after (writes : Entry NodeId → NodesWrite NodeId) (ledger : List (Entry NodeId)) :
    NodesTable NodeId :=
  ledger.foldl (fun table e => table.apply (writes e)) empty

theorem after_append (writes : Entry NodeId → NodesWrite NodeId) (ledger : List (Entry NodeId))
    (e : Entry NodeId) : after writes (ledger ++ [e]) = (after writes ledger).apply (writes e) :=
  foldl_concat ..

/-- What may become of a node in a one-transaction service: it joins, is trusted
and is retired, and it is deleted while it is pending or once it is retired. -/
def mayBecome : Option NodeStatus → Option NodeStatus → Bool
  | none, some .pending => true
  | none, some .trusted => true
  | some .pending, some .trusted => true
  | some .trusted, some .retired => true
  | some .pending, none => true
  | some .retired, none => true
  | some before, some status => before = status && before ≠ .learner && before ≠ .retiring
  | none, _ => false
  | some _, none => false

def Lawful (table : NodesTable NodeId) (w : NodesWrite NodeId) : Prop :=
  ∀ id ni, w[id]? = some ni → mayBecome ((table id).map (·.status)) (ni.map (·.status))

def LawfulLog (writes : Entry NodeId → NodesWrite NodeId) (ledger : List (Entry NodeId)) : Prop :=
  ∀ before e, before ++ [e] <+: ledger → (after writes before).Lawful (writes e)

def Trusted (table : NodesTable NodeId) (id : NodeId) : Prop :=
  ∃ ni, table id = some ni ∧ ni.status = .trusted

end NodesTable

/-- A node is in the configuration after a delta if the delta adds it, or if it
was there and the delta does not remove it. -/
theorem mem_applyDelta {delta : List (NodeId × Option NodeInfo)}
    (distinct : (delta.map Prod.fst).Nodup) (conf : Nodes NodeId) (id : NodeId) :
    id ∈ applyDelta delta conf ↔
      (∃ info, (id, some info) ∈ delta) ∨ id ∈ conf ∧ (id, none) ∉ delta := by
  rw [applyDelta]
  induction delta generalizing conf with
  | nil => simp
  | cons item delta ih =>
    obtain ⟨key, info⟩ := item
    obtain ⟨fresh, distinct⟩ := nodup_cons.mp distinct
    have other : ∀ info, (key, info) ∉ delta := fun info member =>
      fresh (List.mem_map.mpr ⟨_, member, rfl⟩)
    rw [foldl_cons, ih distinct]
    by_cases same : id = key
    · subst same
      cases info with
      | some info => simp [other]
      | none => simp [other]
    cases info with
    | some info => simp [same, Ne.symm same]
    | none => simp [same, Ne.symm same]

namespace ConfigurationChange

theorem mem_cfgDelta_ofWrite (w : NodesWrite NodeId) (id : NodeId) (info : Option NodeInfo) :
    (id, info) ∈ (ofWrite w).cfgDelta ↔ ∃ ni, w[id]? = some ni ∧ NodeRecord.delta ni = some info := by
  simp only [ofWrite, mem_filterMap, Prod.exists, Option.map_eq_some_iff]
  constructor
  · rintro ⟨key, ni, member, found, delta, equal⟩
    cases equal
    exact ⟨ni, (Lib.mem_toList w).mp member, delta⟩
  · rintro ⟨ni, found, delta⟩
    exact ⟨id, ni, (Lib.mem_toList w).mpr found, info, delta, rfl⟩

theorem nodup_cfgDelta_ofWrite (w : NodesWrite NodeId) :
    ((ofWrite w).cfgDelta.map Prod.fst).Nodup := by
  have sub : ∀ items : List (NodeId × Option NodeRecord),
      ((items.filterMap fun (id, ni) => (NodeRecord.delta ni).map (id, ·)).map Prod.fst).Sublist
        (items.map Prod.fst) := by
    intro items
    induction items with
    | nil => simp
    | cons item items ih =>
      obtain ⟨id, ni⟩ := item
      cases delta : NodeRecord.delta ni with
      | none => simpa [delta] using ih.cons id
      | some info => simpa [delta] using ih
  refine (sub w.toList).nodup ?_
  rw [ExtTreeMap.map_fst_toList_eq_keys]
  exact ExtTreeMap.nodup_keys

end ConfigurationChange

namespace NodesTable

/-- One lawful transaction keeps the configuration and the trusted nodes equal. -/
theorem mem_applyChanges_hooksOf {table : NodesTable NodeId} {w : NodesWrite NodeId}
    (lawful : table.Lawful w) {conf : Nodes NodeId} (agrees : ∀ id, id ∈ conf ↔ table.Trusted id)
    (id : NodeId) : id ∈ applyChanges (hooksOf w) conf ↔ (table.apply w).Trusted id := by
  have changed : id ∈ applyChanges (hooksOf w) conf ↔
      (∃ info ni, w[id]? = some ni ∧ NodeRecord.delta ni = some (some info)) ∨
        id ∈ conf ∧ ¬ ∃ ni, w[id]? = some ni ∧ NodeRecord.delta ni = some none := by
    rw [hooksOf]
    split
    · rename_i empty
      have none : w = ∅ := by simpa using empty
      simp [applyChanges, none]
    show id ∈ applyDelta (ConfigurationChange.ofWrite w).cfgDelta conf ↔ _
    rw [mem_applyDelta (ConfigurationChange.nodup_cfgDelta_ofWrite w)]
    simp only [ConfigurationChange.mem_cfgDelta_ofWrite]
  rw [changed, agrees]
  have allowed := lawful id
  simp only [Trusted, apply]
  cases written : w[id]? with
  | none => simp
  | some ni =>
    have allowed := allowed ni written
    cases ni with
    | none =>
      cases before : table id with
      | none => simp [before, mayBecome] at allowed
      | some old =>
        cases status : old.status <;> simp_all [mayBecome, NodeRecord.delta]
    | some ni =>
      cases before : table id with
      | none => cases status : ni.status <;> simp_all [mayBecome, NodeRecord.delta]
      | some old =>
        cases status : ni.status <;> cases earlier : old.status <;>
          simp_all [mayBecome, NodeRecord.delta]

/-- What the deltas of a log add up to are the trusted nodes of the table. -/
theorem mem_applyChanges_iff {writes : Entry NodeId → NodesWrite NodeId} {ledger : List (Entry NodeId)}
    (hooked : ∀ e ∈ ledger, e.hooks = hooksOf (writes e)) (lawful : LawfulLog writes ledger)
    (id : NodeId) : id ∈ applyChanges (changesOf ledger) ∅ ↔ (after writes ledger).Trusted id := by
  induction ledger using reverseRecOn generalizing id with
  | nil =>
    constructor
    · intro member
      simp [applyChanges, changesOf] at member
    · rintro ⟨ni, found, -⟩
      cases found
  | append_singleton ledger e ih =>
    have earlier := ih (fun e member => hooked e (by simp [member]))
      fun before e within => lawful before e (within.trans (prefix_append ..))
    rw [changesOf_append, applyChanges_append, hooked e (by simp), after_append]
    exact mem_applyChanges_hooksOf (lawful ledger e prefix_rfl) earlier id

end NodesTable

namespace Node

/-- The newest configuration of a one-transaction node holds exactly the nodes
that the nodes table trusts at its last index. -/
theorem latest_configuration_trusted {settings : Settings NodeId} {n : NodeId} {first s : Node NodeId}
    {trace : List (Lib.Transition (Node NodeId) (Operation NodeId))}
    {writes : Entry NodeId → NodesWrite NodeId}
    (one : settings.reconfigurationType = .oneTransaction) (empty : settings.configuration = none)
    (begins : Begins settings n 0 first)
    (run : Lib.Run (fun s op => some (s.perform op)) first trace s)
    (serves : ∀ t ∈ trace, t.pre.Serves t.action)
    (hooked : ∀ e ∈ s.ledger, e.hooks = hooksOf (writes e))
    (lawful : NodesTable.LawfulLog writes s.ledger) :
    s.ledger.length = s.lastIdx ∧
      ∀ id, id ∈ s.getLatestConfiguration ↔ (NodesTable.after writes s.ledger).Trusted id := by
  obtain ⟨-, -, path⟩ : s.Sound ∧ s.reconfigurationType = .oneTransaction ∧
      (Registry.initial settings n 0).Path (fun _ => True) s.registry :=
    run_path one begins run serves (fun _ _ _ _ => trivial) (fun _ _ => trivial)
  have tracks : s.registry.Tracks ∅ := by
    have started := Registry.initial_tracks settings n 0
    rw [empty] at started
    exact Registry.Path.tracks path started
  have length : s.ledger.length = s.lastIdx := by
    have start : s.ledgerStart = 0 := (Registry.Path.identity path).2
    have length : s.ledgerStart + s.ledger.length = s.lastIdx := tracks.length
    omega
  refine ⟨length, fun id => ?_⟩
  rw [← NodesTable.mem_applyChanges_iff hooked lawful id]
  exact iff_of_eq (congrArg (id ∈ ·) tracks.latest_eq)

def genesisWrite : NodesWrite (Fin 2) :=
  (∅ : NodesWrite (Fin 2)).insert 0 (some ⟨.trusted, ⟨"h", "0"⟩⟩)

def genesis : Entry (Fin 2) :=
  { term := 2, index := 1, kind := .plain, data := [], hooks := hooksOf genesisWrite }

theorem latest_configuration_trusted_genesis :
    let s := (initialPrimary {} (0 : Fin 2)).perform (.replicate {} [genesis] 2)
    s.lastIdx = 1 ∧ ∀ id, id ∈ s.getLatestConfiguration ↔
      (NodesTable.after (fun _ => genesisWrite) s.ledger).Trusted id := by
  intro s
  have ledger : s.ledger = [genesis] := by decide +kernel
  have hooked : ∀ e ∈ s.ledger, e.hooks = hooksOf genesisWrite := by
    rw [ledger]
    simp [genesis]
  have lawful : NodesTable.LawfulLog (fun _ => genesisWrite) s.ledger := by
    rw [ledger]
    intro before e within id ni found
    have first : before = [] := by
      have short := within.length_le
      simp only [length_append, length_singleton] at short
      exact length_eq_zero_iff.mp (by omega)
    have joins : ni = some ⟨.trusted, ⟨"h", "0"⟩⟩ := by
      rw [genesisWrite, ExtTreeMap.getElem?_insert] at found
      split at found
      · exact (Option.some.inj found).symm
      · simp at found
    rw [first, joins]
    rfl
  obtain ⟨length, trusted⟩ := latest_configuration_trusted rfl rfl Begins.primary (.next .start rfl)
    (by simp [Serves, genesis]) hooked lawful
  exact ⟨by rw [← length, ledger]; rfl, trusted⟩

end Node
end CCF.Aft
