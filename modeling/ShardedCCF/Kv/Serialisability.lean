import ShardedCCF.Kv.Opacity
import ShardedCCF.Kv.Replay

/-! Commits are serialisable where the check of a commit covers all that the
transaction has looked at: run again on the state it is committed to, the
transaction sees what it saw. -/
namespace CCF.Kv
open Lib
open List hiding after
open Option Function
open Std (ExtTreeMap)

variable {Name K V : Type} [LinearOrder Name] [LinearOrder K]

def ChangeSet.acquired (cs : ChangeSet K V) : ChangeSet K V :=
  { cs with readVersion := noVersion, reads := ∅, writes := ∅ }

theorem ChangeSet.Extends.acquired {cs cs' : ChangeSet K V} (extended : cs.Extends cs') :
    cs'.acquired = cs.acquired := by
  simp only [ChangeSet.acquired, extended.rollbackCounter, extended.state, extended.committed,
    extended.startVersion]

/-- What a commit has to check of a change set for its operations to be
serialisable: all reads still hold, also if nothing is written; what was iterated
is unchanged, also if it was empty; and keys that were not there to be removed
are not there now. -/
def KvMap.upToDate (m : KvMap Name K V) (cs : ChangeSet K V) (ops : List (Operation K V)) : Bool :=
  cs.rollbackCounter = m.roll.rollbackCounter ∧
    (ops.any Operation.iterates → cs.startVersion = m.roll.tail.version) ∧
    (cs.reads.toList.all fun (key, version, _) => KvMap.readHolds m.roll.tail.state key version) ∧
    ops.all fun op => match op with
      | .remove key => cs.state.contains key || !m.roll.tail.state.contains key
      | _ => true

namespace System
variable [Inhabited V] {history : List (WriteSet Name K V)} {s t : System Name K V}

/-- The operation of transaction `i` on a map in a transition, and what it returned. -/
def observedIn (i : Nat) (name : Name) (taken : Transition Name K V) : List (Operation K V × Observation K V) :=
  match taken.action with
  | .operate j other op =>
    if j = i ∧ other = name then
      ((taken.pre.txs i).allChanges[name]?.map fun (_, cs) => (op, (cs.operate op).1)).toList
    else []
  | _ => []

/-- The operations of transaction `i` on a map, from the first to the last. -/
def performed (i : Nat) (name : Name) : List (Transition Name K V) → List (Operation K V × Observation K V)
  | [] => []
  | taken :: trace => performed i name trace ++ observedIn i name taken

/-- What a step does to the change set that a transaction has over a map: nothing,
its acquisition, or an operation. -/
inductive Moves (i : Nat) (name : Name) (s : System Name K V) (a : Action Name K V) (t : System Name K V) :
    Prop where
  | idle (same : (t.txs i).allChanges[name]? = (s.txs i).allChanges[name]?)
      (nothing : observedIn i name ⟨s, a, t⟩ = [])
  | acquired (action : a = .handle i name) (isNew : name ∉ (s.txs i).allChanges)
      (held : (t.txs i).allChanges[name]? = some (ref, cs)) (untouched : cs.acquired = cs)
  | operated (op : Operation K V) (before : (s.txs i).allChanges[name]? = some (ref, cs))
      (after : (t.txs i).allChanges[name]? = some (ref, (cs.operate op).2))
      (observed : observedIn i name ⟨s, a, t⟩ = [(op, (cs.operate op).1)])

theorem step_moves (moved : s.step a = some t) (i : Nat) (name : Name) : Moves i name s a t := by
  cases a with
  | handle j other =>
    simp only [System.step, some.injEq] at moved
    subst moved
    by_cases own : i = j
    case neg => exact .idle (by simp only [System.setTx, update_of_ne own]) rfl
    subst own
    have acquires := (s.txs i).getHandleByName_acquires s.store other
    have changes := ((s.txs i).fixReadTxid_fields s.store).1
    generalize result : (s.txs i).getHandleByName s.store other = handle at acquires
    by_cases here : other = name
    · subst here
      cases acquires with
      | again held => exact .idle (by simp only [System.setTx, update_self]) rfl
      | conflict => exact .idle (by simp only [System.setTx, update_self, changes]) rfl
      | known isNew found reached available =>
        obtain ⟨c, -, rfl⟩ := map_eq_some_iff.mp available
        exact .acquired rfl isNew (by simp only [System.setTx, update_self, ExtTreeMap.getElem?_insert_self]; rfl) rfl
      | fresh isNew unknown =>
        exact .acquired rfl isNew (by simp only [System.setTx, update_self, ExtTreeMap.getElem?_insert_self]; rfl) rfl
    · refine .idle ?_ rfl
      cases acquires <;> simp [System.setTx, ExtTreeMap.getElem?_insert, here, changes]
  | operate j other op =>
    simp only [System.step] at moved
    split at moved
    · cases moved
    rename_i ref cs found
    cases moved
    by_cases own : i = j
    case neg =>
      refine .idle (by simp only [System.setTx, update_of_ne own]) ?_
      simp [observedIn, Ne.symm own]
    subst own
    by_cases here : other = name
    · subst here
      refine .operated op found ?_ ?_
      · simp only [System.setTx, update_self, ExtTreeMap.getElem?_insert_self]
      · simp [observedIn, found]
    · refine .idle ?_ (by simp [observedIn, here])
      simp [System.setTx, ExtTreeMap.getElem?_insert, here]
  | compact v =>
    cases moved
    exact .idle rfl rfl
  | rollback txid term =>
    obtain ⟨store, -, rfl⟩ := map_eq_some_iff.mp moved
    exact .idle rfl rfl
  | commit j consensus =>
    obtain ⟨⟨result, batch, tx, store⟩, committed, rfl⟩ := map_eq_some_iff.mp moved
    by_cases own : i = j
    · subst own
      refine .idle ?_ rfl
      simp only [System.setTx, update_self, (Tx.commit_commits committed).2.keeps.1]
    · exact .idle (by simp only [System.setTx, update_of_ne own]) rfl

/-- A change set is what the operations of its transaction made of the acquired one. -/
theorem replay_performed {store : Store Name K V} (run : Run step { store } trace s) (i : Nat) (name : Name) :
    ((s.txs i).allChanges[name]? = none → performed i name trace = []) ∧
    ∀ ref cs, (s.txs i).allChanges[name]? = some (ref, cs) →
      cs.acquired.replay ((performed i name trace).map Prod.fst) = ((performed i name trace).map Prod.snd, cs) := by
  induction run with
  | start => simp [performed]
  | next run moved ih =>
    obtain ⟨none, some⟩ := ih
    cases step_moves moved i name with
    | idle same nothing => simpa only [performed, nothing, append_nil, same] using ⟨none, some⟩
    | acquired action isNew held untouched =>
      have before := none (ExtTreeMap.getElem?_eq_none isNew)
      subst action
      constructor
      · simp [held]
      · intro ref cs found
        rw [held, Option.some.injEq, Prod.mk.injEq] at found
        obtain ⟨rfl, rfl⟩ := found
        simp [performed, before, observedIn, ChangeSet.replay, untouched]
    | operated op before after observed =>
      constructor
      · simp [after]
      · intro ref cs found
        rw [after, Option.some.injEq, Prod.mk.injEq] at found
        obtain ⟨rfl, rfl⟩ := found
        rename_i cs
        rw [(cs.operate_extends op).acquired]
        simp [performed, observed, ChangeSet.replay_append, some _ cs before, ChangeSet.replay]

def rollsBack (taken : Transition Name K V) : Bool :=
  match taken.action with
  | .rollback _ _ => true
  | _ => false

omit [Inhabited V] in
theorem prefix_extend (history : List (WriteSet Name K V)) {taken : Transition Name K V}
    (onward : rollsBack taken = false) : history <+: extend history taken := by
  unfold extend
  split
  · split
    · exact prefix_append _ _
    · exact prefix_rfl
  · rename_i isRollback
    simp [rollsBack, isRollback] at onward
  · exact prefix_rfl

/-- A change set over a map has its contents at the version where it starts. -/
def Snapshot (history : List (WriteSet Name K V)) (name : Name) (cs : ChangeSet K V) : Prop :=
  cs.startVersion ≤ history.length ∧ cs.state = contents ((mapHistory history name).take cs.startVersion)

theorem Snapshot.grow {history' : List (WriteSet Name K V)} (snapshot : Snapshot history name cs)
    (grown : history <+: history') : Snapshot history' name cs := by
  obtain ⟨more, rfl⟩ := grown
  obtain ⟨inside, state⟩ := snapshot
  constructor
  · exact Nat.le_trans inside (by simp)
  · rw [← mapHistory_take, take_append_of_le_length inside, mapHistory_take]
    exact state

theorem Snapshot.extends (snapshot : Snapshot history name cs) (extended : cs.Extends cs') :
    Snapshot history name cs' := by
  rw [Snapshot, extended.startVersion, extended.state]
  exact snapshot

theorem Consistent.acquired_snapshot (consistent : Consistent history s) (isNew : name ∉ (s.txs i).allChanges)
    (moved : s.step (.handle i name) = some t) (held : (t.txs i).allChanges[name]? = some (ref, cs)) :
    Snapshot history name cs := by
  rcases acquired_cases isNew moved held with ⟨created, found, available⟩ | ⟨rfl, -⟩
  · have follows := (consistent.holds.known name _ _ found).follows
    obtain ⟨c, last, rfl⟩ := map_eq_some_iff.mp available
    have member := (Roll.lastAt_spec follows.increasing last).1
    exact ⟨length_mapHistory history name ▸ follows.bounded _ member, follows.states _ member⟩
  · exact ⟨Nat.zero_le _, rfl⟩

theorem Consistent.snapshots {store : Store Name K V} (consistent : Consistent [] { store })
    (run : Run System.step { store } trace s) (onward : Onward trace)
    (forward : ∀ taken ∈ trace, rollsBack taken = false) (held : (s.txs i).allChanges[name]? = some (ref, cs)) :
    Snapshot (surviving [] trace) name cs := by
  induction run generalizing ref cs with
  | start => simp at held
  | next run moved ih =>
    rename_i earlier _ _ _
    have onward' := fun taken member => onward taken (mem_cons_of_mem _ member)
    have grown := prefix_extend (surviving [] earlier) (forward _ mem_cons_self)
    have forward' := fun taken member => forward taken (mem_cons_of_mem _ member)
    cases step_moves moved i name with
    | idle same nothing => exact (ih onward' forward' (same ▸ held)).grow grown
    | acquired action isNew held' untouched =>
      subst action
      exact ((consistent.run run onward').acquired_snapshot isNew moved held).grow grown
    | operated op old after observed =>
      rw [after, some.injEq, Prod.mk.injEq] at held
      obtain ⟨rfl, rfl⟩ := held
      exact ((ih onward' forward' old).extends (ChangeSet.operate_extends _ _)).grow grown

/-- A change set of a map that was not rolled back is over the current map. -/
theorem Consistent.held_tail (consistent : Consistent history s) (live : (s.txs i).committed = false)
    (held : (s.txs i).allChanges[name]? = some (ref, cs))
    (counter : cs.rollbackCounter = (s.store.objects ref).roll.rollbackCounter)
    (unknown : ∀ ref, (s.txs i).createdMaps[name]? = some ref → s.store.maps[name]? = none)
    (snapshot : Snapshot history name cs) :
    (s.store.objects ref).roll.tail.state = contentsOf history name ∧
      (cs.startVersion = (s.store.objects ref).roll.tail.version → cs.state = contentsOf history name) := by
  rcases (consistent.fits i).current live name ref cs held counter with ⟨created, found⟩ | own
  · have follows := (consistent.holds.known name created ref found).follows
    refine ⟨follows.tail_state, fun same => ?_⟩
    rw [snapshot.2, same, ← follows.states _ (Roll.tail_mem _)]
    exact follows.tail_state
  have unwritten := consistent.holds.unknown name (unknown ref own)
  have empty := Store.contentsOf_of_unwritten unwritten
  rw [empty, (consistent.owned i live name ref own).1.1]
  refine ⟨rfl, fun _ => ?_⟩
  rw [snapshot.2, ← mapHistory_take]
  exact Store.contentsOf_of_unwritten fun writeSet member => unwritten writeSet (mem_of_mem_take member)

theorem Snapshot.value_eq (snapshot : Snapshot history name cs) (recorded : cs.Recorded)
    (hold : ∀ (key : K) version readVersion, cs.reads[key]? = some (version, readVersion) →
      KvMap.readHolds (contentsOf history name) key version = true) :
    ∀ key ∈ cs.reads, (contentsOf history name).value key = cs.state.value key := by
  intro key member
  obtain ⟨⟨version, readVersion⟩, found⟩ :=
    exists_of_mem member
  have holds := hold key version readVersion found
  obtain rfl := recorded key version readVersion found
  unfold KvMap.readHolds State.versionOf at holds
  unfold State.value
  have state := snapshot.2
  cases now : (contentsOf history name)[key]? with
  | none =>
    have absent : cs.state[key]? = none := by
      apply ExtTreeMap.getElem?_eq_none
      rw [state]
      exact fun before => absurd (ExtTreeMap.mem_iff_isSome_getElem?.mp (mem_contents_of_take before))
        (by
          rw [contentsOf] at now
          simp [now])
    rw [absent]
  | some current =>
    cases before : cs.state[key]? with
    | none => simp [now, before] at holds
    | some read =>
      simp only [now, before, Bool.and_eq_true, decide_eq_true_eq] at holds
      rw [state] at before
      rw [entry_eq_of_version_eq before now holds.2]

/-- After a commit, a map has what the change set would return for each key. -/
theorem value_applyWrites (v : Nat) (positive : 0 < v) (cs : ChangeSet K V) (key : K) :
    State.value (applyWrites v cs.state cs.writes) key = (cs.get key).1 := by
  rw [ChangeSet.get, ChangeSet.readKey_value, State.value, getElem?_applyWrites]
  cases cs.writes[key]? with
  | none => rfl
  | some written =>
    cases written with
    | some value => simp [writtenAt, isDeleted]
    | none =>
      cases cs.state[key]? with
      | none => rfl
      | some found => simp [writtenAt, isDeleted, positive]

/-- The state that a commit leaves is that of its change sets. -/
theorem Consistent.commit_state (consistent : Consistent history s)
    (committed : (s.txs i).commit s.store consensus = some (.success, batch, tx, after))
    (wrote : (s.txs i).writeSet ≠ ∅) :
    tx.version = s.store.version + 1 ∧ (s.txs i).committed = false ∧
    (∀ (name : Name) ref, (s.txs i).createdMaps[name]? = some ref → s.store.maps[name]? = none) ∧
    ∀ name, after.mapState name =
      applyWrites (s.store.version + 1) (s.store.mapState name) ((s.txs i).writeSet[name]?.getD ∅) := by
  obtain ⟨live, commits⟩ := Tx.commit_commits committed
  cases commits with
  | empty nothing =>
    refine absurd (ExtTreeMap.ext_getElem? fun name => ?_) wrote
    simp [Tx.writeSet, ExtTreeMap.isEmpty_iff.mp nothing]
  | readOnly idle =>
    refine absurd (ExtTreeMap.ext_getElem? fun name => ?_) wrote
    rw [Tx.writeSet, ExtTreeMap.getElem?_filterMap']
    cases held : (s.txs i).allChanges[name]? with
    | none => simp
    | some entry => simp [idle name entry.1 entry.2 held]
  | written prepared unknown writes applied replicated =>
    rename_i a r
    have next := consistent.written live prepared unknown applied r (Tx.written_version applied replicated)
    refine ⟨rfl, live, fun name ref created =>
      ((consistent.accepts live prepared unknown).fresh name ref created).1, fun name => ?_⟩
    rw [consistent.holds.mapState, consistent.version, ← length_mapHistory _ name]
    refine (next.holds.mapState name).trans ?_
    rw [contentsOf, mapHistory_snoc, contents_snoc]
    rfl

/-- In every run without rollbacks: if a commit writes something and all its change
sets are up to date, then its operations, run on the state that it is committed
to, return what they did return and lead to the new state. -/
theorem commit_serialised {store : Store Name K V} (empty : store.Empty) (run : Lib.Run step { store } trace s)
    (onward : Onward trace) (forward : ∀ taken ∈ trace, rollsBack taken = false)
    (committed : (s.txs i).commit s.store consensus = some (.success, batch, tx, after))
    (wrote : (s.txs i).writeSet ≠ ∅)
    (upToDate : ∀ (name : Name) ref cs, (s.txs i).allChanges[name]? = some (ref, cs) →
      (s.store.objects ref).upToDate cs ((performed i name trace).map Prod.fst) = true) (name : Name) :
    tx.version = s.store.version + 1 ∧
    ((ChangeSet.ofState (s.store.mapState name)).replay ((performed i name trace).map Prod.fst)).1 =
      (performed i name trace).map Prod.snd ∧
    ∀ key, (after.mapState name).value key =
      (((ChangeSet.ofState (s.store.mapState name)).replay ((performed i name trace).map Prod.fst)).2.get key).1 := by
  have initial := Consistent.initial store empty.maps empty.version empty.compacted
  have consistent := initial.run run onward
  obtain ⟨version, live, created, state⟩ := consistent.commit_state committed wrote
  obtain ⟨nothing, again⟩ := replay_performed run i name
  refine ⟨version, ?_⟩
  rw [state name, Tx.writeSet, ExtTreeMap.getElem?_filterMap']
  cases held : (s.txs i).allChanges[name]? with
  | none =>
    rw [nothing held]
    refine ⟨rfl, fun key => ?_⟩
    exact value_applyWrites _ (Nat.succ_pos _) (ChangeSet.ofState (s.store.mapState name)) key
  | some entry =>
    obtain ⟨ref, cs⟩ := entry
    have same := again ref cs held
    have recorded := (show cs.acquired.Recorded by simp [ChangeSet.Recorded, ChangeSet.acquired]).replay
      ((performed i name trace).map Prod.fst)
    have checked := upToDate name ref cs held
    simp only [KvMap.upToDate, decide_eq_true_eq] at checked
    obtain ⟨counter, iterated, reads, removed⟩ := checked
    have snapshot := initial.snapshots run onward forward held
    obtain ⟨tail, unmoved⟩ := consistent.held_tail live held counter (created name) snapshot
    rw [tail] at reads removed
    rw [consistent.holds.mapState]
    have values := snapshot.value_eq (by rwa [same] at recorded) fun key version readVersion found =>
      List.all_eq_true.mp reads (key, version, readVersion) (ExtTreeMap.mem_toList_iff_getElem?_eq_some.mpr found)
    have removals : ∀ k, Operation.remove k ∈ (performed i name trace).map Prod.fst →
        (k ∈ contentsOf (surviving [] trace) name ↔ k ∈ cs.state) := by
      intro k member
      have known := List.all_eq_true.mp removed _ member
      simp only [Bool.or_eq_true, ExtTreeMap.contains_iff_mem, Bool.not_eq_true', ← Bool.not_eq_true] at known
      constructor
      · exact fun present => known.resolve_right fun absent => absent present
      · rw [snapshot.2]
        exact mem_contents_of_take
    generalize performed i name trace = calls at *
    generalize fresh : ChangeSet.ofState (contentsOf (surviving [] trace) name) = again
    have start : again.state = contentsOf (surviving [] trace) name := fresh ▸ rfl
    have observed : (again.replay (calls.map Prod.fst)).1 = calls.map Prod.snd ∧
        (again.replay (calls.map Prod.fst)).2.writes = cs.writes := by
      have final := again.replay_again cs.acquired (calls.map Prod.fst) (fresh ▸ rfl)
      rw [same, start] at final
      exact final values
        (fun op member iterates => (unmoved (iterated (List.any_eq_true.mpr ⟨op, member, iterates⟩))).symm) removals
    refine ⟨observed.1, fun key => ?_⟩
    have written : ((if cs.hasWrites then some cs.writes else none) : Option (Write K V)).getD ∅ = cs.writes := by
      cases nothing : cs.writes.isEmpty with
      | true => simp [ChangeSet.hasWrites, ExtTreeMap.isEmpty_iff.mp nothing]
      | false => simp [ChangeSet.hasWrites, nothing]
    rw [← value_applyWrites _ (Nat.succ_pos s.store.version), (again.replay_extends _).state, start, observed.2]
    exact congrArg (fun writes => State.value (applyWrites _ _ writes) key) written

/-- Transaction 0 reads map 1 and writes map 2, transaction 1 the other way
round, and both start from the same state. -/
def writeSkew : List (Action Nat Nat Nat) :=
  [.handle 2 1, .operate 2 1 (.put 7 1), .handle 2 2, .operate 2 2 (.put 7 2), .commit 2 none,
    .handle 0 1, .operate 0 1 (.get 7), .handle 0 2, .operate 0 2 (.put 7 5),
    .handle 1 2, .operate 1 2 (.get 7), .handle 1 1, .operate 1 1 (.put 7 6), .commit 0 none]

/-- Another transaction commits to map 3 before the commit of transaction 1. -/
theorem commit_serialised_after_other :
    ∃ trace s tx batch after, Lib.Run step { store := (Store.empty : Store Nat Nat Nat) } trace s ∧
      s.store.version = 1 ∧ (s.txs 1).commit s.store none = some (.success, batch, tx, after) ∧
      (s.txs 1).writeSet ≠ ∅ ∧
      ((ChangeSet.ofState (s.store.mapState 2)).replay ((performed 1 2 trace).map Prod.fst)).1 =
        (performed 1 2 trace).map Prod.snd := by
  obtain ⟨trace, s, run, version, onward, forward, wrote, ⟨⟨_, batch, tx, after⟩, committed, rfl⟩, current⟩ :
      ∃ trace s, Run step { store := (Store.empty : Store Nat Nat Nat) } trace s ∧ s.store.version = 1 ∧
        (∀ taken ∈ trace, goesOn taken = true) ∧ (∀ taken ∈ trace, rollsBack taken = false) ∧ (s.txs 1).writeSet ≠ ∅ ∧
        (∃ outcome ∈ (s.txs 1).commit s.store none, outcome.1 = .success) ∧
        ∀ held ∈ (s.txs 1).allChanges.toList, (s.store.objects held.2.1).upToDate held.2.2
          ((performed 1 held.1 trace).map Prod.fst) = true :=
    exists_run [.handle 1 2, .operate 1 2 (.get 7), .operate 1 2 (.put 7 6), .handle 0 3, .operate 0 3 (.put 7 5),
      .commit 0 none] (by decide +kernel)
  refine ⟨trace, s, tx, batch, after, run, version, committed, wrote, ?_⟩
  refine (commit_serialised ⟨rfl, rfl, rfl⟩ run onward forward committed wrote ?_ 2).2.1
  intro name ref cs held
  exact current (name, ref, cs) (ExtTreeMap.mem_toList_iff_getElem?_eq_some.mpr held)

/-- The second commit of a write skew succeeds, although its read of map 2 would
return the value of the first one. -/
theorem commit_not_serialised :
    ∃ trace s tx batch after, Lib.Run step { store := (Store.empty : Store Nat Nat Nat) } trace s ∧
      Onward trace ∧ (∀ taken ∈ trace, rollsBack taken = false) ∧
      (s.txs 1).commit s.store none = some (.success, batch, tx, after) ∧ (s.txs 1).writeSet ≠ ∅ ∧
      ((ChangeSet.ofState (s.store.mapState 2)).replay ((performed 1 2 trace).map Prod.fst)).1 =
        [.value (some 5)] ∧
      (performed 1 2 trace).map Prod.snd = [.value (some 2)] := by
  obtain ⟨trace, s, run, onward, forward, ⟨⟨_, batch, tx, after⟩, committed, rfl⟩, rest⟩ :
      ∃ trace s, Run step { store := (Store.empty : Store Nat Nat Nat) } trace s ∧
        (∀ taken ∈ trace, goesOn taken = true) ∧ (∀ taken ∈ trace, rollsBack taken = false) ∧
        (∃ outcome ∈ (s.txs 1).commit s.store none, outcome.1 = .success) ∧ (s.txs 1).writeSet ≠ ∅ ∧
        ((ChangeSet.ofState (s.store.mapState 2)).replay ((performed 1 2 trace).map Prod.fst)).1 =
          [.value (some 5)] ∧
        (performed 1 2 trace).map Prod.snd = [.value (some 2)] :=
    exists_run writeSkew (by decide +kernel)
  exact ⟨trace, s, tx, batch, after, run, onward, forward, committed, rest⟩

end System
end CCF.Kv
