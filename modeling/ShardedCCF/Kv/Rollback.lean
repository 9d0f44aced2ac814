import ShardedCCF.Kv.Consistency

/-! Runs of a store with its transactions. The commits that survive the
rollbacks of a run are the history of the store, so a rollback gives back the
maps and the contents of an earlier state. -/
namespace CCF.Kv
open List
open Std (ExtTreeMap)

variable {Name K V : Type} [LinearOrder Name] [LinearOrder K] [Inhabited V]

namespace System

abbrev Transition (Name K V : Type) [LinearOrder Name] [LinearOrder K] :=
  Lib.Transition (System Name K V) (Action Name K V)

/-- A commit that takes a version adds its write set; a rollback removes the
write sets of later versions. -/
def extend (history : List (WriteSet Name K V)) (taken : Transition Name K V) : List (WriteSet Name K V) :=
  match taken.action with
  | .commit t _ =>
    if taken.post.store.version = taken.pre.store.version + 1 then history ++ [(taken.pre.txs t).writeSet]
    else history
  | .rollback txid _ => history.take txid.version
  | _ => history

/-- The write sets of the commits that survive, from the oldest to the newest. -/
def surviving (history : List (WriteSet Name K V)) : List (Transition Name K V) → List (WriteSet Name K V)
  | [] => history
  | taken :: trace => extend (surviving history trace) taken

/-- A compaction does not go back behind an earlier one. -/
def goesOn (taken : Transition Name K V) : Bool :=
  match taken.action with
  | .compact v => taken.pre.store.compacted ≤ v
  | _ => true

def Onward (trace : List (Transition Name K V)) : Prop := ∀ taken ∈ trace, goesOn taken = true

variable {history : List (WriteSet Name K V)} {s t u : System Name K V}

theorem Consistent.step (consistent : Consistent history s)
    (onward : goesOn ⟨s, a, t⟩ = true) (moved : s.step a = some t) :
    Consistent (extend history ⟨s, a, t⟩) t := by
  cases a with
  | handle i name =>
    cases moved
    exact consistent.handle i name
  | operate i name op =>
    simp only [System.step] at moved
    split at moved
    · cases moved
    rename_i ref cs found
    cases moved
    exact consistent.operate found op
  | compact v =>
    cases moved
    exact consistent.compact (of_decide_eq_true onward)
  | rollback txid term =>
    obtain ⟨store, rolled, rfl⟩ := Option.map_eq_some_iff.mp moved
    exact consistent.rollback rolled
  | commit i consensus =>
    obtain ⟨outcome, committed, rfl⟩ := Option.map_eq_some_iff.mp moved
    obtain ⟨live, commits⟩ := Tx.commit_commits committed
    have fits := consistent.fits i
    have finished : ∀ tx : Tx Name K V, tx.allChanges = (s.txs i).allChanges →
        tx.createdMaps = (s.txs i).createdMaps → (tx.committed = false → (s.txs i).committed = false) →
        Consistent history (s.setTx i tx) := by
      intro tx changes created alive
      refine consistent.setTx i ⟨?_, ?_, ?_⟩ ?_ ?_ ?_
      · rw [created]
        exact fits.created
      · rw [changes]
        exact fits.changed
      · rw [changes, created]
        exact fun live => fits.current (alive live)
      · rw [created]
        exact fun live => consistent.owned i (alive live)
      · rw [changes]
        exact fun _ _ cs member => .inl ⟨cs, member⟩
      · rw [created]
        exact fun _ _ made => .inl made
    have unmoved : ¬ s.store.version = s.store.version + 1 := by omega
    cases commits with
    | empty nothing | readOnly idle =>
      simp only [extend, System.setTx, if_neg unmoved]
      exact finished _ rfl rfl fun done => by cases done
    | conflict =>
      simp only [extend, System.setTx, if_neg unmoved]
      exact finished _ rfl rfl id
    | written prepared unknown writes applied replicated =>
      rename_i a result batch r
      have version := Tx.written_version applied replicated
      simp only [extend, version, if_true]
      exact consistent.written live prepared unknown applied r version

theorem Consistent.run (consistent : Consistent history s) (run : Lib.Run System.step s trace t)
    (onward : Onward trace) : Consistent (surviving history trace) t := by
  induction run with
  | start => exact consistent
  | next run moved ih =>
    have before := ih fun taken member => onward taken (mem_cons_of_mem _ member)
    exact before.step (onward _ mem_cons_self) moved

/-- The history of a state is kept while the version does not go below it. -/
theorem Consistent.prefix_of_kept (consistent : Consistent history s) (run : Lib.Run System.step s trace t)
    (onward : Onward trace) (kept : ∀ taken ∈ trace, s.store.version ≤ taken.post.store.version) :
    history <+: surviving history trace := by
  induction run with
  | start => exact prefix_rfl
  | next run moved ih =>
    rename_i trace middle action final
    have onward' : Onward trace := fun taken member => onward taken (mem_cons_of_mem _ member)
    have before := ih onward' fun taken member => kept taken (mem_cons_of_mem _ member)
    have after := (consistent.run run onward').step (onward _ mem_cons_self) moved
    cases action with
    | rollback txid term =>
      -- The version that is left is the length of what is left of the history.
      have reached := kept _ mem_cons_self
      rw [after.version, consistent.version] at reached
      simp only [extend, length_take] at reached
      exact prefix_take_iff.mpr ⟨before, by omega⟩
    | commit i consensus =>
      simp only [surviving, extend]
      split
      · exact before.trans (prefix_append _ _)
      · exact before
    | handle i name => exact before
    | operate i name op => exact before
    | compact v => exact before

end System

namespace Store
variable {history : List (WriteSet Name K V)} {s : Store Name K V}

structure Empty (s : Store Name K V) : Prop where
  maps : s.maps = ∅
  version : s.version = 0
  compacted : s.compacted = 0

theorem Holds.mem_maps (holds : s.Holds history) (name : Name) :
    name ∈ s.maps ↔ ∃ writeSet ∈ history, name ∈ writeSet := by
  constructor
  · intro member
    obtain ⟨⟨created, ref⟩, found⟩ := Lib.exists_of_mem member
    obtain ⟨writeSet, known, has⟩ := (holds.known name created ref found).first.reached
    exact ⟨writeSet, mem_of_mem_take known, has⟩
  · rintro ⟨writeSet, known, has⟩
    rw [ExtTreeMap.mem_iff_isSome_getElem?, Option.isSome_iff_ne_none]
    exact fun absent => holds.unknown name absent writeSet known has

theorem Known.head_state (known : s.Known history name created ref) (inside : s.compacted ≤ history.length) :
    (s.objects ref).roll.head.state = contentsOf (history.take s.compacted) name := by
  rw [contentsOf, mapHistory_take]
  refine known.follows.state_eq (Roll.head_mem _) known.head_le (by simpa using inside) fun p member bounded => ?_
  rcases mem_cons.mp member with rfl | later
  · exact Nat.le_refl _
  · obtain ⟨c, rest, rfl⟩ := List.mem_map.mp later
    exact absurd (known.later c rest) (Nat.not_lt.mpr bounded)

theorem contentsOf_of_unwritten (unwritten : ∀ writeSet ∈ history, name ∉ writeSet) :
    contentsOf history name = ∅ := by
  have follows : Follows (KvMap.initial name : KvMap Name K V).roll.stamps (mapHistory history name) :=
    Follows.unwritten (mapHistory_of_unwritten unwritten)
  exact follows.tail_state.symm

/-- A map that is created after a version has no content at it. -/
theorem Holds.contentsOf_take {s : Store Name K V} (holds : Holds history s)
    (later : ∀ created ref, s.maps[name]? = some (created, ref) → v < created) :
    contentsOf (history.take v) name = ∅ := by
  refine contentsOf_of_unwritten fun writeSet member => ?_
  cases found : s.maps[name]? with
  | none => exact holds.unknown name found writeSet (mem_of_mem_take member)
  | some entry =>
    have after := later entry.1 entry.2 found
    exact (holds.known name entry.1 entry.2 found).first.before writeSet (take_subset_take_left _ (by omega) member)

end Store

def State.value (state : State K V) (key : K) : Option V :=
  match state[key]? with
  | none => none
  | some found => if isDeleted found.version then none else some found.value

namespace System
variable {s t u : System Name K V} {store : Store Name K V} {name : Name}

theorem Consistent.committed_state {history : List (WriteSet Name K V)} (consistent : Consistent history s)
    (isNew : name ∉ (s.txs i).allChanges) (moved : s.step (.handle i name) = some t)
    (held : (t.txs i).allChanges[name]? = some (ref, cs))
    (reached : s.store.compacted ≤ ((s.txs i).fixReadTxid s.store).1.version ∨
      (s.store.getMap ((s.txs i).fixReadTxid s.store).1.version name).isSome) :
    cs.committed = contentsOf (history.take s.store.compacted) name := by
  rcases acquired_cases isNew moved held with ⟨created, found, available⟩ | ⟨rfl, unknown⟩
  · obtain ⟨c, -, rfl⟩ := Option.map_eq_some_iff.mp available
    exact (consistent.holds.known name _ _ found).head_state consistent.holds.compacted_le
  refine (consistent.holds.contentsOf_take fun created ref found => ?_).symm
  -- The map was created after the read version, which is not before the compaction.
  have later := unknown created ref found
  refine lt_of_le_of_lt (reached.resolve_right fun exists' => ?_) later
  simp only [Store.getMap, found] at exists'
  split at exists'
  · rename_i early
    rcases early with early | never
    · omega
    · rw [never] at later
      cases later
  · cases exists'

/-- In every run: the rolls are ordered and start at or before the compacted
version. Rolling back to the version of an earlier state `u` gives back its maps
and their contents. A handle taken now shows what `u` had, if `u` is at the
compacted version, unless its transaction reads an earlier version that does not
have the map. -/
theorem rollback_restores (empty : store.Empty) (before : Lib.Run step { store } earlier u)
    (after : Lib.Run step u later s) (onward : Onward (later ++ earlier))
    (kept : ∀ taken ∈ later, u.store.version ≤ taken.post.store.version) :
    (∀ (name : Name) created ref, s.store.maps[name]? = some (created, ref) →
      ((s.store.objects ref).roll.commits.map fun c => c.version).Pairwise (· < ·) ∧
        (s.store.objects ref).roll.head.version ≤ s.store.compacted) ∧
    (∀ term next t, s.step (.rollback ⟨term, u.store.version⟩ next) = some t → ∀ name,
      t.store.mapState name = u.store.mapState name ∧ (name ∈ t.store.maps ↔ name ∈ u.store.maps)) ∧
    (u.store.version = s.store.compacted → ∀ i (name : Name) t ref cs key, name ∉ (s.txs i).allChanges →
      s.step (.handle i name) = some t → (t.txs i).allChanges[name]? = some (ref, cs) →
      (s.store.compacted ≤ ((s.txs i).fixReadTxid s.store).1.version ∨
        (s.store.getMap ((s.txs i).fixReadTxid s.store).1.version name).isSome) →
      cs.getGloballyCommitted key = (u.store.mapState name).value key) := by
  have onwardLater : Onward later := fun taken member => onward taken (mem_append_left _ member)
  have first : Consistent (surviving [] earlier) u :=
    (Consistent.initial store empty.maps empty.version empty.compacted).run before
      fun taken member => onward taken (mem_append_right _ member)
  have last := first.run after onwardLater
  have kept := first.prefix_of_kept after onwardLater kept
  have cut : (surviving (surviving [] earlier) later).take u.store.version = surviving [] earlier := by
    rw [first.version]
    exact (prefix_iff_eq_take.mp kept).symm
  refine ⟨fun name created ref found => ?_, fun term next t moved name => ?_,
    fun compacted i name t ref cs key isNew moved held reached => ?_⟩
  · have known := last.holds.known name created ref found
    have increasing := known.follows.increasing
    rw [Roll.stamps, pairwise_map] at increasing
    exact ⟨pairwise_map.mpr increasing, known.head_le⟩
  · have rolled : Consistent ((surviving (surviving [] earlier) later).take u.store.version) t :=
      last.step rfl moved
    rw [cut] at rolled
    rw [rolled.holds.mapState, first.holds.mapState, rolled.holds.mem_maps, first.holds.mem_maps]
    exact ⟨rfl, Iff.rfl⟩
  · have committed := last.committed_state isNew moved held reached
    rw [← compacted, cut, ← first.holds.mapState] at committed
    rw [← committed]
    rfl

def commitPut (i value : Nat) : List (Action Nat Nat Nat) :=
  [.handle i 1, .operate i 1 (.put 7 value), .commit i none]

/-- Map 1 is created at version 1, after transaction 0 has fixed its read version. -/
def createdLater : List (Action Nat Nat Nat) :=
  .handle 0 0 :: commitPut 1 9

/-- A rollback to version 1 after a second commit. -/
theorem rollback_restores_first_commit :
    ∃ earlier u later s, Lib.Run step { store := (Store.empty : Store Nat Nat Nat) } earlier u ∧
      Lib.Run step u later s ∧ u.store.version = 1 ∧ s.store.version = 2 ∧
      ∀ t, s.step (.rollback ⟨0, u.store.version⟩ 0) = some t → ∀ name,
        t.store.mapState name = u.store.mapState name ∧ (name ∈ t.store.maps ↔ name ∈ u.store.maps) := by
  obtain ⟨earlier, u, later, s, before, after, first, second, onward, kept⟩ :
      ∃ earlier u later s, Lib.Run step { store := (Store.empty : Store Nat Nat Nat) } earlier u ∧
        Lib.Run step u later s ∧ u.store.version = 1 ∧ s.store.version = 2 ∧
        (∀ t ∈ later ++ earlier, goesOn t = true) ∧ ∀ t ∈ later, u.store.version ≤ t.post.store.version :=
    Lib.exists_runs createdLater [.compact 1, .handle 2 1, .operate 2 1 (.remove 7), .commit 2 none] (by decide +kernel)
  refine ⟨earlier, u, later, s, before, after, first, second, fun t moved => ?_⟩
  exact (rollback_restores ⟨rfl, rfl, rfl⟩ before after onward kept).2.1 0 0 t moved

/-- A transaction that reads version 0 does not see what was compacted at
version 1, in a map created there. -/
theorem handle_misses_compacted_map :
    ∃ earlier u later s t ref cs, Lib.Run step { store := (Store.empty : Store Nat Nat Nat) } earlier u ∧
      Lib.Run step u later s ∧ Onward (later ++ earlier) ∧
      (∀ taken ∈ later, u.store.version ≤ taken.post.store.version) ∧ u.store.version = s.store.compacted ∧
      1 ∉ (s.txs 0).allChanges ∧ s.step (.handle 0 1) = some t ∧ (t.txs 0).allChanges[1]? = some (ref, cs) ∧
      cs.getGloballyCommitted 7 = none ∧ (u.store.mapState 1).value 7 = some 9 := by
  obtain ⟨earlier, u, later, s, before, after, onward, kept, compacted, isNew, handle, value⟩ :
      ∃ earlier u later s, Lib.Run step { store := (Store.empty : Store Nat Nat Nat) } earlier u ∧
        Lib.Run step u later s ∧ (later ++ earlier).all goesOn = true ∧
        (∀ t ∈ later, u.store.version ≤ t.post.store.version) ∧ u.store.version = s.store.compacted ∧
        1 ∉ (s.txs 0).allChanges ∧
        (∃ t ∈ s.step (.handle 0 1), (t.txs 0).allChanges[1]?.any fun entry => entry.2.getGloballyCommitted 7 = none) ∧
        (u.store.mapState 1).value 7 = some 9 :=
    Lib.exists_runs createdLater [.compact 1] (by decide +kernel)
  obtain ⟨t, moved, held⟩ := handle
  obtain ⟨⟨ref, cs⟩, found, none⟩ := (Option.any_eq_true _ _).mp held
  exact ⟨earlier, u, later, s, t, ref, cs, before, after, List.all_eq_true.mp onward, kept, compacted, isNew, moved,
    found, of_decide_eq_true none, value⟩

end System
end CCF.Kv
