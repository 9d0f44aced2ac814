import ShardedCCF.Kv.MapHandle
import ShardedCCF.Kv.Replay

/-! What a successful check of a change set says about one map with any history of
commits, compactions and rollbacks. Keys are compared by version only, and a
rollback lets later commits use versions again. -/
namespace CCF.Kv
open Lib List
open Std (ExtTreeMap)

variable {Name K V : Type} [LinearOrder K] [Inhabited V]

/-- One map, with the version of its store and the version the store is compacted to. -/
structure MapStore (Name K V : Type) [LinearOrder K] where
  map : KvMap Name K V
  version : Nat := 0
  compacted : Nat := 0

inductive MapAction (K V : Type) [LinearOrder K] where
  /-- A transaction with changes of the map takes the next version. -/
  | commit (cs : ChangeSet K V)
  /-- A transaction without changes of the map takes the next version. -/
  | pass
  | rollback (v : Nat)
  | compact (v : Nat)

namespace MapStore

/-- What `Store` does to one of its maps. A rollback before the compacted version throws. -/
def step (s : MapStore Name K V) : MapAction K V → Option (MapStore Name K V)
  | .commit cs => some { s with map := s.map.commit cs (s.version + 1), version := s.version + 1 }
  | .pass => some { s with version := s.version + 1 }
  | .rollback v =>
    if v < s.compacted then none
    else if v ≥ s.version then some s
    else some { s with map := s.map.rollback v, version := v }
  | .compact v =>
    if v > s.version then some s
    else some { s with map := s.map.compact v, compacted := v }

def initial (name : Name) : MapStore Name K V := { map := .initial name }

abbrev Move (Name K V : Type) [LinearOrder K] := Transition (MapStore Name K V) (MapAction K V)

/-- A compaction does not go back behind an earlier one. -/
def goesOn (taken : Move Name K V) : Bool :=
  match taken.action with
  | .compact v => taken.pre.compacted ≤ v
  | _ => true

/-- The map holds the contents that the commits which were not rolled back have left,
one write set for each version. -/
structure Tracks (s : MapStore Name K V) (history : List (Write K V)) : Prop where
  follows : Follows s.map.roll.stamps history
  length_eq : history.length = s.version
  head_le : s.map.roll.head.version ≤ s.compacted
  compacted_le : s.compacted ≤ s.version

variable {s t : MapStore Name K V} {history : List (Write K V)}

theorem tracks_initial (name : Name) : (initial name : MapStore Name K V).Tracks [] :=
  ⟨.initial, rfl, le_rfl, le_rfl⟩

/-- What stays for a change set that is made before: the counter only grows, and while
it is the same, so is the history up to the latest commit. -/
structure Keeps (s : MapStore Name K V) (history : List (Write K V)) (t : MapStore Name K V)
    (history' : List (Write K V)) : Prop where
  counter_le : s.map.roll.rollbackCounter ≤ t.map.roll.rollbackCounter
  tail_le : t.map.roll.rollbackCounter = s.map.roll.rollbackCounter →
    s.map.roll.tail.version ≤ t.map.roll.tail.version
  take_eq : t.map.roll.rollbackCounter = s.map.roll.rollbackCounter →
    ∀ u ≤ s.map.roll.tail.version, history'.take u = history.take u

omit [Inhabited V] in
theorem Keeps.refl (s : MapStore Name K V) (history : List (Write K V)) : s.Keeps history s history :=
  ⟨le_rfl, fun _ => le_rfl, fun _ _ _ => rfl⟩

omit [Inhabited V] in
theorem Keeps.trans {u : MapStore Name K V} (first : s.Keeps history t history')
    (second : t.Keeps history' u history'') : s.Keeps history u history'' := by
  have between (same : u.map.roll.rollbackCounter = s.map.roll.rollbackCounter) :
      t.map.roll.rollbackCounter = s.map.roll.rollbackCounter ∧
        u.map.roll.rollbackCounter = t.map.roll.rollbackCounter := by
    have := first.counter_le
    have := second.counter_le
    omega
  refine ⟨first.counter_le.trans second.counter_le, fun same => ?_, fun same v below => ?_⟩
  · exact (first.tail_le (between same).1).trans (second.tail_le (between same).2)
  · have later := second.take_eq (between same).2 v (below.trans (first.tail_le (between same).1))
    exact later.trans (first.take_eq (between same).1 v below)

section
variable (tracks : s.Tracks history)
include tracks

theorem Tracks.tail_le : s.map.roll.tail.version ≤ history.length :=
  tracks.follows.bounded _ s.map.roll.tail_mem

theorem Tracks.keeps_snoc (writes : Write K V) (counter : t.map.roll.rollbackCounter = s.map.roll.rollbackCounter)
    (tail : s.map.roll.tail.version ≤ t.map.roll.tail.version) : s.Keeps history t (history ++ [writes]) := by
  refine ⟨counter.ge, fun _ => tail, fun _ u below => ?_⟩
  exact take_append_of_le_length (below.trans tracks.tail_le)

theorem Tracks.step (onward : goesOn ⟨s, a, t⟩ = true) (moved : s.step a = some t) :
    ∃ history', t.Tracks history' ∧ s.Keeps history t history' := by
  cases a with
  | commit cs =>
    cases moved
    have follows := tracks.follows.commit cs
    rw [tracks.length_eq] at follows
    refine ⟨history ++ [cs.writes], ⟨follows, ?_, ?_, ?_⟩, tracks.keeps_snoc cs.writes (by simp) ?_⟩
    · rw [length_append, tracks.length_eq]
      rfl
    · rw [KvMap.commit_head]
      exact tracks.head_le
    · exact tracks.compacted_le.trans (Nat.le_succ _)
    · exact Roll.le_tail follows.increasing (s.map.stamps_commit cs _ s.map.roll.tail_mem)
  | pass =>
    cases moved
    refine ⟨history ++ [∅], ⟨tracks.follows.idle (contents_snoc_empty history), ?_, tracks.head_le, ?_⟩,
      tracks.keeps_snoc ∅ rfl le_rfl⟩
    · rw [length_append, tracks.length_eq]
      rfl
    · exact tracks.compacted_le.trans (Nat.le_succ _)
  | rollback v =>
    rw [MapStore.step] at moved
    split_ifs at moved with early late
    · cases moved
      exact ⟨history, tracks, .refl s history⟩
    cases moved
    have kept : s.map.roll.head.version ≤ v := tracks.head_le.trans (not_lt.mp early)
    have inside : v ≤ history.length := by rw [tracks.length_eq]; omega
    have follows := tracks.follows.rollback_map kept inside
    refine ⟨history.take v, ⟨follows, ?_, ?_, not_lt.mp early⟩, ?_⟩
    · rw [length_take]
      exact Nat.min_eq_left inside
    · exact (tracks.head_le : (s.map.rollback v).roll.head.version ≤ s.compacted)
    · rcases s.map.rollback_cases v with same | moved
      · -- Nothing was taken off the roll, so the version is not before its latest commit.
        have reached : s.map.roll.tail.version ≤ v := by
          rw [same] at follows
          have bounded := follows.bounded _ s.map.roll.tail_mem
          rw [length_take] at bounded
          exact bounded.trans (Nat.min_le_left ..)
        refine ⟨by simp only [same, le_refl], fun _ => by simp only [same, le_refl], fun _ u below => ?_⟩
        rw [take_take, Nat.min_eq_left (below.trans reached)]
      · have grown : (s.map.rollback v).roll.rollbackCounter ≠ s.map.roll.rollbackCounter := by omega
        exact ⟨by dsimp only; omega, fun equal => absurd equal grown, fun equal => absurd equal grown⟩
  | compact v =>
    rw [MapStore.step] at moved
    split_ifs at moved with late
    · cases moved
      exact ⟨history, tracks, .refl s history⟩
    cases moved
    have onward : s.compacted ≤ v := of_decide_eq_true onward
    have inside : v ≤ history.length := by rw [tracks.length_eq]; omega
    have head := tracks.follows.compact_head (tracks.head_le.trans onward) inside
    refine ⟨history, ⟨tracks.follows.compact v, tracks.length_eq, head.1, not_lt.mp late⟩, ?_⟩
    exact ⟨le_rfl, fun _ => (KvMap.compact_tail v s.map).1.ge, fun _ _ _ => rfl⟩

theorem Tracks.run (run : Run MapStore.step s trace t) (onward : ∀ taken ∈ trace, goesOn taken = true) :
    ∃ history', t.Tracks history' ∧ s.Keeps history t history' := by
  induction run with
  | start => exact ⟨history, tracks, .refl s history⟩
  | next _ moved ih =>
    obtain ⟨between, tracks, keeps⟩ := ih fun taken member => onward taken (mem_cons_of_mem _ member)
    obtain ⟨after, tracks, keeps'⟩ := tracks.step (onward _ mem_cons_self) moved
    exact ⟨after, tracks, keeps.trans keeps'⟩

end

end MapStore

/-! ## What a change set records -/

/-- The calls that depend on the whole map. A range without keys looks at nothing. -/
def HandleCall.iterates : HandleCall K V → Bool
  | .operation op => op.iterates
  | .range fromKey toKey => fromKey < toKey

namespace ChangeSet
variable {cs : ChangeSet K V}

omit [Inhabited V] in
theorem call_extends (cs : ChangeSet K V) (c : HandleCall K V) : cs.Extends (cs.call c).2 := by
  cases c with
  | operation op => exact cs.operate_extends op
  | range fromKey toKey =>
    rw [call, range]
    split_ifs
    · exact .refl cs
    · exact ⟨rfl, rfl, rfl, rfl, fun removed => removed⟩

omit [Inhabited V] in
theorem calls_extends (cs : ChangeSet K V) (calls : List (HandleCall K V)) : cs.Extends (cs.calls calls).2 := by
  induction calls generalizing cs with
  | nil => exact .refl cs
  | cons c calls ih => exact (cs.call_extends c).trans (ih _)

omit [Inhabited V] in
theorem Recorded.call (recorded : cs.Recorded) (c : HandleCall K V) : (cs.call c).2.Recorded := by
  cases c with
  | operation op => exact recorded.operate op
  | range fromKey toKey =>
    rw [ChangeSet.call, range]
    split_ifs
    · exact recorded
    · exact recorded

omit [Inhabited V] in
theorem Recorded.calls (recorded : cs.Recorded) (calls : List (HandleCall K V)) : (cs.calls calls).2.Recorded := by
  induction calls generalizing cs with
  | nil => exact recorded
  | cons c calls ih => exact ih (recorded.call c)

/-- The whole map is recorded as read, at the version of the change set. -/
def DependsOnAll (cs : ChangeSet K V) : Prop := cs.readVersion = cs.startVersion

omit [Inhabited V] in
theorem remove_readVersion (cs : ChangeSet K V) (key : K) : (cs.remove key).2.readVersion = cs.readVersion := by
  rw [remove_writes]

omit [Inhabited V] in
theorem clear_dependsOnAll (cs : ChangeSet K V) : cs.clear.DependsOnAll := by
  have removals (pairs : List (K × V)) (cs : ChangeSet K V) (whole : cs.DependsOnAll) :
      (pairs.foldl (fun cs pair => (cs.remove pair.1).2) cs).DependsOnAll := by
    induction pairs generalizing cs with
    | nil => exact whole
    | cons pair pairs ih =>
      refine ih _ ?_
      rw [DependsOnAll, remove_readVersion, (cs.remove_extends pair.1).startVersion]
      exact whole
  exact removals _ _ rfl

omit [Inhabited V] in
theorem readKey_readVersion (cs : ChangeSet K V) (key : K) : (cs.readKey key).2.readVersion = cs.readVersion := by
  unfold readKey
  split
  · rfl
  · split <;> rfl

omit [Inhabited V] in
theorem DependsOnAll.call (whole : cs.DependsOnAll ∨ c.iterates = true) : (cs.call c).2.DependsOnAll := by
  cases c with
  | operation op =>
    cases op with
    | get key | has key =>
      refine Eq.trans (cs.readKey_readVersion key) (Eq.trans ?_ (cs.readKey_extends key).startVersion.symm)
      exact whole.resolve_right nofun
    | foreach visit => exact rfl
    | size => exact rfl
    | put key value => exact whole.resolve_right nofun
    | remove key =>
      refine Eq.trans (cs.remove_readVersion key) (Eq.trans ?_ (cs.remove_extends key).startVersion.symm)
      exact whole.resolve_right nofun
    | clear => exact cs.clear_dependsOnAll
  | range fromKey toKey =>
    rw [ChangeSet.call, range]
    split_ifs with improper
    · refine whole.resolve_right fun proper => ?_
      have proper : fromKey < toKey := of_decide_eq_true proper
      exact improper.elim proper.ne (lt_asymm proper)
    · exact rfl

omit [Inhabited V] in
theorem dependsOnAll_calls (calls : List (HandleCall K V))
    (whole : cs.DependsOnAll ∨ calls.any HandleCall.iterates = true) : (cs.calls calls).2.DependsOnAll := by
  induction calls generalizing cs with
  | nil => exact whole.resolve_right nofun
  | cons c calls ih =>
    refine ih ?_
    rw [any_cons, Bool.or_eq_true, ← or_assoc] at whole
    exact whole.imp_left DependsOnAll.call

end ChangeSet

/-! ## The check -/

omit [Inhabited V] in
theorem KvMap.prepare_eq_true {m : KvMap Name K V} {cs : ChangeSet K V} (has : cs.hasWrites = true)
    (prepared : m.prepare cs = true) :
    cs.rollbackCounter = m.roll.rollbackCounter ∧
      (cs.readVersion = noVersion ∨ cs.readVersion = m.roll.tail.version) ∧
      ∀ (key : K) version readVersion, cs.reads[key]? = some (version, readVersion) →
        readHolds m.roll.tail.state key version = true := by
  have counter := KvMap.counter_of_prepare prepared has
  unfold KvMap.prepare at prepared
  simp only [ChangeSet.hasWrites, Bool.not_eq_true'] at has
  rw [if_neg (by simp [has]), if_neg (not_not_intro counter)] at prepared
  split_ifs at prepared with stale
  refine ⟨counter, ?_, fun key version readVersion found => ?_⟩
  · by_contra neither
    rw [not_or] at neither
    exact stale neither
  · exact List.all_eq_true.mp prepared _ ((mem_toList _).mpr found)

/-- A key that is as it was read has the entry it was read with: a version is used
once in a history. -/
theorem entry_eq_of_readHolds {history : List (Write K V)}
    (holds : KvMap.readHolds (contents history) key ((contents (history.take u)).versionOf key) = true) :
    (contents history)[key]? = (contents (history.take u))[key]? := by
  rw [KvMap.readHolds] at holds
  cases now : (contents history)[key]? with
  | none =>
    refine (ExtTreeMap.getElem?_eq_none fun known => ?_).symm
    have member := mem_contents_of_take known
    rw [ExtTreeMap.mem_iff_isSome_getElem?, now] at member
    cases member
  | some found =>
    rw [now] at holds
    simp only [ne_eq, decide_not, Bool.and_eq_true, Bool.not_eq_true', decide_eq_false_iff_not,
      decide_eq_true_eq] at holds
    obtain ⟨versioned, same⟩ := holds
    rw [State.versionOf] at versioned same
    cases before : (contents (history.take u))[key]? with
    | none =>
      rw [before] at versioned
      exact absurd rfl versioned
    | some e =>
      rw [before] at same
      rw [entry_eq_of_version_eq before now same]

namespace MapStore
variable {s t : MapStore Name K V} {cs : ChangeSet K V}

/-- The check is sound across rollbacks: a change set with writes that passes it finds
every key it read as it was, and, if it went through the map, the same live keys and
values. It must not go through the map from version 0, which stands for no version. -/
theorem prepare_sound (before : Lib.Run step (initial name) earlier s)
    (created : s.map.createChangeSet readAt = some cs) (after : Lib.Run step s later t)
    (onward : ∀ taken ∈ earlier ++ later, goesOn taken = true) (calls : List (HandleCall K V))
    (versioned : calls.any HandleCall.iterates = true → cs.startVersion ≠ noVersion)
    (has : (cs.calls calls).2.hasWrites = true) (prepared : t.map.prepare (cs.calls calls).2 = true) :
    (∀ key ∈ (cs.calls calls).2.reads, t.map.roll.tail.state[key]? = cs.state[key]?) ∧
      (calls.any HandleCall.iterates = true → t.map.roll.tail.state.live = cs.state.live) := by
  obtain ⟨history, tracks, -⟩ := (tracks_initial name).run before fun taken member =>
    onward taken (mem_append_left _ member)
  obtain ⟨history', tracks', keeps⟩ := tracks.run after fun taken member =>
    onward taken (mem_append_right _ member)
  obtain ⟨counter, whole, reads⟩ := KvMap.prepare_eq_true has prepared
  have extends' := cs.calls_extends calls
  obtain ⟨c, found, made⟩ := Option.map_eq_some_iff.mp created
  obtain ⟨member, -, -⟩ := Roll.lastAt_spec tracks.follows.increasing found
  -- The state the change set was made from is in the history the map has now.
  have counter : t.map.roll.rollbackCounter = s.map.roll.rollbackCounter := by
    rw [← counter, extends'.rollbackCounter, ← made]
  have start : cs.startVersion ≤ s.map.roll.tail.version := by
    rw [← made]
    exact Roll.le_tail tracks.follows.increasing member
  have state : cs.state = contents (history'.take cs.startVersion) := by
    rw [keeps.take_eq counter _ start, ← made]
    exact tracks.follows.states _ member
  have now : t.map.roll.tail.state = contents history' := tracks'.follows.tail_state
  constructor
  · intro key read
    obtain ⟨⟨recordedVersion, readVersion⟩, recorded⟩ :=
      exists_of_mem read
    have fresh : cs.Recorded := by
      intro key version readVersion found
      rw [← made] at found
      simp at found
    have holds := reads key _ _ recorded
    rw [(fresh.calls calls) key _ _ recorded, extends'.state, now, state] at holds
    rw [now, state]
    exact entry_eq_of_readHolds holds
  · intro iterated
    have dependent : (cs.calls calls).2.readVersion = cs.startVersion :=
      (ChangeSet.dependsOnAll_calls calls (.inr iterated)).trans extends'.startVersion
    rw [dependent] at whole
    have same : cs.startVersion = t.map.roll.tail.version := whole.resolve_left (versioned iterated)
    have latest := tracks'.follows.states _ t.map.roll.tail_mem
    dsimp only at latest
    rw [latest, state, same]

def putOne : ChangeSet Nat Nat where
  rollbackCounter := 0
  state := ∅
  committed := ∅
  startVersion := 0
  writes := (∅ : Write Nat Nat).insert 1 (some 10)

def withOne : MapStore Nat Nat Nat :=
  { map := (KvMap.initial 0).commit putOne 1, version := 1 }

theorem run_withOne : Run step (initial 0) [⟨initial 0, .commit putOne, withOne⟩] withOne := .next .start rfl

/-- The map after another version, without changes of it, was rolled back. -/
def withOneAgain : MapStore Nat Nat Nat := { withOne with map := withOne.map.rollback 1 }

theorem run_withOneAgain : Run step withOne
    [⟨{ withOne with version := 2 }, .rollback 1, withOneAgain⟩, ⟨withOne, .pass, { withOne with version := 2 }⟩]
    withOneAgain :=
  .next (.next .start rfl) rfl

/-- Key 1 is read, the map is gone through and key 2 is written. -/
def readAll : List (HandleCall Nat Nat) :=
  [.operation (.get 1), .operation .size, .operation (.put 2 20)]

theorem prepare_sound_passed :
    ∃ cs, withOne.map.createChangeSet 1 = some cs ∧ withOneAgain.map.prepare (cs.calls readAll).2 = true ∧
      (∀ key ∈ (cs.calls readAll).2.reads, withOneAgain.map.roll.tail.state[key]? = cs.state[key]?) ∧
      (readAll.any HandleCall.iterates = true → withOneAgain.map.roll.tail.state.live = cs.state.live) := by
  have checked : (withOne.map.createChangeSet 1).any (fun cs =>
      cs.startVersion ≠ noVersion && (cs.calls readAll).2.hasWrites &&
        withOneAgain.map.prepare (cs.calls readAll).2) = true := by decide +kernel
  obtain ⟨cs, created, passed⟩ := (Option.any_eq_true _ _).mp checked
  simp only [Bool.and_eq_true, decide_eq_true_eq] at passed
  obtain ⟨⟨versioned, has⟩, prepared⟩ := passed
  refine ⟨cs, created, prepared, prepare_sound run_withOne created run_withOneAgain ?_ readAll
    (fun _ => versioned) has prepared⟩
  intro taken member
  simp only [cons_append, nil_append, mem_cons, not_mem_nil, or_false] at member
  rcases member with rfl | rfl | rfl <;> rfl

def countAndPut : List (HandleCall Nat Nat) := [.operation .size, .operation (.put 2 20)]

/-- From version 0 the map is gone through and found empty. The check passes after
another transaction has put key 1. -/
theorem prepare_misses_first_commit :
    ∃ cs, (initial 0 : MapStore Nat Nat Nat).map.createChangeSet 0 = some cs ∧
      Lib.Run step (initial 0) [⟨initial 0, .commit putOne, withOne⟩] withOne ∧
      (cs.calls countAndPut).2.hasWrites = true ∧ countAndPut.any HandleCall.iterates = true ∧
      withOne.map.prepare (cs.calls countAndPut).2 = true ∧
      withOne.map.roll.tail.state.live ≠ cs.state.live := by
  have checked : ((initial 0 : MapStore Nat Nat Nat).map.createChangeSet 0).any (fun cs =>
      (cs.calls countAndPut).2.hasWrites && withOne.map.prepare (cs.calls countAndPut).2 &&
        withOne.map.roll.tail.state.live[1]? ≠ cs.state.live[1]?) = true := by decide +kernel
  obtain ⟨cs, created, passed⟩ := (Option.any_eq_true _ _).mp checked
  simp only [Bool.and_eq_true, decide_eq_true_eq] at passed
  obtain ⟨⟨has, prepared⟩, apart⟩ := passed
  exact ⟨cs, created, run_withOne, has, rfl, prepared, fun same => apart (by rw [same])⟩

end MapStore
end CCF.Kv
