import ShardedCCF.Kv.Rollback

/-! All handles of a transaction read the state that the store had when the first
one was taken, unless that state was rolled back before they were acquired. -/
namespace CCF.Kv
open Lib List Option Function
open Std (ExtTreeMap)

variable {Name K V : Type} [LinearOrder Name] [LinearOrder K] [Inhabited V]

theorem Tx.Commits.keeps {tx tx' : Tx Name K V} {store store' : Store Name K V}
    (commits : Tx.Commits tx store consensus (result, batch, tx', store')) :
    tx'.allChanges = tx.allChanges ∧ tx'.readTxid = tx.readTxid := by
  cases commits <;> exact ⟨rfl, rfl⟩

namespace System
variable {history : List (WriteSet Name K V)} {s t u : System Name K V} {name : Name}

def acquires (i : Nat) (taken : Transition Name K V) : Bool :=
  match taken.action with
  | .handle j name => j = i && !(taken.pre.txs i).allChanges.contains name
  | _ => false

/-- A handle that is acquired reads the history up to the read version. -/
theorem Consistent.acquired_state (consistent : Consistent history s) (isNew : name ∉ (s.txs i).allChanges)
    (read : ((s.txs i).fixReadTxid s.store).1 = txid) (inside : txid.version ≤ history.length)
    (moved : s.step (.handle i name) = some t) (held : (t.txs i).allChanges[name]? = some (ref, cs)) :
    cs.state = contentsOf (history.take txid.version) name := by
  rcases acquired_cases isNew moved held with ⟨created, found, available⟩ | ⟨rfl, unknown⟩
  · obtain ⟨c, last, rfl⟩ := map_eq_some_iff.mp available
    rw [read] at last
    rw [contentsOf, mapHistory_take]
    exact (consistent.holds.known name _ _ found).follows.lastAt_state last (by simpa using inside)
  · rw [read] at unknown
    exact (consistent.holds.contentsOf_take unknown).symm

theorem step_keeps_states (moved : s.step a = some t) (idle : acquires i ⟨s, a, t⟩ = false)
    (held : (t.txs i).allChanges[name]? = some (ref, cs)) :
    ∃ cs', (s.txs i).allChanges[name]? = some (ref, cs') ∧ cs'.state = cs.state := by
  cases a with
  | handle j other =>
    simp only [System.step, some.injEq] at moved
    subst moved
    by_cases same : i = j
    · subst same
      simp only [acquires, decide_true, Bool.true_and, Bool.not_eq_false'] at idle
      simp only [System.setTx, update_self, Tx.getHandleByName, idle, if_true] at held
      exact ⟨cs, held, rfl⟩
    · simp only [System.setTx, update_of_ne same] at held
      exact ⟨cs, held, rfl⟩
  | operate j other op =>
    simp only [System.step] at moved
    split at moved
    · cases moved
    rename_i ref' cs' found
    cases moved
    by_cases same : i = j
    · subst same
      simp only [System.setTx, update_self, ExtTreeMap.getElem?_insert, compare_eq_iff_eq] at held
      split at held
      · rename_i isName
        cases held
        exact ⟨cs', isName ▸ found, (cs'.operate_extends op).state.symm⟩
      · exact ⟨cs, held, rfl⟩
    · simp only [System.setTx, update_of_ne same] at held
      exact ⟨cs, held, rfl⟩
  | compact v =>
    cases moved
    exact ⟨cs, held, rfl⟩
  | rollback txid term =>
    obtain ⟨store, -, rfl⟩ := map_eq_some_iff.mp moved
    exact ⟨cs, held, rfl⟩
  | commit j consensus =>
    obtain ⟨⟨result, batch, tx, store⟩, committed, rfl⟩ := map_eq_some_iff.mp moved
    by_cases same : i = j
    · subst same
      simp only [System.setTx, update_self, (Tx.commit_commits committed).2.keeps.1] at held
      exact ⟨cs, held, rfl⟩
    · simp only [System.setTx, update_of_ne same] at held
      exact ⟨cs, held, rfl⟩

theorem step_keeps_readTxid (moved : s.step a = some t) (fixed : (s.txs i).readTxid = some txid) :
    (t.txs i).readTxid = some txid := by
  cases a with
  | handle j other =>
    have acquires := (s.txs j).getHandleByName_acquires s.store other
    simp only [System.step, some.injEq] at moved
    subst moved
    by_cases same : i = j
    · subst same
      have kept : ((s.txs i).fixReadTxid s.store).2.readTxid = some txid := by simp [Tx.fixReadTxid, fixed]
      simp only [System.setTx, update_self]
      generalize (s.txs i).getHandleByName s.store other = result at acquires
      cases acquires with
      | again => exact fixed
      | known => exact kept
      | conflict => exact kept
      | fresh => exact kept
    · simpa only [System.setTx, update_of_ne same] using fixed
  | operate j other op =>
    simp only [System.step] at moved
    split at moved
    · cases moved
    cases moved
    by_cases same : i = j
    · subst same
      simpa only [System.setTx, update_self] using fixed
    · simpa only [System.setTx, update_of_ne same] using fixed
  | compact v =>
    cases moved
    exact fixed
  | rollback rolled term =>
    obtain ⟨store, -, rfl⟩ := map_eq_some_iff.mp moved
    exact fixed
  | commit j consensus =>
    obtain ⟨⟨result, batch, tx, store⟩, committed, rfl⟩ := map_eq_some_iff.mp moved
    by_cases same : i = j
    · subst same
      simpa only [System.setTx, update_self, (Tx.commit_commits committed).2.keeps.2] using fixed
    · simpa only [System.setTx, update_of_ne same] using fixed

theorem handle_fixes_readTxid (isNew : name ∉ (s.txs i).allChanges) (moved : s.step (.handle i name) = some t) :
    (t.txs i).readTxid = some ((s.txs i).fixReadTxid s.store).1 := by
  have acquires := (s.txs i).getHandleByName_acquires s.store name
  have fixed : ((s.txs i).fixReadTxid s.store).2.readTxid = some ((s.txs i).fixReadTxid s.store).1 := by
    unfold Tx.fixReadTxid
    split
    · assumption
    · rfl
  simp only [System.step, some.injEq] at moved
  subst moved
  simp only [System.setTx, update_self]
  generalize (s.txs i).getHandleByName s.store name = result at acquires
  cases acquires with
  | again old => exact absurd old isNew
  | known => exact fixed
  | conflict => exact fixed
  | fresh => exact fixed

/-- A handle call changes nothing about the handles over other maps. -/
theorem handle_keeps_others (moved : s.step (.handle i n) = some t) (other : name ≠ n)
    (held : (t.txs i).allChanges[name]? = some (ref, cs)) : (s.txs i).allChanges[name]? = some (ref, cs) := by
  have acquires := (s.txs i).getHandleByName_acquires s.store n
  simp only [System.step, some.injEq] at moved
  subst moved
  simp only [System.setTx, update_self] at held
  have apart : ¬ compare n name = .eq := fun same => other (compare_eq_iff_eq.mp same).symm
  generalize (s.txs i).getHandleByName s.store n = result at acquires held
  cases acquires with
  | again => exact held
  | known | fresh => simpa only [ExtTreeMap.getElem?_insert, if_neg apart] using held
  | conflict => simpa only [((s.txs i).fixReadTxid_fields s.store).1] using held

theorem unread_holds_nothing {store : Store Name K V} (run : Run step { store } trace s) :
    (s.txs i).readTxid = none → (s.txs i).allChanges = ∅ := by
  refine run.invariant (fun s => (s.txs i).readTxid = none → (s.txs i).allChanges = ∅) (fun _ => rfl) ?_
  intro s a t nothing moved unread
  have before : (s.txs i).readTxid = none := by
    cases fixed : (s.txs i).readTxid with
    | none => rfl
    | some txid =>
      rw [step_keeps_readTxid moved fixed] at unread
      cases unread
  have holdsNothing := nothing before
  cases taken : acquires i ⟨s, a, t⟩ with
  | true =>
    unfold acquires at taken
    split at taken
    · rename_i j name isHandle
      simp only [Bool.and_eq_true, decide_eq_true_eq] at taken
      obtain ⟨rfl, -⟩ := taken
      obtain rfl : a = .handle j name := isHandle
      rw [handle_fixes_readTxid (by simp [holdsNothing]) moved] at unread
      cases unread
    · cases taken
  | false =>
    apply ExtTreeMap.ext_getElem?
    intro name
    cases held : (t.txs i).allChanges[name]? with
    | none => simp
    | some entry =>
      obtain ⟨cs, old, -⟩ := step_keeps_states moved taken held
      simp [holdsNothing] at old

/-- All handles of transaction `i` read the state `u` that the store was in when
it took its first one, if that state was not rolled back before they were
acquired. A map whose state is gone gives no handle. -/
theorem handles_read_one_state {store : Store Name K V} (empty : store.Empty)
    (before : Lib.Run step { store } earlier u) (unread : (u.txs i).readTxid = none)
    (first : u.step (.handle i n) = some s) (after : Lib.Run step s later t) (onward : Onward (later ++ earlier))
    (undisturbed : Lib.Along (fun older taken => acquires i taken = true →
      ∀ x ∈ older, u.store.version ≤ x.post.store.version) later) :
    (∀ (name : Name) ref cs, (t.txs i).allChanges[name]? = some (ref, cs) →
      cs.state = u.store.mapState name) ∧
    (∀ (name : Name) ref, name ∉ (t.txs i).allChanges → t.store.getMap u.store.version name = some ref →
      (∀ c ∈ (t.store.objects ref).roll.commits, u.store.version < c.version) →
      ((t.txs i).getHandleByName t.store name).1 = false) := by
  have start : Consistent (surviving [] earlier) u :=
    (Consistent.initial store empty.maps empty.version empty.compacted).run before
      fun taken member => onward taken (mem_append_right _ member)
  have opened : Consistent (surviving [] earlier) s := start.step rfl first
  have nothing := unread_holds_nothing before unread
  have isNew : n ∉ (u.txs i).allChanges := by simp [nothing]
  have fixed : (s.txs i).readTxid = some u.store.currentTxid := by
    rw [handle_fixes_readTxid isNew first]
    simp [Tx.fixReadTxid, unread]
  have onwardLater : Onward later := fun taken member => onward taken (mem_append_left _ member)
  clear onward
  have run : (t.txs i).readTxid = some u.store.currentTxid ∧
      ∀ (name : Name) ref cs, (t.txs i).allChanges[name]? = some (ref, cs) → cs.state = u.store.mapState name := by
    induction after with
    | start =>
      refine ⟨fixed, fun name ref cs held => ?_⟩
      by_cases same : name = n
      · subst same
        have read : ((u.txs i).fixReadTxid u.store).1 = u.store.currentTxid := by simp [Tx.fixReadTxid, unread]
        rw [start.acquired_state isNew read (Nat.le_of_eq start.version) first held, start.holds.mapState,
          Store.currentTxid, start.version, take_length]
      · have old := handle_keeps_others first same held
        simp [nothing] at old
    | next run moved ih =>
      rename_i trace x a y
      have onwardBefore : Onward trace := fun taken member => onwardLater taken (mem_cons_of_mem _ member)
      obtain ⟨fixed, states⟩ := ih undisturbed.2 onwardBefore
      refine ⟨step_keeps_readTxid moved fixed, fun name ref cs held => ?_⟩
      cases taken : acquires i ⟨x, a, y⟩ with
      | false =>
        obtain ⟨cs', old, same⟩ := step_keeps_states moved taken held
        rw [← same]
        exact states name ref cs' old
      | true =>
        have current := opened.run run onwardBefore
        have kept := opened.prefix_of_kept run onwardBefore fun taken' member => by
          rw [opened.version, ← start.version]
          exact undisturbed.1 taken taken' member
        unfold acquires at taken
        split at taken
        · rename_i j m isHandle
          simp only [Bool.and_eq_true, decide_eq_true_eq, Bool.not_eq_true'] at taken
          obtain ⟨rfl, absent⟩ := taken
          obtain rfl : a = .handle j m := isHandle
          have absent : m ∉ (x.txs j).allChanges := fun member => by
            rw [ExtTreeMap.contains_iff_mem.mpr member] at absent
            cases absent
          by_cases same : name = m
          · subst same
            have read : ((x.txs j).fixReadTxid x.store).1 = u.store.currentTxid := by
              simp [Tx.fixReadTxid, fixed]
            have inside : u.store.currentTxid.version ≤ (surviving (surviving [] earlier) trace).length :=
              Nat.le_trans (Nat.le_of_eq start.version) kept.length_le
            rw [current.acquired_state absent read inside moved held, start.holds.mapState,
              Store.currentTxid, start.version]
            exact congrArg (contentsOf · name) (prefix_iff_eq_take.mp kept).symm
          · exact states name ref cs (handle_keeps_others moved same held)
        · cases taken
  refine ⟨run.2, fun name ref absent found gone => ?_⟩
  have unavailable : (t.store.objects ref).createChangeSet u.store.currentTxid.version = none := by
    rw [KvMap.createChangeSet, map_eq_none_iff, Roll.lastAt, find?_eq_none]
    intro c member
    rw [decide_eq_true_eq]
    exact Nat.not_le_of_lt (gone c (mem_reverse.mp member))
  have read : (t.txs i).fixReadTxid t.store = (u.store.currentTxid, t.txs i) := by
    simp [Tx.fixReadTxid, run.1]
  have located : t.store.getMap u.store.currentTxid.version name = some ref := found
  simp [Tx.getHandleByName, absent, Tx.getMapAndChangeSetByName, read, located, unavailable]

theorem onward_append {later earlier : List (Transition Nat Nat Nat)} (after : later.all goesOn = true)
    (before : earlier.all goesOn = true) : Onward (later ++ earlier) :=
  List.all_eq_true.mp (by rw [all_append, after, before]; rfl)

/-- A commit between the two handles of transaction 5. -/
theorem handles_read_one_state_across_commit :
    ∃ earlier u s later t, Lib.Run step { store := (Store.empty : Store Nat Nat Nat) } earlier u ∧
      u.step (.handle 5 1) = some s ∧ Lib.Run step s later t ∧
      ((t.txs 5).allChanges.toList.map fun e => e.1) = [1, 2] ∧ (u.store.mapState 1).value 7 = some 3 ∧
      (t.store.mapState 1).value 7 = some 4 ∧
      ∀ (name : Nat) ref cs, (t.txs 5).allChanges[name]? = some (ref, cs) → cs.state = u.store.mapState name := by
  obtain ⟨earlier, u, before, unread, value, onward, s, first, second, continued, handles, changed, onwardLater, kept⟩ :
      ∃ earlier u, Run step { store := (Store.empty : Store Nat Nat Nat) } earlier u ∧ (u.txs 5).readTxid = none ∧
        (u.store.mapState 1).value 7 = some 3 ∧ earlier.all goesOn = true ∧ ∃ s ∈ u.step (.handle 5 1),
          ∃ second ∈ execute step [] s (commitPut 1 4 ++ [Action.handle 5 2]),
            ((second.2.txs 5).allChanges.toList.map fun e => e.1) = [1, 2] ∧
            (second.2.store.mapState 1).value 7 = some 4 ∧ second.1.all goesOn = true ∧
            ∀ taken ∈ second.1, u.store.version ≤ taken.post.store.version :=
    exists_run (commitPut 0 3) (by decide +kernel)
  have after := Run.start.execute continued
  refine ⟨earlier, u, s, _, _, before, first, after, handles, value, changed, ?_⟩
  refine (handles_read_one_state ⟨rfl, rfl, rfl⟩ before unread first after (onward_append onwardLater onward) ?_).1
  exact along_of_forall _ fun older taken within _ x member => kept x (within x member)

/-- Version 2 is rolled back and committed again between the two handles of
transaction 5, which reads the new commit in one of them. -/
theorem handles_read_two_states :
    ∃ earlier u s later t ref cs, Lib.Run step { store := (Store.empty : Store Nat Nat Nat) } earlier u ∧
      (u.txs 5).readTxid = none ∧ u.step (.handle 5 0) = some s ∧ Lib.Run step s later t ∧
      Onward (later ++ earlier) ∧ (t.txs 5).allChanges[1]? = some (ref, cs) ∧
      cs.state.value 7 = some 9 ∧ (u.store.mapState 1).value 7 = some 6 := by
  obtain ⟨earlier, u, before, unread, value, onward, s, first, second, continued, onwardLater, ⟨ref, cs⟩, found, reads⟩ :
      ∃ earlier u, Run step { store := (Store.empty : Store Nat Nat Nat) } earlier u ∧ (u.txs 5).readTxid = none ∧
        (u.store.mapState 1).value 7 = some 6 ∧ earlier.all goesOn = true ∧ ∃ s ∈ u.step (.handle 5 0),
          ∃ second ∈ execute step [] s (.rollback ⟨0, 1⟩ 0 :: commitPut 2 9 ++ [Action.handle 5 1]),
            second.1.all goesOn = true ∧
            ∃ entry ∈ (second.2.txs 5).allChanges[1]?, entry.2.state.value 7 = some 9 :=
    exists_run (commitPut 0 5 ++ commitPut 1 6) (by decide +kernel)
  exact ⟨earlier, u, s, _, _, ref, cs, before, unread, first, Run.start.execute continued,
    onward_append onwardLater onward, found, reads, value⟩

end System
end CCF.Kv
