import ShardedCCF.Aft.LogMachine
import ShardedCCF.Lib.Run

/-! The status of a transaction, evaluated on what consensus knows about its
seqno and about the last committed one. Other threads append, roll back and
commit meanwhile; what they commit is not replaced. -/
namespace CCF.Aft
open Lib

variable {NodeId : Type}

inductive TxStatus where
  | unknown | pending | committed | invalid
  deriving DecidableEq, Repr

/-- `VIEW_UNKNOWN` is 0. The result is `none` where the code throws. -/
def evaluateTxStatus (targetView targetSeqno localView committedView committedSeqno : Nat) : Option TxStatus :=
  let isCommitted := committedSeqno ≥ targetSeqno
  let viewsMatch := localView = targetView
  let viewKnown := localView ≠ 0
  if isCommitted ∧ ¬ viewKnown then none
  else if isCommitted then if viewsMatch then some .committed else some .invalid
  else if viewsMatch then some .pending
  else if committedView > targetView then some .invalid
  else some .unknown

inductive LogChange (NodeId : Type) where
  /-- Entries of a view that is known to start at an index. -/
  | append (entries : List (Entry NodeId)) (start view : Nat)
  | rollback (view idx : Nat)
  | commit (idx : Nat)

namespace Log

/-- Views are recorded from an uncommitted index on, which is the next one on a
primary and follows the last signature on a backup. -/
def change (l : Log NodeId) : LogChange NodeId → Option (Log NodeId)
  | .append entries start view =>
    if l.commitIdx < start ∧ start ≤ l.lastIdx + 1 ∧ 1 ≤ view then
      match Log.updateViewHistory
          { l with lastIdx := l.lastIdx + entries.length, ledger := l.ledger ++ entries } start view with
      | .ok l => some l
      | .error _ => none
    else none
  | .rollback view idx => if idx ≤ l.lastIdx then some (l.rollback view idx) else none
  | .commit idx =>
    match l.commit idx with
    | .ok l => some l
    | .error _ => none

def txStatus (l : Log NodeId) (view seqno : Nat) : Option TxStatus :=
  evaluateTxStatus view seqno (l.getTermInternal seqno) (l.getTermInternal l.commitIdx) l.commitIdx

/-- `get_status_for_txid_v1` reads the view of the seqno, the committed seqno and
the view of that, each under its own lock. -/
def getStatusForTxid (first second third : Log NodeId) (view seqno : Nat) : Option TxStatus :=
  evaluateTxStatus view seqno (first.getTermInternal seqno) (third.getTermInternal second.commitIdx)
    second.commitIdx

/-- Every entry has a known view, and nothing before the first one has. -/
structure Covered (l : Log NodeId) : Prop where
  commit_le : l.commitIdx ≤ l.lastIdx
  start : l.viewHistory.viewAt 0 = 0
  known : ∀ i, 1 ≤ i → i ≤ l.lastIdx → 1 ≤ l.viewHistory.viewAt i

structure Retains (l l' : Log NodeId) : Prop where
  commit_le : l.commitIdx ≤ l'.commitIdx
  kept : ∀ i ≤ l.commitIdx, l'.getTermInternal i = l.getTermInternal i

theorem Retains.refl (l : Log NodeId) : Retains l l := ⟨le_rfl, fun _ _ => rfl⟩

theorem Retains.trans {l l' l'' : Log NodeId} (first : Retains l l') (second : Retains l' l'') : Retains l l'' :=
  ⟨first.commit_le.trans second.commit_le, fun i below =>
    (second.kept i (below.trans first.commit_le)).trans (first.kept i below)⟩

variable {l l' : Log NodeId}

theorem Covered.empty : Covered ({} : Log NodeId) := ⟨le_rfl, rfl, fun i positive below => by
  have : i ≤ 0 := below
  omega⟩

theorem getTermInternal_of_le (below : i ≤ l.lastIdx) : l.getTermInternal i = l.viewHistory.viewAt i :=
  if_neg (not_lt.mpr below)

section
variable (covered : l.Covered)
include covered

theorem change_retains (changed : l.change c = some l') : l'.Covered ∧ l.Retains l' := by
  obtain ⟨commit_le, start, known⟩ := covered
  cases c with
  | append entries first view =>
    simp only [change, updateViewHistory] at changed
    split at changed
    case isFalse => cases changed
    rename_i guard
    obtain ⟨uncommitted, next, positive⟩ := guard
    cases updated : l.viewHistory.update first view with
    | none => simp [updated] at changed
    | some h =>
      simp only [updated, Option.some.injEq] at changed
      subst changed
      refine ⟨⟨Nat.le_add_right_of_le commit_le, ?_, fun i lower upper => ?_⟩, le_rfl, fun i below => ?_⟩
      · rwa [ViewHistory.update_viewAt_of_lt updated (by omega)]
      · rcases Nat.lt_or_ge i first with before | after
        · rw [ViewHistory.update_viewAt_of_lt updated before]
          exact known i lower (by omega)
        · rw [ViewHistory.update_viewAt_of_le updated after]
          exact positive.trans (le_max_right _ _)
      · rw [getTermInternal_of_le (below.trans commit_le),
          getTermInternal_of_le (below.trans (Nat.le_add_right_of_le commit_le))]
        exact ViewHistory.update_viewAt_of_lt updated (by omega)
  | rollback view idx =>
    simp only [change, rollback] at changed
    split at changed
    case isFalse => cases changed
    rename_i within
    cases changed
    split
    · exact ⟨⟨commit_le, start, known⟩, .refl l⟩
    rename_i uncommitted
    have viewAt : ∀ i ≤ idx, (l.viewHistory.rollback idx).viewAt i = l.viewHistory.viewAt i := fun i below => by
      rw [ViewHistory.viewAt_rollback, Nat.min_eq_left below]
    refine ⟨⟨not_lt.mp uncommitted, (viewAt 0 (Nat.zero_le _)).trans start, fun i lower upper => ?_⟩, le_rfl, fun i below => ?_⟩
    · rw [viewAt i upper]
      exact known i lower (le_trans upper within)
    · have inside : i ≤ idx := below.trans (not_lt.mp uncommitted)
      rw [getTermInternal_of_le (below.trans commit_le), getTermInternal_of_le inside]
      exact viewAt i inside
  | commit idx =>
    simp only [change, commit] at changed
    split at changed
    · rename_i l'' result
      cases changed
      split at result
      · cases result
      rename_i within
      split at result
      · cases result
        exact ⟨⟨commit_le, start, known⟩, .refl l⟩
      rename_i ahead
      cases result
      exact ⟨⟨not_lt.mp within, start, known⟩, (not_le.mp ahead).le, fun i _ => rfl⟩
    · cases changed

theorem run_retains (run : Run change l trace l') : l'.Covered ∧ l.Retains l' := by
  induction run with
  | start => exact ⟨covered, .refl l⟩
  | next _ changed ih =>
    obtain ⟨between, retains⟩ := ih
    obtain ⟨after, more⟩ := change_retains between changed
    exact ⟨after, retains.trans more⟩

theorem Covered.known_of_committed (positive : 1 ≤ seqno) (reached : seqno ≤ l.commitIdx) :
    1 ≤ l.getTermInternal seqno := by
  have inside := reached.trans covered.commit_le
  rw [getTermInternal_of_le inside]
  exact covered.known seqno positive inside

theorem Covered.txStatus_ne_none (positive : 1 ≤ seqno) : l.txStatus view seqno ≠ none := by
  unfold txStatus evaluateTxStatus
  dsimp only
  split
  · rename_i unknown
    have := covered.known_of_committed positive unknown.1
    omega
  split
  · split <;> simp
  split
  · simp
  · split <;> simp

theorem Covered.txStatus_eq_committed (positive : 1 ≤ seqno) :
    l.txStatus view seqno = some .committed ↔ seqno ≤ l.commitIdx ∧ l.getTermInternal seqno = view := by
  unfold txStatus evaluateTxStatus
  by_cases reached : seqno ≤ l.commitIdx
  · have known : l.getTermInternal seqno ≠ 0 := Nat.ne_of_gt (covered.known_of_committed positive reached)
    by_cases same : l.getTermInternal seqno = view <;> simp [reached, known, same]
    rw [← same]
    exact known
  simp only [ge_iff_le, reached, false_and, if_false, iff_false]
  split
  · simp
  · split <;> simp

end

/-- A seqno after the committed one is in no earlier view. -/
theorem view_le_of_uncommitted (after : l.commitIdx ≤ seqno) (inside : seqno ≤ l.lastIdx) :
    l.getTermInternal l.commitIdx ≤ l.getTermInternal seqno := by
  rw [getTermInternal_of_le inside, getTermInternal_of_le (after.trans inside)]
  exact l.viewHistory.viewAt_mono after

theorem Covered.txStatus_eq_invalid (covered : l.Covered) (positive : 1 ≤ seqno) (asked : 1 ≤ view) :
    l.txStatus view seqno = some .invalid ↔
      (seqno ≤ l.commitIdx ∧ l.getTermInternal seqno ≠ view) ∨
        (l.commitIdx < seqno ∧ view < l.getTermInternal l.commitIdx) := by
  unfold txStatus evaluateTxStatus
  by_cases reached : seqno ≤ l.commitIdx
  · have known : l.getTermInternal seqno ≠ 0 := Nat.ne_of_gt (covered.known_of_committed positive reached)
    by_cases same : l.getTermInternal seqno = view
    · simp [reached, same, Nat.not_lt.mpr reached]
    · simp [reached, known, same]
  have later := not_le.mp reached
  simp only [ge_iff_le, reached, false_and, if_false, false_or, later, true_and]
  by_cases same : l.getTermInternal seqno = view
  · simp only [same, if_true, Option.some.injEq, reduceCtorEq, false_iff, not_lt]
    have inside : seqno ≤ l.lastIdx := by
      by_contra beyond
      rw [getTermInternal, if_pos (not_le.mp beyond)] at same
      omega
    exact same ▸ view_le_of_uncommitted later.le inside
  · simp [same]

/-- The status of a transaction with a known view is final: it never throws, what
is committed or invalid stays so, and one seqno is committed in one view. -/
theorem tx_status_final (covered : l.Covered) (run : Lib.Run change l trace l') (positive : 1 ≤ seqno)
    (asked : 1 ≤ view) :
    l'.txStatus view seqno ≠ none ∧
    (l.txStatus view seqno = some .committed → l'.txStatus view seqno = some .committed) ∧
    (l.txStatus view seqno = some .invalid → l'.txStatus view seqno = some .invalid) ∧
    ∀ other, l.txStatus view seqno = some .committed → l'.txStatus other seqno = some .committed → other = view := by
  obtain ⟨covered', retains⟩ := run_retains covered run
  refine ⟨covered'.txStatus_ne_none positive, fun committed => ?_, fun invalid => ?_, fun other first second => ?_⟩
  · rw [covered.txStatus_eq_committed positive] at committed
    rw [covered'.txStatus_eq_committed positive, retains.kept seqno committed.1]
    exact ⟨committed.1.trans retains.commit_le, committed.2⟩
  · rw [covered.txStatus_eq_invalid positive asked] at invalid
    rw [covered'.txStatus_eq_invalid positive asked]
    rcases invalid with ⟨reached, apart⟩ | ⟨later, earlier⟩
    · exact .inl ⟨reached.trans retains.commit_le, by rwa [retains.kept seqno reached]⟩
    -- The views from the old commit index on are not below its view.
    have still := retains.kept l.commitIdx le_rfl
    have inside := retains.commit_le.trans covered'.commit_le
    rcases Nat.lt_or_ge l'.commitIdx seqno with uncommitted | committed
    · refine .inr ⟨uncommitted, ?_⟩
      have grown := l'.viewHistory.viewAt_mono retains.commit_le
      rw [getTermInternal_of_le inside] at still
      rw [getTermInternal_of_le covered'.commit_le]
      omega
    refine .inl ⟨committed, ?_⟩
    have grown := l'.viewHistory.viewAt_mono later.le
    rw [getTermInternal_of_le inside] at still
    rw [getTermInternal_of_le (committed.trans covered'.commit_le)]
    omega
  · rw [covered.txStatus_eq_committed positive] at first
    rw [covered'.txStatus_eq_committed positive, retains.kept seqno first.1] at second
    exact second.2.symm.trans first.2

def statusEntry (kind : EntryKind) (index term : Nat) : Entry Unit := { term, index, kind, hooks := [], data := [] }

/-- A signature is committed in view 2, and an entry of that view follows it. -/
def committedThenPending : List (LogChange Unit) :=
  [.append [statusEntry .signature 1 2] 1 2, .commit 1, .append [statusEntry .plain 2 2] 2 2]

def replaced : List (LogChange Unit) :=
  [.rollback 3 1, .append [statusEntry .signature 2 3] 2 3, .commit 2]

theorem tx_status_final_after_election :
    ∃ trace l more l', Lib.Run change ({} : Log Unit) trace l ∧ Lib.Run change l more l' ∧
      l.txStatus 2 1 = some .committed ∧ l'.commitIdx = 2 ∧ l'.txStatus 2 1 = some .committed := by
  obtain ⟨trace, l, more, l', before, after, committed, reached⟩ :
      ∃ trace l more l', Run change ({} : Log Unit) trace l ∧ Run change l more l' ∧
        l.txStatus 2 1 = some .committed ∧ l'.commitIdx = 2 :=
    exists_runs committedThenPending replaced (by decide +kernel)
  refine ⟨trace, l, more, l', before, after, committed, reached, ?_⟩
  exact (tx_status_final (run_retains .empty before).1 after (by decide) (by decide)).2.1 committed

/-- The unknown view matches a seqno that the node does not have. -/
theorem invalid_becomes_pending :
    ∃ trace l more l', Lib.Run change ({} : Log Unit) trace l ∧ Lib.Run change l more l' ∧
      l.txStatus 0 2 = some .invalid ∧ l'.txStatus 0 2 = some .pending :=
  exists_runs committedThenPending [.rollback 3 1] (by decide +kernel)

theorem retains_of_visited (covered : l.Covered) (run : Run change l trace l')
    (visited : Visited l trace x) : x.Covered ∧ l.Retains x ∧ x.Retains l' := by
  induction run with
  | start =>
    rcases visited with rfl | ⟨t, member, -⟩
    · exact ⟨covered, .refl x, .refl x⟩
    · cases member
  | @next older between a after run changed ih =>
    obtain ⟨within, retains⟩ := run_retains covered run
    obtain ⟨covered', more⟩ := change_retains within changed
    have latest : after.Covered ∧ l.Retains after ∧ after.Retains after := ⟨covered', retains.trans more, .refl after⟩
    rcases visited with rfl | ⟨t, member, rfl⟩
    · exact ⟨covered, .refl x, retains.trans more⟩
    rcases List.mem_cons.mp member with rfl | earlier
    · exact latest
    · obtain ⟨known, before, rest⟩ := ih (.inr ⟨t, earlier, rfl⟩)
      exact ⟨known, before, rest.trans more⟩

variable {first second third : Log NodeId}

/-- The entry at the seqno was replaced and committed between the first two reads,
and the view asked for or the missing view tells the two entries apart. Nothing is
known to be older than the unknown view, so that view is also told apart by the
first commit. -/
def Straddles (first second : Log NodeId) (view seqno : Nat) : Prop :=
  (first.commitIdx < seqno ∧ seqno ≤ second.commitIdx ∧
    first.getTermInternal seqno ≠ second.getTermInternal seqno ∧
    (first.getTermInternal seqno = 0 ∨ view = first.getTermInternal seqno ∨ view = second.getTermInternal seqno)) ∨
  (view = 0 ∧ first.getTermInternal seqno ≠ 0 ∧ first.commitIdx = 0 ∧ 0 < second.commitIdx ∧
    second.commitIdx < seqno)

/-- The answer is one of a single evaluation at a state in between. -/
structure Linearised (states : Log NodeId → Prop) (last : Log NodeId) (view seqno : Nat)
    (answer : Option TxStatus) : Prop where
  atomic : ∃ x, states x ∧ x.txStatus view seqno = answer
  answered : answer ≠ none
  committed : answer = some .committed → seqno ≤ last.commitIdx ∧ last.getTermInternal seqno = view

theorem getStatusForTxid_eq (retains : second.Retains third) : getStatusForTxid first second third view seqno =
    evaluateTxStatus view seqno (first.getTermInternal seqno) (second.getTermInternal second.commitIdx)
      second.commitIdx := by
  rw [getStatusForTxid, retains.kept _ le_rfl]

theorem Linearised.of_visited (covered : first.Covered) (positive : 1 ≤ seqno)
    (run : Run change first trace third) (visited : Visited first trace x)
    (same : x.txStatus view seqno = answer) : Linearised (Visited first trace) third view seqno answer := by
  obtain ⟨known, -, retains⟩ := retains_of_visited covered run visited
  refine ⟨⟨x, visited, same⟩, same ▸ known.txStatus_ne_none positive, fun committed => ?_⟩
  rw [← same, known.txStatus_eq_committed positive] at committed
  exact ⟨committed.1.trans retains.commit_le, (retains.kept seqno committed.1).trans committed.2⟩

theorem Retains.committedView_le (covered : l'.Covered) (retains : l.Retains l') :
    l.getTermInternal l.commitIdx ≤ l'.getTermInternal l'.commitIdx := by
  rw [← retains.kept _ le_rfl, getTermInternal_of_le (retains.commit_le.trans covered.commit_le),
    getTermInternal_of_le covered.commit_le]
  exact l'.viewHistory.viewAt_mono retains.commit_le

/-- Unless they straddle a replacement, the two reads agree with an evaluation at
the one or at the other. -/
theorem evaluate_eq_first_or_second (covered : first.Covered) (covered' : second.Covered)
    (retains : first.Retains second) (positive : 1 ≤ seqno) (apart : ¬ Straddles first second view seqno) :
    let answer := evaluateTxStatus view seqno (first.getTermInternal seqno)
      (second.getTermInternal second.commitIdx) second.commitIdx
    first.txStatus view seqno = answer ∨ second.txStatus view seqno = answer := by
  intro answer
  by_cases same : first.getTermInternal seqno = second.getTermInternal seqno
  · exact .inr (by simp only [answer, txStatus, same])
  have unreached : first.commitIdx < seqno := by
    by_contra reached
    exact same (retains.kept seqno (not_lt.mp reached)).symm
  rcases Nat.lt_or_ge second.commitIdx seqno with later | reached
  · by_cases asked : first.getTermInternal seqno = view
    · left
      simp [answer, txStatus, evaluateTxStatus, asked, Nat.not_le.mpr unreached, Nat.not_le.mpr later]
    have unchanged := retains.committedView_le covered'
    by_cases older : view < second.getTermInternal second.commitIdx
    · have invalid : answer = some .invalid := by
        simp [answer, evaluateTxStatus, asked, Nat.not_le.mpr later, older]
      rcases Nat.eq_zero_or_pos view with rfl | known
      · -- The unknown view is older than every commit, so the first one has been made.
        left
        have made : first.commitIdx ≠ 0 := fun none => apart (.inr ⟨rfl, asked, none, by
          rcases Nat.eq_zero_or_pos second.commitIdx with zero | made
          · rw [zero, getTermInternal_of_le (Nat.zero_le _), covered'.start] at older
            exact absurd older (lt_irrefl 0)
          · exact made, later⟩)
        have := covered.known_of_committed (Nat.one_le_iff_ne_zero.mpr made) le_rfl
        rw [invalid]
        simp [txStatus, evaluateTxStatus, asked, Nat.not_le.mpr unreached]
        omega
      · exact .inr (invalid ▸ (covered'.txStatus_eq_invalid positive known).mpr (.inr ⟨later, older⟩))
    · left
      have : ¬ view < first.getTermInternal first.commitIdx := by omega
      simp [answer, txStatus, evaluateTxStatus, asked, Nat.not_le.mpr unreached, Nat.not_le.mpr later, older, this]
  · -- Both entries are known, and neither is the one asked for.
    right
    have known := covered'.known_of_committed positive reached
    obtain ⟨known', other, other'⟩ : first.getTermInternal seqno ≠ 0 ∧ view ≠ first.getTermInternal seqno ∧
        view ≠ second.getTermInternal seqno := by
      refine ⟨fun h => apart (.inl ⟨unreached, reached, same, .inl h⟩),
        fun h => apart (.inl ⟨unreached, reached, same, .inr (.inl h)⟩),
        fun h => apart (.inl ⟨unreached, reached, same, .inr (.inr h)⟩)⟩
    simp [answer, txStatus, evaluateTxStatus, reached, known', Nat.ne_of_gt known, other.symm, other'.symm]

/-- The answer of an atomic evaluation, for every interleaving whose reads do not
straddle a replacement; and no answer of one where they do. -/
theorem status_endpoint_linearised (covered : first.Covered) (positive : 1 ≤ seqno)
    (earlier : Lib.Run change first before second) (later : Lib.Run change second after third) :
    let answer := getStatusForTxid first second third view seqno
    (¬ Straddles first second view seqno →
      Linearised (Lib.Visited first (after ++ before)) third view seqno answer) ∧
    (1 ≤ view → Linearised (Lib.Visited first (after ++ before)) third view seqno answer →
      ¬ Straddles first second view seqno) := by
  intro answer
  obtain ⟨covered', retains⟩ := run_retains covered earlier
  obtain ⟨-, retains'⟩ := run_retains covered' later
  have run := earlier.append later
  have value : answer = _ := getStatusForTxid_eq retains'
  refine ⟨fun apart => ?_, fun asked linearised straddles => ?_⟩
  · rcases evaluate_eq_first_or_second covered covered' retains positive apart with same | same
    · exact .of_visited covered positive run (.inl rfl) (same.trans value.symm)
    · exact .of_visited covered positive run earlier.visited.append (same.trans value.symm)
  · obtain ⟨unreached, reached, same, clash⟩ : first.commitIdx < seqno ∧ seqno ≤ second.commitIdx ∧
        first.getTermInternal seqno ≠ second.getTermInternal seqno ∧ (first.getTermInternal seqno = 0 ∨
          view = first.getTermInternal seqno ∨ view = second.getTermInternal seqno) :=
      straddles.resolve_right fun unknown => by omega
    have final := retains'.kept seqno reached
    by_cases unknown : first.getTermInternal seqno = 0
    · exact linearised.answered (by simp [value, evaluateTxStatus, reached, unknown])
    rcases clash.resolve_left unknown with old | new
    · have committed : answer = some .committed := by simp [value, evaluateTxStatus, reached, old, unknown]
      have := (linearised.committed committed).2
      omega
    -- An evaluation that says invalid rules out the view that is committed in the end.
    have invalid : answer = some .invalid := by
      simp [value, evaluateTxStatus, reached, unknown, new, same]
    obtain ⟨x, visited, same'⟩ := linearised.atomic
    obtain ⟨known, -, rest⟩ := retains_of_visited covered run visited
    rw [invalid, known.txStatus_eq_invalid positive asked] at same'
    have inside := (reached.trans retains'.commit_le).trans (run_retains covered run).1.commit_le
    rcases same' with ⟨committed, other⟩ | ⟨ahead, older⟩
    · have := rest.kept seqno committed
      omega
    have grown := third.viewHistory.viewAt_mono ahead.le
    have kept := rest.kept _ le_rfl
    rw [getTermInternal_of_le (ahead.le.trans inside)] at kept
    rw [getTermInternal_of_le inside] at final
    omega

theorem status_endpoint_linearised_pending :
    ∃ before first after third, Lib.Run change ({} : Log Unit) before first ∧ Lib.Run change first after third ∧
      third.commitIdx = 2 ∧ getStatusForTxid first first third 2 2 = some .pending ∧
      Linearised (Lib.Visited first (after ++ [])) third 2 2 (getStatusForTxid first first third 2 2) := by
  obtain ⟨before, first, after, third, reached, later, last_commit, pending⟩ :
      ∃ before first after third, Run change ({} : Log Unit) before first ∧ Run change first after third ∧
        third.commitIdx = 2 ∧ getStatusForTxid first first third 2 2 = some .pending :=
    exists_runs committedThenPending replaced (by decide +kernel)
  refine ⟨before, first, after, third, reached, later, last_commit, pending, ?_⟩
  refine (status_endpoint_linearised (run_retains .empty reached).1 (by decide) .start later).1 ?_
  rintro (⟨_, _, changed, _⟩ | ⟨unknown, _⟩)
  · exact changed rfl
  · cases unknown

/-- An entry is replaced and committed after its view was read: its old view is
reported as committed, which no evaluation in between says. -/
theorem status_endpoint_not_linearised :
    ∃ before first after second, Lib.Run change ({} : Log Unit) before first ∧ Lib.Run change first after second ∧
      getStatusForTxid first second second 2 2 = some .committed ∧ second.getTermInternal 2 = 3 ∧
      ∀ x, Lib.Visited first after x → x.txStatus 2 2 ≠ some .committed := by
  obtain ⟨before, first, after, second, reached, later, committed, view, never, nor⟩ :
      ∃ before first after second, Run change ({} : Log Unit) before first ∧ Run change first after second ∧
        getStatusForTxid first second second 2 2 = some .committed ∧ second.getTermInternal 2 = 3 ∧
        first.txStatus 2 2 ≠ some .committed ∧ ∀ t ∈ after, t.post.txStatus 2 2 ≠ some .committed :=
    exists_runs committedThenPending replaced (by decide +kernel)
  refine ⟨before, first, after, second, reached, later, committed, view, fun x visited => ?_⟩
  rcases visited with rfl | ⟨t, member, rfl⟩
  · exact never
  · exact nor t member

end Log
end CCF.Aft
