import ShardedCCF.Aft.Raft

/-! The log as a machine of its own: what committing, executing a batch and
appending do to a log, whatever the rest of the node does meanwhile. A result
that threw keeps the log as the exception left it. -/
namespace CCF.Aft

variable {NodeId : Type}

abbrev LogResult (NodeId : Type) := Except (Log NodeId) (Log NodeId)

def LogResult.log : LogResult NodeId → Log NodeId
  | .ok l => l
  | .error l => l

namespace Log

def commit (l : Log NodeId) (idx : Nat) : LogResult NodeId :=
  if idx > l.lastIdx then .error l
  else if idx ≤ l.commitIdx then .ok l
  else .ok { l with commitIdx := idx }

def popCommittable (l : Log NodeId) (idx : Nat) : Log NodeId :=
  { l with committableIndices := l.committableIndices.dropWhile (· ≤ idx) }

def commitIfPossible (l : Log NodeId) (view idx : Nat) : LogResult NodeId :=
  if idx > l.commitIdx ∧ l.getTermInternal idx ≤ view then
    match (l.committableIndices.takeWhile (· ≤ idx)).getLast? with
    | none => .ok (l.popCommittable idx)
    | some highestCommittable => (l.popCommittable idx).commit highestCommittable
  else .ok l

def updateViewHistory (l : Log NodeId) (idx view : Nat) : LogResult NodeId :=
  match l.viewHistory.update idx view with
  | none => .error l
  | some viewHistory => .ok { l with viewHistory }

def push (l : Log NodeId) (e : Entry NodeId) (i : Nat) : Log NodeId :=
  { l with lastIdx := i, ledger := l.ledger ++ [e] }

def addCommittable (l : Log NodeId) (i : Nat) : Log NodeId :=
  { l with committableIndices := l.committableIndices ++ [i] }

def announceView (l : Log NodeId) (r : AppendEntries) (e : Entry NodeId) : LogResult NodeId :=
  if r.termOfIdx = 0 then l.updateViewHistory 1 r.term
  else l.updateViewHistory (r.prevIdx + 1) e.term

def deserialiseSignature (l : Log NodeId) (view : Nat) (r : AppendEntries) (e : Entry NodeId)
    (i : Nat) : LogResult NodeId :=
  if e.term = 0 then .ok (l.addCommittable i)
  else ((l.addCommittable i).announceView r e).bind fun l =>
    l.commitIfPossible view r.leaderCommitIdx

def executeEntry (l : Log NodeId) (view : Nat) (r : AppendEntries) (e : Entry NodeId) (i : Nat) :
    LogResult NodeId :=
  if e.isSignature then (l.push e i).deserialiseSignature view r e i else .ok (l.push e i)

def inferView (l : Log NodeId) (r : AppendEntries) : LogResult NodeId :=
  if r.termOfIdx = 0 then l.updateViewHistory 1 r.term
  else if r.idx > l.lastCommittableIndex then
    l.updateViewHistory (l.lastCommittableIndex + 1) r.termOfIdx
  else .ok l

def finish (l : Log NodeId) (view : Nat) (r : AppendEntries) : LogResult NodeId :=
  (l.commitIfPossible view r.leaderCommitIdx).bind fun l => l.inferView r

/-- The log after a batch, and whether the batch was executed to its end. -/
def execute (env : Env NodeId) (view : Nat) (r : AppendEntries) :
    Log NodeId → List (Entry NodeId × Nat) → Log NodeId × Bool
  | l, [] =>
    match l.finish view r with
    | .ok l => (l, true)
    | .error l => (l, false)
  | l, (e, i) :: items =>
    if Node.applyEntry env e r.termOfIdx i = .fail then (l.truncate (i - 1), false)
    else
      match l.executeEntry view r e i with
      | .ok l => execute env view r l items
      | .error l => (l, false)

def rollbackNewFollower (l : Log NodeId) (view prevIdx : Nat) : Log NodeId :=
  if l.isNewFollower then
    { (if l.lastIdx > prevIdx then l.rollback view prevIdx else l) with isNewFollower := false }
  else l

def accept (env : Env NodeId) (l : Log NodeId) (view : Nat) (r : AppendEntries)
    (payload : List (Entry NodeId)) : Log NodeId × Bool :=
  let l := l.rollbackNewFollower view r.prevIdx
  match Node.readEntries l.lastIdx (r.prevIdx + 1) (r.idx - r.prevIdx) payload with
  | .error _ => (l, false)
  | .ok items => execute env view r l items

def append (l : Log NodeId) (view : Nat) (e : Entry NodeId) : LogResult NodeId :=
  ((if e.isSignature then l.addCommittable e.index else l).push e e.index).updateViewHistory
    e.index view

variable (l : Log NodeId)

/-- `l'` is `l` up to what has been committed and which views are known. -/
def Settles (l l' : Log NodeId) : Prop :=
  ∃ commitIdx committableIndices viewHistory,
    l' = { l with commitIdx, committableIndices, viewHistory }

theorem Settles.refl : Settles l l := ⟨_, _, _, rfl⟩

theorem Settles.trans {l l' l'' : Log NodeId} (first : Settles l l') (second : Settles l' l'') :
    Settles l l'' := by
  obtain ⟨_, _, _, rfl⟩ := first
  obtain ⟨_, _, _, rfl⟩ := second
  exact ⟨_, _, _, rfl⟩

theorem Settles.bind {l : Log NodeId} {first : LogResult NodeId} {next : Log NodeId → LogResult NodeId}
    (begins : Settles l first.log) (continues : ∀ l, Settles l (next l).log) :
    Settles l (LogResult.log (first.bind next)) := by
  cases first with
  | error l' => exact begins
  | ok l' => exact begins.trans (continues l')

theorem commit_settles (idx : Nat) : Settles l (l.commit idx).log := by
  unfold commit
  split
  · exact .refl l
  · split <;> exact ⟨_, _, _, rfl⟩

theorem commitIfPossible_settles (view idx : Nat) : Settles l (l.commitIfPossible view idx).log := by
  have popped : Settles l (l.popCommittable idx) := ⟨_, _, _, rfl⟩
  unfold commitIfPossible
  split
  · split
    · exact popped
    · exact popped.trans (commit_settles ..)
  · exact .refl l

theorem updateViewHistory_settles (idx view : Nat) : Settles l (l.updateViewHistory idx view).log := by
  unfold updateViewHistory
  split
  · exact .refl l
  · exact ⟨_, _, _, rfl⟩

variable (view : Nat) (r : AppendEntries) (e : Entry NodeId)

theorem inferView_settles : Settles l (l.inferView r).log := by
  unfold inferView
  split
  · exact updateViewHistory_settles ..
  split
  · exact updateViewHistory_settles ..
  · exact .refl l

theorem finish_settles : Settles l (l.finish view r).log :=
  .bind (l.commitIfPossible_settles ..) fun l => l.inferView_settles r

theorem deserialiseSignature_settles (i : Nat) : Settles l (l.deserialiseSignature view r e i).log := by
  have noted : Settles l (l.addCommittable i) := ⟨_, _, _, rfl⟩
  unfold deserialiseSignature
  split
  · exact noted
  refine noted.trans (.bind ?_ fun l => l.commitIfPossible_settles ..)
  unfold announceView
  split <;> exact updateViewHistory_settles ..

theorem executeEntry_settles (i : Nat) : Settles (l.push e i) (l.executeEntry view r e i).log := by
  unfold executeEntry
  split
  · exact deserialiseSignature_settles ..
  · exact .refl _

theorem Settles.lastIdx_eq {l l' : Log NodeId} (settles : Settles l l') : l'.lastIdx = l.lastIdx := by
  obtain ⟨_, _, _, rfl⟩ := settles
  rfl

theorem Settles.ledger_eq {l l' : Log NodeId} (settles : Settles l l') : l'.ledger = l.ledger := by
  obtain ⟨_, _, _, rfl⟩ := settles
  rfl

theorem Bounded.of_views {l l' : Log NodeId} (bounded : l.Bounded)
    (views : ∀ v ∈ l'.viewHistory.views, v ∈ l.viewHistory.views ∨ v ≤ max 1 l'.lastIdx)
    (last : l.lastIdx ≤ l'.lastIdx) : l'.Bounded := by
  intro v member
  rcases views v member with old | new
  · exact (bounded v old).trans (by omega)
  · exact new

theorem commit_views (idx : Nat) : (l.commit idx).log.viewHistory = l.viewHistory := by
  unfold commit
  split
  · rfl
  · split <;> rfl

theorem commitIfPossible_views (view idx : Nat) :
    (l.commitIfPossible view idx).log.viewHistory = l.viewHistory := by
  unfold commitIfPossible
  split
  · split
    · rfl
    · exact commit_views ..
  · rfl

theorem updateViewHistory_views (idx view : Nat)
    (member : v ∈ (l.updateViewHistory idx view).log.viewHistory.views) : v ∈ l.viewHistory.views ∨ v = idx := by
  unfold updateViewHistory at member
  split at member
  · exact .inl member
  rename_i h updated
  have member : v ∈ h.views := member
  rw [ViewHistory.views_update updated] at member
  exact (List.mem_append.mp member).imp id List.eq_of_mem_replicate

theorem announceView_views (member : v ∈ (l.announceView r e).log.viewHistory.views) :
    v ∈ l.viewHistory.views ∨ v = 1 ∨ v = r.prevIdx + 1 := by
  unfold announceView at member
  split at member
  · exact (l.updateViewHistory_views _ _ member).imp id .inl
  · exact (l.updateViewHistory_views _ _ member).imp id .inr

theorem executeEntry_bounded (bounded : l.Bounded) (within : r.prevIdx < i) (last : l.lastIdx ≤ i) :
    (l.executeEntry view r e i).log.Bounded := by
  have same := (l.executeEntry_settles view r e i).lastIdx_eq
  refine bounded.of_views (fun v member => ?_) (by rw [same]; exact last)
  rw [same]
  show _ ∨ v ≤ max 1 i
  unfold executeEntry at member
  split at member
  · unfold deserialiseSignature at member
    split at member
    · exact .inl member
    have announced : v ∈ ((l.push e i).addCommittable i |>.announceView r e).log.viewHistory.views := by
      cases result : ((l.push e i).addCommittable i).announceView r e with
      | error l' =>
        rw [result] at member
        exact member
      | ok l' =>
        rw [result] at member
        have member : v ∈ (l'.commitIfPossible view r.leaderCommitIdx).log.viewHistory.views := member
        rw [commitIfPossible_views] at member
        exact member
    rcases announceView_views _ r e announced with old | rfl | rfl
    · exact .inl old
    · exact .inr (by omega)
    · exact .inr (by omega)
  · exact .inl member

theorem rollback_bounded (bounded : l.Bounded) : (l.rollback view idx).Bounded := by
  unfold rollback
  split
  · exact bounded
  intro v member
  have within := (List.mem_takeWhile_imp member)
  simp only [decide_eq_true_eq] at within
  exact within.trans (le_max_right ..)

theorem rollbackNewFollower_bounded (view prevIdx : Nat) (bounded : l.Bounded) :
    (l.rollbackNewFollower view prevIdx).Bounded := by
  unfold rollbackNewFollower
  split
  · split
    · exact l.rollback_bounded view bounded
    · exact bounded
  · exact bounded

theorem rollbackNewFollower_reaches (within : prevIdx ≤ l.lastIdx) :
    prevIdx ≤ (l.rollbackNewFollower view prevIdx).lastIdx := by
  unfold rollbackNewFollower rollback
  split
  · split
    · split
      · exact within
      · exact le_rfl
    · exact within
  · exact within

theorem Settles.termOfNextVersion_eq {l l' : Log NodeId} (settles : Settles l l') :
    l'.termOfNextVersion = l.termOfNextVersion := by
  obtain ⟨_, _, _, rfl⟩ := settles
  rfl

theorem execute_termOfNextVersion (env : Env NodeId) (view : Nat) (r : AppendEntries)
    (items : List (Entry NodeId × Nat)) :
    (l.execute env view r items).1.termOfNextVersion = l.termOfNextVersion := by
  induction items generalizing l with
  | nil =>
    have settles := l.finish_settles view r
    unfold execute
    split <;> rename_i result <;> rw [result] at settles <;> exact settles.termOfNextVersion_eq
  | cons item items ih =>
    have settles := l.executeEntry_settles view r item.1 item.2
    unfold execute
    split
    · rfl
    split <;> rename_i result <;> rw [result] at settles
    · rw [ih]
      exact settles.termOfNextVersion_eq
    · exact settles.termOfNextVersion_eq

theorem accept_termOfNextVersion (env : Env NodeId) (view : Nat) (r : AppendEntries)
    (payload : List (Entry NodeId)) :
    (l.accept env view r payload).1.termOfNextVersion = l.termOfNextVersion ∨
      (l.accept env view r payload).1.termOfNextVersion = view := by
  have rolled : (l.rollbackNewFollower view r.prevIdx).termOfNextVersion = l.termOfNextVersion ∨
      (l.rollbackNewFollower view r.prevIdx).termOfNextVersion = view := by
    unfold rollbackNewFollower rollback
    split
    · split
      · split
        · exact .inl rfl
        · exact .inr rfl
      · exact .inl rfl
    · exact .inl rfl
  unfold accept
  dsimp only
  split
  · exact rolled
  · rw [execute_termOfNextVersion]
    exact rolled

end Log
end CCF.Aft
