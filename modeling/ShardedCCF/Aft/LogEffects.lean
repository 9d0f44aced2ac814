import ShardedCCF.Aft.Replica
import ShardedCCF.Aft.Roster

/-! On the log every function of a node acts as the log machine does, whatever
happens to the node table. -/
namespace CCF.Aft
open Std (ExtTreeMap)

variable {NodeId : Type} [LinearOrder NodeId]

def Result.toLog : Result NodeId → LogResult NodeId
  | .ok s => .ok s.toLog
  | .error thrown => .error thrown.state.toLog

theorem Result.state_toLog (result : Result NodeId) : (Result.state result).toLog = (Result.toLog result).log := by
  cases result <;> rfl

theorem Result.toLog_bind {first : Result NodeId} {next : Node NodeId → Result NodeId}
    {log : LogResult NodeId} {nextLog : Log NodeId → LogResult NodeId}
    (begins : Result.toLog first = log)
    (continues : ∀ s, first = .ok s → Result.toLog (next s) = nextLog s.toLog) :
    Result.toLog (first >>= next) = log.bind nextLog := by
  subst begins
  cases first with
  | error thrown => rfl
  | ok s => exact continues s rfl

namespace Node
variable (env : Env NodeId) (s : Node NodeId) {t : Node NodeId}

theorem Broadcasts.toLog_eq {s : Node NodeId} (sent : Broadcasts s t) : t.toLog = s.toLog := by
  rw [sent.frame]

theorem Rebuilds.toLog_eq {s : Node NodeId} (built : Rebuilds s t) : t.toLog = s.toLog := by
  rw [built.frame]

variable (idx : Nat) (conf : Nodes NodeId)

theorem becomeRetired_toLog (phase : RetirementPhase) : (s.becomeRetired idx phase).toLog = s.toLog := by
  cases phase <;> rfl

theorem recordLearnersAndRetired_toLog (learners retired) :
    (s.recordLearnersAndRetired idx conf learners retired).toLog = s.toLog := by
  unfold recordLearnersAndRetired
  dsimp only
  split
  · rfl
  · split <;> rfl

theorem observeConfiguration_toLog (learners retired) :
    (s.observeConfiguration idx conf learners retired).toLog = s.toLog := by
  unfold observeConfiguration
  dsimp only
  split
  · split
    · exact becomeRetired_toLog ..
    · rfl
  rw [recordLearnersAndRetired_toLog]
  split
  · exact becomeRetired_toLog ..
  · rfl

theorem addConfiguration_toLog (learners retired) :
    (s.addConfiguration env idx conf learners retired).toLog = s.toLog := by
  unfold addConfiguration
  dsimp only
  split
  · exact observeConfiguration_toLog ..
  · rw [(createAndRemoveNodeState_rebuilds env _).toLog_eq]
    exact observeConfiguration_toLog ..

theorem callHooks_toLog (e : Entry NodeId) : (s.callHooks env e).toLog = s.toLog := by
  unfold callHooks
  generalize e.hooks = changes
  induction changes generalizing s with
  | nil => rfl
  | cons change changes ih =>
    rw [List.foldl_cons, ih, configurationChange]
    split
    · rfl
    · exact addConfiguration_toLog ..

theorem rollbackRetirement_toLog : (s.rollbackRetirement idx).toLog = s.toLog := by
  unfold rollbackRetirement unorderRetirement unsignRetirement
  dsimp only
  split <;> split <;> rfl

theorem rollbackLearnersAndRetired_toLog : (s.rollbackLearnersAndRetired idx).toLog = s.toLog := by
  unfold rollbackLearnersAndRetired
  split <;> rfl

theorem rollbackConfigurations_toLog : (s.rollbackConfigurations env idx).toLog = s.toLog := by
  unfold rollbackConfigurations
  dsimp only
  split
  · rw [(createAndRemoveNodeState_rebuilds env _).toLog_eq, rollbackLearnersAndRetired_toLog]
  · rw [rollbackLearnersAndRetired_toLog]

theorem rollback_toLog : (s.rollback env idx).toLog = s.toLog.rollback s.currentView idx := by
  unfold rollback
  split
  · rw [Log.rollback, if_pos ‹_›]
  · rw [rollbackConfigurations_toLog, rollbackRetirement_toLog]

theorem observeRemoval_toLog (c next : Configuration NodeId) : (s.observeRemoval idx c next).toLog = s.toLog := by
  unfold observeRemoval
  split
  · split
    · exact becomeRetired_toLog ..
    · rfl
  · rfl

theorem switchConfiguration_toLog (c next : Configuration NodeId) (rest) :
    (s.switchConfiguration c next rest).toLog = s.toLog := by
  unfold switchConfiguration
  split <;> rfl

theorem dropSuperseded_toLog (idx fuel : Nat) (changed : Bool) :
    (dropSuperseded idx fuel s changed).1.toLog = s.toLog := by
  induction fuel generalizing s changed with
  | zero => rfl
  | succ fuel ih =>
    unfold dropSuperseded
    split
    · split
      · rfl
      split
      · rw [ih]
      dsimp only
      split
      · rw [ih, switchConfiguration_toLog, observeRemoval_toLog]
      · exact observeRemoval_toLog ..
    · rfl

theorem completeRetirement_toLog : (s.completeRetirement idx).toLog = s.toLog := by
  unfold completeRetirement
  split
  · exact becomeRetired_toLog ..
  · rfl

theorem commit_toLog : Result.toLog (s.commit env idx) = s.toLog.commit idx := by
  unfold commit Log.commit
  split
  · rfl
  split
  · rfl
  dsimp only [Result.toLog]
  congr 1
  split
  · rw [(createAndRemoveNodeState_rebuilds env _).toLog_eq, dropSuperseded_toLog,
      completeRetirement_toLog]
  · rw [dropSuperseded_toLog, completeRetirement_toLog]

theorem commitIfPossible_toLog :
    Result.toLog (s.commitIfPossible env idx) = s.toLog.commitIfPossible s.currentView idx := by
  unfold commitIfPossible Log.commitIfPossible
  split
  · dsimp only
    cases (s.committableIndices.takeWhile (· ≤ idx)).getLast? with
    | none => rfl
    | some highest => exact commit_toLog ..
  · rfl

theorem updateViewHistory_toLog (idx view : Nat) :
    Result.toLog (s.updateViewHistory idx view) = s.toLog.updateViewHistory idx view := by
  unfold updateViewHistory Log.updateViewHistory
  cases s.viewHistory.update idx view <;> rfl

theorem signRetirement_toLog : (s.signRetirement idx).toLog = s.toLog := by
  unfold signRetirement
  split
  · exact becomeRetired_toLog ..
  · rfl

theorem startTickingIfNecessary_toLog : s.startTickingIfNecessary.toLog = s.toLog := by
  unfold startTickingIfNecessary
  split <;> rfl

theorem prepareEntry_toLog (e : Entry NodeId) (i : Nat) :
    (s.prepareEntry env e i).toLog = { s.toLog with lastIdx := i } := by
  unfold prepareEntry
  split
  · rw [startTickingIfNecessary_toLog, callHooks_toLog]
  · rw [callHooks_toLog]

theorem inferView_toLog (r : AppendEntries) : Result.toLog (s.inferView r) = s.toLog.inferView r := by
  unfold inferView Log.inferView
  dsimp only
  split
  · exact updateViewHistory_toLog ..
  split
  · exact updateViewHistory_toLog ..
  · rfl

theorem rollbackNewFollower_toLog (prevIdx : Nat) :
    (s.rollbackNewFollower env prevIdx).toLog =
      s.toLog.rollbackNewFollower s.currentView prevIdx := by
  unfold rollbackNewFollower Log.rollbackNewFollower
  split
  · split
    · dsimp only
      rw [rollback_toLog]
    · rfl
  · rfl

end Node
end CCF.Aft
