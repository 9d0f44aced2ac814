import ShardedCCF.Kv.Rollback

/-! The operations of a handle in a row. Run again on another state they return
and write the same, if that state has what they have looked at. -/
namespace CCF.Kv
open Std (ExtTreeMap)

variable {K V : Type} [LinearOrder K]

def Operation.iterates : Operation K V → Bool
  | .foreach _ => true
  | .size => true
  | .clear => true
  | _ => false

def State.versionOf (state : State K V) (key : K) : Int :=
  match state[key]? with
  | none => noVersion
  | some found => found.version

namespace ChangeSet

def ofState (state : State K V) : ChangeSet K V :=
  { rollbackCounter := 0, state, committed := ∅, startVersion := noVersion }

def replay (cs : ChangeSet K V) : List (Operation K V) → List (Observation K V) × ChangeSet K V
  | [] => ([], cs)
  | op :: ops =>
    let (observed, cs) := cs.operate op
    let (rest, cs) := cs.replay ops
    (observed :: rest, cs)

section
variable (cs : ChangeSet K V)

theorem replay_append (ops more : List (Operation K V)) : cs.replay (ops ++ more) =
      ((cs.replay ops).1 ++ ((cs.replay ops).2.replay more).1, ((cs.replay ops).2.replay more).2) := by
  induction ops generalizing cs with
  | nil => rfl
  | cons op ops ih => simp [replay, ih]

/-- What is read is what the transaction wrote, or the value in its state. -/
theorem readKey_value (key : K) : (cs.readKey key).1 = match cs.writes[key]? with
      | some written => written
      | none => cs.state.value key := by
  unfold readKey State.value
  cases cs.writes[key]? with
  | some written => rfl
  | none => cases cs.state[key]? <;> rfl

theorem readKey_writes (key : K) : (cs.readKey key).2.writes = cs.writes := by
  unfold readKey
  split
  · rfl
  · split <;> rfl

/-- A read of a key that is not written is recorded with its version; what was
recorded before stays. -/
theorem readKey_reads (key k : K) : (cs.readKey key).2.reads[k]? =
      if k = key ∧ cs.writes[key]? = none ∧ k ∉ cs.reads then
        some (cs.state.versionOf k, (cs.state[k]?.map fun found => found.readVersion).getD noVersion)
      else cs.reads[k]? := by
  unfold readKey State.versionOf
  cases written : cs.writes[key]? with
  | some w => simp
  | none =>
    by_cases same : k = key
    · subst same
      cases cs.state[k]? <;> by_cases known : k ∈ cs.reads <;>
        simp only [ExtTreeMap.getElem?_insertIfNew, known] <;> simp [known]
    · cases cs.state[key]? <;> simp [ExtTreeMap.getElem?_insertIfNew, same, Ne.symm same]

end

/-- Every read of the change set has the version in its state. -/
def Recorded (cs : ChangeSet K V) : Prop :=
  ∀ (key : K) version readVersion, cs.reads[key]? = some (version, readVersion) → version = cs.state.versionOf key

theorem remove_reads (cs : ChangeSet K V) (key : K) : (cs.remove key).2.reads = cs.reads := by
  unfold remove
  split <;> split <;> rfl

theorem clear_reads (cs : ChangeSet K V) : cs.clear.reads = cs.reads := by
  have removals : ∀ (pairs : List (K × V)) (cs : ChangeSet K V),
      (pairs.foldl (fun cs pair => (cs.remove pair.1).2) cs).reads = cs.reads := by
    intro pairs
    induction pairs with
    | nil => exact fun _ => rfl
    | cons pair pairs ih => exact fun cs => (ih _).trans (cs.remove_reads pair.1)
  exact removals _ _

theorem operate_reads (cs : ChangeSet K V) (op : Operation K V) :
    (∃ key, (cs.operate op).2.reads = (cs.readKey key).2.reads) ∨ (cs.operate op).2.reads = cs.reads := by
  cases op with
  | get key => exact .inl ⟨key, rfl⟩
  | has key => exact .inl ⟨key, rfl⟩
  | foreach visit => exact .inr rfl
  | size => exact .inr rfl
  | put key value => exact .inr rfl
  | remove key => exact .inr (cs.remove_reads key)
  | clear => exact .inr cs.clear_reads

theorem mem_reads_readKey {cs : ChangeSet K V} (key : K) (member : k ∈ cs.reads) :
    k ∈ (cs.readKey key).2.reads := by
  rw [ExtTreeMap.mem_iff_isSome_getElem?, readKey_reads]
  split
  · rfl
  · exact ExtTreeMap.mem_iff_isSome_getElem?.mp member

theorem mem_reads_operate {cs : ChangeSet K V} (op : Operation K V) (member : k ∈ cs.reads) :
    k ∈ (cs.operate op).2.reads := by
  rcases cs.operate_reads op with ⟨key, same⟩ | same <;> rw [same]
  · exact mem_reads_readKey key member
  · exact member

theorem mem_reads_replay {cs : ChangeSet K V} (ops : List (Operation K V)) (member : k ∈ cs.reads) :
    k ∈ (cs.replay ops).2.reads := by
  induction ops generalizing cs with
  | nil => exact member
  | cons op ops ih => exact ih (mem_reads_operate op member)

theorem replay_extends (cs : ChangeSet K V) (ops : List (Operation K V)) : cs.Extends (cs.replay ops).2 := by
  induction ops generalizing cs with
  | nil => exact .refl cs
  | cons op ops ih => exact (cs.operate_extends op).trans (ih _)

theorem Recorded.operate {cs : ChangeSet K V} (recorded : cs.Recorded) (op : Operation K V) :
    (cs.operate op).2.Recorded := by
  intro k version readVersion found
  rw [(cs.operate_extends op).state]
  rcases cs.operate_reads op with ⟨key, same⟩ | same <;> rw [same] at found
  · rw [readKey_reads] at found
    split at found
    · cases found
      rfl
    · exact recorded k version readVersion found
  · exact recorded k version readVersion found

theorem Recorded.replay {cs : ChangeSet K V} (recorded : cs.Recorded) (ops : List (Operation K V)) :
    (cs.replay ops).2.Recorded := by
  induction ops generalizing cs with
  | nil => exact recorded
  | cons op ops ih => exact ih (recorded.operate op)

def Unaffected (cs : ChangeSet K V) (state : State K V) : Operation K V → Prop
  | .get key => cs.writes[key]? = none → state.value key = cs.state.value key
  | .has key => cs.writes[key]? = none → state.value key = cs.state.value key
  | .put _ _ => True
  | .remove key => key ∈ state ↔ key ∈ cs.state
  | .foreach _ => state = cs.state
  | .size => state = cs.state
  | .clear => state = cs.state

section Again
variable {cs again : ChangeSet K V}

section
variable (writes : again.writes = cs.writes)
include writes

theorem readKey_again (unaffected : cs.writes[key]? = none → again.state.value key = cs.state.value key) :
    (again.readKey key).1 = (cs.readKey key).1 := by
  rw [readKey_value, readKey_value, writes]
  cases written : cs.writes[key]? with
  | some w => rfl
  | none => exact unaffected written

theorem remove_again (unaffected : key ∈ again.state ↔ key ∈ cs.state) :
    (again.remove key).1 = (cs.remove key).1 ∧ (again.remove key).2.writes = (cs.remove key).2.writes := by
  have present : again.state.contains key = cs.state.contains key := by
    rw [Bool.eq_iff_iff, ExtTreeMap.contains_iff_mem, ExtTreeMap.contains_iff_mem]
    exact unaffected
  unfold remove
  rw [writes, present]
  split <;> split <;> simp [writes]

theorem clear_again (unaffected : again.state = cs.state) : again.clear.writes = cs.clear.writes := by
  have removals : ∀ (pairs : List (K × V)) (again cs : ChangeSet K V), again.writes = cs.writes →
      again.state = cs.state → (pairs.foldl (fun cs pair => (cs.remove pair.1).2) again).writes =
        (pairs.foldl (fun cs pair => (cs.remove pair.1).2) cs).writes := by
    intro pairs
    induction pairs with
    | nil => exact fun _ _ writes _ => writes
    | cons pair pairs ih =>
      intro again cs writes state
      refine ih _ _ (remove_again writes (by rw [state])).2 ?_
      rw [(again.remove_extends pair.1).state, (cs.remove_extends pair.1).state, state]
  have pairs : again.visible = cs.visible := by rw [visible, visible, writes, unaffected]
  simp only [clear, foreach, pairs]
  exact removals _ _ _ writes unaffected

theorem operate_again (unaffected : cs.Unaffected again.state op) :
    (again.operate op).1 = (cs.operate op).1 ∧ (again.operate op).2.writes = (cs.operate op).2.writes := by
  cases op with
  | get key =>
    constructor
    · exact congrArg Observation.value (readKey_again writes unaffected)
    · exact (again.readKey_writes key).trans (writes.trans (cs.readKey_writes key).symm)
  | has key =>
    constructor
    · exact congrArg (fun found => Observation.flag found.isSome) (readKey_again writes unaffected)
    · exact (again.readKey_writes key).trans (writes.trans (cs.readKey_writes key).symm)
  | foreach visit =>
    have pairs : again.visible = cs.visible := by rw [visible, visible, writes, unaffected]
    exact ⟨by simp only [operate, foreach, pairs], writes⟩
  | size =>
    have pairs : again.visible = cs.visible := by rw [visible, visible, writes, unaffected]
    exact ⟨by simp only [operate, size, foreach, pairs], writes⟩
  | put key value => exact ⟨rfl, by simp only [operate, put, writes]⟩
  | remove key =>
    obtain ⟨observed, removed⟩ := remove_again writes unaffected
    exact ⟨congrArg Observation.flag observed, removed⟩
  | clear => exact ⟨rfl, clear_again writes unaffected⟩

end

/-- The operations return and write the same on another state, if it has the
recorded reads, is the same for an iteration, and has the removed keys. -/
theorem replay_again (again cs : ChangeSet K V) (ops : List (Operation K V)) (writes : again.writes = cs.writes)
    (reads : ∀ k ∈ (cs.replay ops).2.reads, again.state.value k = cs.state.value k)
    (iterated : ∀ op ∈ ops, op.iterates = true → again.state = cs.state)
    (removed : ∀ k, Operation.remove k ∈ ops → (k ∈ again.state ↔ k ∈ cs.state)) :
    (again.replay ops).1 = (cs.replay ops).1 ∧ (again.replay ops).2.writes = (cs.replay ops).2.writes := by
  induction ops generalizing cs again with
  | nil => exact ⟨rfl, writes⟩
  | cons op ops ih =>
    have read : ∀ key, (cs.operate op).2.reads = (cs.readKey key).2.reads → cs.writes[key]? = none →
        again.state.value key = cs.state.value key := by
      intro key same unwritten
      have recorded : key ∈ (cs.operate op).2.reads := by
        rw [same, ExtTreeMap.mem_iff_isSome_getElem?, readKey_reads]
        split
        · rfl
        · rename_i known
          exact ExtTreeMap.mem_iff_isSome_getElem?.mp (not_not.mp fun new => known ⟨rfl, unwritten, new⟩)
      exact reads key (mem_reads_replay ops recorded)
    have unaffected : cs.Unaffected again.state op := by
      cases op with
      | get key => exact read key rfl
      | has key => exact read key rfl
      | put key value => trivial
      | remove key => exact removed key List.mem_cons_self
      | foreach visit | size | clear => exact iterated _ List.mem_cons_self rfl
    obtain ⟨observed, written⟩ := operate_again writes unaffected
    have state := (cs.operate_extends op).state
    have state' := (again.operate_extends op).state
    obtain ⟨rest, final⟩ := ih (again.operate op).2 (cs.operate op).2 written
      (by
        rw [state, state']
        exact reads)
      (by
        rw [state, state']
        exact fun op member => iterated op (List.mem_cons_of_mem _ member))
      (by
        rw [state, state']
        exact fun k member => removed k (List.mem_cons_of_mem _ member))
    exact ⟨congrArg₂ List.cons observed rest, final⟩

end Again
end ChangeSet
end CCF.Kv
