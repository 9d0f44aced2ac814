import ShardedCCF.Aft.Membership

/-! The execution of a batch: on the log it is what the log machine does, and
beside that it is bookkeeping of members and one answer. -/
namespace CCF.Aft
open Std (ExtTreeMap)

variable {NodeId : Type}

def Message.IsAppend (view : Nat) (m : Message NodeId) : Prop :=
  ∃ ae payload, m = .appendEntries ae payload ∧ ae.term = view

theorem Node.Sendable.isAppend {l : Log NodeId} (able : Sendable l view m) : m.IsAppend view := by
  obtain ⟨startIdx, batchSize, -, rfl⟩ := able
  exact ⟨_, _, rfl, rfl⟩

/-- What a primary may send while it executes the batch of another one. -/
def Message.Strays (view : Nat) (bounded : Prop) (m : Message NodeId) : Prop :=
  m.IsAppend view ∧ (bounded → m.Hollow)

theorem Node.readEntries_eq {lastIdx first count : Nat} {payload : List (Entry NodeId)}
    (read : Node.readEntries lastIdx first count payload = .ok items) :
    count ≤ payload.length ∧
      items = ((payload.take count).drop (lastIdx + 1 - first)).zipIdx (max first (lastIdx + 1)) := by
  induction count generalizing first payload items with
  | zero =>
    cases read
    simp
  | succ count ih =>
    cases payload with
    | nil => cases read
    | cons e payload =>
      simp only [Node.readEntries] at read
      cases rest : Node.readEntries lastIdx (first + 1) count payload with
      | error err =>
        rw [rest] at read
        cases read
      | ok items' =>
        obtain ⟨long, equal⟩ := ih rest
        rw [rest] at read
        cases read
        refine ⟨by simpa using long, ?_⟩
        rw [equal]
        split
        · rw [show lastIdx + 1 - first = lastIdx + 1 - (first + 1) + 1 by omega, List.take_succ_cons,
            List.drop_succ_cons, show max (first + 1) (lastIdx + 1) = max first (lastIdx + 1) by omega]
        rw [show lastIdx + 1 - first = 0 by omega, show lastIdx + 1 - (first + 1) = 0 by omega,
          show max first (lastIdx + 1) = first by omega,
          show max (first + 1) (lastIdx + 1) = first + 1 by omega]
        simp

variable [LinearOrder NodeId]

namespace Node
variable (env : Env NodeId) (s : Node NodeId) {t : Node NodeId}
variable {mode : Mode} {sends : Message NodeId → Prop} {i : Nat} {bounded : Prop}

theorem updateViewHistory_ok {s : Node NodeId} (ok : s.updateViewHistory idx view = .ok t) :
    ∃ viewHistory, t = { s with viewHistory } := by
  unfold updateViewHistory at ok
  split at ok
  · cases ok
  · cases ok
    exact ⟨_, rfl⟩

theorem updateViewHistory_carries (idx view : Nat) :
    Carries mode sends i i s (Result.state (s.updateViewHistory idx view)) := by
  unfold updateViewHistory
  split
  · exact fun regular => ⟨regular, .refl s⟩
  · exact .of_ballot rfl rfl rfl id rfl rfl

theorem Carries.bind {s : Node NodeId} {first : Result NodeId} {next : Node NodeId → Result NodeId}
    (begins : Carries mode sends i j s (Result.state first))
    (continues : ∀ t, first = .ok t → Carries mode sends j j t (Result.state (next t))) :
    Carries mode sends i j s (Result.state (first >>= next)) := by
  cases first with
  | error thrown => exact begins
  | ok t => exact begins.trans (continues t rfl)

variable (dest : NodeId) (source : NodeId) (r : AppendEntries) (e : Entry NodeId)

theorem deserialiseSignature_toLog (idx : Nat) : Result.toLog (s.deserialiseSignature env r e idx) =
      s.toLog.deserialiseSignature s.currentView r e idx := by
  have log := s.signRetirement_toLog idx
  have view : (s.signRetirement idx).currentView = s.currentView := by
    unfold signRetirement
    split <;> rfl
  unfold deserialiseSignature Log.deserialiseSignature
  generalize s.signRetirement idx = u at log view
  rw [← log, ← view]
  split
  · rfl
  refine Result.toLog_bind ?_ fun t ok => ?_
  · unfold Log.announceView
    split <;> exact updateViewHistory_toLog ..
  · have unchanged : t.currentView = u.currentView := by
      split at ok <;> obtain ⟨_, rfl⟩ := updateViewHistory_ok ok <;> rfl
    rw [commitIfPossible_toLog, unchanged]

theorem deserialiseSignature_carries (idx : Nat) :
    Carries mode sends i i s (Result.state (s.deserialiseSignature env r e idx)) := by
  have signed : Carries mode sends i i s _ := s.signRetirement_carries idx
  unfold deserialiseSignature
  generalize s.signRetirement idx = u at signed
  have noted : Carries mode sends i i u
      { u with committableIndices := u.committableIndices ++ [idx] } :=
    .of_ballot rfl rfl rfl id rfl rfl
  refine (signed.trans noted).trans ?_
  split
  · exact fun regular => ⟨regular, .refl _⟩
  · refine .bind ?_ fun t _ => t.commitIfPossible_carries env _
    split <;> exact updateViewHistory_carries _ _ _

theorem prepareEntry_carries (known : bounded → s.toLog.Bounded) (ordered : s.lastIdx ≤ e.index)
    (plain : mode = .fixedMembership → e.Plain) (settled : mode ≠ .unrestricted → s.leadershipState ≠ some .candidate) :
    Carries mode (Message.Strays s.currentView bounded) s.lastIdx e.index s
      (s.prepareEntry env e e.index) := by
  intro regular
  have moved : Carries mode (Message.Strays s.currentView bounded) e.index e.index s
      { s with lastIdx := e.index } := .of_ballot rfl rfl rfl id rfl rfl
  have hooked : Carries mode (Message.Strays s.currentView bounded) e.index e.index
      { s with lastIdx := e.index } (callHooks env { s with lastIdx := e.index } e) := by
    intro regular
    obtain ⟨regular, frame⟩ := callHooks_carries env { s with lastIdx := e.index } e plain settled regular
    refine ⟨regular, frame.mono fun m enrols => ⟨enrols.1.isAppend, fun holds => enrols.2 ?_⟩⟩
    exact (known holds).of_views (fun v => .inl) ordered
  unfold prepareEntry
  split
  · exact ((moved.trans hooked).trans (startTickingIfNecessary_carries _)) (regular.mono ordered)
  · exact (moved.trans hooked) (regular.mono ordered)

theorem executeEntry_toLog (idx : Nat) (view : (s.prepareEntry env e idx).currentView = s.currentView) :
    Result.toLog (s.executeEntry env r e idx) = s.toLog.executeEntry s.currentView r e idx := by
  have log := s.prepareEntry_toLog env e idx
  unfold executeEntry Log.executeEntry
  generalize s.prepareEntry env e idx = u at log view
  have pushed : ({ u with ledger := u.ledger ++ [e] } : Node NodeId).toLog = s.toLog.push e idx := by
    rw [Log.push, log]
  split
  · rw [deserialiseSignature_toLog, pushed, view]
  · exact congrArg Except.ok pushed

theorem executeEntry_carries (known : bounded → s.toLog.Bounded) (ordered : s.lastIdx ≤ e.index)
    (plain : mode = .fixedMembership → e.Plain) (settled : mode ≠ .unrestricted → s.leadershipState ≠ some .candidate) :
    Carries mode (Message.Strays s.currentView bounded) s.lastIdx e.index s
      (Result.state (s.executeEntry env r e e.index)) := by
  have prepared := s.prepareEntry_carries env e known ordered plain settled
  unfold executeEntry
  generalize s.prepareEntry env e e.index = u at prepared
  have pushed : Carries mode (Message.Strays s.currentView bounded) e.index e.index u
      { u with ledger := u.ledger ++ [e] } := .of_ballot rfl rfl rfl id rfl rfl
  split
  · exact (prepared.trans pushed).trans (deserialiseSignature_carries env _ r e _)
  · exact prepared.trans pushed

theorem sendAuthenticated_eq (m : Message NodeId) :
    s.sendAuthenticated env dest m = s ∨ s.sendAuthenticated env dest m = s.send dest m := by
  unfold sendAuthenticated
  split
  · exact .inr rfl
  · exact .inl rfl

theorem sendAppendEntriesResponse_ok : s.sendAppendEntriesResponse env dest .ok none = s ∨
      s.sendAppendEntriesResponse env dest .ok none =
        s.send dest (.appendEntriesResponse ⟨s.currentView, s.lastIdx, .ok⟩) :=
  s.sendAuthenticated_eq env dest _

theorem sendAppendEntriesResponse_fail (rejected : Option (Nat × Nat)) :
    s.sendAppendEntriesResponse env dest .fail rejected = s ∨
      ∃ m : Message NodeId, m.Refuses ∧
        s.sendAppendEntriesResponse env dest .fail rejected = s.send dest m := by
  cases rejected with
  | none | some rejected => exact (s.sendAuthenticated_eq env dest _).imp id fun sent => ⟨_, by exact rfl, sent⟩

inductive Answer (source : NodeId) (view lastIdx : Nat) (done : Bool) : Sent NodeId → Prop where
  | silent : Answer source view lastIdx done []
  | refused : m.Refuses → Answer source view lastIdx done [(source, m)]
  | confirmed : done = true →
      Answer source view lastIdx done [(source, .appendEntriesResponse ⟨view, lastIdx, .ok⟩)]

/-- `t` has executed a batch that leaves this log, and has answered it. -/
structure Executes (mode : Mode) (bounded : Prop) (source : NodeId) (s t : Node NodeId)
    (result : Log NodeId × Bool) : Prop where
  log_eq : t.toLog = result.1
  regular : t.Regular mode t.lastIdx
  sent : ∃ outbox answer, t.outbox = outbox ++ answer ∧
    Answer source s.currentView t.lastIdx result.2 answer ∧
    Frame mode (Message.Strays s.currentView bounded) s { t with outbox }

theorem Executes.after {s u : Node NodeId} {source : NodeId} {result}
    (frame : Frame mode (Message.Strays s.currentView bounded) s u)
    (rest : Executes mode bounded source u t result) : Executes mode bounded source s t result := by
  obtain ⟨log, regular, outbox, answer, sent, answered, framed⟩ := rest
  rw [frame.view_eq] at answered framed
  exact ⟨log, regular, outbox, answer, sent, answered, frame.trans framed⟩

theorem Executes.of_refusal {s : Node NodeId} {source : NodeId} {log : Log NodeId}
    (log_eq : s.toLog = log) (regular : s.Regular mode s.lastIdx) (rejected) :
    Executes mode bounded source s (s.sendAppendEntriesResponse env source .fail rejected) (log, false) := by
  rcases s.sendAppendEntriesResponse_fail env source rejected with same | ⟨m, refuses, sent⟩
  · rw [same]
    exact ⟨log_eq, regular, s.outbox, [], by simp, .silent, .refl s⟩
  · rw [sent]
    exact ⟨log_eq, regular.congr rfl rfl id, s.outbox, [_], rfl, .refused refuses, .refl s⟩

theorem Executes.of_error {s : Node NodeId} {source : NodeId} {log : Log NodeId}
    (log_eq : s.toLog = log) (regular : s.Regular mode s.lastIdx) :
    Executes mode bounded source s s (log, false) :=
  ⟨log_eq, regular, s.outbox, [], by simp, .silent, .refl s⟩

theorem inferView_carries : Carries mode sends i i s (Result.state (s.inferView r)) := by
  unfold inferView
  dsimp only
  split
  · exact updateViewHistory_carries _ _ _
  split
  · exact updateViewHistory_carries _ _ _
  · exact fun regular => ⟨regular, .refl s⟩

theorem finish_toLog : Result.toLog (s.commitIfPossible env r.leaderCommitIdx >>= fun s => s.inferView r) =
      s.toLog.finish s.currentView r :=
  Result.toLog_bind (s.commitIfPossible_toLog env _) fun t _ => t.inferView_toLog r

theorem finish_executes (regular : s.Regular mode s.lastIdx) :
    Executes mode bounded source s (Result.state (s.executeAppendEntriesFinish env source r))
      (s.toLog.execute env s.currentView r []) := by
  have log := s.finish_toLog env r
  have last := (s.toLog.finish_settles s.currentView r).lastIdx_eq
  have carried : Carries mode (Message.Strays s.currentView bounded) s.lastIdx s.lastIdx s _ :=
    .bind (s.commitIfPossible_carries env r.leaderCommitIdx) fun t _ => t.inferView_carries r
  obtain ⟨regular, frame⟩ := carried regular
  have split : s.executeAppendEntriesFinish env source r =
      (s.commitIfPossible env r.leaderCommitIdx >>= fun s => s.inferView r) >>= fun s =>
        .ok (s.sendAppendEntriesResponse env source .ok none) := by
    rw [bind_assoc]
    rfl
  rw [split]
  unfold Log.execute
  rw [← log] at last ⊢
  cases result : s.commitIfPossible env r.leaderCommitIdx >>= fun s => s.inferView r with
  | error thrown =>
    rw [result] at regular frame last
    exact .after frame (.of_error rfl (last ▸ regular))
  | ok u =>
    rw [result] at regular frame last
    refine .after frame ?_
    have regular : u.Regular mode u.lastIdx := last ▸ regular
    rcases u.sendAppendEntriesResponse_ok env source with same | sent
    · dsimp only [bind, Except.bind, Result.state]
      rw [same]
      exact ⟨rfl, regular, u.outbox, [], by simp, .silent, .refl u⟩
    dsimp only [bind, Except.bind, Result.state]
    rw [sent]
    exact ⟨rfl, regular.congr rfl rfl id, u.outbox, [_], rfl, .confirmed rfl, .refl u⟩

theorem truncate_executes (idx : Nat) (regular : s.Regular mode s.lastIdx) : Executes mode bounded source s
      (({ s with toLog := s.toLog.truncate idx } : Node NodeId).sendAppendEntriesResponse env source
        .fail none) (s.toLog.truncate idx, false) := by
  let u : Node NodeId := { s with toLog := s.toLog.truncate idx }
  have cut : u.Regular mode u.lastIdx := regular.congr rfl rfl id
  have refused : Executes mode bounded source u (u.sendAppendEntriesResponse env source .fail none)
      (u.toLog, false) := .of_refusal env rfl cut none
  have framed : Frame mode (Message.Strays s.currentView bounded) s u :=
    .of_ballot rfl rfl id (fun _ => rfl) rfl
  exact .after framed refused

theorem executeAppendEntriesSync_executes (entries : List (Entry NodeId)) (known : bounded → s.toLog.Bounded)
    (follows : r.prevIdx ≤ s.lastIdx) (regular : s.Regular mode s.lastIdx)
    (plain : mode = .fixedMembership → ∀ e ∈ entries, e.Plain)
    (settled : mode ≠ .unrestricted → s.leadershipState ≠ some .candidate) : Executes mode bounded source s
      (Result.state (executeAppendEntriesSync env source r s (entries.zipIdx (s.lastIdx + 1))))
      (s.toLog.execute env s.currentView r (entries.zipIdx (s.lastIdx + 1))) := by
  induction entries generalizing s with
  | nil => exact s.finish_executes env source r regular
  | cons e entries ih =>
    rw [List.zipIdx_cons]
    unfold executeAppendEntriesSync Log.execute
    split
    · exact s.truncate_executes env source _ regular
    rename_i accepted
    have index : e.index = s.lastIdx + 1 := by
      by_contra other
      simp [applyEntry, other] at accepted
    have carried := s.executeEntry_carries env r e known (by omega)
      (fun isFixed => plain isFixed e List.mem_cons_self) settled
    have prepared := s.prepareEntry_carries env e known (by omega)
      (fun isFixed => plain isFixed e List.mem_cons_self) settled
    rw [index] at carried prepared
    have log := s.executeEntry_toLog env r e (s.lastIdx + 1) (prepared regular).2.view_eq
    have last := (s.toLog.executeEntry_settles s.currentView r e (s.lastIdx + 1)).lastIdx_eq
    have bounds : bounded → (s.toLog.executeEntry s.currentView r e (s.lastIdx + 1)).log.Bounded :=
      fun holds => s.toLog.executeEntry_bounded _ r e (known holds) (by omega) (by omega)
    obtain ⟨regular, frame⟩ := carried regular
    rw [← log] at last bounds ⊢
    cases result : s.executeEntry env r e (s.lastIdx + 1) with
    | error thrown =>
      rw [result] at regular frame last
      exact .after frame (.of_error rfl (last ▸ regular))
    | ok u =>
      rw [result] at regular frame last bounds
      have last : u.lastIdx = s.lastIdx + 1 := last
      have frame : Frame mode (Message.Strays s.currentView bounded) s u := frame
      have continued := ih u bounds (by omega) (last ▸ regular)
        (fun isFixed e member => plain isFixed e (List.mem_cons_of_mem _ member))
        (fun limited candidate => ?_)
      · rw [last, frame.view_eq] at continued
        exact .after frame continued
      · rcases frame.role with ⟨same, -⟩ | ⟨-, -, demoted⟩
        · exact settled limited (same ▸ candidate)
        · simp [candidate] at demoted

end Node
end CCF.Aft
