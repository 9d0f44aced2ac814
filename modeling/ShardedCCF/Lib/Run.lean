import Mathlib

/-! Runs of a deterministic labelled transition function, with their history.
The newest transition stands first. -/
namespace Lib
variable {S A : Type}

structure Transition (S A : Type) where
  pre : S
  action : A
  post : S

inductive Run (step : S → A → Option S) (init : S) : List (Transition S A) → S → Prop where
  | start : Run step init [] init
  | next : Run step init trace s → step s a = some t → Run step init (⟨s, a, t⟩ :: trace) t

/-- The states a run has been in, the initial one included. -/
def Visited (init : S) (trace : List (Transition S A)) (s : S) : Prop :=
  s = init ∨ ∃ t ∈ trace, t.post = s

/-- Every transition of the trace is good, given the transitions before it. -/
def Along (good : List (Transition S A) → Transition S A → Prop) : List (Transition S A) → Prop
  | [] => True
  | t :: trace => good trace t ∧ Along good trace

theorem along_of_forall {good : List (Transition S A) → Transition S A → Prop} (trace : List (Transition S A))
    (every : ∀ older t, (∀ x ∈ older, x ∈ trace) → good older t) : Along good trace := by
  induction trace with
  | nil => trivial
  | cons t trace ih =>
    exact ⟨every trace t fun x => List.mem_cons_of_mem t,
      ih fun older t within => every older t fun x member => List.mem_cons_of_mem _ (within x member)⟩

section
variable {step : S → A → Option S}

theorem Run.invariant (run : Run step init trace s) (inv : S → Prop) (start : inv init)
    (preserved : ∀ s a t, inv s → step s a = some t → inv t) : inv s := by
  induction run with
  | start => exact start
  | next _ moved ih => exact preserved _ _ _ ih moved

theorem Run.invariant_of (run : Run step init trace s) {good : Transition S A → Prop} (each : ∀ t ∈ trace, good t)
    (inv : S → Prop) (start : inv init) (preserved : ∀ s a t, inv s → step s a = some t → good ⟨s, a, t⟩ → inv t) :
    inv s := by
  induction run with
  | start => exact start
  | next _ moved ih =>
    have before := ih fun t member => each t (List.mem_cons_of_mem _ member)
    exact preserved _ _ _ before moved (each _ List.mem_cons_self)

theorem Run.append (first : Run step init before s) (second : Run step s after t) :
    Run step init (after ++ before) t := by
  induction second with
  | start => exact first
  | next _ moved ih => exact ih.next moved

theorem Run.visited (run : Run step init trace s) : Visited init trace s := by
  cases run with
  | start => exact .inl rfl
  | next _ _ => exact .inr ⟨_, List.mem_cons_self, rfl⟩

end

theorem Visited.append (visited : Visited init before s) : Visited init (after ++ before) s :=
  visited.imp_right fun ⟨t, member, reached⟩ => ⟨t, List.mem_append_right after member, reached⟩

/-- The trace of a list of actions on top of the trace that led to `s`. -/
def execute (step : S → A → Option S) :
    List (Transition S A) → S → List A → Option (List (Transition S A) × S)
  | trace, s, [] => some (trace, s)
  | trace, s, a :: actions =>
    match step s a with
    | none => none
    | some t => execute step (⟨s, a, t⟩ :: trace) t actions

section
variable {step : S → A → Option S}

theorem Run.execute (run : Run step init trace s) (executed : Lib.execute step trace s actions = some (trace', t)) :
    Run step init trace' t := by
  induction actions generalizing trace s with
  | nil =>
    cases executed
    exact run
  | cons a actions ih =>
    rw [Lib.execute] at executed
    split at executed
    · cases executed
    · rename_i u taken
      exact ih (run.next taken) executed

theorem exists_run {P : List (Transition S A) → S → Prop} [∀ trace s, Decidable (P trace s)] (actions : List A)
    (checked : (execute step [] init actions).any (fun reached => decide (P reached.1 reached.2)) = true) :
    ∃ trace s, Run step init trace s ∧ P trace s := by
  obtain ⟨reached, executed, passed⟩ := (Option.any_eq_true _ _).mp checked
  exact ⟨reached.1, reached.2, Run.start.execute executed, of_decide_eq_true passed⟩

theorem exists_run_of {P Q : List (Transition S A) → S → Prop} [∀ trace s, Decidable (P trace s)] (actions : List A)
    (checked : (execute step [] init actions).any (fun reached => decide (P reached.1 reached.2)) = true)
    (follows : ∀ trace s, Run step init trace s → P trace s → Q trace s) :
    ∃ trace s, Run step init trace s ∧ Q trace s := by
  obtain ⟨trace, s, run, passed⟩ := exists_run (P := P) actions checked
  exact ⟨trace, s, run, follows trace s run passed⟩

theorem exists_runs {P : List (Transition S A) → S → List (Transition S A) → S → Prop}
    [∀ earlier u later s, Decidable (P earlier u later s)] (actions more : List A)
    (checked : (execute step [] init actions).any (fun first => (execute step [] first.2 more).any fun second => decide (P first.1 first.2 second.1 second.2)) = true) :
    ∃ earlier u later s, Run step init earlier u ∧ Run step u later s ∧ P earlier u later s := by
  obtain ⟨first, executed, rest⟩ := (Option.any_eq_true _ _).mp checked
  obtain ⟨second, continued, passed⟩ := (Option.any_eq_true _ _).mp rest
  exact ⟨first.1, first.2, second.1, second.2, Run.start.execute executed, Run.start.execute continued,
    of_decide_eq_true passed⟩

end

end Lib
