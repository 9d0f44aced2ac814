import ShardedCCF.Lib.Run

/-! The tasks of a worker thread: any number of threads add them, and the worker runs
them one after the other. -/
namespace CCF.Threading

inductive Adding (M : Type) where
  | idle
  | loading (item : M)
  | linked (item : M) (tmpHead : Option M)

inductive Worker where
  | idle
  | exchanging
  | taking
  | running
  deriving DecidableEq

/-- The lists of messages are those that hang from `item_head` and from `local_msg`. A
message that is added belongs to the thread that adds it. -/
structure Task (M : Type) where
  itemHead : List M := []
  localMsg : List M := []
  adding : Nat → Adding M := fun _ => .idle
  worker : Worker := .idle
  /-- The messages in the order of their compare-exchanges. -/
  added : List M := []
  ran : List M := []

inductive Step (M : Type) where
  | addTask (thread : Nat) (item : M)
  | load (thread : Nat)
  | compareExchange (thread : Nat)
  | test
  | exchange
  | take
  | finish

namespace Task
variable {M : Type} {s t : Task M} {goal : List M}

def reverseLocalMessages (prev : List M) : List M → List M
  | [] => prev
  | current :: next => reverseLocalMessages (current :: prev) next

theorem reverseLocalMessages_eq (l prev : List M) : reverseLocalMessages prev l = l.reverse ++ prev := by
  induction l generalizing prev with
  | nil => rfl
  | cons current next ih => simp [reverseLocalMessages, ih]

variable [DecidableEq M]

/-- A thread adds a task at any time, and the worker does so while it runs one. -/
def step (s : Task M) : Step M → Option (Task M)
  | .addTask thread item =>
    match s.adding thread with
    | .idle => some { s with adding := Function.update s.adding thread (.loading item) }
    | _ => none
  | .load thread =>
    match s.adding thread with
    | .loading item => some { s with adding := Function.update s.adding thread (.linked item s.itemHead.head?) }
    | _ => none
  | .compareExchange thread =>
    match s.adding thread with
    | .linked item tmpHead =>
      -- Only the heads are compared; another list may have come to hang from the same one.
      if s.itemHead.head? = tmpHead then
        some { s with
          itemHead := item :: s.itemHead
          adding := Function.update s.adding thread .idle
          added := s.added ++ [item] }
      else some { s with adding := Function.update s.adding thread (.loading item) }
    | _ => none
  | .test =>
    if s.worker = .idle then
      some { s with worker := if s.localMsg = [] ∧ s.itemHead ≠ [] then .exchanging else .taking }
    else none
  | .exchange =>
    if s.worker = .exchanging then
      some { s with itemHead := [], localMsg := reverseLocalMessages [] s.itemHead, worker := .taking }
    else none
  | .take =>
    if s.worker = .taking then
      match s.localMsg with
      | [] => some { s with worker := .idle }
      | current :: next => some { s with localMsg := next, worker := .running, ran := s.ran ++ [current] }
    else none
  | .finish => if s.worker = .running then some { s with worker := .idle } else none

structure Queued (s : Task M) : Prop where
  added : s.added = s.ran ++ s.localMsg ++ s.itemHead.reverse
  exchanging : s.worker = .exchanging → s.localMsg = [] ∧ s.itemHead ≠ []

/-- What is known after some calls of `run_next_task`. A call finds nothing to run only if
everything has been run. -/
structure Progressed (goal : List M) (bound : Nat) (s : Task M) : Prop where
  queued : s.Queued
  ran : min goal.length bound ≤ s.ran.length
  reached : goal <+: s.added
  nothing : s.worker = .taking → s.localMsg = [] → goal.length ≤ s.ran.length

/-- The calls of `run_next_task` that a step ends or gets to their task. -/
def calls : Step M → Nat
  | .take => 1
  | _ => 0

theorem Progressed.step (progressed : s.Progressed goal bound) (moved : s.step a = some t) :
    t.Progressed goal (bound + calls a) := by
  obtain ⟨⟨added, exchanging⟩, ran, reached, nothing⟩ := progressed
  cases a with
  | addTask thread item | load thread =>
    unfold Task.step at moved
    dsimp only at moved
    split at moved
    · cases moved
      exact ⟨⟨added, exchanging⟩, ran, reached, nothing⟩
    · cases moved
  | compareExchange thread =>
    unfold Task.step at moved
    dsimp only at moved
    split at moved
    · split at moved
      · cases moved
        exact ⟨⟨by simp [added], fun same => ⟨(exchanging same).1, List.cons_ne_nil _ _⟩⟩, ran,
          reached.trans (List.prefix_append ..), nothing⟩
      · cases moved
        exact ⟨⟨added, exchanging⟩, ran, reached, nothing⟩
    · cases moved
  | test =>
    obtain ⟨-, moved⟩ := Option.ite_none_right_eq_some.mp moved
    cases moved
    refine ⟨⟨added, fun same => ?_⟩, ran, reached, fun same empty => ?_⟩
    · by_contra other
      simp [other] at same
    · have empty : s.localMsg = [] := empty
      have drained : s.itemHead = [] := by
        by_contra more
        simp [empty, more] at same
      have length := reached.length_le
      rw [added, empty, drained] at length
      simpa using length
  | exchange =>
    obtain ⟨pc, moved⟩ := Option.ite_none_right_eq_some.mp moved
    cases moved
    obtain ⟨empty, more⟩ := exchanging pc
    refine ⟨⟨?_, nofun⟩, ran, reached, fun _ none => ?_⟩
    · simp [added, empty, reverseLocalMessages_eq]
    · simp [reverseLocalMessages_eq, more] at none
  | take =>
    obtain ⟨pc, moved⟩ := Option.ite_none_right_eq_some.mp moved
    split at moved
    · rename_i empty
      cases moved
      exact ⟨⟨added, nofun⟩, Nat.le_trans (Nat.min_le_left ..) (nothing pc empty), reached, nofun⟩
    rename_i current next more
    cases moved
    refine ⟨⟨by simp [added, more], nofun⟩, ?_, reached, nofun⟩
    rw [List.length_append, List.length_singleton, calls]
    omega
  | finish =>
    obtain ⟨-, moved⟩ := Option.ite_none_right_eq_some.mp moved
    cases moved
    exact ⟨⟨added, nofun⟩, ran, reached, nofun⟩

def totalCalls (trace : List (Lib.Transition (Task M) (Step M))) : Nat := (trace.map fun t => calls t.action).sum

theorem Progressed.run (progressed : s.Progressed goal bound) (run : Lib.Run Task.step s trace t) :
    t.Progressed goal (bound + totalCalls trace) := by
  induction run with
  | start => exact progressed
  | next run moved ih =>
    have next := ih.step moved
    rwa [Nat.add_assoc, Nat.add_comm (totalCalls _)] at next

end Task
end CCF.Threading
