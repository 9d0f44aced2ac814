import Mathlib

/-! `RpcFrontend::process_command`: the bounded loop that executes a handler and
commits its transaction, and the response it leaves. -/
namespace CCF.Rpc

structure TxID where
  view : Nat
  seqno : Nat
  deriving DecidableEq, Repr

structure ErrorDetails where
  status : Nat
  code : String
  msg : String
  deriving DecidableEq, Repr

inductive Body where
  | empty
  | content (text : String)
  | error (code msg : String)
  deriving DecidableEq, Repr

def statusSuccess (status : Nat) : Bool := 200 ≤ status && status < 300

/-- The response of a context. Its headers are those that the frontend sets. -/
structure Response where
  status : Nat := 200
  body : Body := .empty
  txId : Option TxID := none
  retryAfter : Option Nat := none
  explicitApplyWrites : Option Bool := none
  deriving DecidableEq, Repr

namespace Response

def shouldApplyWrites (r : Response) : Bool := r.explicitApplyWrites.getD (statusSuccess r.status)

def resetResponse : Response := {}

def setError (r : Response) (e : ErrorDetails) : Response := { r with status := e.status, body := .error e.code e.msg }

end Response

inductive Ending where
  | returned
  | compactedVersionConflict
  | rpcException (e : ErrorDetails)
  | jsonParseError (pointer what : String)
  | jsonException (what : String)
  | kvSerialiserException
  | exception (what : String)
  deriving DecidableEq, Repr

/-- How `tx.commit` ends. A signature that is emitted after it can throw. -/
inductive Commit where
  | success (txId : Option TxID) (emission : Option String)
  | failConflict
  | failNoReplicate
  | kvSerialiserException
  | exception (what : String)
  deriving DecidableEq, Repr

/-- One execution: what the handler sets in the response before it ends, and what
a commit would return then. -/
structure Attempt where
  status : Option Nat := none
  body : Option Body := none
  applyWrites : Option Bool := none
  ending : Ending
  commit : Commit
  deriving DecidableEq, Repr

def Attempt.write (a : Attempt) (r : Response) : Response :=
  { r with
    status := a.status.getD r.status
    body := a.body.getD r.body
    explicitApplyWrites := a.applyWrites <|> r.explicitApplyWrites }

def internalError (what : String) : ErrorDetails := ⟨500, "InternalError", what⟩

def replicationFailed : ErrorDetails := ⟨503, "TransactionReplicationFailed", "Transaction failed to replicate."⟩

def maxAttempts : Nat := 30

def attemptsExceeded : ErrorDetails :=
  ⟨503, "TransactionCommitAttemptsExceedLimit", "Transaction continued to conflict after 30 attempts. Retry later."⟩

inductive Next where
  | respond (r : Response)
  | retry (r : Response)
  | abort
  deriving DecidableEq, Repr

/-- A transaction that acquired no handle has no ID, and none is reported without consensus. -/
def afterCommit (consensus : Bool) (r : Response) : Commit → Next
  | .success txId emission =>
    let r := { r with txId := if consensus then txId <|> r.txId else r.txId }
    match emission with
    | none => .respond r
    | some what => .respond (r.setError (internalError what))
  | .failConflict => .retry { r.setError attemptsExceeded with retryAfter := some 3 }
  | .failNoReplicate => .respond (r.setError replicationFailed)
  | .kvSerialiserException => .abort
  | .exception what => .respond (r.setError (internalError what))

/-- A conflict with a compaction goes to the next iteration as it is. -/
def runAttempt (consensus : Bool) (r : Response) (a : Attempt) : Next :=
  let r := a.write r
  match a.ending with
  | .returned => if r.shouldApplyWrites then afterCommit consensus r a.commit else .respond r
  | .compactedVersionConflict => .retry r
  | .rpcException e => .respond (r.setError e)
  | .jsonParseError pointer what => .respond (r.setError ⟨400, "InvalidInput", "At " ++ pointer ++ ": " ++ what⟩)
  | .jsonException what => .respond (r.setError ⟨400, "InvalidInput", what⟩)
  | .kvSerialiserException => .abort
  | .exception what => .respond (r.setError (internalError what))

inductive Outcome where
  | responded (r : Response) (attempts : Nat)
  | aborted
  deriving DecidableEq, Repr

/-- The iterations that are left, from attempt `n` on. The response is reset at the
start of a retry. -/
def attemptLoop (consensus : Bool) (attempts : Nat → Attempt) : Nat → Nat → Response → Outcome
  | 0, n, r => .responded r n
  | left + 1, n, r =>
    let r := if 0 < n then Response.resetResponse else r
    match runAttempt consensus r (attempts n) with
    | .respond r => .responded r (n + 1)
    | .retry r => attemptLoop consensus attempts left (n + 1) r
    | .abort => .aborted

/-- The part of `process_command` from the first execution on. -/
def executeCommand (consensus : Bool) (attempts : Nat → Attempt) : Outcome :=
  attemptLoop consensus attempts maxAttempts 0 {}

def Attempt.commits (a : Attempt) : Option (Option TxID) :=
  match a.ending, (a.write {}).shouldApplyWrites, a.commit with
  | .returned, true, .success txId _ => some txId
  | _, _, _ => none

def Attempt.retries (a : Attempt) : Bool :=
  match a.ending with
  | .returned => (a.write {}).shouldApplyWrites && a.commit = .failConflict
  | .compactedVersionConflict => true
  | _ => false

def Response.reportsCommit (r : Response) : Bool := statusSuccess r.status && r.shouldApplyWrites

/-- The attempt threw and still leaves a response that reports a commit: an
exception with a success status, or a compaction in the last iteration. -/
def Attempt.misleads (a : Attempt) (n : Nat) : Bool :=
  match a.ending with
  | .rpcException e => ((a.write {}).setError e).reportsCommit
  | .compactedVersionConflict => n + 1 = maxAttempts && (a.write {}).reportsCommit
  | _ => false

/-- What an attempt leaves: a response reports a commit only for one, or misleads. -/
def Attempt.Leaves (a : Attempt) : Next → Prop
  | .respond r => a.retries = false ∧ (∀ id, r.txId = some id → a.commits = some (some id)) ∧
      (a.commits = none → ∀ n, r.reportsCommit = a.misleads n)
  | .retry r => a.retries = true ∧ r.txId = none ∧ ∀ n, n + 1 = maxAttempts → r.reportsCommit = a.misleads n
  | .abort => a.retries = false

theorem Attempt.leaves_error {a : Attempt} {e : ErrorDetails} (final : a.retries = false)
    (fails : statusSuccess e.status = false) (clear : ∀ n, a.misleads n = false) : a.Leaves (.respond ((a.write {}).setError e)) := by
  refine ⟨final, fun id reported => (nomatch (reported : none = some id)), fun _ n => ?_⟩
  simp [Response.reportsCommit, Response.setError, fails, clear n]

theorem leaves_afterCommit {a : Attempt} (consensus : Bool) (returned : a.ending = .returned)
    (applies : (a.write {}).shouldApplyWrites = true) : a.Leaves (afterCommit consensus (a.write {}) a.commit) := by
  have clear (n : Nat) : a.misleads n = false := by simp [Attempt.misleads, returned]
  have retries : a.retries = decide (a.commit = .failConflict) := by simp [Attempt.retries, returned, applies]
  cases commit : a.commit with
  | success txId emission =>
    have committed : a.commits = some txId := by simp [Attempt.commits, returned, applies, commit]
    have final : a.retries = false := by simp [retries, commit]
    have reported (id : TxID) (found : (if consensus then txId <|> none else none) = some id) :
        a.commits = some (some id) := by
      cases consensus <;> simp_all
    cases emission with
    | none | some what => exact ⟨final, reported, fun lost => by simp [committed] at lost⟩
  | failConflict => exact ⟨by simp [retries, commit], rfl, fun n _ => by rw [clear n]; rfl⟩
  | failNoReplicate | exception what => exact Attempt.leaves_error (by simp [retries, commit]) rfl clear
  | kvSerialiserException => exact (by simp [retries, commit] : a.retries = false)

theorem leaves_runAttempt (consensus : Bool) (a : Attempt) : a.Leaves (runAttempt consensus {} a) := by
  unfold runAttempt
  cases ending : a.ending with
  | returned =>
    dsimp only
    cases applies : (a.write {}).shouldApplyWrites with
    | false =>
      refine ⟨by simp [Attempt.retries, ending, applies], fun id reported => (nomatch (reported : none = some id)), fun _ n => ?_⟩
      simp [Response.reportsCommit, applies, Attempt.misleads, ending]
    | true =>
      exact leaves_afterCommit consensus ending applies
  | compactedVersionConflict =>
    exact ⟨by simp [Attempt.retries, ending], rfl, fun n final => by simp [Attempt.misleads, ending, final]⟩
  | rpcException e =>
    exact ⟨by simp [Attempt.retries, ending], fun id reported => (nomatch (reported : none = some id)),
      fun _ n => by simp [Attempt.misleads, ending]⟩
  | jsonParseError pointer what | jsonException what | exception what =>
    exact Attempt.leaves_error (by simp [Attempt.retries, ending]) rfl fun n => by simp [Attempt.misleads, ending]
  | kvSerialiserException => exact (by simp [Attempt.retries, ending] : a.retries = false)

theorem Attempt.commits_of_retries {a : Attempt} (retried : a.retries = true) : a.commits = none := by
  unfold retries at retried
  unfold commits
  cases ending : a.ending with
  | returned =>
    simp only [ending, Bool.and_eq_true, decide_eq_true_eq] at retried
    rw [retried.1, retried.2]
  | _ => rfl

theorem Attempt.commits_of_misleads {a : Attempt} (misleads : a.misleads n = true) : a.commits = none := by
  unfold Attempt.misleads at misleads
  unfold commits
  cases ending : a.ending with
  | returned => simp [ending] at misleads
  | _ => rfl

/-- The attempts before the last one were retried, and the response is that of the
last one, or what it left when no iteration was left. -/
theorem attemptLoop_spec {consensus : Bool} {attempts : Nat → Attempt} {left n : Nat} {r₀ : Response}
    (fresh : n = 0 → r₀ = {}) (responded : attemptLoop consensus attempts left n r₀ = .responded r m) (some : 0 < left) :
    ∃ last, m = last + 1 ∧ n ≤ last ∧ last < n + left ∧ (∀ i, n ≤ i → i < last → (attempts i).retries = true) ∧
      (runAttempt consensus {} (attempts last) = .respond r ∨
        last + 1 = n + left ∧ runAttempt consensus {} (attempts last) = .retry r) := by
  induction left generalizing n r₀ with
  | zero => exact absurd some (by simp)
  | succ left ih =>
    have start : (if 0 < n then Response.resetResponse else r₀) = {} := by
      split
      · rfl
      · exact fresh (by omega)
    rw [attemptLoop, start] at responded
    cases next : runAttempt consensus {} (attempts n) with
    | respond r' =>
      rw [next] at responded
      cases responded
      exact ⟨n, rfl, le_rfl, by omega, fun i _ _ => absurd ‹i < n› (by omega), .inl next⟩
    | abort => simp [next] at responded
    | retry r' =>
      simp only [next] at responded
      have retried : (attempts n).retries = true := by
        have leaves := leaves_runAttempt consensus (attempts n)
        rw [next] at leaves
        exact leaves.1
      cases left with
      | zero =>
        cases responded
        exact ⟨n, rfl, le_rfl, by omega, fun i _ _ => absurd ‹i < n› (by omega), .inr ⟨rfl, next⟩⟩
      | succ left =>
        obtain ⟨last, count, above, below, earlier, ends⟩ := ih (fun zero => absurd zero (by omega)) responded (by omega)
        refine ⟨last, count, by omega, by omega, fun i low high => ?_, ends.imp id fun ⟨full, kept⟩ => ⟨by omega, kept⟩⟩
        obtain rfl | after := Nat.eq_or_lt_of_le low
        · exact retried
        · exact earlier i after high

/-- The loop reaches an attempt before which all are retried. -/
theorem attemptLoop_reaches {consensus : Bool} {attempts : Nat → Attempt} {left n last : Nat} {r₀ : Response}
    (fresh : n = 0 → r₀ = {}) (low : n ≤ last) (high : last < n + left)
    (earlier : ∀ i, n ≤ i → i < last → (attempts i).retries = true) :
    attemptLoop consensus attempts left n r₀ =
      attemptLoop consensus attempts (n + left - last) last {} := by
  induction left generalizing n r₀ with
  | zero => omega
  | succ left ih =>
    have start : (if 0 < n then Response.resetResponse else r₀) = {} := by
      split
      · rfl
      · exact fresh (by omega)
    obtain rfl | before := Nat.eq_or_lt_of_le low
    · have again : (if 0 < n then Response.resetResponse else {}) = ({} : Response) := by split <;> rfl
      rw [show n + (left + 1) - n = left + 1 by omega, attemptLoop, attemptLoop, start, again]
    have leaves := leaves_runAttempt consensus (attempts n)
    have retried := earlier n le_rfl before
    obtain ⟨r, next⟩ : ∃ r, runAttempt consensus {} (attempts n) = .retry r := by
      cases next : runAttempt consensus {} (attempts n) with
      | retry r => exact ⟨r, rfl⟩
      | respond r | abort => simp [next, Attempt.Leaves, retried] at leaves
    rw [attemptLoop, start, next]
    simp only
    rw [ih (fun zero => absurd zero (by omega)) before (by omega) fun i from_ => earlier i (by omega)]
    congr 1
    omega

theorem responded_of_misleads (consensus : Bool) {attempts : Nat → Attempt} (inside : n < maxAttempts)
    (earlier : ∀ i < n, (attempts i).retries = true) (misled : (attempts n).misleads n = true) :
    ∃ r, executeCommand consensus attempts = .responded r (n + 1) ∧ r.reportsCommit = true := by
  have reached : executeCommand consensus attempts = attemptLoop consensus attempts (0 + maxAttempts - n) n {} :=
    attemptLoop_reaches (fun _ => rfl) (Nat.zero_le n) (by omega) fun i _ => earlier i
  obtain ⟨left, count⟩ : ∃ left, 0 + maxAttempts - n = left + 1 := ⟨maxAttempts - n - 1, by omega⟩
  have start : (if 0 < n then Response.resetResponse else {}) = ({} : Response) := by split <;> rfl
  have leaves := leaves_runAttempt consensus (attempts n)
  rw [reached, count, attemptLoop, start]
  cases next : runAttempt consensus {} (attempts n) with
  | respond r =>
    rw [next] at leaves
    exact ⟨r, rfl, (leaves.2.2 (Attempt.commits_of_misleads misled) n).trans misled⟩
  | retry r =>
    rw [next] at leaves
    -- Only a compaction is retried and misleads, in the last iteration.
    have final : n + 1 = maxAttempts := by
      have retried := leaves.1
      unfold Attempt.retries at retried
      unfold Attempt.misleads at misled
      cases ending : (attempts n).ending <;> simp_all
    have none_left : left = 0 := by omega
    rw [none_left]
    exact ⟨r, rfl, (leaves.2.2 n final).trans misled⟩
  | abort =>
    exfalso
    unfold runAttempt at next
    unfold Attempt.misleads at misled
    cases ending : (attempts n).ending <;> simp_all

/-- A response that reports a commit means that the last attempt committed; at most
that one did, and an ID in the response is the one it was committed under. This
holds unless the loop comes to a misleading attempt. -/
theorem success_only_with_commit (consensus : Bool) (attempts : Nat → Attempt) :
    (∀ r n, executeCommand consensus attempts = .responded r n →
      (r.reportsCommit = true → ((attempts (n - 1)).commits).isSome) ∧
      (∀ i < n, ((attempts i).commits).isSome → i = n - 1) ∧
      ∀ id, r.txId = some id → (attempts (n - 1)).commits = some (some id)) ↔
    ∀ n < maxAttempts, (∀ i < n, (attempts i).retries = true) → (attempts n).misleads n = false := by
  constructor
  · intro sound n inside earlier
    by_contra misled
    have misled : (attempts n).misleads n = true := by simpa using misled
    have lost := Attempt.commits_of_misleads misled
    obtain ⟨r, responded, reports⟩ := responded_of_misleads consensus inside earlier misled
    have := (sound r (n + 1) responded).1 reports
    simp [lost] at this
  · intro sound r n responded
    obtain ⟨last, rfl, -, inside, earlier, ends⟩ := attemptLoop_spec (fun _ => rfl) responded (by decide)
    have earlier (i : Nat) (before : i < last) := earlier i (Nat.zero_le i) before
    have clear := sound last (by omega) earlier
    have leaves := leaves_runAttempt consensus (attempts last)
    refine ⟨fun reports => ?_, fun i below committed => ?_, fun id reported => ?_⟩
    · by_contra lost
      have lost : (attempts last).commits = none := by simpa using lost
      obtain responds | ⟨full, left⟩ := ends
      · rw [responds] at leaves
        simp [leaves.2.2 lost last, clear] at reports
      · rw [left] at leaves
        simp [leaves.2.2 last (by omega), clear] at reports
    · by_contra other
      have := Attempt.commits_of_retries (earlier i (by omega))
      simp [this] at committed
    · obtain responds | ⟨full, left⟩ := ends
      · rw [responds] at leaves
        exact leaves.2.1 id reported
      · rw [left] at leaves
        simp [leaves.2.1] at reported

/-- A handler that never gets all its map handles before they are compacted. -/
def compacted : Attempt := { ending := .compactedVersionConflict, commit := .failConflict }

/-- After thirty compactions the response is 200 and nothing was committed. -/
theorem success_after_compactions :
    executeCommand true (fun _ => compacted) = .responded {} 30 ∧ ({} : Response).reportsCommit = true ∧
      compacted.commits = none := by
  decide

end CCF.Rpc
