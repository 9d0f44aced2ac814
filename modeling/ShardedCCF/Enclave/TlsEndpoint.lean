import ShardedCCF.Lib.Bytes

/-! What a TLS endpoint takes from its context and hands to it, whatever the results
of the context's calls. -/
namespace CCF.TlsEndpoint
open Lib List

inductive Status where
  | handshake | ready | closing | closed | authfail | error
  deriving DecidableEq

inductive HandshakeResult where
  | done | want | needCert | closeNotify | x509Verify | failed

/-- A write takes at least one byte of what it is given, and at most as many as there are. -/
inductive WriteResult where
  | wrote (more : Nat) | want | failed

inductive ReadResult where
  | data (first : Byte) (rest : List Byte) | want | closed | failed

/-- With the bytes that the context has been handed and those that it has delivered. -/
structure Endpoint where
  status : Status := .handshake
  pendingWrite : List Byte := []
  readBuffer : List Byte := []
  handed : List Byte := []
  delivered : List Byte := []

namespace Endpoint

def Ended (e : Endpoint) : Prop := e.status = .closed ∨ e.status = .authfail ∨ e.status = .error

instance (e : Endpoint) : Decidable e.Ended := inferInstanceAs (Decidable (_ ∨ _))

def stop (status : Status) (e : Endpoint) : Endpoint := if e.Ended then e else { e with status }

def canSend (e : Endpoint) : Bool := e.status = .ready ∨ e.status = .closing

def doHandshake (rc : HandshakeResult) (e : Endpoint) : Endpoint :=
  if e.status ≠ .handshake then e
  else match rc with
    | .done => { e with status := .ready }
    | .want => e
    | .needCert | .x509Verify => e.stop .authfail
    | .closeNotify => e.stop .closed
    | .failed => e.stop .error

/-- The loop of `flush` from the `k`-th write on, unless it takes more rounds. -/
def flushLoop (write : Nat → WriteResult) : Nat → Nat → Endpoint → Option Endpoint
  | 0, _, _ => none
  | fuel + 1, k, e =>
    if e.pendingWrite = [] then some e
    else match write k with
      | .wrote more => flushLoop write fuel (k + 1)
          { e with
            pendingWrite := e.pendingWrite.drop (more + 1)
            handed := e.handed ++ e.pendingWrite.take (more + 1) }
      | .want => some e
      | .failed => flushLoop write fuel (k + 1) (e.stop .error)

def flush (rc : HandshakeResult) (write : Nat → WriteResult) (fuel : Nat) (e : Endpoint) : Option Endpoint :=
  let e := e.doHandshake rc
  if e.canSend then flushLoop write fuel 0 e else some e

inductive Fails (write : Nat → WriteResult) : Nat → List Byte → Prop where
  | now (pending : bytes ≠ []) (fails : write k = .failed) : Fails write k bytes
  | later (pending : bytes ≠ []) (written : write k = .wrote more)
      (fails : Fails write (k + 1) (bytes.drop (more + 1))) : Fails write k bytes

theorem flushLoop_of_fails (persists : ∀ k, write k = .failed → write (k + 1) = .failed)
    (fails : Fails write k bytes) (fuel : Nat) (e : Endpoint) (pending : e.pendingWrite = bytes) :
    flushLoop write fuel k e = none := by
  induction fuel generalizing k bytes e with
  | zero => rfl
  | succ fuel ih =>
    unfold flushLoop
    cases fails with
    | now nonempty failed =>
      rw [if_neg (pending ▸ nonempty), failed]
      refine ih (.now nonempty (persists k failed)) _ ?_
      unfold stop
      split <;> exact pending
    | later nonempty written fails =>
      rw [if_neg (pending ▸ nonempty), written]
      exact ih fails _ (congrArg _ pending)

theorem flushLoop_of_not_fails (fine : ¬ Fails write k e.pendingWrite) :
    ∃ fuel e', flushLoop write fuel k e = some e' ∧ e'.handed ++ e'.pendingWrite = e.handed ++ e.pendingWrite := by
  induction length : e.pendingWrite.length using Nat.strong_induction_on generalizing k e with
  | h n ih =>
    by_cases nonempty : e.pendingWrite = []
    · exact ⟨1, e, if_pos nonempty, rfl⟩
    cases result : write k with
    | want => exact ⟨1, e, by simp [flushLoop, nonempty, result], rfl⟩
    | failed => exact absurd (.now nonempty result) fine
    | wrote more =>
      have positive := length_pos_iff.mpr nonempty
      obtain ⟨fuel, e', returned, kept⟩ := ih (n - (more + 1)) (by omega) (k := k + 1)
        (e := { e with
          pendingWrite := e.pendingWrite.drop (more + 1)
          handed := e.handed ++ e.pendingWrite.take (more + 1) })
        (fun fails => fine (.later nonempty result fails)) (by rw [length_drop, length])
      refine ⟨fuel + 1, e', by simp [flushLoop, nonempty, result, returned], ?_⟩
      rw [kept, append_assoc, take_append_drop]

theorem doHandshake_pendingWrite (rc : HandshakeResult) (e : Endpoint) :
    (e.doHandshake rc).pendingWrite = e.pendingWrite ∧ (e.doHandshake rc).handed = e.handed := by
  unfold doHandshake stop
  split_ifs <;> cases rc <;> exact ⟨rfl, rfl⟩

/-- A flush returns, and leaves the session in the error state if a write failed, exactly
if no write fails. What it has handed to the context and what is left are what was pending. -/
theorem flush_returns_iff (persists : ∀ k, write k = .failed → write (k + 1) = .failed)
    (rc : HandshakeResult) (e : Endpoint) :
    (∃ fuel e', flush rc write fuel e = some e' ∧
      e'.handed ++ e'.pendingWrite = e.handed ++ e.pendingWrite ∧
      ((e.doHandshake rc).canSend → Fails write 0 e.pendingWrite → e'.status = .error)) ↔
      ((e.doHandshake rc).canSend → ¬ Fails write 0 e.pendingWrite) := by
  obtain ⟨pending, handed⟩ := doHandshake_pendingWrite rc e
  unfold flush
  constructor
  · rintro ⟨fuel, e', returned, -⟩ sends fails
    rw [if_pos sends, flushLoop_of_fails persists fails fuel _ pending] at returned
    cases returned
  · intro fine
    by_cases sends : (e.doHandshake rc).canSend
    · obtain ⟨fuel, e', returned, kept⟩ := flushLoop_of_not_fails (pending ▸ fine sends)
      rw [pending, handed] at kept
      exact ⟨fuel, e', (if_pos sends).trans returned, kept, fun _ fails => absurd fails (fine sends)⟩
    · exact ⟨0, _, if_neg sends, by rw [pending, handed], fun can => absurd can sends⟩

theorem flush_waits : ∃ fuel e', flush .want (fun _ => .want) fuel { status := .ready, pendingWrite := [0] } = some e' := by
  obtain ⟨fuel, e', returned, -⟩ := (@flush_returns_iff (fun _ => .want) nofun .want
    { status := .ready, pendingWrite := [0] }).mpr (by rintro - ⟨⟩ <;> contradiction)
  exact ⟨fuel, e', returned⟩

/-- One byte is pending, and the first write fails. -/
theorem flush_never_returns :
    ¬ ∃ fuel e', flush .want (fun _ => .failed) fuel { status := .ready, pendingWrite := [0] } = some e' := by
  rintro ⟨fuel, e', returned⟩
  have fails : Fails (fun _ => .failed) 0 [0] := .now (cons_ne_nil 0 []) rfl
  have never := flushLoop_of_fails (fun _ _ => rfl) fails fuel { status := .ready, pendingWrite := [0] } rfl
  cases never.symm.trans returned

structure Turn where
  handshake : HandshakeResult := .want
  writeFails : Bool := false
  result : ReadResult := .want

/-- `Context::read`. Without room for a byte it answers as at the end of the stream. -/
def contextRead (size : Nat) (result : ReadResult) : ReadResult :=
  if size = 0 then .closed
  else match result with
    | .data first rest => .data first (rest.take (size - 1))
    | result => result

/-- One round of `read`, with what is done if an exact read has got too little. -/
def readRound (size : Nat) (exact : Bool) (retry : Endpoint → List Byte × Endpoint) (turn : Turn) (e : Endpoint) :
    List Byte × Endpoint :=
  let e := e.doHandshake turn.handshake
  if e.status ≠ .ready then ([], e)
  else
    let e := if turn.writeFails then e.stop .error else e
    let buffered := e.readBuffer.take size
    if e.readBuffer ≠ [] ∧ buffered.length = size then (buffered, { e with readBuffer := e.readBuffer.drop size })
    else
      let e := { e with readBuffer := [] }
      match contextRead (size - buffered.length) turn.result with
      | .closed => (if exact then [] else buffered, e.stop .closed)
      | .want => if exact then ([], { e with readBuffer := buffered }) else (buffered, e)
      | .failed => ([], e.stop .error)
      | .data first rest =>
        let total := buffered ++ first :: rest
        let e := { e with delivered := e.delivered ++ first :: rest }
        if exact ∧ total.length < size then retry { e with readBuffer := total } else (total, e)

/-- Once there are no more results the context wants to read. -/
def read (size : Nat) (exact : Bool) : List Turn → Endpoint → List Byte × Endpoint
  | [] => readRound size exact (fun e => ([], e)) {}
  | turn :: turns => readRound size exact (read size exact turns) turn

def reads : List (Nat × Bool × List Turn) → Endpoint → List Byte × Endpoint
  | [], e => ([], e)
  | (size, exact, turns) :: calls, e =>
    let (first, e) := read size exact turns e
    let (rest, e) := reads calls e
    (first ++ rest, e)

/-- While the session lasts, what was returned and what is buffered is what was delivered. -/
def Preserves (returned : List Byte) (e : Endpoint) : Prop := ¬ e.Ended → returned ++ e.readBuffer = e.delivered

theorem stop_ended (e : Endpoint) (ends : st = .closed ∨ st = .authfail ∨ st = .error) : (e.stop st).Ended := by
  unfold stop
  split
  · assumption
  · exact ends

theorem Preserves.doHandshake (preserves : Preserves returned e) (rc : HandshakeResult) :
    Preserves returned (e.doHandshake rc) := by
  unfold Endpoint.doHandshake
  split
  · exact preserves
  rename_i shakes
  have lasts : ¬ e.Ended := by simp [Ended, not_not.mp shakes]
  cases rc with
  | done | want => exact fun _ => preserves lasts
  | needCert | x509Verify | closeNotify | failed => exact fun open_ => absurd (stop_ended e (by simp)) open_

theorem Preserves.readRound (preserves : Preserves returned e)
    (again : ∀ e', Preserves returned e' → Preserves (returned ++ (retry e').1) (retry e').2) :
    Preserves (returned ++ (readRound size exact retry turn e).1) (readRound size exact retry turn e).2 := by
  unfold Endpoint.readRound
  have shaken := preserves.doHandshake turn.handshake
  generalize e.doHandshake turn.handshake = e at shaken
  dsimp only
  split
  · rwa [append_nil]
  have flushed : Preserves returned (if turn.writeFails then e.stop .error else e) := by
    split
    · exact fun open_ => absurd (stop_ended e (by simp)) open_
    · exact shaken
  generalize (if turn.writeFails then e.stop .error else e) = e at flushed
  split
  · intro lasts
    rw [append_assoc, take_append_drop]
    exact flushed lasts
  rename_i short
  have whole : e.readBuffer.take size = e.readBuffer := by
    rw [take_eq_self_iff]
    by_contra long
    refine short ⟨fun empty => ?_, ?_⟩
    · simp [empty] at long
    · rw [length_take]
      omega
  rw [whole]
  split
  · exact fun open_ => absurd (stop_ended _ (by simp)) open_
  · split
    · rwa [append_nil]
    · intro lasts
      rw [append_nil]
      exact flushed lasts
  · exact fun open_ => absurd (stop_ended _ (by simp)) open_
  · rename_i first rest _
    have kept : ¬ e.Ended → returned ++ (e.readBuffer ++ first :: rest) = e.delivered ++ first :: rest := by
      intro lasts
      rw [← append_assoc, flushed lasts]
    split
    · exact again _ kept
    · intro lasts
      rw [append_nil]
      exact kept lasts

theorem Preserves.read (preserves : Preserves returned e) (size : Nat) (exact : Bool) (turns : List Turn) :
    Preserves (returned ++ (e.read size exact turns).1) (e.read size exact turns).2 := by
  induction turns generalizing e with
  | nil => exact preserves.readRound fun e' kept => by rwa [append_nil]
  | cons turn turns ih => exact preserves.readRound fun e' kept => ih kept

theorem contextRead_le (read : contextRead size result = .data first rest) : rest.length + 1 ≤ size := by
  unfold contextRead at read
  split at read
  · cases read
  cases result with
  | data =>
    cases read
    rw [length_take]
    omega
  | want | closed | failed => cases read

theorem readRound_exact (again : ∀ e', (retry e').1 = [] ∨ (retry e').1.length = size) (turn : Turn) (e : Endpoint) :
    (readRound size true retry turn e).1 = [] ∨ (readRound size true retry turn e).1.length = size := by
  unfold readRound
  dsimp only
  split
  · exact .inl rfl
  generalize (if turn.writeFails then stop .error (e.doHandshake turn.handshake) else e.doHandshake turn.handshake) = e
  split
  · rename_i enough
    exact .inr enough.2
  split
  · exact .inl rfl
  · exact .inl rfl
  · exact .inl rfl
  · split
    · exact again _
    · rename_i delivered enough
      have fits := contextRead_le delivered
      simp only [true_and, not_lt, length_append, length_cons] at enough ⊢
      exact .inr (by omega)

theorem read_exact (size : Nat) (turns : List Turn) (e : Endpoint) :
    (e.read size true turns).1 = [] ∨ (e.read size true turns).1.length = size := by
  induction turns generalizing e with
  | nil => exact readRound_exact (fun _ => .inl rfl) {} e
  | cons turn turns ih => exact readRound_exact ih turn e

theorem Preserves.reads (preserves : Preserves returned e) (calls : List (Nat × Bool × List Turn)) :
    Preserves (returned ++ (e.reads calls).1) (e.reads calls).2 := by
  induction calls generalizing returned e with
  | nil => rwa [Endpoint.reads, append_nil]
  | cons call calls ih =>
    obtain ⟨size, exact, turns⟩ := call
    have later := ih (preserves.read size exact turns)
    rwa [append_assoc] at later

/-- Whatever is read, nothing is lost, repeated or reordered while the session lasts, and an
exact read returns as much as is asked for, or nothing. -/
theorem reads_preserve_stream (calls : List (Nat × Bool × List Turn)) :
    (¬ (reads calls {}).2.Ended → (reads calls {}).1 ++ (reads calls {}).2.readBuffer = (reads calls {}).2.delivered) ∧
      ∀ size turns, ((reads calls {}).2.read size true turns).1 = [] ∨
        ((reads calls {}).2.read size true turns).1.length = size := by
  have start : Preserves [] {} := fun _ => rfl
  exact ⟨start.reads calls, fun size turns => read_exact size turns _⟩

end Endpoint
end CCF.TlsEndpoint
