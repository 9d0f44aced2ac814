import ShardedCCF.Ds.Oversized
import ShardedCCF.Ds.RingMoves

/-! Writers that wait for space, and the reader that is to make it. A writer that
holds a fragment while it waits for the next one can wait for itself. -/
namespace CCF.Oversized
open Lib Option

open RingBuffer

variable {bufferSize n fragment w : Nat} {s s' : System} {action : Action}

namespace System

inductive Calls (bufferSize : Nat) (s : System) (w : Nat) : System → Prop where
  | prepare (m size : Nat) (ops : List Op) (ring : Ring) : (s.threads w).ops = .prepare m size :: ops →
      s.ring.step bufferSize (.prepare w m size true) = some ring →
      Calls bufferSize s w (s.advance w { s.threads w with ops } ring)
  | write (content : Content) (ops : List Op) (ticket : Nat) (e : Entry) (ring : Ring) :
      (s.threads w).ops = .write content :: ops → lastIdx? (mine w) s.ring.log = some ticket →
      s.ring.log[ticket]? = some e →
      s.ring.step bufferSize (.writeBytes w ticket (encode ((s.threads w).naming e content) content)) = some ring →
      Calls bufferSize s w (s.advance w { ops, identifier := (s.threads w).naming e content } ring)
  | finish (ops : List Op) (ticket : Nat) (ring : Ring) : (s.threads w).ops = .finish :: ops →
      s.ring.log.findIdx? (mine w) = some ticket → s.ring.step bufferSize (.finish w ticket) = some ring →
      Calls bufferSize s w (s.advance w { s.threads w with ops } ring)

theorem calls (called : s.call bufferSize w = some s') : Calls bufferSize s w s' := by
  unfold call at called
  split at called
  · cases called
  · rename_i m size ops next
    obtain ⟨ring, moved, done⟩ := bind_eq_some_iff.mp called
    cases done
    exact .prepare m size ops ring next moved
  · rename_i content ops next
    obtain ⟨ticket, last, called⟩ := bind_eq_some_iff.mp called
    obtain ⟨e, found, called⟩ := bind_eq_some_iff.mp called
    obtain ⟨ring, moved, done⟩ := bind_eq_some_iff.mp called
    cases done
    exact .write content ops ticket e ring next last found moved
  rename_i ops next
  obtain ⟨ticket, first, called⟩ := bind_eq_some_iff.mp called
  obtain ⟨ring, moved, done⟩ := bind_eq_some_iff.mp called
  cases done
  exact .finish ops ticket ring next first moved

theorem step_ring (moved : s.step bufferSize action = some s') : ∃ a, s.ring.step bufferSize a = some s'.ring := by
  cases action with
  | call w =>
    cases calls moved with
    | prepare m size ops ring _ taken => exact ⟨_, taken⟩
    | write content ops ticket e ring _ _ _ taken => exact ⟨_, taken⟩
    | finish ops ticket ring _ _ taken => exact ⟨_, taken⟩
  | writer w spurious =>
    obtain ⟨ring, taken, rfl⟩ := map_eq_some_iff.mp moved
    exact ⟨.writer w spurious, taken⟩
  | read limit =>
    obtain ⟨ring, taken, rfl⟩ := map_eq_some_iff.mp moved
    exact ⟨.read limit, taken⟩
  | reader =>
    obtain ⟨ring, taken, rfl⟩ := map_eq_some_iff.mp moved
    exact ⟨.reader, taken⟩

theorem run_ring (power : bufferSize = 2 ^ n) (empty : s₀.ring = {})
    (run : Run (System.step bufferSize) s₀ trace s) : s.ring.Inv bufferSize ∧ s.ring.Tended := by
  refine Run.invariant run (fun s => s.ring.Inv bufferSize ∧ s.ring.Tended) ?_ ?_
  · rw [empty]
    exact ⟨.init bufferSize, nofun⟩
  · rintro s action s' ⟨inv, tended⟩ moved
    obtain ⟨a, moved⟩ := step_ring moved
    exact ⟨inv.step power moved, tended.step inv moved⟩

/-- A writer has calls to make, is making one, or has a message to finish. -/
def unfinished (s : System) (w : Nat) : Bool :=
  (s.threads w).ops ≠ [] ∨ s.ring.pc w ≠ .idle ∨ s.ring.holds w

/-- The reader finds nothing, and everyone else waits for it. -/
def Deadlocked (bufferSize : Nat) (s : System) : Prop :=
  s.ring.nothingToRead bufferSize ∧ (∃ w, s.unfinished w) ∧ ∀ w, s.unfinished w → s.ring.stuck bufferSize w

/-- A writer that waits in `prepare` while it holds an unfinished fragment has the
space that it waits for. -/
def Roomy (bufferSize : Nat) (s : System) : Prop :=
  ∀ e ∈ s.ring.log, e.phase = .pending → ¬ s.ring.stuck bufferSize e.writer

instance : Decidable (Roomy bufferSize s) := inferInstanceAs (Decidable (∀ e ∈ s.ring.log, _))

/-- In a run in which no writer holds a fragment and waits for space, the reader always
has something to read or some writer can go on. -/
theorem blocking_writers_progress (power : bufferSize = 2 ^ n) (empty : s₀.ring = {})
    (run : Lib.Run (System.step bufferSize) s₀ trace s)
    (roomy : ∀ x, Lib.Visited s₀ trace x → x.Roomy bufferSize) : ¬ s.Deadlocked bufferSize := by
  rintro ⟨nothing, ⟨w, some⟩, everyone⟩
  obtain ⟨inv, tended⟩ := run_ring power empty run
  have positive : 0 < bufferSize := power ▸ Nat.two_pow_pos n
  rcases inv.first_unread tended positive nothing with drained | ⟨w, busy, calling⟩ | ⟨e, member, pending⟩
  · -- Everything was read: any message that is accepted fits.
    have waits := everyone w some
    unfold Ring.stuck at waits
    cases at' : (s.ring.pc w).call with
    | none => simp [at'] at waits
    | some call => simp [at', Ring.hasRoom_of_empty positive drained (inv.call_fits at')] at waits
  · -- A header is about to be written.
    have waits := everyone w (by simp [unfinished, busy])
    simp [Ring.stuck, calling] at waits
  have mine : s.ring.holds e.writer := by
    simp only [Ring.holds, List.any_eq_true, decide_eq_true_eq]
    exact ⟨e, member, rfl, pending⟩
  exact roomy s run.visited e member pending (everyone e.writer (by simp [unfinished, mine]))

/-- A plain writer, and an oversized one with a message of 25 bytes. -/
def pair (plain : List Job) : System where
  threads w :=
    { ops := if w = 0 then (opsOf 5 none plain).getD []
        else if w = 1 then (opsOf 5 (some ⟨24, 1000⟩) [⟨8, [List.replicate 25 1]⟩]).getD [] else [] }

/-- The message takes three fragments; the first is read before the third is prepared. -/
def unhindered : List Action :=
  let writer : Nat → List Action := fun steps => List.replicate steps (.writer 1 false)
  let calls : Nat → List Action := fun count => List.replicate count (.call 1)
  let reader : Nat → List Action := fun steps => .read 5 :: List.replicate steps .reader
  List.flatten [calls 1, writer 4, calls 3, writer 4, calls 3, reader 5, calls 1, writer 6, calls 4, reader 5, reader 5]

theorem blocking_writers_progress_unhindered :
    ∃ trace s, Lib.Run (System.step 64) (pair []) trace s ∧ s.ring.delivered.length = 3 ∧ ¬ s.Deadlocked 64 := by
  refine exists_run_of (P := fun trace s => s.ring.delivered.length = 3 ∧ Roomy 64 (pair []) ∧
    ∀ t ∈ trace, Roomy 64 t.post) unhindered (by decide +kernel) ?_
  intro trace s run ⟨delivered, first, later⟩
  have power : 64 = 2 ^ 6 := rfl
  have progress := blocking_writers_progress power rfl run fun x visited => by
    rcases visited with rfl | ⟨t, member, rfl⟩
    · exact first
    · exact later t member
  exact ⟨delivered, progress⟩

/-- The empty message of the plain writer is written and read. The first fragment then
starts at 8; the second is as long as half of the buffer and fits neither behind nor
before it. -/
def lodging : List Action :=
  let writer : Nat → Nat → List Action := fun w steps => List.replicate steps (.writer w false)
  List.flatten [[.call 0], writer 0 4, [.call 0, .read 5], List.replicate 5 .reader,
    [.call 1], writer 1 4, [.call 1, .call 1, .call 1], writer 1 6]

theorem run_quiet (quiet : ∀ w ≥ k, (s₀.threads w).ops = [] ∧ s₀.ring.pc w = .idle)
    (run : Run (System.step bufferSize) s₀ trace s) : ∀ w ≥ k, (s.threads w).ops = [] ∧ s.ring.pc w = .idle := by
  refine Run.invariant run (fun s => ∀ w ≥ k, (s.threads w).ops = [] ∧ s.ring.pc w = .idle) quiet ?_
  intro s action s' quiet moved w beyond
  have called {w' op ops thread ring} (next : (s.threads w').ops = op :: ops)
      (ring_idle : w ≠ w' → ring.pc w = .idle) :
      ((s.advance w' thread ring).threads w).ops = [] ∧ (s.advance w' thread ring).ring.pc w = .idle := by
    have apart : w ≠ w' := by
      rintro rfl
      simp [(quiet w beyond).1] at next
    simp only [advance, Function.update_of_ne apart]
    exact ⟨(quiet w beyond).1, ring_idle apart⟩
  have idle := (quiet w beyond).2
  cases action with
  | call w' =>
    cases calls moved with
    | prepare m size ops ring next taken =>
      exact called next fun apart => (Ring.step_moves taken).idle idle fun _ _ _ same => by
        cases same
        exact apart rfl
    | write content ops ticket e ring next _ _ taken | finish ops ticket ring next _ taken =>
      exact called next fun _ => (Ring.step_moves taken).idle idle nofun
  | writer w' spurious =>
    obtain ⟨ring, taken, rfl⟩ := map_eq_some_iff.mp moved
    exact ⟨(quiet w beyond).1, (Ring.moves_writer taken).idle idle nofun⟩
  | read limit =>
    obtain ⟨ring, taken, rfl⟩ := map_eq_some_iff.mp moved
    have taken : s.ring.step bufferSize (.read limit) = some ring := taken
    exact ⟨(quiet w beyond).1, (Ring.step_moves taken).idle idle nofun⟩
  | reader =>
    obtain ⟨ring, taken, rfl⟩ := map_eq_some_iff.mp moved
    exact ⟨(quiet w beyond).1, (Ring.moves_reader taken).idle idle nofun⟩

theorem not_unfinished_of_quiet (quiet : ∀ w ≥ k, (s₀.threads w).ops = [] ∧ s₀.ring.pc w = .idle)
    (run : Run (System.step bufferSize) s₀ trace s) (writers : ∀ e ∈ s.ring.log, e.writer < k) :
    ∀ w ≥ k, ¬ s.unfinished w := by
  intro w beyond some
  obtain ⟨ops, idle⟩ := run_quiet quiet run w beyond
  simp only [unfinished, ops, idle, ne_eq, not_true_eq_false, false_or, decide_eq_true_eq, Ring.holds,
    List.any_eq_true] at some
  obtain ⟨e, member, writer, -⟩ := some
  have := writers e member
  omega

/-- The second writer waits for space that only the reader can free, and the reader waits
for the second writer. -/
theorem lodged_deadlocked : (WriterConfig.mk 24 1000).accepted ∧
    ∃ trace s, Lib.Run (System.step 64) (pair [⟨7, []⟩]) trace s ∧ s.Deadlocked 64 := by
  refine ⟨rfl, exists_run_of (P := fun _ s => s.ring.nothingToRead 64 ∧ !s.unfinished 0 ∧ s.unfinished 1 ∧
    s.ring.stuck 64 1 ∧ ∀ e ∈ s.ring.log, e.writer < 2) lodging (by decide +kernel) ?_⟩
  intro trace s run ⟨nothing, first, second, stuck, writers⟩
  refine ⟨nothing, ⟨1, second⟩, fun w some => ?_⟩
  match w with
  | 0 => simp [some] at first
  | 1 => exact stuck
  | w + 2 =>
    refine absurd some (not_unfinished_of_quiet (fun w beyond => ⟨?_, rfl⟩) run writers (w + 2) (by omega))
    simp only [pair]
    rw [if_neg (by omega), if_neg (by omega)]

end System
end CCF.Oversized
