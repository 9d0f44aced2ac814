import ShardedCCF.Ds.RingDelivery

/-! What each step does to the writers and the reservations, and when a writer that
waits for space has none. -/
namespace CCF.RingBuffer
open List Function

variable {bufferSize n i : Nat} {s s' t : Ring} {e : Entry} {w m size ticket : Nat} {wait : Bool} {c : Locals}
  {pc : Pc} {action : Action}

/-- The arguments of the call of `prepare` that waits for its reservation. -/
def Pc.call : Pc → Option (Nat × Nat × Bool)
  | .loadHeadCache c | .loadTail c | .loadHead c | .storeHeadCache c | .loadHeadAgain c | .storeHeadCacheAgain c
  | .exchange c => some (c.m, c.size, c.wait)
  | .idle | .writePadding _ | .writeHeader _ => none

theorem call_fitBlock (c : Locals) : (fitBlock bufferSize c).call = some (c.m, c.size, c.wait) := by
  unfold fitBlock
  dsimp only
  split
  · split <;> rfl
  · rfl

theorem call_enterLoop (c : Locals) : (enterLoop bufferSize c).call = some (c.m, c.size, c.wait) := by
  unfold enterLoop
  split
  · rfl
  · exact call_fitBlock c

/-- A call that retries, or gives up if it does not wait. -/
def Pc.Retries (pc : Pc) (call : Nat × Nat × Bool) : Prop :=
  pc.call = some call ∨ pc = .idle ∧ call.2.2 = false

theorem retries_failReserve (c : Locals) : (failReserve c).Retries (c.m, c.size, c.wait) := by
  unfold failReserve
  split
  · exact .inl rfl
  · exact .inr ⟨rfl, Bool.eq_false_of_not_eq_true ‹_›⟩

namespace Ring

inductive Moves (s s' : Ring) : Action → Prop where
  | prepare (w m size : Nat) (wait : Bool) (idle : s.pc w = .idle) (log : s'.log = s.log)
      (pc : s'.pc = Function.update s.pc w (.loadHeadCache { m, size, wait })) : Moves s s' (.prepare w m size wait)
  | retry (w : Nat) (spurious : Bool) (call : Nat × Nat × Bool) (pc' : Pc) (at' : (s.pc w).call = some call) (log : s'.log = s.log)
      (pc : s'.pc = Function.update s.pc w pc') (retries : pc'.Retries call) : Moves s s' (.writer w spurious)
  | reserve (w : Nat) (spurious : Bool) (c : Locals) (at' : s.pc w = .exchange c) (log : s'.log = s.log ++ [entryOf c w]) (tl : c.tl = s.tail)
      (pc : s'.pc = Function.update s.pc w
        (if c.padding ≠ 0 then .writePadding s.log.length else .writeHeader s.log.length)) :
      Moves s s' (.writer w spurious)
  | pad (w : Nat) (spurious : Bool) (ticket : Nat) (at' : s.pc w = .writePadding ticket)
      (log : s'.log = s.log.modify ticket fun e => { e with padded := true })
      (pc : s'.pc = Function.update s.pc w (.writeHeader ticket)) : Moves s s' (.writer w spurious)
  | head (w : Nat) (spurious : Bool) (ticket : Nat) (at' : s.pc w = .writeHeader ticket)
      (log : s'.log = s.log.modify ticket fun e => { e with phase := .pending })
      (pc : s'.pc = Function.update s.pc w .idle) : Moves s s' (.writer w spurious)
  | write (w ticket : Nat) (bytes : Bytes) (e : Entry) (idle : s.pc w = .idle) (found : s.log[ticket]? = some e) (writer : e.writer = w)
      (pending : e.phase = .pending)
      (log : s'.log = s.log.modify ticket fun e => { e with written := e.written ++ bytes })
      (pc : s'.pc = s.pc) : Moves s s' (.writeBytes w ticket bytes)
  | finish (w ticket : Nat) (e : Entry) (idle : s.pc w = .idle) (found : s.log[ticket]? = some e) (writer : e.writer = w)
      (pending : e.phase = .pending) (log : s'.log = s.log.modify ticket fun e => { e with phase := .finished })
      (pc : s'.pc = s.pc) : Moves s s' (.finish w ticket)
  | read (limit : Nat) (log : s'.log = s.log) (pc : s'.pc = s.pc) : Moves s s' (.read limit)
  | reader (log : s'.log = s.log) (pc : s'.pc = s.pc) : Moves s s' .reader

theorem moves_writer (moved : s.writerStep bufferSize w spurious = some s') : Moves s s' (.writer w spurious) := by
  unfold writerStep at moved
  cases at' : s.pc w with
  | idle => simp [at'] at moved
  | loadHeadCache c | loadTail c | loadHead c | storeHeadCache c | loadHeadAgain c | storeHeadCacheAgain c =>
    simp only [at', Option.some.injEq] at moved
    subst moved
    refine .retry w spurious (c.m, c.size, c.wait) _ (by rw [at']; rfl) rfl rfl ?_
    first
    | exact .inl rfl
    | exact .inl (call_enterLoop _)
    | exact .inl (call_fitBlock _)
    | split
      · first | exact .inl rfl | exact retries_failReserve c
      · first
        | exact .inl rfl
        | split
          · exact retries_failReserve c
          · exact .inl rfl
  | exchange c =>
    simp only [at'] at moved
    split at moved
    · rename_i same
      cases moved
      exact .reserve w spurious c at' rfl same.1.symm rfl
    · cases moved
      exact .retry w spurious (c.m, c.size, c.wait) _ (by rw [at']; rfl) rfl rfl (.inl (call_enterLoop _))
  | writePadding ticket =>
    simp only [at'] at moved
    split at moved
    · cases moved
    · cases moved
      exact .pad w spurious ticket at' rfl rfl
  | writeHeader ticket =>
    simp only [at'] at moved
    split at moved
    · cases moved
    · cases moved
      exact .head w spurious ticket at' rfl rfl

theorem moves_reader (moved : s.readerStep bufferSize = some s') : Moves s s' .reader := by
  unfold readerStep at moved
  cases at' : s.reader with
  | idle => simp [at'] at moved
  | scan r =>
    simp only [at'] at moved
    split at moved
    all_goals
      cases moved
      exact .reader rfl rfl
  | handle r m size | zero r | publish r =>
    simp only [at'] at moved
    cases moved
    exact .reader rfl rfl

theorem step_moves (moved : s.step bufferSize action = some s') : Moves s s' action := by
  cases action with
  | prepare w m size wait =>
    unfold Ring.step Ring.prepare at moved
    dsimp only at moved
    split at moved
    · cases moved
      exact .prepare w m size wait (And.left ‹_›) rfl rfl
    · cases moved
  | writer w spurious => exact moves_writer moved
  | writeBytes w ticket bytes =>
    unfold Ring.step Ring.writeBytes at moved
    dsimp only at moved
    split at moved
    · cases moved
    split at moved
    · rename_i e found guard
      cases moved
      exact .write w ticket bytes e guard.1 found guard.2.1 guard.2.2.1 rfl rfl
    · cases moved
  | finish w ticket =>
    unfold Ring.step Ring.finish at moved
    dsimp only at moved
    split at moved
    · cases moved
    split at moved
    · rename_i e found guard
      cases moved
      exact .finish w ticket e guard.1 found guard.2.1 guard.2.2 rfl rfl
    · cases moved
  | read limit =>
    unfold Ring.step Ring.read at moved
    dsimp only at moved
    split at moved
    · cases moved
      exact .read limit rfl rfl
    · cases moved
  | reader => exact moves_reader moved

theorem Moves.idle (moves : Moves s s' action) (idle : s.pc w = .idle)
    (other : ∀ m size wait, action ≠ .prepare w m size wait) : s'.pc w = .idle := by
  have apart {w' : Nat} {pc' : Pc} (pc : s'.pc = Function.update s.pc w' pc') (busy : s.pc w' ≠ .idle) :
      s'.pc w = .idle := by
    rw [pc, update_of_ne (by rintro rfl; exact busy idle)]
    exact idle
  cases moves with
  | prepare w' m size wait _ _ pc =>
    rw [pc, update_of_ne (by rintro rfl; exact other m size wait rfl)]
    exact idle
  | retry w' spurious call pc' at' _ pc _ => exact apart pc (by rintro here; simp [here, Pc.call] at at')
  | reserve w' spurious c at' _ _ pc => exact apart pc (by rw [at']; nofun)
  | pad w' spurious ticket at' _ pc => exact apart pc (by rw [at']; nofun)
  | head w' spurious ticket at' _ pc => exact apart pc (by rw [at']; nofun)
  | write _ _ _ _ _ _ _ _ _ pc | finish _ _ _ _ _ _ _ _ pc | read _ _ pc | reader _ pc =>
    rw [pc]
    exact idle

/-- The writer of a reservation without a header is about to write it. -/
def Tended (s : Ring) : Prop :=
  ∀ (i : Nat) (e : Entry), s.log[i]? = some e → e.phase = .reserved →
    s.pc e.writer = .writePadding i ∨ s.pc e.writer = .writeHeader i

namespace Tended

theorem other (tended : s.Tended) (found : s.log[i]? = some e) (reserved : e.phase = .reserved)
    (apart : ∀ j, s.pc w ≠ .writePadding j ∧ s.pc w ≠ .writeHeader j) : e.writer ≠ w := by
  rintro rfl
  rcases tended i e found reserved with at' | at'
  · exact (apart i).1 at'
  · exact (apart i).2 at'

theorem update (tended : s.Tended) (log : s'.log = s.log) (pc : s'.pc = Function.update s.pc w pc')
    (apart : ∀ j, s.pc w ≠ .writePadding j ∧ s.pc w ≠ .writeHeader j) : s'.Tended := by
  intro i e found reserved
  rw [log] at found
  rw [pc, update_of_ne (tended.other found reserved apart)]
  exact tended i e found reserved

theorem modify (tended : s.Tended) {f : Entry → Entry} (log : s'.log = s.log.modify ticket f)
    (pc : ∀ w', w' ≠ w → s'.pc w' = s.pc w') (found : s.log[ticket]? = some e) (writer : (f e).writer = w)
    (here : (f e).phase = .reserved → s'.pc w = .writePadding ticket ∨ s'.pc w = .writeHeader ticket)
    (others : ∀ i e, s.log[i]? = some e → e.phase = .reserved → i ≠ ticket → e.writer ≠ w) : s'.Tended := by
  intro i d got reserved
  rw [log, getElem?_modify] at got
  by_cases same : ticket = i
  · subst same
    simp only [found, if_true, Option.map_eq_map, Option.map_some, Option.some.injEq] at got
    subst got
    rw [writer]
    exact here reserved
  simp only [if_neg same, Option.map_eq_map, Option.map_id'] at got
  rw [pc _ (others i d got reserved (Ne.symm same))]
  exact tended i d got reserved

theorem step (tended : s.Tended) (inv : s.Inv bufferSize) (moved : s.step bufferSize action = some s') :
    s'.Tended := by
  cases step_moves moved with
  | prepare w m size wait idle log pc => exact tended.update log pc (by simp [idle])
  | retry w spurious call pc' at' log pc retries =>
    refine tended.update log pc fun j => ⟨fun here => ?_, fun here => ?_⟩
    all_goals simp [here, Pc.call] at at'
  | reserve w spurious c at' log tl pc =>
    intro i e found reserved
    rw [log] at found
    rcases Nat.lt_or_ge i s.log.length with old | new
    · rw [getElem?_append_left old] at found
      rw [pc, update_of_ne (tended.other found reserved (by simp [at']))]
      exact tended i e found reserved
    have last : i = s.log.length := by
      have := (List.getElem?_eq_some_iff.mp found).1
      simp only [length_append, length_singleton] at this
      omega
    subst last
    rw [getElem?_concat_length, Option.some.injEq] at found
    have here := found
    rw [← here, pc, entryOf, update_self]
    split
    · exact .inl rfl
    · exact .inr rfl
  | pad w spurious ticket at' log pc =>
    have own := inv.threads w
    rw [at'] at own
    obtain ⟨e, found, writer, -⟩ := own
    refine tended.modify log (fun w' other => by rw [pc, update_of_ne other]) found writer
      (fun _ => .inr (by rw [pc, update_self])) fun i d got reserved apart mine => ?_
    rcases tended i d got reserved with here | here <;> rw [mine, at'] at here <;> cases here
    exact apart rfl
  | head w spurious ticket at' log pc =>
    have own := inv.threads w
    rw [at'] at own
    obtain ⟨e, found, writer, -⟩ := own
    refine tended.modify log (fun w' other => by rw [pc, update_of_ne other]) found writer (by rintro ⟨⟩)
      fun i d got reserved apart mine => ?_
    rcases tended i d got reserved with here | here <;> rw [mine, at'] at here <;> cases here
    exact apart rfl
  | write w ticket bytes e idle found writer pending log pc =>
    exact tended.modify log (fun _ _ => by rw [pc]) found writer (fun reserved => by simp [pending] at reserved)
      fun i d got reserved _ => tended.other got reserved (by simp [idle])
  | finish w ticket e idle found writer pending log pc =>
    exact tended.modify log (fun _ _ => by rw [pc]) found writer (by rintro ⟨⟩)
      fun i d got reserved _ => tended.other got reserved (by simp [idle])
  | read limit log pc | reader log pc =>
    intro i e found reserved
    rw [log] at found
    rw [pc]
    exact tended i e found reserved

end Tended

/-- Whether `reserve` would succeed with the head and tail as they are. -/
def hasRoom (bufferSize : Nat) (s : Ring) (rsize : Nat) : Bool :=
  rsize ≤ bufferSize - (s.tail - s.head) ∧ (rsize ≤ bufferSize - s.tail % bufferSize ∨ rsize ≤ s.head % bufferSize)

def stuck (bufferSize : Nat) (s : Ring) (w : Nat) : Bool :=
  (s.pc w).call.any fun (_, size, _) => !s.hasRoom bufferSize (entrySize size)

/-- The reader is between two reads, and the next one would return at once. -/
def nothingToRead (bufferSize : Nat) (s : Ring) : Bool :=
  let header := read64 s.mem (s.head % bufferSize)
  s.reader = .idle ∧ (length header ≥ pendingWriteFlag ∨ message header = msgNone)

def holds (s : Ring) (w : Nat) : Bool := s.log.any fun e => e.writer = w ∧ e.phase = .pending

theorem hasRoom_of_empty (positive : 0 < bufferSize) (empty : s.head = s.tail) (fits : rsize ≤ bufferSize / 2) :
    s.hasRoom bufferSize rsize := by
  simp only [hasRoom, empty, decide_eq_true_eq]
  omega

theorem Inv.call_fits (inv : s.Inv bufferSize) (call : (s.pc w).call = some (m, size, wait)) :
    entrySize size ≤ bufferSize / 2 := by
  have ok := inv.threads w
  have fits {c : Locals} (valid : accepts bufferSize c.m c.size) : entrySize c.size ≤ bufferSize / 2 :=
    (of_decide_eq_true valid).2.2.2
  cases at' : s.pc w with
  | idle | writePadding _ | writeHeader _ => simp [at', Pc.call] at call
  | loadHeadCache c =>
    rw [at'] at call ok
    cases call
    exact fits ok
  | loadTail c | loadHead c | storeHeadCache c | loadHeadAgain c | storeHeadCacheAgain c | exchange c =>
    rw [at'] at call ok
    cases call
    exact fits ok.1

/-- If the next read would find nothing then no message is under way, or its writer is
still busy with it. -/
theorem Inv.first_unread (inv : s.Inv bufferSize) (tended : s.Tended) (positive : 0 < bufferSize)
    (nothing : s.nothingToRead bufferSize) :
    s.head = s.tail ∨ (∃ w, s.pc w ≠ .idle ∧ (s.pc w).call = none) ∨
      ∃ e ∈ s.log, e.phase = .pending := by
  obtain ⟨idle, header⟩ := of_decide_eq_true nothing
  have at' : s.position = s.head := by rw [Ring.position, idle]
  have inside := Nat.mod_lt s.head positive
  have seen := inv.sees (r := ⟨s.head, 0, 0, 0⟩) rfl (by dsimp only; omega) at'
  generalize read64 s.mem (s.head % bufferSize) = seen at *
  cases seen with
  | nothing reserved =>
    cases found : s.log[s.delivered.length]? with
    | none =>
      left
      rw [List.getElem?_eq_none_iff] at found
      rcases inv.position.2 with here | ⟨e, got, -⟩
      · rw [← at', here, boundary_of_ge found]
      · rw [getElem?_eq_none found] at got
        cases got
    | some e =>
      right; left
      refine ⟨e.writer, ?_⟩
      rcases tended _ e found (reserved e found) with here | here <;> rw [here] <;> exact ⟨by rintro ⟨⟩, rfl⟩
  | pending e found pending => exact .inr (.inr ⟨e, mem_of_getElem? found, pending⟩)
  | padding e found some padded here =>
    exfalso
    rw [length_finished, message_makeHeader, pendingWriteFlag, msgNone, msgPad] at header
    omega
  | finished e found finished here =>
    exfalso
    have valid := (inv.entries _ e found).message.1
    rw [length_finished, message_makeHeader, pendingWriteFlag, msgNone] at header
    rw [msgMin] at valid
    omega

end Ring
end CCF.RingBuffer
