import ShardedCCF.Ds.Oversized

/-! One writer: the ring buffer messages that its calls leave, and what a reader that
takes them one after the other makes of them. -/
namespace CCF.Oversized
open List

open RingBuffer

variable {fragment : Nat}

inductive Frame where
  | small (m : Nat) (payload : Bytes)
  | first (id m total : Nat) (payload : Bytes)
  | more (id : Nat) (payload : Bytes)

def Frame.message (fragment : Nat) : Frame → Nat × Bytes
  | .small m payload => (m, payload)
  | .first id m total payload => (fragment, encode id (.header m total) ++ payload)
  | .more id payload => (fragment, encode id .identifier ++ payload)

def Frame.introduces : Frame → Option Nat
  | .first id _ _ _ => some id
  | .small _ _ | .more _ _ => none

/-- The complete messages of a writer, and the one that more is to come of. -/
structure Stream where
  sent : List (Nat × Bytes) := []
  current : Option (Nat × PartialMessage) := none

namespace Stream

def collect (sent : List (Nat × Bytes)) (id : Nat) (p : PartialMessage) : Option Stream :=
  if p.data.length > p.totalSize then none
  else if p.data.length = p.totalSize then some ⟨sent ++ [(p.m, p.data)], none⟩
  else some ⟨sent, some (id, p)⟩

/-- A frame that does not continue the stream is refused. -/
def feed (fragment : Nat) (σ : Stream) : Frame → Option Stream
  | .small m payload => if σ.current = none ∧ m ≠ fragment then some ⟨σ.sent ++ [(m, payload)], none⟩ else none
  | .first id m total payload =>
    if σ.current = none ∧ m < 2 ^ 32 ∧ total < 2 ^ 64 then collect σ.sent id ⟨m, total, payload⟩ else none
  | .more id payload =>
    match σ.current with
    | none => none
    | some (id', p) => if id = id' then collect σ.sent id { p with data := p.data ++ payload } else none

end Stream

structure Piece where
  m : Nat
  size : Nat
  tl : Nat
  written : Bytes := []
  finished : Bool := false

def Piece.isOpen (p : Piece) : Bool := !p.finished

/-- The reservations of one writer in their order, and the identifier it uses. -/
structure Desk where
  pieces : List Piece := []
  identifier : Nat := 0

namespace Desk

def naming (d : Desk) : Content → Nat
  | .header _ _ => ((Lib.last? Piece.isOpen d.pieces).map (·.tl)).getD 0
  | .bytes _ | .identifier => d.identifier

def act (d : Desk) : Op × Nat → Desk
  | (.prepare m size, tl) => { d with pieces := d.pieces ++ [{ m, size, tl }] }
  | (.write content, _) =>
    { pieces := Lib.modifyLast Piece.isOpen
        (fun p => { p with written := p.written ++ encode (d.naming content) content }) d.pieces
      identifier := d.naming content }
  | (.finish, _) => { d with pieces := Lib.modifyFirst Piece.isOpen (fun p => { p with finished := true }) d.pieces }

def After (d : Desk) (ops : List Op) (d' : Desk) : Prop :=
  ∃ calls : List (Op × Nat), calls.map Prod.fst = ops ∧ d' = calls.foldl act d

variable {d d' : Desk} {op : Op} {ops : List Op} {p q : Piece} {sent : List (Nat × Bytes)} {i id m total remainder : Nat}
  {acc bytes : Bytes}

theorem after_nil : After d [] d' ↔ d' = d := by
  simp only [After, map_eq_nil_iff]
  exact ⟨fun ⟨_, rfl, same⟩ => same, fun same => ⟨[], rfl, same⟩⟩

theorem after_cons : After d (op :: ops) d' ↔ ∃ tl, After (d.act (op, tl)) ops d' := by
  constructor
  · rintro ⟨calls, same, rfl⟩
    obtain ⟨⟨_, tl⟩, rest, rfl, rfl, rfl⟩ := map_eq_cons_iff.mp same
    exact ⟨tl, rest, rfl, rfl⟩
  · rintro ⟨tl, rest, rfl, rfl⟩
    exact ⟨(op, tl) :: rest, rfl, rfl⟩

theorem after_append {more : List Op} : After d (ops ++ more) d' ↔ ∃ e, After d ops e ∧ After e more d' := by
  constructor
  · rintro ⟨calls, same, rfl⟩
    obtain ⟨first, second, rfl, rfl, rfl⟩ := map_eq_append_iff.mp same
    exact ⟨first.foldl act d, ⟨first, rfl, rfl⟩, second, rfl, foldl_append⟩
  · rintro ⟨_, ⟨first, rfl, rfl⟩, second, rfl, rfl⟩
    exact ⟨first ++ second, map_append, foldl_append.symm⟩

theorem exists_after (d : Desk) (ops : List Op) : ∃ d', After d ops d' :=
  ⟨_, ops.map (·, 0), by simp [Function.comp_def], rfl⟩

theorem After.finished (after : After d ops d') (found : d.pieces[i]? = some p) (finished : p.finished = true) :
    d'.pieces[i]? = some p := by
  obtain ⟨calls, -, rfl⟩ := after
  have closed : p.isOpen = false := by simp [Piece.isOpen, finished]
  induction calls generalizing d with
  | nil => exact found
  | cons call calls ih =>
    refine ih ?_
    obtain ⟨op, tl⟩ := call
    cases op with
    | prepare m size =>
      rw [act, getElem?_append_left (List.getElem?_eq_some_iff.mp found).1]
      exact found
    | write content => exact Lib.getElem?_modifyLast found closed
    | finish => exact Lib.getElem?_modifyFirst found closed

structure Holds (fragment : Nat) (p : Piece) (f : Frame) : Prop where
  finished : p.finished = true
  full : p.written.length = p.size
  message : (p.m, p.written) = f.message fragment
  introduces : ∀ id, f.introduces = some id → id = p.tl

/-- Everything is finished, and these messages have been sent. -/
def Complete (fragment : Nat) (d : Desk) (sent : List (Nat × Bytes)) : Prop :=
  ∃ frames, List.Forall₂ (Holds fragment) d.pieces frames ∧ frames.foldlM (Stream.feed fragment) {} = some ⟨sent, none⟩

theorem none_open {pieces : List Piece} {frames : List Frame} (held : List.Forall₂ (Holds fragment) pieces frames) :
    pieces.any Piece.isOpen = false := by
  induction held with
  | nil => rfl
  | cons first _ ih => simp [Piece.isOpen, first.finished, ih]

theorem act_write (pieces : d.pieces = P ++ [q]) (isOpen : q.finished = false) (content : Content) (tl : Nat) :
    (d.act (.write content, tl)).pieces =
      P ++ [{ q with written := q.written ++ encode (d.naming content) content }] := by
  rw [act, pieces, Lib.modifyLast_concat (by simp [Piece.isOpen, isOpen])]

theorem act_finish (pieces : d.pieces = P ++ q :: Q) (none : P.any Piece.isOpen = false) (isOpen : q.finished = false)
    (tl : Nat) : (d.act (.finish, tl)).pieces = P ++ { q with finished := true } :: Q := by
  rw [act, pieces, Lib.modifyFirst_append none, Lib.modifyFirst, if_pos (by simp [Piece.isOpen, isOpen])]

theorem after_chunks (chunks : List Bytes) (pieces : d.pieces = P ++ [q]) (isOpen : q.finished = false)
    (after : After d (chunks.map fun bytes => .write (.bytes bytes)) d') :
    d'.pieces = P ++ [{ q with written := q.written ++ chunks.flatten }] := by
  induction chunks generalizing d q with
  | nil =>
    rw [map_nil, after_nil] at after
    simpa [after] using pieces
  | cons bytes chunks ih =>
    obtain ⟨tl, after⟩ := after_cons.mp after
    rw [ih (act_write pieces isOpen _ _) isOpen after]
    simp [encode]

theorem Complete.plain (complete : Complete fragment d sent) {job : Job} (other : job.m ≠ fragment)
    (after : After d (plainOps job) d') : Complete fragment d' (sent ++ [(job.m, job.bytes)]) := by
  obtain ⟨frames, held, fed⟩ := complete
  obtain ⟨tl, after⟩ := after_cons.mp after
  obtain ⟨_, chunks, after⟩ := after_append.mp after
  obtain ⟨_, after⟩ := after_cons.mp after
  rw [after_nil] at after
  subst after
  refine ⟨frames ++ [.small job.m job.bytes], ?_, ?_⟩
  · rw [act_finish (after_chunks job.chunks rfl rfl chunks) (none_open held) rfl]
    exact rel_append held (.cons ⟨rfl, rfl, rfl, nofun⟩ .nil)
  · rw [foldlM_append, fed]
    simp [Stream.feed, other]

/-- Within an oversized message: some frames are finished, and the last reservation is
to become one more. So much has been written of the message, and so much space remains. -/
structure Midway (fragment : Nat) (d : Desk) (sent : List (Nat × Bytes)) (id m total : Nat) (acc : Bytes)
    (remainder : Nat) (P : List Piece) (frames : List Frame) (q : Piece) (opens : Bytes → Frame)
    (start earlier rest : Bytes) : Prop where
  pieces : d.pieces = P ++ [q]
  held : List.Forall₂ (Holds fragment) P frames
  fragments : q.m = fragment
  isOpen : q.finished = false
  written : q.written = start ++ rest
  size : q.size = q.written.length + remainder
  sum : acc = earlier ++ rest
  identifier : d.identifier = id
  message : ∀ payload, (opens payload).message fragment = (fragment, start ++ payload)
  introduces : ∀ payload id, (opens payload).introduces = some id → id = q.tl
  feeds : ∀ payload, (frames ++ [opens payload]).foldlM (Stream.feed fragment) {} =
    Stream.collect sent id ⟨m, total, earlier ++ payload⟩

def Partway (fragment : Nat) (d : Desk) (sent : List (Nat × Bytes)) (id m total : Nat) (acc : Bytes)
    (remainder : Nat) : Prop :=
  ∃ P frames q opens start earlier rest,
    Midway fragment d sent id m total acc remainder P frames q opens start earlier rest

theorem Complete.begin (complete : Complete fragment d sent) (range : m < 2 ^ 32) (range' : total < 2 ^ 64)
    (large : initialFragmentHeaderSize < size)
    (after : After d [.prepare fragment size, .write (.header m total)] d') :
    ∃ id, Partway fragment d' sent id m total [] (size - initialFragmentHeaderSize) := by
  obtain ⟨frames, held, fed⟩ := complete
  obtain ⟨tl, after⟩ := after_cons.mp after
  obtain ⟨_, after⟩ := after_cons.mp after
  rw [after_nil] at after
  have name : (d.act (.prepare fragment size, tl)).naming (.header m total) = tl := by
    simp [naming, act, Lib.last?_concat, Piece.isOpen]
  refine ⟨tl, d.pieces, frames, { m := fragment, size, tl, written := encode tl (.header m total) },
    .first tl m total, encode tl (.header m total), [], [], ?_, held, rfl, rfl, ?_, ?_, rfl, ?_, fun _ => rfl, ?_, ?_⟩
  · rw [after, act_write (P := d.pieces) rfl rfl, name]
    rfl
  · simp
  · have length : (encode tl (.header m total)).length = initialFragmentHeaderSize := by
      simp [encode, initialFragmentHeaderSize]
    simp only [length]
    omega
  · rw [after]
    exact name
  · intro payload id same
    cases same
    rfl
  · intro payload
    have taken : Stream.feed fragment ⟨sent, none⟩ (.first tl m total payload) =
        Stream.collect sent tl ⟨m, total, payload⟩ := if_pos ⟨rfl, range, range'⟩
    rw [foldlM_append, fed]
    simp [taken]

namespace Partway

theorem write (partway : Partway fragment d sent id m total acc remainder) (fits : bytes.length ≤ remainder)
    (after : After d [.write (.bytes bytes)] d') :
    Partway fragment d' sent id m total (acc ++ bytes) (remainder - bytes.length) := by
  obtain ⟨P, frames, q, opens, start, earlier, rest, midway⟩ := partway
  obtain ⟨_, after⟩ := after_cons.mp after
  rw [after_nil] at after
  refine ⟨P, frames, { q with written := q.written ++ bytes }, opens, start, earlier, rest ++ bytes, ?_, midway.held,
    midway.fragments, midway.isOpen, ?_, ?_, ?_, ?_, midway.message, midway.introduces, midway.feeds⟩
  · rw [after, act_write midway.pieces midway.isOpen]
    rfl
  · simp [midway.written]
  · have := midway.size
    simp only [length_append]
    omega
  · simp [midway.sum]
  · rw [after]
    exact midway.identifier

theorem close (midway : Midway fragment d sent id m total acc 0 P frames q opens start earlier rest) :
    List.Forall₂ (Holds fragment) (P ++ [{ q with finished := true }]) (frames ++ [opens rest]) ∧
      (frames ++ [opens rest]).foldlM (Stream.feed fragment) {} = Stream.collect sent id ⟨m, total, acc⟩ := by
  refine ⟨rel_append midway.held (.cons ⟨rfl, midway.size.symm, ?_, midway.introduces rest⟩ .nil), ?_⟩
  · rw [midway.message, midway.fragments, midway.written]
  · rw [midway.feeds, midway.sum]

theorem next (partway : Partway fragment d sent id m total acc 0) (unfinished : acc.length < total)
    (after : After d [.prepare fragment (8 + bytes.length), .finish, .write .identifier, .write (.bytes bytes)] d') :
    Partway fragment d' sent id m total (acc ++ bytes) 0 := by
  obtain ⟨P, frames, q, opens, start, earlier, rest, midway⟩ := partway
  obtain ⟨tl, after⟩ := after_cons.mp after
  obtain ⟨_, after⟩ := after_cons.mp after
  obtain ⟨_, after⟩ := after_cons.mp after
  obtain ⟨_, after⟩ := after_cons.mp after
  rw [after_nil] at after
  obtain ⟨held, fed⟩ := close midway
  have collected : Stream.collect sent id ⟨m, total, acc⟩ = some ⟨sent, some (id, ⟨m, total, acc⟩)⟩ := by
    rw [Stream.collect, if_neg (by dsimp only; omega), if_neg (by dsimp only; omega)]
  have prepared : (d.act (.prepare fragment (8 + bytes.length), tl)).pieces =
      P ++ q :: [{ m := fragment, size := 8 + bytes.length, tl }] := by
    rw [act, midway.pieces, append_assoc]
    rfl
  have finished := act_finish prepared (none_open midway.held) midway.isOpen 0
  rw [append_cons] at finished
  refine ⟨_, _, { m := fragment, size := 8 + bytes.length, tl, written := Lib.toBytes 8 id ++ bytes }, .more id,
    Lib.toBytes 8 id, acc, bytes, ?_, held, rfl, rfl, rfl, ?_, rfl, ?_, fun _ => rfl, nofun, ?_⟩
  · have named := act_write finished rfl .identifier 0
    have filled := act_write named rfl (.bytes bytes) 0
    rw [after]
    simpa [encode, naming, act, midway.identifier] using filled
  · simp
  · rw [after]
    exact midway.identifier
  · intro payload
    rw [foldlM_append, fed, collected]
    simp [Stream.feed]

theorem fragmentsFrom (partway : Partway fragment d sent id m total acc 0) (large : 8 < size)
    (fuel : Nat) (bytes : Bytes) (enough : bytes.length ≤ fuel) (within : acc.length + bytes.length ≤ total)
    (after : After d (fragmentsFrom fragment size fuel bytes) d') :
    Partway fragment d' sent id m total (acc ++ bytes) 0 := by
  induction fuel generalizing d acc bytes with
  | zero =>
    rw [length_eq_zero_iff.mp (Nat.le_zero.mp enough), append_nil]
    rw [Oversized.fragmentsFrom, after_nil] at after
    exact after ▸ partway
  | succ fuel ih =>
    rw [Oversized.fragmentsFrom] at after
    split at after
    · rename_i empty
      rw [empty, append_nil]
      rw [after_nil] at after
      exact after ▸ partway
    rename_i some
    have positive := length_pos_of_ne_nil some
    obtain ⟨e, first, after⟩ := after_append.mp after
    generalize chosen : min (bytes.length + 8) size = fragSize at first after
    have length : (bytes.take (fragSize - 8)).length = fragSize - 8 := by
      rw [length_take]
      omega
    have filled : After d [.prepare fragment (8 + (bytes.take (fragSize - 8)).length), .finish, .write .identifier,
        .write (.bytes (bytes.take (fragSize - 8)))] e := by
      rw [length, show 8 + (fragSize - 8) = fragSize by omega]
      exact first
    have one := partway.next (by omega) filled
    have rest := ih one (bytes.drop (fragSize - 8)) (by rw [length_drop]; omega)
      (by rw [length_append, length, length_drop]; omega) after
    rwa [append_assoc, take_append_drop] at rest

theorem writeBytes (partway : Partway fragment d sent id m total acc remainder) (large : 8 < size) (bytes : Bytes)
    (within : acc.length + bytes.length ≤ total)
    (after : After d (writeBytes fragment size remainder bytes).1 d') :
    Partway fragment d' sent id m total (acc ++ bytes) (Oversized.writeBytes fragment size remainder bytes).2 := by
  unfold Oversized.writeBytes at after ⊢
  dsimp only at after ⊢
  rw [← singleton_append] at after
  obtain ⟨_, first, after⟩ := after_append.mp after
  have count : (bytes.take (min bytes.length remainder)).length = min bytes.length remainder := by
    rw [length_take]
    omega
  have one := partway.write (by omega) first
  rw [count] at one
  split
  · rename_i all
    rw [all, furtherFragments, length_nil, Oversized.fragmentsFrom, after_nil] at after
    have whole := take_append_drop (min bytes.length remainder) bytes
    rw [all, append_nil] at whole
    rw [whole] at one
    exact after ▸ one
  rename_i some
  have positive := length_pos_of_ne_nil some
  rw [length_drop] at positive
  have less : min bytes.length remainder = remainder := by omega
  rw [less] at one after
  rw [Nat.sub_self] at one
  have rest := one.fragmentsFrom large _ _ le_rfl (by
    rw [length_append, length_take, length_drop]
    omega) after
  rwa [append_assoc, take_append_drop] at rest

theorem writeAll (partway : Partway fragment d sent id m total acc remainder) (large : 8 < size) (chunks : List Bytes)
    (within : acc.length + chunks.flatten.length ≤ total)
    (after : After d (writeAll fragment size remainder chunks).1 d') :
    Partway fragment d' sent id m total (acc ++ chunks.flatten)
      (Oversized.writeAll fragment size remainder chunks).2 := by
  induction chunks generalizing d acc remainder with
  | nil =>
    rw [flatten_nil, append_nil]
    rw [Oversized.writeAll, after_nil] at after
    exact after ▸ partway
  | cons bytes chunks ih =>
    rw [flatten_cons, length_append] at within
    rw [Oversized.writeAll] at after ⊢
    obtain ⟨_, first, after⟩ := after_append.mp after
    have one := partway.writeBytes large bytes (by omega) first
    have rest := ih one (by rw [length_append]; omega) after
    rwa [append_assoc, ← flatten_cons] at rest

theorem complete (partway : Partway fragment d sent id m total acc 0) (all : acc.length = total)
    (after : After d [.finish] d') : Complete fragment d' (sent ++ [(m, acc)]) := by
  obtain ⟨P, frames, q, opens, start, earlier, rest, midway⟩ := partway
  obtain ⟨_, after⟩ := after_cons.mp after
  rw [after_nil] at after
  obtain ⟨held, fed⟩ := close midway
  refine ⟨_, ?_, fed.trans ?_⟩
  · rw [after, act_finish midway.pieces (none_open midway.held) midway.isOpen]
    exact held
  · rw [Stream.collect, if_neg (by dsimp only; omega), if_pos (by dsimp only; omega)]

end Partway

theorem writeBytes_remainder (size remainder : Nat) (bytes : Bytes) :
    (writeBytes fragment size remainder bytes).2 = remainder - bytes.length := by
  unfold writeBytes
  dsimp only
  split
  · rename_i all
    have := congrArg List.length all
    omega
  rename_i some
  have := length_pos_of_ne_nil some
  rw [length_drop] at this
  omega

theorem writeAll_remainder (size remainder : Nat) (chunks : List Bytes) :
    (writeAll fragment size remainder chunks).2 = remainder - chunks.flatten.length := by
  induction chunks generalizing remainder with
  | nil => rfl
  | cons bytes chunks ih =>
    rw [writeAll, flatten_cons, length_append]
    rw [ih, writeBytes_remainder]
    omega

end Desk

variable {cfg : WriterConfig} {job : Job} {jobs : List Job}

/-- A message within the limits can be written and finished, however it is sliced. -/
theorem Job.ops_of_le (fragment : Nat) (within : job.bytes.length ≤ cfg.maxTotalSize) :
    ∃ ops, job.ops fragment cfg = some ops := by
  unfold Job.ops
  dsimp only
  split
  · exact ⟨_, rfl⟩
  rename_i large
  rw [if_neg (by omega), Desk.writeAll_remainder, if_neg ?_]
  · exact ⟨_, rfl⟩
  · unfold Job.bytes at large
    omega

namespace Desk

variable {d d' : Desk} {ops : List Op} {sent : List (Nat × Bytes)}

theorem Complete.message (complete : Complete fragment d sent) (accepted : cfg.accepted) (range : cfg.maxTotalSize < 2 ^ 64)
    (other : job.m ≠ fragment) (type : job.m < 2 ^ 32) (calls : job.ops fragment cfg = some ops)
    (after : After d ops d') : Complete fragment d' (sent ++ [(job.m, job.bytes)]) := by
  obtain ⟨-, large⟩ := of_decide_eq_true accepted
  unfold Job.ops at calls
  dsimp only at calls
  split at calls
  · cases calls
    exact complete.plain other after
  split at calls
  · cases calls
  split at calls
  · cases calls
  rename_i within full
  cases calls
  obtain ⟨_, before, finish⟩ := after_append.mp after
  obtain ⟨_, begin, writes⟩ := after_append.mp before
  obtain ⟨id, partway⟩ := complete.begin type (by omega) large begin
  have all := partway.writeAll (by rw [initialFragmentHeaderSize] at large; omega) job.chunks
    (by rw [length_nil, Nat.zero_add]; rfl) writes
  rw [not_not.mp full] at all
  exact all.complete rfl finish

theorem Complete.messages {cfg : Option WriterConfig} (complete : Complete fragment d sent)
    (accepted : ∀ c, cfg = some c → c.accepted ∧ c.maxTotalSize < 2 ^ 64)
    (types : ∀ job ∈ jobs, job.m ≠ fragment ∧ job.m < 2 ^ 32) (calls : opsOf fragment cfg jobs = some ops)
    (after : After d ops d') : Complete fragment d' (sent ++ jobs.map fun job => (job.m, job.bytes)) := by
  induction jobs generalizing d sent ops with
  | nil =>
    have none : ops = [] := by cases cfg <;> simpa [opsOf, eq_comm] using calls
    rw [none, after_nil] at after
    simpa [after] using complete
  | cons job jobs ih =>
    rw [forall_mem_cons] at types
    -- The calls for the first message, and for the rest.
    obtain ⟨first, rest, rfl, one, others⟩ : ∃ first rest, ops = first ++ rest ∧
        (∀ e, After d first e → Complete fragment e (sent ++ [(job.m, job.bytes)])) ∧
        opsOf fragment cfg jobs = some rest := by
      cases cfg with
      | none =>
        cases calls
        exact ⟨plainOps job, _, rfl, fun _ => complete.plain types.1.1, rfl⟩
      | some c =>
        obtain ⟨lists, each, rfl⟩ := Option.map_eq_some_iff.mp calls
        rw [mapM_cons] at each
        obtain ⟨first, own, each⟩ := Option.bind_eq_some_iff.mp each
        obtain ⟨lists, others, same⟩ := Option.bind_eq_some_iff.mp each
        cases same
        refine ⟨first, lists.flatten, rfl, fun _ => ?_, by rw [opsOf, others]; rfl⟩
        obtain ⟨accepted, range⟩ := accepted c rfl
        exact complete.message accepted range types.1.1 types.1.2 own
    obtain ⟨e, before, after⟩ := after_append.mp after
    have done := ih (one e before) types.2 others after
    rw [append_assoc] at done
    exact done

end Desk
end CCF.Oversized
