import ShardedCCF.Lib.Memory
import ShardedCCF.Lib.Run

/-! A ring buffer with many writers and one reader. A writer reserves space by
moving the tail, writes a pending header and its bytes, and then unsets the pending
flag. The reader hands on finished messages, zeroes what it has read and moves the
head. Every access to shared memory is a step of its own. -/
namespace CCF.RingBuffer
open Lib

abbrev Bytes := List Byte

/-- High bit of the message size. Messages are types, of 32 bits. -/
def pendingWriteFlag : Nat := 2 ^ 31

def msgNone : Nat := 0
def msgMin : Nat := 1
def msgMax : Nat := 2 ^ 32 - 2
def msgPad : Nat := 2 ^ 32 - 1

def headerSize : Nat := 8

def alignSize (n : Nat) : Nat := (n + 7) / 8 * 8

def entrySize (n : Nat) : Nat := alignSize (n + headerSize)

def maxSize : Nat := 2 ^ 31 - 1 - headerSize

def maxReservationSize (bufferSize : Nat) : Nat := bufferSize / 2

/-- A message in the high half; the size, with its pending flag, in the low half. -/
def makeHeader (m : Nat) (size : Nat) (pending : Bool) : Nat :=
  2 ^ 32 * m + (size % 2 ^ 31 + if pending then pendingWriteFlag else 0)

def message (header : Nat) : Nat := header / 2 ^ 32

def length (header : Nat) : Nat := header % 2 ^ 32

def read64 (mem : Memory) (index : Nat) : Nat := ofBytes (mem.read index 8)

def write64 (mem : Memory) (index value : Nat) : Memory := mem.write index (toBytes 8 value)

inductive Phase where
  | reserved | pending | finished
  deriving DecidableEq, Repr

/-- A reservation, with what has become of it. Offsets count all bytes ever
reserved; they are never reduced. -/
structure Entry where
  writer : Nat
  m : Nat
  size : Nat
  /-- The tail it was made at, which identifies it. -/
  tl : Nat
  padding : Nat
  padded : Bool := false
  phase : Phase := .reserved
  written : Bytes := []
  deriving DecidableEq

namespace Entry

def start (e : Entry) : Nat := e.tl + e.padding

def stop (e : Entry) : Nat := e.start + entrySize e.size

def index (bufferSize : Nat) (e : Entry) : Nat := if e.padding ≠ 0 then 0 else e.tl % bufferSize

/-- The bytes that were asked for; those not written are zero. -/
def payload (e : Entry) : Bytes := e.written ++ List.replicate (e.size - e.written.length) 0

end Entry

structure Locals where
  m : Nat
  size : Nat
  wait : Bool
  hd : Nat := 0
  tl : Nat := 0
  padding : Nat := 0
  deriving DecidableEq

def Locals.rsize (c : Locals) : Nat := entrySize c.size

inductive Pc where
  | idle
  | loadHeadCache (c : Locals)
  | loadTail (c : Locals)
  | loadHead (c : Locals)
  | storeHeadCache (c : Locals)
  | loadHeadAgain (c : Locals)
  | storeHeadCacheAgain (c : Locals)
  | exchange (c : Locals)
  | writePadding (ticket : Nat)
  | writeHeader (ticket : Nat)
  deriving DecidableEq

structure Scan where
  hd : Nat
  advance : Nat
  count : Nat
  limit : Nat
  deriving DecidableEq

inductive Reader where
  | idle
  | scan (r : Scan)
  | handle (r : Scan) (m : Nat) (size : Nat)
  | zero (r : Scan)
  | publish (r : Scan)
  deriving DecidableEq

structure Ring where
  mem : Memory := fun _ => 0
  headCache : Nat := 0
  head : Nat := 0
  tail : Nat := 0
  pc : Nat → Pc := fun _ => .idle
  reader : Reader := .idle
  log : List Entry := []
  delivered : List (Nat × Bytes) := []

/-- `prepare` throws on a reserved message and on one that is too long. -/
def accepts (bufferSize : Nat) (m : Nat) (size : Nat) : Bool :=
  msgMin ≤ m ∧ m ≤ msgMax ∧ size ≤ maxSize ∧ entrySize size ≤ maxReservationSize bufferSize

variable (bufferSize : Nat)

/-- From the back-space on: where does the message fit? -/
def fitBlock (c : Locals) : Pc :=
  let block := bufferSize - c.tl % bufferSize
  if c.rsize > block then
    if c.rsize > c.hd % bufferSize then .loadHeadAgain c
    else .exchange { c with padding := block }
  else .exchange { c with padding := 0 }

/-- The body of the loop, up to its next access to shared memory. A head past the
tail makes the gap wrap around. -/
def enterLoop (c : Locals) : Pc :=
  if c.hd > c.tl ∨ c.tl - c.hd > bufferSize ∨ c.rsize > bufferSize - (c.tl - c.hd) then .loadHead c
  else fitBlock bufferSize c

def failReserve (c : Locals) : Pc := if c.wait then .loadHeadCache c else .idle

namespace Ring

def goto (s : Ring) (w : Nat) (pc : Pc) : Ring := { s with pc := Function.update s.pc w pc }

def updateEntry (s : Ring) (ticket : Nat) (f : Entry → Entry) : Ring := { s with log := s.log.modify ticket f }

def entryOf (c : Locals) (w : Nat) : Entry where
  writer := w
  m := c.m
  size := c.size
  tl := c.tl
  padding := c.padding

def prepare (s : Ring) (w : Nat) (m : Nat) (size : Nat) (wait : Bool) : Option Ring :=
  if s.pc w = .idle ∧ accepts bufferSize m size then some (s.goto w (.loadHeadCache { m, size, wait })) else none

/-- The next access of a writer. A weak exchange may fail spuriously. -/
def writerStep (s : Ring) (w : Nat) (spurious : Bool) : Option Ring :=
  match s.pc w with
  | .idle => none
  | .loadHeadCache c => some (s.goto w (.loadTail { c with hd := s.headCache }))
  | .loadTail c => some (s.goto w (enterLoop bufferSize { c with tl := s.tail }))
  | .loadHead c =>
    some <| s.goto w <|
      -- Head has passed the tail loaded before: the exchange is bound to fail.
      if s.head > c.tl then .exchange { c with hd := s.head }
      else if c.rsize > bufferSize - (c.tl - s.head) then failReserve c
      else .storeHeadCache { c with hd := s.head }
  | .storeHeadCache c => some ({ s with headCache := c.hd }.goto w (fitBlock bufferSize c))
  | .loadHeadAgain c =>
    some <| s.goto w <|
      if c.rsize > s.head % bufferSize then failReserve c else .storeHeadCacheAgain { c with hd := s.head }
  | .storeHeadCacheAgain c =>
    some ({ s with headCache := c.hd }.goto w
      (.exchange { c with padding := bufferSize - c.tl % bufferSize }))
  | .exchange c =>
    if s.tail = c.tl ∧ ¬ spurious then
      let ticket := s.log.length
      some ({ s with tail := c.tl + c.rsize + c.padding, log := s.log ++ [entryOf c w] }.goto w
        (if c.padding ≠ 0 then .writePadding ticket else .writeHeader ticket))
    else some (s.goto w (enterLoop bufferSize { c with tl := s.tail }))
  | .writePadding ticket =>
    match s.log[ticket]? with
    | none => none
    | some e =>
      some (({ s with mem := write64 s.mem (e.tl % bufferSize) (makeHeader msgPad e.padding false) }.updateEntry
        ticket fun e => { e with padded := true }).goto w (.writeHeader ticket))
  | .writeHeader ticket =>
    match s.log[ticket]? with
    | none => none
    | some e =>
      some (({ s with mem := write64 s.mem (e.index bufferSize) (makeHeader e.m e.size true) }.updateEntry
        ticket fun e => { e with phase := .pending }).goto w .idle)

def writeBytes (s : Ring) (w ticket : Nat) (bytes : Bytes) : Option Ring :=
  match s.log[ticket]? with
  | none => none
  | some e =>
    if s.pc w = .idle ∧ e.writer = w ∧ e.phase = .pending ∧ e.written.length + bytes.length ≤ e.size then
      some ({ s with mem := s.mem.write (e.index bufferSize + headerSize + e.written.length) bytes }.updateEntry ticket
        fun e => { e with written := e.written ++ bytes })
    else none

def finish (s : Ring) (w ticket : Nat) : Option Ring :=
  match s.log[ticket]? with
  | none => none
  | some e =>
    if s.pc w = .idle ∧ e.writer = w ∧ e.phase = .pending then
      let header := read64 s.mem (e.index bufferSize)
      some ({ s with mem := write64 s.mem (e.index bufferSize) (makeHeader (message header) (length header) false)
        }.updateEntry ticket fun e => { e with phase := .finished })
    else none

def read (s : Ring) (limit : Nat) : Option Ring :=
  if s.reader = .idle then some { s with reader := .scan ⟨s.head, 0, 0, limit⟩ } else none

def endScan (r : Scan) : Reader := if r.advance > 0 then .zero r else .idle

def readerStep (s : Ring) : Option Ring :=
  match s.reader with
  | .idle => none
  | .scan r =>
    let hdIndex := r.hd % bufferSize
    if r.advance < bufferSize - hdIndex ∧ r.count < r.limit then
      let header := read64 s.mem (hdIndex + r.advance)
      let size := length header
      let m := message header
      some { s with
        reader :=
          if size ≥ pendingWriteFlag then endScan r
          else if m = msgNone then endScan r
          else if m = msgPad then .scan { r with advance := r.advance + size }
          else .handle r m size }
    else some { s with reader := endScan r }
  | .handle r m size =>
    some { s with
      delivered := s.delivered ++ [(m, s.mem.read (r.hd % bufferSize + r.advance + headerSize) size)]
      reader := .scan { r with advance := r.advance + entrySize size, count := r.count + 1 } }
  | .zero r =>
    some { s with
      mem := s.mem.write (r.hd % bufferSize) (List.replicate r.advance 0)
      reader := .publish r }
  | .publish r => some { s with head := r.hd + r.advance, reader := .idle }

end Ring

inductive Action where
  | prepare (w : Nat) (m : Nat) (size : Nat) (wait : Bool)
  | writer (w : Nat) (spurious : Bool)
  | writeBytes (w ticket : Nat) (bytes : Bytes)
  | finish (w ticket : Nat)
  | read (limit : Nat)
  | reader
  deriving DecidableEq

def Ring.step (s : Ring) : Action → Option Ring
  | .prepare w m size wait => s.prepare bufferSize w m size wait
  | .writer w spurious => s.writerStep bufferSize w spurious
  | .writeBytes w ticket bytes => s.writeBytes bufferSize w ticket bytes
  | .finish w ticket => s.finish bufferSize w ticket
  | .read limit => s.read limit
  | .reader => s.readerStep bufferSize

end CCF.RingBuffer
