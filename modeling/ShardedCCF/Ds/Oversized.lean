import ShardedCCF.Ds.RingBuffer
import ShardedCCF.Lib.Marked

/-! Messages that exceed the fragment size are written as several ring buffer
messages, all with the identifier of the first one, and put together again by the
reader. A writer reserves its next fragment before it finishes the previous one. -/
namespace CCF.Oversized

open Lib RingBuffer

structure WriterConfig where
  maxFragmentSize : Nat
  maxTotalSize : Nat
  deriving DecidableEq, Repr

def initialFragmentHeaderSize : Nat := 20

def WriterConfig.accepted (cfg : WriterConfig) : Bool :=
  cfg.maxFragmentSize < cfg.maxTotalSize ∧ initialFragmentHeaderSize < cfg.maxFragmentSize

inductive Content where
  | bytes (bytes : Bytes)
  | header (m total : Nat)
  | identifier
  deriving DecidableEq

/-- A call on the underlying writer. The oldest reservation is finished. -/
inductive Op where
  | prepare (m size : Nat)
  | write (content : Content)
  | finish
  deriving DecidableEq

variable (fragment : Nat)

/-- Further fragments, until everything is written. Each takes at least one byte, so
fuel for all bytes is enough. -/
def fragmentsFrom (maxFragmentSize : Nat) : Nat → Bytes → List Op
  | 0, _ => []
  | fuel + 1, bytes =>
    if bytes = [] then []
    else
      let fragSize := min (bytes.length + 8) maxFragmentSize
      [.prepare fragment fragSize, .finish, .write .identifier, .write (.bytes (bytes.take (fragSize - 8)))] ++
        fragmentsFrom maxFragmentSize fuel (bytes.drop (fragSize - 8))

def furtherFragments (maxFragmentSize : Nat) (bytes : Bytes) : List Op :=
  fragmentsFrom fragment maxFragmentSize bytes.length bytes

/-- `write_bytes`, with the space that remains in the current fragment. -/
def writeBytes (maxFragmentSize remainder : Nat) (bytes : Bytes) : List Op × Nat :=
  let writeSize := min bytes.length remainder
  let rest := bytes.drop writeSize
  (.write (.bytes (bytes.take writeSize)) :: furtherFragments fragment maxFragmentSize rest,
    if rest = [] then remainder - writeSize else 0)

def writeAll (maxFragmentSize : Nat) : Nat → List Bytes → List Op × Nat
  | remainder, [] => ([], remainder)
  | remainder, bytes :: chunks =>
    let (ops, remainder) := writeBytes fragment maxFragmentSize remainder bytes
    let (more, remainder) := writeAll maxFragmentSize remainder chunks
    (ops ++ more, remainder)

/-- A message, and how its bytes are sliced into calls of `write_bytes`. -/
structure Job where
  m : Nat
  chunks : List Bytes
  deriving DecidableEq

def Job.bytes (job : Job) : Bytes := job.chunks.flatten

def plainOps (job : Job) : List Op :=
  .prepare job.m job.bytes.length :: job.chunks.map (fun bytes => .write (.bytes bytes)) ++ [.finish]

/-- The calls for one message. The result is `none` where `prepare` or `finish` throws. -/
def Job.ops (cfg : WriterConfig) (job : Job) : Option (List Op) :=
  let totalSize := job.bytes.length
  if totalSize ≤ cfg.maxFragmentSize then some (plainOps job)
  else if totalSize > cfg.maxTotalSize then none
  else
    let (ops, remainder) :=
      writeAll fragment cfg.maxFragmentSize (cfg.maxFragmentSize - initialFragmentHeaderSize) job.chunks
    if remainder ≠ 0 then none
    else some ([.prepare fragment cfg.maxFragmentSize, .write (.header job.m totalSize)] ++ ops ++ [.finish])

structure Thread where
  ops : List Op
  identifier : Nat := 0
  deriving DecidableEq

/-- The identifier that is written. A first fragment has the one that `prepare`
returned for it. -/
def Thread.naming (thread : Thread) (e : Entry) : Content → Nat
  | .header _ _ => e.tl
  | .bytes _ | .identifier => thread.identifier

structure System where
  ring : Ring := {}
  threads : Nat → Thread

def encode (identifier : Nat) : Content → Bytes
  | .bytes bytes => bytes
  | .header m total => toBytes 8 identifier ++ (toBytes 4 m ++ toBytes 8 total)
  | .identifier => toBytes 8 identifier

namespace System

def mine (w : Nat) (e : Entry) : Bool := e.writer = w && e.phase = .pending

def advance (s : System) (w : Nat) (thread : Thread) (ring : Ring) : System :=
  { s with ring, threads := Function.update s.threads w thread }

/-- The next call of a writer, all of whose calls wait for space. -/
def call (bufferSize : Nat) (s : System) (w : Nat) : Option System :=
  match (s.threads w).ops with
  | [] => none
  | .prepare m size :: ops => do
    let ring ← s.ring.prepare bufferSize w m size true
    return s.advance w { s.threads w with ops } ring
  | .write content :: ops => do
    let ticket ← lastIdx? (mine w) s.ring.log
    let e ← s.ring.log[ticket]?
    let identifier := (s.threads w).naming e content
    let ring ← s.ring.writeBytes bufferSize w ticket (encode identifier content)
    return s.advance w { ops, identifier } ring
  | .finish :: ops => do
    let ticket ← s.ring.log.findIdx? (mine w)
    let ring ← s.ring.finish bufferSize w ticket
    return s.advance w { s.threads w with ops } ring

end System

inductive Action where
  | call (w : Nat)
  | writer (w : Nat) (spurious : Bool)
  | read (limit : Nat)
  | reader
  deriving DecidableEq

def System.step (bufferSize : Nat) (s : System) : Action → Option System
  | .call w => s.call bufferSize w
  | .writer w spurious => (s.ring.writerStep bufferSize w spurious).map fun ring => { s with ring }
  | .read limit => (s.ring.read limit).map fun ring => { s with ring }
  | .reader => (s.ring.readerStep bufferSize).map fun ring => { s with ring }

def opsOf (cfg : Option WriterConfig) (jobs : List Job) : Option (List Op) :=
  match cfg with
  | none => some (jobs.flatMap plainOps)
  | some cfg => (jobs.mapM (Job.ops fragment cfg)).map List.flatten

structure PartialMessage where
  m : Nat
  totalSize : Nat
  data : Bytes
  deriving DecidableEq

/-- The reader side: partial messages by identifier, and what was dispatched. -/
structure FragmentReconstructor where
  partialMessages : Nat → Option PartialMessage := fun _ => none
  dispatched : List (Nat × Bytes) := []

/-- Reads a number from the front; there may be too few bytes. -/
def readNumber (width : Nat) (data : Bytes) : Option (Nat × Bytes) :=
  if data.length < width then none else some (ofBytes (data.take width), data.drop width)

namespace FragmentReconstructor

/-- The partial message that a fragment belongs to, and its data. The first fragment
of a message has a header. -/
def locate (r : FragmentReconstructor) (id : Nat) (data : Bytes) : Option (PartialMessage × Bytes) :=
  match r.partialMessages id with
  | some partialMessage => some (partialMessage, data)
  | none => do
    let (m, data) ← readNumber 4 data
    let (totalSize, data) ← readNumber 8 data
    return ({ m, totalSize, data := [] }, data)

/-- The handler of fragments. The result is `none` where it throws. -/
def onFragment (r : FragmentReconstructor) (data : Bytes) : Option FragmentReconstructor := do
  let (id, data) ← readNumber 8 data
  let (partialMessage, data) ← r.locate id data
  if data.length + partialMessage.data.length > partialMessage.totalSize then none
  else
    let received := { partialMessage with data := partialMessage.data ++ data }
    if received.data.length = received.totalSize then
      return {
        partialMessages := Function.update r.partialMessages id none
        dispatched := r.dispatched ++ [(received.m, received.data)] }
    else return { r with partialMessages := Function.update r.partialMessages id (some received) }

/-- Any other message is passed through. -/
def receive (r : FragmentReconstructor) (message : Nat × Bytes) : Option FragmentReconstructor :=
  if message.1 = fragment then r.onFragment message.2
  else some { r with dispatched := r.dispatched ++ [message] }

def receiveAll (r : FragmentReconstructor) (messages : List (Nat × Bytes)) : Option FragmentReconstructor :=
  messages.foldlM (receive fragment) r

end FragmentReconstructor
end CCF.Oversized
