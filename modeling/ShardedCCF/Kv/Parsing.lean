import ShardedCCF.Kv.RoundTrip
import ShardedCCF.Lib.Run

/-! Parsing an entry stays inside its buffers as long as the sizes in it are
honest: the checks of the readers do not cover every size. -/
namespace CCF.Kv
open Lib (toBytes ofBytes)

/-- The call returns or throws, and leaves a state that is `inside`. -/
def InBounds (inside : σ → Prop) : EStateM.Result Abort σ α → Prop
  | .ok _ s => inside s
  | .error .exception s => inside s
  | .error .undefined _ => False

namespace InBounds
variable {inside : σ → Prop} {s : σ}

theorem bind {read : EStateM Abort σ α} {next : α → EStateM Abort σ β} (first : InBounds inside (read s))
    (second : ∀ a t, read s = .ok a t → inside t → InBounds inside (next a t)) :
    InBounds inside ((read >>= next) s) := by
  simp only [Bind.bind, EStateM.bind]
  cases result : read s with
  | ok a t =>
    rw [result] at first
    exact second a t result first
  | error reason t =>
    rw [result] at first
    cases reason <;> exact first

theorem map {read : EStateM Abort σ α} (f : α → β) (fits : InBounds inside (read s)) :
    InBounds inside ((f <$> read) s) := by
  simp only [Functor.map, EStateM.map]
  cases result : read s with
  | ok a t => rwa [result] at fits
  | error reason t =>
    rw [result] at fits
    cases reason <;> exact fits

end InBounds

namespace RawReader
variable {r : RawReader}

/-- The reader has not passed its end, and its end lies in the buffer. -/
structure Inside (r : RawReader) : Prop where
  offset_le : r.dataOffset ≤ r.dataSize
  available : r.dataSize ≤ r.dataOffset + r.rest.length

section
variable (inside : r.Inside)
include inside

theorem Inside.remainder_eq : r.remainder = r.dataSize - r.dataOffset :=
  if_pos inside.offset_le

theorem Inside.remainder_le : r.remainder ≤ r.rest.length := by
  have := inside.available
  rw [inside.remainder_eq]
  omega

theorem Inside.skip_iff (within : n ≤ r.rest.length) : (r.skip n).Inside ↔ n ≤ r.remainder := by
  have ordered := inside.offset_le
  have available := inside.available
  rw [inside.remainder_eq]
  constructor
  · intro moved
    have moved : r.dataOffset + n ≤ r.dataSize := moved.offset_le
    omega
  · intro fits
    constructor
    · show r.dataOffset + n ≤ r.dataSize
      omega
    · show r.dataSize ≤ r.dataOffset + n + (r.rest.drop n).length
      rw [List.length_drop]
      omega

theorem Inside.remainder_skip (fits : n ≤ r.remainder) : (r.skip n).remainder = r.remainder - n := by
  have moved := (inside.skip_iff (fits.trans inside.remainder_le)).mpr fits
  rw [moved.remainder_eq, inside.remainder_eq]
  show r.dataSize - (r.dataOffset + n) = _
  omega

theorem Inside.copy_iff : InBounds Inside (copy n r) ↔ n ≤ r.remainder := by
  unfold copy
  split
  · exact inside.skip_iff ‹_›
  · have := inside.remainder_le
    exact iff_of_false id (by omega)

theorem readEntry_of_le (fits : width ≤ r.remainder) :
    readEntry width r = .ok (ofBytes (r.rest.take width)) (r.skip width) := by
  rw [readEntry, if_neg (Nat.not_lt.mpr fits)]
  simp only [Functor.map, EStateM.map, copy, if_pos (fits.trans inside.remainder_le)]

end

theorem readEntry_of_lt (short : r.remainder < width) : readEntry width r = .error .exception r := if_pos short

theorem Inside.readEntry (inside : r.Inside) (width : Nat) : InBounds Inside (readEntry width r) := by
  by_cases fits : width ≤ r.remainder
  · rw [readEntry_of_le inside fits]
    exact (inside.skip_iff (fits.trans inside.remainder_le)).mpr fits
  · rw [readEntry_of_lt (Nat.lt_of_not_le fits)]
    exact inside

theorem eq_skip_of_readEntry (inside : r.Inside) (read : RawReader.readEntry width r = .ok n t) :
    width ≤ r.remainder ∧ n = ofBytes (r.rest.take width) ∧ t = r.skip width := by
  by_cases fits : width ≤ r.remainder
  · rw [readEntry_of_le inside fits] at read
    cases read
    exact ⟨fits, rfl, rfl⟩
  · rw [readEntry_of_lt (Nat.lt_of_not_le fits)] at read
    cases read

def entrySize (r : RawReader) : Nat := ofBytes (r.rest.take 8)

def Accepts (r : RawReader) : Prop := 8 ≤ r.remainder ∧ r.entrySize ≤ r.remainder

/-- A size that is accepted leaves room for the eight bytes it is written in. -/
def Sized (r : RawReader) : Prop := r.Accepts → 8 + r.entrySize ≤ r.remainder

theorem readSizePrefixedEntry_of_accepts (inside : r.Inside) (accepts : r.Accepts) :
    readSizePrefixedEntry r = copy r.entrySize (r.skip 8) := by
  have size : ofBytes (r.rest.take 8) = r.entrySize := rfl
  simp only [readSizePrefixedEntry, bind, EStateM.bind, get, getThe, MonadStateOf.get, EStateM.get,
    readEntry_of_le inside accepts.1, size, Nat.not_lt.mpr accepts.2, if_false]

theorem readSizePrefixedEntry_of_not_accepts (inside : r.Inside) (refused : ¬ r.Accepts) :
    ∃ t, readSizePrefixedEntry r = .error .exception t ∧ t.Inside := by
  by_cases fits : 8 ≤ r.remainder
  · have large : r.remainder < r.entrySize := Nat.lt_of_not_le fun small => refused ⟨fits, small⟩
    refine ⟨r.skip 8, ?_, (inside.skip_iff (fits.trans inside.remainder_le)).mpr fits⟩
    have size : ofBytes (r.rest.take 8) = r.entrySize := rfl
    simp only [readSizePrefixedEntry, bind, EStateM.bind, get, getThe, MonadStateOf.get, EStateM.get,
      readEntry_of_le inside fits, size, large, if_true]
    rfl
  refine ⟨r, ?_, inside⟩
  simp only [readSizePrefixedEntry, bind, EStateM.bind, get, getThe, MonadStateOf.get, EStateM.get,
    readEntry_of_lt (Nat.lt_of_not_le fits)]

theorem Inside.readSizePrefixedEntry_iff (inside : r.Inside) :
    InBounds Inside (readSizePrefixedEntry r) ↔ r.Sized := by
  by_cases accepts : r.Accepts
  · have moved := (inside.skip_iff (accepts.1.trans inside.remainder_le)).mpr accepts.1
    rw [readSizePrefixedEntry_of_accepts inside accepts, moved.copy_iff, inside.remainder_skip accepts.1]
    have := accepts.1
    exact ⟨fun fits _ => by omega, fun sized => by have := sized accepts; omega⟩
  obtain ⟨t, thrown, still⟩ := readSizePrefixedEntry_of_not_accepts inside accepts
  rw [thrown]
  exact iff_of_true still fun accepted => absurd accepted accepts

def skipEntry (r : RawReader) : RawReader := r.skip (8 + r.entrySize)

theorem eq_skipEntry_of_read (inside : r.Inside) (sized : r.Sized) (read : readSizePrefixedEntry r = .ok bytes t) :
    r.Accepts ∧ bytes.length = r.entrySize ∧ t = r.skipEntry := by
  by_cases accepts : r.Accepts
  · have fits := (sized accepts).trans inside.remainder_le
    have within : r.entrySize ≤ (r.skip 8).rest.length := by
      simp only [skip, List.length_drop]
      omega
    rw [readSizePrefixedEntry_of_accepts inside accepts, copy, if_pos within] at read
    cases read
    refine ⟨accepts, ?_, ?_⟩
    · rw [List.length_take]
      omega
    · simp [skipEntry, skip, List.drop_drop, Nat.add_assoc]
  · obtain ⟨_, thrown, -⟩ := readSizePrefixedEntry_of_not_accepts inside accepts
    rw [thrown] at read
    cases read

def Aligned (r : RawReader) : Prop := r.Accepts → r.entrySize % 8 = 0

theorem Inside.readVersions (inside : r.Inside) (sized : r.Sized) (aligned : r.Aligned) :
    InBounds Inside (readVersions r) := by
  refine .bind (inside.readSizePrefixedEntry_iff.mpr sized) fun bytes t read still => ?_
  obtain ⟨accepts, length, -⟩ := eq_skipEntry_of_read inside sized read
  rw [if_neg (by simpa [length] using aligned accepts)]
  exact still

theorem Inside.readEntryType (inside : r.Inside) : InBounds Inside (readEntryType r) := by
  refine .bind (inside.readEntry 1) fun n t _ still => ?_
  cases EntryType.ofCode n <;> exact still

theorem eq_skip_of_readEntryType (inside : r.Inside) (read : RawReader.readEntryType r = .ok t s) :
    1 ≤ r.remainder ∧ EntryType.ofCode (ofBytes (r.rest.take 1)) = some t ∧ s = r.skip 1 := by
  by_cases fits : 1 ≤ r.remainder
  · simp only [RawReader.readEntryType, bind, EStateM.bind, readEntry_of_le inside fits] at read
    cases known : EntryType.ofCode (ofBytes (r.rest.take 1)) with
    | none =>
      rw [known] at read
      cases read
    | some found =>
      rw [known] at read
      cases read
      exact ⟨fits, rfl, rfl⟩
  · simp only [RawReader.readEntryType, bind, EStateM.bind, readEntry_of_lt (Nat.lt_of_not_le fits)] at read
    cases read

/-- The size of a digest that may be absent. -/
abbrev digestSize (present : Bool) : Nat := if present then 32 else 0

theorem readDigestIf_of_le (present : Bool) (inside : r.Inside) (fits : digestSize present ≤ r.remainder) :
    ∃ digest, Deserialiser.readDigestIf present r = .ok digest (r.skip (digestSize present)) := by
  cases present with
  | false => exact ⟨none, rfl⟩
  | true =>
    have enough : 32 ≤ r.rest.length := fits.trans inside.remainder_le
    refine ⟨some ⟨r.rest.take 32, by simp [enough]⟩, ?_⟩
    simp [Deserialiser.readDigestIf, Functor.map, EStateM.map, readDigest, digestSize, enough]

/-- The digests that the type of the entry asks for end before the reader does. -/
def HoldsDigests (r : RawReader) : Prop :=
  ∀ t, EntryType.ofCode (ofBytes (r.rest.take 1)) = some t → 9 ≤ r.remainder →
    9 + digestSize t.hasClaims + digestSize t.hasCommitEvidence ≤ r.remainder

theorem Inside.readPublicHeader (inside : r.Inside) (holds : r.HoldsDigests) :
    InBounds Inside (Deserialiser.readPublicHeader r) := by
  refine .bind inside.readEntryType fun t _ read typed => ?_
  obtain ⟨first, known, rfl⟩ := eq_skip_of_readEntryType inside read
  refine .bind (typed.readEntry 8) fun version _ read versioned => ?_
  obtain ⟨second, -, rfl⟩ := eq_skip_of_readEntry typed read
  rw [inside.remainder_skip first] at second
  have room := holds t known (by omega)
  -- Both digests are copied without a check.
  have left := typed.remainder_skip (n := 8) (by rw [inside.remainder_skip first]; omega)
  rw [inside.remainder_skip first] at left
  generalize (r.skip 1).skip 8 = r at *
  obtain ⟨claims, readClaims⟩ := readDigestIf_of_le t.hasClaims versioned (by omega)
  have claimed := (versioned.skip_iff (le_trans (by omega) versioned.remainder_le)).mpr
    (show digestSize t.hasClaims ≤ r.remainder by omega)
  have leftAfter := versioned.remainder_skip (n := digestSize t.hasClaims) (by omega)
  simp only [bind, EStateM.bind, readClaims]
  generalize r.skip (digestSize t.hasClaims) = r at *
  obtain ⟨evidence, readEvidence⟩ := readDigestIf_of_le t.hasCommitEvidence claimed (by omega)
  have evidenced := (claimed.skip_iff (le_trans (by omega) claimed.remainder_le)).mpr
    (show digestSize t.hasCommitEvidence ≤ r.remainder by omega)
  simp only [readEvidence]
  exact .bind (evidenced.readEntry 8) fun _ _ _ still => still

end RawReader

namespace Deserialiser
variable {d : Deserialiser}

structure Inside (d : Deserialiser) : Prop where
  publicReader : d.publicReader.Inside
  privateReader : d.privateReader.Inside

theorem Inside.current (inside : d.Inside) : d.current.Inside := by
  unfold Deserialiser.current
  split
  · exact inside.publicReader
  · exact inside.privateReader

theorem Inside.place (inside : d.Inside) (fits : r.Inside) : (d.place r).Inside := by
  unfold Deserialiser.place
  split
  · exact ⟨fits, inside.privateReader⟩
  · exact ⟨inside.publicReader, fits⟩

theorem onCurrent_eq (read : RawRead α) (d : Deserialiser) : onCurrent read d =
    match read d.current with
    | .ok a r => .ok a (d.place r)
    | .error reason r => .error reason (d.place r) := by
  unfold onCurrent onPublic onPrivate current place
  cases d.currentDomain <;> rfl

section
variable (inside : d.Inside)
include inside

theorem Inside.onCurrent {read : RawRead α} (fits : InBounds RawReader.Inside (read d.current)) :
    InBounds Inside (onCurrent read d) := by
  rw [onCurrent_eq]
  cases result : read d.current with
  | ok a r =>
    rw [result] at fits
    exact inside.place fits
  | error reason r =>
    rw [result] at fits
    cases reason with
    | exception => exact inside.place fits
    | undefined => exact fits

theorem Inside.readEntry (width : Nat) : InBounds Inside (Deserialiser.onCurrent (RawReader.readEntry width) d) :=
  inside.onCurrent (inside.current.readEntry width)

theorem Inside.readSizePrefixedEntry (sized : d.current.Sized) :
    InBounds Inside (Deserialiser.onCurrent RawReader.readSizePrefixedEntry d) :=
  inside.onCurrent (inside.current.readSizePrefixedEntry_iff.mpr sized)

theorem Inside.switchDomain : d.switchDomain.Inside := by
  unfold Deserialiser.switchDomain
  split
  · exact ⟨inside.publicReader, inside.privateReader⟩
  · exact inside

theorem Inside.startMap (sized : d.switchDomain.current.Sized) : InBounds Inside (startMap d) := by
  unfold Deserialiser.startMap
  split
  · exact inside.switchDomain
  · exact (inside.switchDomain.readSizePrefixedEntry sized).map some

theorem Inside.deserialiseWrite (sized : d.current.Sized) (then_sized : d.current.Accepts → d.current.skipEntry.Sized) :
    InBounds Inside (deserialiseWrite d) := by
  refine .bind (inside.readSizePrefixedEntry sized) fun key t read still => ?_
  refine .bind (still.readSizePrefixedEntry ?_) fun _ _ _ still => still
  rw [onCurrent_eq] at read
  cases result : RawReader.readSizePrefixedEntry d.current with
  | error reason r =>
    rw [result] at read
    cases read
  | ok bytes r =>
    rw [result] at read
    cases read
    obtain ⟨accepts, -, rfl⟩ := RawReader.eq_skipEntry_of_read inside.current sized result
    rw [place_current]
    exact then_sized accepts

end

inductive Call where
  | startMap | entryVersion | readHeader | read | writeHeader | write | raw | viewHistory | removeHeader | remove
  deriving DecidableEq, Repr

def perform : Call → Deserialise Unit
  | .startMap => (fun _ => ()) <$> startMap
  | .entryVersion => (fun _ => ()) <$> deserialiseEntryVersion
  | .readHeader => (fun _ => ()) <$> deserialiseReadHeader
  | .read => (fun _ => ()) <$> deserialiseRead
  | .writeHeader => (fun _ => ()) <$> deserialiseWriteHeader
  | .write => (fun _ => ()) <$> deserialiseWrite
  | .raw => (fun _ => ()) <$> deserialiseRaw
  | .viewHistory => (fun _ => ()) <$> deserialiseViewHistory
  | .removeHeader => (fun _ => ()) <$> deserialiseRemoveHeader
  | .remove => (fun _ => ()) <$> deserialiseRemove

def Honest (d : Deserialiser) : Call → Prop
  | .startMap => d.switchDomain.current.Sized
  | .entryVersion | .readHeader | .writeHeader | .removeHeader => True
  | .read | .raw | .remove => d.current.Sized
  | .write => d.current.Sized ∧ (d.current.Accepts → d.current.skipEntry.Sized)
  | .viewHistory => d.current.Sized ∧ d.current.Aligned

theorem Inside.perform (inside : d.Inside) {call : Call} (honest : d.Honest call) :
    InBounds Inside (perform call d) := by
  cases call with
  | startMap => exact (inside.startMap honest).map _
  | entryVersion | readHeader | writeHeader | removeHeader => exact (inside.readEntry 8).map _
  | raw | remove => exact (inside.readSizePrefixedEntry honest).map _
  | read =>
    refine .map _ (.bind (inside.readSizePrefixedEntry honest) fun key t _ still => ?_)
    exact .bind (still.readEntry 8) fun _ _ _ still => still
  | write => exact (inside.deserialiseWrite honest.1 honest.2).map _
  | viewHistory => exact (inside.onCurrent (inside.current.readVersions honest.1 honest.2)).map _

/-- The public domain ends inside the entry and holds the digests. -/
def HonestEntry (e : Encryptor) (data : Bytes) : Prop :=
  let domains := (data.drop 8).drop e.headerLength
  let publicDomainLength := ofBytes (domains.take 8)
  publicDomainLength ≤ (domains.drop 8).length ∧
    RawReader.HoldsDigests { rest := domains.drop 8, dataSize := publicDomainLength }

theorem Inside.readDomains (inside : d.Inside) (within : n ≤ dataPublic.length)
    (holds : RawReader.HoldsDigests { rest := dataPublic, dataSize := n }) (e : Encryptor) (publicOnly : Bool)
    (header : Bytes) : InBounds Inside (readDomains e publicOnly header n dataPublic d) := by
  have reader : RawReader.Inside { rest := dataPublic, dataSize := n } := ⟨Nat.zero_le _, by simpa using within⟩
  have read := reader.readPublicHeader holds
  simp only [Deserialiser.readDomains, modify, modifyGet, MonadStateOf.modifyGet, EStateM.modifyGet, bind,
    EStateM.bind, onPublic]
  cases result : readPublicHeader { rest := dataPublic, dataSize := n } with
  | error reason r =>
    rw [result] at read
    cases reason with
    | exception => exact ⟨read, inside.privateReader⟩
    | undefined => exact read
  | ok found r =>
    rw [result] at read
    dsimp only
    split
    · exact ⟨read, inside.privateReader⟩
    rw [if_neg (Nat.not_lt.mpr within)]
    cases e.decrypt (dataPublic.drop n) (dataPublic.take n) header found.1 with
    | none => exact ⟨read, inside.privateReader⟩
    | some decrypted => exact ⟨read, ⟨Nat.zero_le _, by simp⟩⟩

theorem init_inside {e : Encryptor} (honest : HonestEntry e data) (publicOnly : Bool) :
    InBounds Inside (init e publicOnly data {}) := by
  have fresh : Inside {} := ⟨⟨le_rfl, le_rfl⟩, ⟨le_rfl, le_rfl⟩⟩
  unfold init
  dsimp only
  split
  · exact fresh
  split
  · exact fresh
  split
  · exact fresh
  split
  · exact fresh
  split
  · exact fresh
  exact fresh.readDomains honest.1 honest.2 e publicOnly _

def after : EStateM.Result Abort Deserialiser α → Option Deserialiser
  | .ok _ d => some d
  | .error .exception d => some d
  | .error .undefined _ => none

theorem after_of_inBounds {result : EStateM.Result Abort Deserialiser α} (fits : InBounds Inside result) :
    ∃ d, after result = some d ∧ d.Inside := by
  cases result with
  | ok a d => exact ⟨d, rfl, fits⟩
  | error reason d =>
    cases reason with
    | exception => exact ⟨d, rfl, fits⟩
    | undefined => exact fits.elim

def step (d : Deserialiser) (call : Call) : Option Deserialiser := after (perform call d)

/-- Whatever the entry and the calls on it, as long as they find honest sizes
every call stays in the buffers and no reader passes its end. -/
theorem parsing_in_bounds {e : Encryptor} {data : Bytes} (honest : HonestEntry e data) (publicOnly : Bool) :
    ∃ start, after (init e publicOnly data {}) = some start ∧
      ∀ trace d, Lib.Run step start trace d → (∀ t ∈ trace, t.pre.Honest t.action) →
        d.Inside ∧ ∀ call, d.Honest call → InBounds Inside (perform call d) := by
  obtain ⟨start, begun, inside⟩ := after_of_inBounds (init_inside honest publicOnly)
  refine ⟨start, begun, fun trace d run each => ?_⟩
  have reached : d.Inside := by
    refine run.invariant_of each Inside inside fun d call t before moved good => ?_
    obtain ⟨u, next, still⟩ := after_of_inBounds (before.perform good)
    rw [step, next] at moved
    cases moved
    exact still
  exact ⟨reached, fun call honest => reached.perform honest⟩

/-- An entry whose public domain ends with the size of a name. -/
def namedEntry (size : Nat) : Bytes :=
  toBytes 1 1 ++ [0] ++ toBytes 6 41 ++ toBytes 8 2 ++ toBytes 8 25 ++
    (toBytes 1 0 ++ toBytes 8 5 ++ toBytes 8 0 ++ toBytes 8 size)

/-- The name is empty. -/
theorem parsing_in_bounds_empty_name : HonestEntry plainEncryptor (namedEntry 0) ∧
    ∃ d, after (init plainEncryptor false (namedEntry 0) {}) = some d ∧ d.Inside ∧
      InBounds Inside (perform .startMap d) := by
  have honest : HonestEntry plainEncryptor (namedEntry 0) := by
    refine ⟨by decide +kernel, fun t known _ => ?_⟩
    obtain rfl : EntryType.writeSet = t := Option.some.inj known
    decide +kernel
  obtain ⟨d, begun, runs⟩ := parsing_in_bounds honest false
  obtain ⟨inside, calls⟩ := runs [] d .start (by simp)
  refine ⟨honest, d, begun, inside, calls .startMap ?_⟩
  obtain rfl := Option.some.inj begun
  exact fun _ => by decide +kernel

/-- A name of eight bytes would begin where the entry ends, but its size is not
larger than what was left before the size was read. -/
theorem startMap_reads_outside : ∃ d, after (init plainEncryptor false (namedEntry 8) {}) = some d ∧ d.Inside ∧
    after (perform .startMap d) = none :=
  ⟨_, rfl, ⟨⟨by decide +kernel, by decide +kernel⟩, ⟨by decide +kernel, by decide +kernel⟩⟩, by decide +kernel⟩

end Deserialiser
end CCF.Kv
