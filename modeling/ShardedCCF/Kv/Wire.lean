import ShardedCCF.Kv.Store
import ShardedCCF.Lib.Bytes

/-! The bytes of a ledger entry: `RawWriter` and `RawReader`, the header of an
entry, and its public and encrypted domains. -/
namespace CCF.Kv
open Std (ExtTreeMap)
open Lib (toBytes ofBytes)

abbrev Bytes := List Lib.Byte

scoped instance transCmp_bytes : Std.TransCmp (@compare Bytes LinearOrder.toOrd) := inferInstance

/-- Why a call does not return: it throws, or it reads or writes outside its
buffers. -/
inductive Abort where
  | exception | undefined
  deriving DecidableEq, Repr

inductive EntryType where
  | writeSet | snapshot | writeSetWithClaims | writeSetWithCommitEvidence
  | writeSetWithCommitEvidenceAndClaims
  deriving DecidableEq, Repr

namespace EntryType

def ofCode : Nat → Option EntryType
  | 0 => some .writeSet
  | 1 => some .snapshot
  | 2 => some .writeSetWithClaims
  | 3 => some .writeSetWithCommitEvidence
  | 4 => some .writeSetWithCommitEvidenceAndClaims
  | _ => none

def code : EntryType → Nat
  | .writeSet => 0
  | .snapshot => 1
  | .writeSetWithClaims => 2
  | .writeSetWithCommitEvidence => 3
  | .writeSetWithCommitEvidenceAndClaims => 4

def hasClaims (t : EntryType) : Bool :=
  t = .writeSetWithClaims || t = .writeSetWithCommitEvidenceAndClaims

def hasCommitEvidence (t : EntryType) : Bool :=
  t = .writeSetWithCommitEvidence || t = .writeSetWithCommitEvidenceAndClaims

end EntryType

abbrev Digest := { bytes : Bytes // bytes.length = 32 }

/-- A reader holds the bytes from its position to the end of the buffer, which
can go on after the part that it was given. -/
structure RawReader where
  rest : Bytes := []
  dataOffset : Nat := 0
  dataSize : Nat := 0

/-- An exception leaves the reader where it was thrown. -/
abbrev RawRead := EStateM Abort RawReader

namespace RawReader

/-- `size_t` wraps around. -/
def remainder (r : RawReader) : Nat :=
  if r.dataOffset ≤ r.dataSize then r.dataSize - r.dataOffset else 2 ^ 64 - (r.dataOffset - r.dataSize)

def isEos (r : RawReader) : Bool := r.dataOffset ≥ r.dataSize

def skip (n : Nat) (r : RawReader) : RawReader :=
  { r with rest := r.rest.drop n, dataOffset := r.dataOffset + n }

/-- Copies bytes without a check. -/
def copy (n : Nat) : RawRead Bytes := fun r =>
  if n ≤ r.rest.length then .ok (r.rest.take n) (r.skip n) else .error .undefined r

def readEntry (width : Nat) : RawRead Nat := fun r =>
  if r.remainder < width then .error .exception r
  else (ofBytes <$> copy width) r

/-- The size is compared with what was left before it was read itself. -/
def readSizePrefixedEntry : RawRead Bytes := do
  let remainder := (← get).remainder
  let entrySize ← readEntry 8
  if remainder < entrySize then throw .exception
  copy entrySize

/-- All bytes are copied into a vector of `entry_size / 8` numbers. -/
def readVersions : RawRead (List Nat) := do
  let bytes ← readSizePrefixedEntry
  if bytes.length % 8 ≠ 0 then throw .undefined
  pure ((List.range (bytes.length / 8)).map fun i => ofBytes ((bytes.drop (8 * i)).take 8))

/-- An array is copied without a check. -/
def readDigest : RawRead Digest := fun r =>
  if enough : 32 ≤ r.rest.length then .ok ⟨r.rest.take 32, by simp [enough]⟩ (r.skip 32)
  else .error .undefined r

def readEntryType : RawRead EntryType := do
  match EntryType.ofCode (← readEntry 1) with
  | some t => pure t
  | none => throw .exception

end RawReader

/-- Names, keys and values are prefixed with their sizes. -/
def serialiseVector (bytes : Bytes) : Bytes := toBytes 8 bytes.length ++ bytes

/-- What the store asks its encryptor. Encryption returns the header and the
cipher; decryption returns the plain text and the term in the header. -/
structure Encryptor where
  headerLength : Nat
  encrypt : Bytes → Bytes → TxID → EntryType → Option (Bytes × Bytes)
  decrypt : Bytes → Bytes → Bytes → Nat → Option (Bytes × Nat)
  getTerm : Bytes → Nat

def serialisePublicHeader (version : Nat) (entryType : EntryType) (claimsDigest commitEvidenceDigest : Digest) :
    Bytes :=
  toBytes 1 entryType.code ++ (toBytes 8 version ++
    ((if entryType.hasClaims then claimsDigest.val else []) ++
      ((if entryType.hasCommitEvidence then commitEvidenceDigest.val else []) ++ toBytes 8 0)))

/-- The entry, unless it is too large or cannot be encrypted. -/
def serialiseDomains (e : Encryptor) (txid : TxID) (entryType : EntryType) (flags : Lib.Byte)
    (publicDomain privateDomain : Bytes) : Option Bytes :=
  let size := publicDomain.length + (e.headerLength + 8 + privateDomain.length)
  if size < 2 ^ 48 then
    (e.encrypt privateDomain publicDomain txid entryType).map fun (header, cipher) =>
      toBytes 1 1 ++ [flags] ++ toBytes 6 size ++ header ++ toBytes 8 publicDomain.length ++
        publicDomain ++ cipher
  else none

/-- `GenericSerialiseWrapper`: the two domains are written apart. -/
structure Serialiser where
  txid : TxID
  entryType : EntryType
  headerFlags : Lib.Byte
  publicWriter : Bytes
  privateWriter : Bytes := []
  currentDomain : SecurityDomain := .publicDomain

namespace Serialiser

def create (txid : TxID) (entryType : EntryType) (headerFlags : Lib.Byte)
    (commitEvidenceDigest claimsDigest : Digest) : Serialiser where
  txid
  entryType
  headerFlags
  publicWriter := serialisePublicHeader txid.version entryType claimsDigest commitEvidenceDigest

def append (bytes : Bytes) (s : Serialiser) : Serialiser :=
  match s.currentDomain with
  | .publicDomain => { s with publicWriter := s.publicWriter ++ bytes }
  | .privateDomain => { s with privateWriter := s.privateWriter ++ bytes }

def startMap (name : Bytes) (domain : SecurityDomain) (s : Serialiser) : Serialiser :=
  { s with currentDomain := domain }.append (serialiseVector name)

def getRawData (e : Encryptor) (s : Serialiser) : Option Bytes :=
  serialiseDomains e s.txid s.entryType s.headerFlags s.publicWriter s.privateWriter

end Serialiser

/-- What an entry says about one map: the version at which it was iterated, the
keys that were read with their versions, and the values and removals. -/
structure MapChanges where
  readVersion : Nat := noVersion
  reads : List (Bytes × Nat) := []
  writes : List (Bytes × Bytes)
  removes : List Bytes

/-- What is included of a change set. A version is written as an unsigned number. -/
def ChangeSet.toChanges (cs : ChangeSet Bytes Bytes) (includeReads : Bool) : MapChanges where
  readVersion := if includeReads then cs.readVersion else noVersion
  reads := if includeReads then
    cs.reads.toList.map fun (key, version, _) => (key, (version % 2 ^ 64).toNat) else []
  writes := cs.writes.toList.filterMap fun (key, value) => value.map fun value => (key, value)
  removes := cs.writes.toList.filterMap fun (key, value) => if value.isNone then some key else none

/-- What follows the name of the map: reads, values and removals, each counted. -/
def MapChanges.serialise (m : MapChanges) : Bytes :=
  toBytes 8 m.readVersion ++
    (toBytes 8 m.reads.length ++ (m.reads.flatMap (fun read => serialiseVector read.1 ++ toBytes 8 read.2) ++
      (toBytes 8 m.writes.length ++ (m.writes.flatMap (fun pair => serialiseVector pair.1 ++ serialiseVector pair.2) ++
        (toBytes 8 m.removes.length ++ m.removes.flatMap serialiseVector)))))

/-- `Map::serialise_changes`. -/
def Serialiser.serialiseChanges (name : Bytes) (domain : SecurityDomain) (cs : ChangeSet Bytes Bytes)
    (includeReads : Bool) (s : Serialiser) : Serialiser :=
  (s.startMap name domain).append (cs.toChanges includeReads).serialise

/-- `GenericDeserialiseWrapper` reads maps from the public domain, then from the
private one. -/
structure Deserialiser where
  publicReader : RawReader := {}
  privateReader : RawReader := {}
  currentDomain : SecurityDomain := .publicDomain
  version : Nat := 0
  term : Nat := 0
  claimsDigest : Option Digest := none
  commitEvidenceDigest : Option Digest := none

abbrev Deserialise := EStateM Abort Deserialiser

namespace Deserialiser

def onPublic (read : RawRead α) : Deserialise α := fun d =>
  match read d.publicReader with
  | .ok a r => .ok a { d with publicReader := r }
  | .error reason r => .error reason { d with publicReader := r }

def onPrivate (read : RawRead α) : Deserialise α := fun d =>
  match read d.privateReader with
  | .ok a r => .ok a { d with privateReader := r }
  | .error reason r => .error reason { d with privateReader := r }

def onCurrent (read : RawRead α) : Deserialise α := fun d =>
  match d.currentDomain with
  | .publicDomain => onPublic read d
  | .privateDomain => onPrivate read d

def current (d : Deserialiser) : RawReader :=
  match d.currentDomain with
  | .publicDomain => d.publicReader
  | .privateDomain => d.privateReader

def readDigestIf (present : Bool) : RawRead (Option Digest) :=
  if present then some <$> RawReader.readDigest else pure none

/-- The version and the digests. The number at the end is ignored. -/
def readPublicHeader : RawRead (Nat × Option Digest × Option Digest) := do
  let entryType ← RawReader.readEntryType
  let version ← RawReader.readEntry 8
  let claimsDigest ← readDigestIf entryType.hasClaims
  let commitEvidenceDigest ← readDigestIf entryType.hasCommitEvidence
  let _ ← RawReader.readEntry 8
  pure (version, claimsDigest, commitEvidenceDigest)

/-- What `init` does once it knows the header of the encryption and the public
domain, which goes on to the end of the entry. The result is `none` if the private
domain cannot be decrypted. -/
def readDomains (e : Encryptor) (publicOnly : Bool) (header : Bytes) (publicDomainLength : Nat)
    (dataPublic : Bytes) : Deserialise (Option Nat) := do
  modify ({ · with publicReader := { rest := dataPublic, dataSize := publicDomainLength } })
  let (version, claimsDigest, commitEvidenceDigest) ← onPublic readPublicHeader
  modify ({ · with version, claimsDigest, commitEvidenceDigest })
  if publicOnly then
    modify ({ · with term := e.getTerm header })
    return some version
  if dataPublic.length < publicDomainLength then throw .exception
  match e.decrypt (dataPublic.drop publicDomainLength) (dataPublic.take publicDomainLength) header version with
  | none => return none
  | some (plain, term) =>
    modify ({ · with term, privateReader := { rest := plain, dataSize := plain.length } })
    return some version

def init (e : Encryptor) (publicOnly : Bool) (data : Bytes) : Deserialise (Option Nat) := do
  if data.length < 8 then throw .exception
  let body := data.drop 8
  if ofBytes ((data.take 8).drop 2) ≠ body.length then throw .exception
  if ofBytes (data.take 1) ≠ 1 then throw .exception
  if body.length < e.headerLength then throw .exception
  let domains := body.drop e.headerLength
  if domains.length < 8 then throw .exception
  readDomains e publicOnly (body.take e.headerLength) (ofBytes (domains.take 8)) (domains.drop 8)

/-- The first map of the private domain is looked for when the public one ends. -/
def switchDomain (d : Deserialiser) : Deserialiser :=
  if d.current.isEos && d.currentDomain = .publicDomain && !d.privateReader.isEos then
    { d with currentDomain := .privateDomain }
  else d

def startMap : Deserialise (Option Bytes) := fun d =>
  if d.switchDomain.current.isEos then .ok none d.switchDomain
  else (some <$> onCurrent RawReader.readSizePrefixedEntry) d.switchDomain

def deserialiseEntryVersion : Deserialise Nat := onCurrent (RawReader.readEntry 8)

def deserialiseReadHeader : Deserialise Nat := onCurrent (RawReader.readEntry 8)

def deserialiseRead : Deserialise (Bytes × Nat) := do
  let key ← onCurrent RawReader.readSizePrefixedEntry
  let version ← onCurrent (RawReader.readEntry 8)
  pure (key, version)

def deserialiseWriteHeader : Deserialise Nat := onCurrent (RawReader.readEntry 8)

def deserialiseWrite : Deserialise (Bytes × Bytes) := do
  let key ← onCurrent RawReader.readSizePrefixedEntry
  let value ← onCurrent RawReader.readSizePrefixedEntry
  pure (key, value)

def deserialiseRaw : Deserialise Bytes := onCurrent RawReader.readSizePrefixedEntry

def deserialiseViewHistory : Deserialise (List Nat) := onCurrent RawReader.readVersions

def deserialiseRemoveHeader : Deserialise Nat := onCurrent (RawReader.readEntry 8)

def deserialiseRemove : Deserialise Bytes := onCurrent RawReader.readSizePrefixedEntry

def atEnd (d : Deserialiser) : Bool := d.current.isEos && d.publicReader.isEos

def readCounted (item : Deserialise α) : Nat → Deserialise (List α)
  | 0 => pure []
  | n + 1 => do
    let a ← item
    let rest ← readCounted item n
    pure (a :: rest)

def deserialiseChanges : Deserialise MapChanges := do
  let readVersion ← deserialiseEntryVersion
  let reads ← readCounted deserialiseRead (← deserialiseReadHeader)
  let writes ← readCounted deserialiseWrite (← deserialiseWriteHeader)
  let removes ← readCounted deserialiseRemove (← deserialiseRemoveHeader)
  pure { readVersion, reads, writes, removes }

end Deserialiser
end CCF.Kv
