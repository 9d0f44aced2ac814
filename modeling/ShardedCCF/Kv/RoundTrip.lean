import ShardedCCF.Kv.Wire

/-! What is written to an entry is read back from it. -/
namespace CCF.Kv
open List hiding get after modify
open Option hiding get
open Lib

/-- The action reads the bytes to their end and returns the value, wherever the
reader is placed. -/
def Parses (place : RawReader → σ) (read : EStateM Abort σ α) (bytes : Bytes) (a : α) : Prop :=
  ∀ rest offset size, offset + bytes.length ≤ size → size < 2 ^ 64 →
    read (place ⟨bytes ++ rest, offset, size⟩) = .ok a (place ⟨rest, offset + bytes.length, size⟩)

namespace Parses
variable {place : RawReader → σ}

theorem pure (a : α) : Parses place (Pure.pure a) [] a := fun _ _ _ _ _ => rfl

theorem bind {read : EStateM Abort σ α} {next : α → EStateM Abort σ β} (first : Parses place read bytes a)
    (second : Parses place (next a) more b) : Parses place (read >>= next) (bytes ++ more) b := by
  intro rest offset size inside fits
  rw [length_append] at inside
  have read := first (more ++ rest) offset size (by omega) fits
  have continued := second rest (offset + bytes.length) size (by omega) fits
  simp only [Bind.bind, EStateM.bind, append_assoc, length_append, read, continued, Nat.add_assoc]

theorem bind_pure {read : EStateM Abort σ α} (f : α → β) (parses : Parses place read bytes a) :
    Parses place (read >>= fun a => Pure.pure (f a)) bytes (f a) := by
  have bound : Parses place (read >>= fun a => Pure.pure (f a)) (bytes ++ []) (f a) := parses.bind (.pure (f a))
  rwa [append_nil] at bound

theorem map {read : EStateM Abort σ α} (f : α → β) (parses : Parses place read bytes a) :
    Parses place (f <$> read) bytes (f a) := by
  intro rest offset size inside fits
  simp only [Functor.map, EStateM.map, parses rest offset size inside fits]

theorem copy (bytes : Bytes) : Parses id (RawReader.copy bytes.length) bytes bytes := by
  intro rest offset size _ _
  simp [RawReader.copy, RawReader.skip]

theorem remainder_eq (rest : Bytes) (inside : offset ≤ size) :
    RawReader.remainder ⟨rest, offset, size⟩ = size - offset := if_pos inside

theorem readEntry (width : Nat) (fits : n < 256 ^ width) :
    Parses id (RawReader.readEntry width) (toBytes width n) n := by
  intro rest offset size inside bound
  rw [length_toBytes] at inside
  have enough : ¬ RawReader.remainder ⟨toBytes width n ++ rest, offset, size⟩ < width := by
    rw [remainder_eq _ (by omega)]
    omega
  have read := (copy (toBytes width n)).map ofBytes rest offset size (by simpa using inside) bound
  rw [length_toBytes, ofBytes_toBytes width fits] at read
  rw [id, RawReader.readEntry, if_neg enough, length_toBytes]
  exact read

theorem readSizePrefixedEntry (bytes : Bytes) :
    Parses id RawReader.readSizePrefixedEntry (serialiseVector bytes) bytes := by
  intro rest offset size inside fits
  simp only [serialiseVector, length_append, length_toBytes] at inside ⊢
  have small : bytes.length < 256 ^ 8 := by omega
  have length := readEntry 8 small (bytes ++ rest) offset size (by rw [length_toBytes]; omega) fits
  have body := copy bytes rest (offset + 8) size (by omega) fits
  rw [length_toBytes] at length
  have enough : ¬ RawReader.remainder ⟨toBytes 8 bytes.length ++ (bytes ++ rest), offset, size⟩ < bytes.length := by
    rw [remainder_eq _ (by omega)]
    omega
  simp only [id] at length body ⊢
  simp only [RawReader.readSizePrefixedEntry, Bind.bind, EStateM.bind, get, getThe, MonadStateOf.get, EStateM.get,
    append_assoc, length, if_neg enough, body, Nat.add_assoc]

theorem of_small {read : EStateM Abort σ α} (parses : bytes.length < 2 ^ 64 → Parses place read bytes a) :
    Parses place read bytes a :=
  fun rest offset size inside fits => parses (by omega) rest offset size inside fits

theorem readDigest (digest : Digest) : Parses id RawReader.readDigest digest.val digest := by
  intro rest offset size _ _
  have enough : 32 ≤ (digest.val ++ rest).length := by simp [digest.property]
  rw [id, RawReader.readDigest, dif_pos enough, digest.property]
  simp [RawReader.skip, ← digest.property]

theorem readDigestIf (present : Bool) (digest : Digest) :
    Parses id (Deserialiser.readDigestIf present) (if present then digest.val else [])
      (if present then some digest else none) := by
  cases present with
  | true => exact (readDigest digest).map some
  | false => exact .pure none

theorem readEntryType (t : EntryType) : Parses id RawReader.readEntryType (toBytes 1 t.code) t := by
  have known : EntryType.ofCode t.code = some t := by cases t <;> rfl
  have read : Parses id RawReader.readEntryType (toBytes 1 t.code ++ []) t :=
    (readEntry 1 (show t.code < 256 ^ 1 by cases t <;> decide)).bind (by
      rw [known]
      exact .pure t)
  rwa [append_nil] at read

theorem readPublicHeader (t : EntryType) (fits : version < 256 ^ 8) (claimsDigest commitEvidenceDigest : Digest) :
    Parses id Deserialiser.readPublicHeader (serialisePublicHeader version t claimsDigest commitEvidenceDigest)
      (version, if t.hasClaims then some claimsDigest else none,
        if t.hasCommitEvidence then some commitEvidenceDigest else none) := by
  exact (readEntryType t).bind ((readEntry 8 fits).bind ((readDigestIf _ claimsDigest).bind
    ((readDigestIf _ commitEvidenceDigest).bind ((readEntry 8 (Nat.pow_pos (by decide))).bind_pure _))))

end Parses

namespace Deserialiser

/-- The deserialiser with another reader for its current domain. -/
def place (d : Deserialiser) (r : RawReader) : Deserialiser :=
  match d.currentDomain with
  | .publicDomain => { d with publicReader := r }
  | .privateDomain => { d with privateReader := r }

@[simp] theorem place_currentDomain (d : Deserialiser) (r : RawReader) :
    (d.place r).currentDomain = d.currentDomain := by
  unfold place
  split <;> rfl

@[simp] theorem place_current (d : Deserialiser) (r : RawReader) : (d.place r).current = r := by
  unfold current place
  cases d.currentDomain <;> simp

theorem place_of_current {d : Deserialiser} (reader : d.current = r) : d.place r = d := by
  obtain ⟨_, _, domain, _, _, _, _⟩ := d
  subst reader
  cases domain <;> rfl

theorem place_publicReader {d : Deserialiser} (domain : d.currentDomain = .privateDomain) (r : RawReader) :
    (d.place r).publicReader = d.publicReader := by
  rw [place, domain]

theorem place_privateReader {d : Deserialiser} (domain : d.currentDomain = .publicDomain) (r : RawReader) :
    (d.place r).privateReader = d.privateReader := by
  rw [place, domain]

end Deserialiser

theorem Parses.onCurrent {read : RawRead α} (d : Deserialiser) (parses : Parses id read bytes a) :
    Parses d.place (Deserialiser.onCurrent read) bytes a := by
  intro rest offset size inside fits
  have read := parses rest offset size inside fits
  simp only [id] at read
  unfold Deserialiser.onCurrent Deserialiser.onPublic Deserialiser.onPrivate Deserialiser.place
  cases d.currentDomain <;> simp [read]

theorem Parses.readCounted {d : Deserialiser} {item : Deserialise α} {encode : α → Bytes} (items : List α)
    (each : ∀ a ∈ items, Parses d.place item (encode a) a) :
    Parses d.place (Deserialiser.readCounted item items.length) (items.flatMap encode) items := by
  induction items with
  | nil => exact .pure []
  | cons a items ih =>
    exact (each a mem_cons_self).bind
      ((ih fun b member => each b (mem_cons_of_mem a member)).bind_pure (a :: ·))

theorem length_le_flatMap {f : α → Bytes} (items : List α) (positive : ∀ a, 0 < (f a).length) :
    items.length ≤ (items.flatMap f).length := by
  induction items with
  | nil => exact Nat.zero_le _
  | cons a items ih =>
    have := positive a
    simp only [flatMap_cons, length_append, length_cons]
    omega

structure MapChanges.Fits (m : MapChanges) : Prop where
  readVersion : m.readVersion < 2 ^ 64
  reads : ∀ read ∈ m.reads, read.2 < 2 ^ 64

theorem ChangeSet.fits_toChanges {cs : ChangeSet Bytes Bytes} (fits : cs.readVersion < 2 ^ 64)
    (includeReads : Bool) : (cs.toChanges includeReads).Fits := by
  constructor
  · unfold toChanges
    split
    · exact fits
    · exact Nat.two_pow_pos 64
  · intro read member
    unfold toChanges at member
    split at member
    · obtain ⟨_, -, rfl⟩ := List.mem_map.mp member
      dsimp only
      omega
    · cases member

theorem Parses.deserialiseChanges {m : MapChanges} (fits : m.Fits) (d : Deserialiser) :
    Parses d.place Deserialiser.deserialiseChanges m.serialise m := by
  refine .of_small fun small => ?_
  have entry {n : Nat} (fits : n < 2 ^ 64) := (Parses.readEntry 8 (show n < 256 ^ 8 by omega)).onCurrent d
  have vector (bytes : Bytes) := (Parses.readSizePrefixedEntry bytes).onCurrent d
  have reads := length_le_flatMap m.reads fun read => show
    0 < (serialiseVector read.1 ++ toBytes 8 read.2).length by simp
  have writes := length_le_flatMap m.writes fun pair => show
    0 < (serialiseVector pair.1 ++ serialiseVector pair.2).length by simp [serialiseVector]
  have removes := length_le_flatMap m.removes fun key => show 0 < (serialiseVector key).length by
    simp [serialiseVector]
  unfold MapChanges.serialise at small ⊢
  simp only [length_append, length_toBytes] at small
  exact (entry fits.readVersion).bind ((entry (by omega)).bind
    ((Parses.readCounted m.reads fun read member =>
      (vector read.1).bind ((entry (fits.reads read member)).bind_pure (read.1, ·))).bind
    ((entry (by omega)).bind
    ((Parses.readCounted m.writes fun pair _ => (vector pair.1).bind ((vector pair.2).bind_pure (pair.1, ·))).bind
    ((entry (by omega)).bind ((Parses.readCounted m.removes fun key _ => vector key).bind_pure _))))))

/-- What an encryptor promises: its header has a fixed length, the cipher is as
long as the plain text, and decryption inverts encryption. -/
structure Encryptor.Inverts (e : Encryptor) : Prop where
  length_header : ∀ {plain additional txid t header cipher}, e.encrypt plain additional txid t = some (header, cipher) →
    header.length = e.headerLength
  length_cipher : ∀ {plain additional txid t header cipher}, e.encrypt plain additional txid t = some (header, cipher) →
    cipher.length = plain.length
  decrypts : ∀ {plain additional txid t header cipher}, e.encrypt plain additional txid t = some (header, cipher) →
    e.decrypt cipher additional header txid.version = some (plain, txid.term)

def Serialiser.serialiseMaps (domain : SecurityDomain) (maps : List (Bytes × ChangeSet Bytes Bytes))
    (includeReads : Bool) (s : Serialiser) : Serialiser :=
  maps.foldl (fun s (name, cs) => s.serialiseChanges name domain cs includeReads) s

def serialiseItems (items : List (Bytes × MapChanges)) : Bytes :=
  items.flatMap fun (name, m) => serialiseVector name ++ m.serialise

def toItems (includeReads : Bool) (maps : List (Bytes × ChangeSet Bytes Bytes)) : List (Bytes × MapChanges) :=
  maps.map fun (name, cs) => (name, cs.toChanges includeReads)

theorem Serialiser.serialiseMaps_eq (s : Serialiser) (maps : List (Bytes × ChangeSet Bytes Bytes))
    (includeReads : Bool) (domain : SecurityDomain) : ∃ current, s.serialiseMaps domain maps includeReads =
    { { s with currentDomain := domain }.append (serialiseItems (toItems includeReads maps)) with
      currentDomain := current } := by
  induction maps generalizing s with
  | nil =>
    refine ⟨s.currentDomain, ?_⟩
    cases domain <;> simp [serialiseMaps, serialiseItems, toItems, append]
  | cons map maps ih =>
    obtain ⟨current, rest⟩ := ih (s.serialiseChanges map.1 domain map.2 includeReads)
    refine ⟨current, rest.trans ?_⟩
    cases domain <;> simp [serialiseChanges, startMap, append, serialiseItems, toItems]

namespace Deserialiser
variable {items : List (Bytes × MapChanges)} {d : Deserialiser}

/-- The items that are left are these, and then the entry ends. -/
def Yields : Deserialiser → List (Bytes × MapChanges) → Prop
  | d, [] => ∃ d', startMap d = .ok none d' ∧ d'.atEnd = true
  | d, (name, m) :: rest => ∃ named next, startMap d = .ok (some name) named ∧
      deserialiseChanges named = .ok m next ∧ Yields next rest

theorem Yields.of_startMap {d' : Deserialiser} (same : startMap d = startMap d')
    (yields : Yields d' items) : Yields d items := by
  cases items with
  | nil =>
    unfold Yields at *
    rwa [same]
  | cons item rest =>
    unfold Yields at *
    rwa [same]

theorem yields_cons {rest more : List (Bytes × MapChanges)} (item : Bytes × MapChanges)
    (fits : item.2.Fits) (reader : d.current = ⟨serialiseItems (item :: rest) ++ after, offset, size⟩)
    (sized : offset + (serialiseItems (item :: rest)).length = size) (bound : size < 2 ^ 64)
    (continues : ∀ next, next + (serialiseItems rest).length = size →
      Yields (d.place ⟨serialiseItems rest ++ after, next, size⟩) more) :
    Yields d (item :: more) := by
  have bytes (after : Bytes) : serialiseItems (item :: rest) ++ after =
      serialiseVector item.1 ++ (item.2.serialise ++ (serialiseItems rest ++ after)) := by
    simp only [serialiseItems, flatMap_cons, append_assoc]
  have lengths := congrArg List.length (bytes [])
  simp only [append_nil, length_append] at lengths
  have positive : 0 < (serialiseVector item.1).length := by simp [serialiseVector]
  have left : d.current.isEos = false := by
    rw [reader]
    simp only [RawReader.isEos, ge_iff_le, decide_eq_false_iff_not]
    omega
  have stays : d.switchDomain = d := by simp [switchDomain, left]
  have named := (Parses.readSizePrefixedEntry item.1).onCurrent d
    (item.2.serialise ++ (serialiseItems rest ++ after)) offset size (by omega) bound
  rw [← bytes, place_of_current reader] at named
  refine ⟨d.place ⟨item.2.serialise ++ (serialiseItems rest ++ after),
    offset + (serialiseVector item.1).length, size⟩, _, ?_, ?_,
    continues (offset + (serialiseVector item.1).length + (item.2.serialise).length) (by omega)⟩
  · rw [startMap, stays, left, if_neg (by decide)]
    simp only [Functor.map, EStateM.map, named]
  · exact Parses.deserialiseChanges fits d _ _ size (by omega) bound

theorem yields_private (fits : ∀ item ∈ items, item.2.Fits) (domain : d.currentDomain = .privateDomain)
    (done : d.publicReader.isEos = true) (reader : d.current = ⟨serialiseItems items ++ [], offset, size⟩)
    (sized : offset + (serialiseItems items).length = size) (bound : size < 2 ^ 64) :
    Yields d items := by
  induction items generalizing d offset with
  | nil =>
    have ended : d.current.isEos = true := by
      rw [reader]
      exact decide_eq_true (Nat.le_of_eq sized.symm)
    have stays : d.switchDomain = d := by simp [switchDomain, domain]
    refine ⟨d, ?_, ?_⟩
    · rw [startMap, stays, if_pos ended]
    · rw [atEnd, ended, done]
      rfl
  | cons item rest ih =>
    refine yields_cons item (fits item mem_cons_self) reader sized bound fun next sizedAgain => ?_
    exact ih (fun item member => fits item (mem_cons_of_mem _ member)) (by simpa using domain)
      (by rwa [place_publicReader domain]) (place_current ..) sizedAgain

theorem yields_public {more : List (Bytes × MapChanges)} (fits : ∀ item ∈ items, item.2.Fits)
    (fitsMore : ∀ item ∈ more, item.2.Fits) (domain : d.currentDomain = .publicDomain)
    (reader : d.current = ⟨serialiseItems items ++ after, offset, size⟩)
    (sized : offset + (serialiseItems items).length = size) (bound : size < 2 ^ 64)
    (privateReader : d.privateReader =
      ⟨serialiseItems more ++ [], 0, (serialiseItems more).length⟩)
    (small : (serialiseItems more).length < 2 ^ 64) : Yields d (items ++ more) := by
  induction items generalizing d offset with
  | nil =>
    have done : d.current.isEos = true := by
      rw [reader]
      exact decide_eq_true (Nat.le_of_eq sized.symm)
    have isPublic : d.publicReader = d.current := by rw [current, domain]
    cases more with
    | nil =>
      have stays : d.switchDomain = d := by
        simp [switchDomain, privateReader, RawReader.isEos, serialiseItems]
      refine ⟨d, ?_, ?_⟩
      · rw [startMap, stays, if_pos done]
      · rw [atEnd, isPublic, done]
        rfl
    | cons item rest =>
      have positive : 0 < (serialiseItems (item :: rest)).length := by
        simp [serialiseItems, serialiseVector]
      have left : d.privateReader.isEos = false := by
        rw [privateReader]
        exact decide_eq_false (Nat.not_le_of_lt positive)
      -- The first item of the private domain is looked for there.
      have switched : d.switchDomain = { d with currentDomain := .privateDomain } := by
        simp [switchDomain, done, domain, left]
      have stays : { d with currentDomain := .privateDomain }.switchDomain =
          { d with currentDomain := .privateDomain } := by simp [switchDomain]
      have same : startMap d = startMap { d with currentDomain := .privateDomain } := by
        rw [startMap, startMap, switched, stays]
      exact .of_startMap same (yields_private fitsMore rfl (isPublic ▸ done) privateReader (Nat.zero_add _) small)
  | cons item rest ih =>
    refine yields_cons item (fits item mem_cons_self) reader sized bound fun next sizedAgain => ?_
    exact ih (fun item member => fits item (mem_cons_of_mem _ member)) (by simpa using domain)
      (place_current ..) sizedAgain (by rwa [place_privateReader domain])

theorem init_eq {e : Encryptor} {front header rest : Bytes} (length_front : front.length = 8)
    (version : ofBytes (front.take 1) = 1) (length_header : header.length = e.headerLength) (small : n < 256 ^ 8)
    (sized : ofBytes (front.drop 2) = (header ++ (toBytes 8 n ++ rest)).length) (publicOnly : Bool) :
    init e publicOnly (front ++ (header ++ (toBytes 8 n ++ rest))) = readDomains e publicOnly header n rest := by
  have body : (front ++ (header ++ (toBytes 8 n ++ rest))).drop 8 = header ++ (toBytes 8 n ++ rest) :=
    drop_left' length_front
  have taken : (front ++ (header ++ (toBytes 8 n ++ rest))).take 8 = front := take_left' length_front
  have first : (front ++ (header ++ (toBytes 8 n ++ rest))).take 1 = front.take 1 :=
    take_append_of_le_length (by omega)
  have headers : (header ++ (toBytes 8 n ++ rest)).take e.headerLength = header := take_left' length_header
  have domains : (header ++ (toBytes 8 n ++ rest)).drop e.headerLength = toBytes 8 n ++ rest :=
    drop_left' length_header
  have number : ofBytes ((toBytes 8 n ++ rest).take 8) = n := by
    rw [take_left' (length_toBytes ..), ofBytes_toBytes 8 small]
  have after : (toBytes 8 n ++ rest).drop 8 = rest := drop_left' (length_toBytes ..)
  have long : ¬ (front ++ (header ++ (toBytes 8 n ++ rest))).length < 8 := by
    rw [length_append]
    omega
  have enough : ¬ (header ++ (toBytes 8 n ++ rest)).length < e.headerLength := by
    rw [length_append]
    omega
  have delimited : ¬ (toBytes 8 n ++ rest).length < 8 := by
    rw [length_append, length_toBytes]
    omega
  simp only [init, long, body, taken, sized, first, version, domains, headers, number, after, ne_eq,
    not_true_eq_false, if_false, enough, delimited]

/-- Encryption that leaves the text as it is and keeps the term in its header. -/
def plainEncryptor : Encryptor where
  headerLength := 8
  encrypt plain _ txid _ := if txid.term < 2 ^ 64 then some (toBytes 8 txid.term, plain) else none
  decrypt cipher _ header _ := some (cipher, ofBytes header)
  getTerm := ofBytes

theorem plainEncryptor_inverts : plainEncryptor.Inverts where
  length_header made := by
    obtain ⟨-, same⟩ := ite_none_right_eq_some.mp made
    cases same
    exact length_toBytes ..
  length_cipher made := by
    obtain ⟨-, same⟩ := ite_none_right_eq_some.mp made
    cases same
    rfl
  decrypts {_ _ txid _ _ _} made := by
    obtain ⟨small, same⟩ := ite_none_right_eq_some.mp made
    cases same
    simp only [plainEncryptor, ofBytes_toBytes 8 small]

def someChanges : ChangeSet Bytes Bytes where
  rollbackCounter := 0
  state := ∅
  committed := ∅
  startVersion := 4
  readVersion := 4
  reads := {([1], (-3, 2))}
  writes := {([2], some []), ([3], none)}

end Deserialiser
end CCF.Kv
