import ShardedCCF.Lib.Run
import ShardedCCF.Lib.TreeMap

/-! `StateCacheImpl`: requests for historical states, the ledger entries that are
fetched for them, and the receipts and ledger secrets that they need. -/
namespace CCF.Historical

open Std (ExtTreeMap)

abbrev SeqNoCollection := { seqnos : List Nat // seqnos.Pairwise (· < ·) }

structure TxID where
  view : Nat
  seqno : Nat
  deriving DecidableEq, Repr

/-- A signature over the root of the Merkle tree. The number stands for the bytes of
the signature, the root, the node and its certificate. -/
structure PrimarySignature where
  seqno : Nat
  view : Nat
  sig : Nat
  deriving DecidableEq, Repr

structure SerialisedMerkleTree where
  beginIndex : Nat
  endIndex : Nat
  deriving DecidableEq, Repr

def SerialisedMerkleTree.inRange (tree : SerialisedMerkleTree) (seqno : Nat) : Bool :=
  tree.beginIndex ≤ seqno && seqno ≤ tree.endIndex

structure Signed where
  sig : PrimarySignature
  tree : SerialisedMerkleTree
  deriving DecidableEq, Repr

/-- A secret for the entries from a version on, and where the one before it is stored. -/
structure LedgerSecret where
  version : Nat
  previousSecretStoredVersion : Option Nat
  deriving DecidableEq, Repr

abbrev Writes := List (Nat × Nat)

structure LedgerEntry where
  txid : TxID
  entryDigest : Nat
  claimsDigest : Option Nat := none
  hasCommitEvidence : Bool := true
  signed : Option Signed := none
  pastLedgerSecret : Option LedgerSecret := none
  publicWrites : Writes := []
  privateWrites : Writes := []
  deriving DecidableEq, Repr

structure Store where
  signed : Option Signed
  pastLedgerSecret : Option LedgerSecret
  publicWrites : Writes
  privateWrites : Writes
  deriving DecidableEq, Repr

def LedgerEntry.store (e : LedgerEntry) (publicOnly : Bool) : Store where
  signed := e.signed
  pastLedgerSecret := e.pastLedgerSecret
  publicWrites := e.publicWrites
  privateWrites := if publicOnly then [] else e.privateWrites

/-- Commit evidence is a text for one transaction. The receipt of a signature has
neither a path nor digests. -/
structure TxReceipt where
  sig : PrimarySignature
  path : Option (SerialisedMerkleTree × Nat) := none
  writeSetDigest : Option Nat := none
  commitEvidence : Option TxID := none
  claimsDigest : Option Nat := none
  deriving DecidableEq, Repr

inductive RequestStage where
  | fetching | untrusted | trusted
  deriving DecidableEq, Repr

structure StoreDetails where
  currentStage : RequestStage := .fetching
  entryDigest : Nat := 0
  claimsDigest : Option Nat := none
  store : Option Store := none
  isSignature : Bool := false
  receipt : Option TxReceipt := none
  transactionId : TxID := ⟨0, 0⟩
  hasCommitEvidence : Bool := false
  deriving DecidableEq, Repr

namespace StoreDetails

def getCommitEvidence (d : StoreDetails) : Option TxID := if d.hasCommitEvidence then some d.transactionId else none

def signed (d : StoreDetails) : Option Signed :=
  if d.isSignature then d.store.bind (·.signed) else none

/-- A receipt from a later signature, with commit evidence from these details or others. -/
def assign (d : StoreDetails) (s : Signed) (seqno : Nat) (evidence : StoreDetails → Option TxID) : StoreDetails :=
  let d := { d with transactionId := ⟨s.sig.view, seqno⟩ }
  { d with
    receipt := some {
      sig := s.sig
      path := some (s.tree, seqno)
      writeSetDigest := some d.entryDigest
      commitEvidence := evidence d
      claimsDigest := d.claimsDigest } }

/-- The details of an entry that has arrived. A signature gets a receipt of its own. -/
def fill (d : StoreDetails) (e : LedgerEntry) (store : Store) : StoreDetails :=
  let d := { d with
    currentStage := .trusted
    hasCommitEvidence := e.hasCommitEvidence
    entryDigest := e.entryDigest
    claimsDigest := e.claimsDigest <|> d.claimsDigest
    store := some store
    isSignature := e.signed.isSome }
  match e.signed with
  | none => d
  | some s => { d with transactionId := ⟨s.sig.view, s.sig.seqno⟩, receipt := some { sig := s.sig } }

end StoreDetails

structure LedgerSecretRecoveryInfo where
  targetSeqno : Nat
  lastLedgerSecret : LedgerSecret
  deriving DecidableEq, Repr

structure Request where
  firstRequestedSeqno : Nat := 0
  requestedSeqnos : SeqNoCollection := ⟨[], .nil⟩
  requestedStores : Nat → StoreDetails := fun _ => {}
  timeToExpiry : Nat := 0
  includeReceipts : Bool := false
  supportingSignatures : ExtTreeMap Nat StoreDetails := ∅
  ledgerSecretRecoveryInfo : Option LedgerSecretRecoveryInfo := none

/-- The maximal ranges of a collection, by their first and last elements. -/
def ranges : List Nat → List (Nat × Nat)
  | [] => []
  | a :: l =>
    match ranges l with
    | [] => [(a, a)]
    | (first, last) :: rest => if first = a + 1 then (a, last) :: rest else (a, a) :: (first, last) :: rest

/-- The first number from `n` on that is not in the collection. -/
def skipRequested (seqnos : List Nat) (n : Nat) : Nat := seqnos.foldl (fun n seqno => if seqno = n then n + 1 else n) n

namespace Request

def getStoreDetails (r : Request) (seqno : Nat) : Option StoreDetails :=
  if seqno ∈ r.requestedSeqnos.val then some (r.requestedStores seqno) else r.supportingSignatures[seqno]?

def setStoreDetails (r : Request) (seqno : Nat) (d : StoreDetails) : Request :=
  if seqno ∈ r.requestedSeqnos.val then { r with requestedStores := Function.update r.requestedStores seqno d }
  else { r with supportingSignatures := r.supportingSignatures.insert seqno d }

/-- A signature gives receipts to the earlier entries that it covers, also to those
that have one. -/
def coverEarlier (r : Request) (newSeqno : Nat) (s : Signed) : Request :=
  { r with
    requestedStores := fun seqno =>
      let d := r.requestedStores seqno
      if seqno ∈ r.requestedSeqnos.val ∧ seqno < newSeqno ∧ s.tree.inRange seqno ∧ d.store.isSome then
        d.assign s seqno StoreDetails.getCommitEvidence
      else d }

def laterSignature (r : Request) (newSeqno : Nat) : Option (StoreDetails × Signed) :=
  (r.requestedSeqnos.val.filter (newSeqno < ·)).findSome? fun seqno =>
    ((r.requestedStores seqno).signed).map fun s => (r.requestedStores seqno, s)

/-- The first supporting entry from a seqno on, if it is a signature. -/
def supportingSignature (r : Request) (newSeqno : Nat) : Option (StoreDetails × Signed) :=
  (r.supportingSignatures.toList.find? fun (seqno, _) => newSeqno ≤ seqno).bind fun (_, d) =>
    d.signed.map fun s => (d, s)

def endOfMatchingRange (r : Request) (newSeqno : Nat) : Option Nat :=
  ((ranges r.requestedSeqnos.val).find? fun (_, last) => newSeqno ≤ last).map (·.2)

/-- The signature that an entry without a receipt gets one from. If a requested one does
not cover it then no supporting one is considered. -/
def findSignature (r : Request) (newSeqno : Nat) : Option (StoreDetails × Signed) :=
  match r.laterSignature newSeqno with
  | some found => if found.2.tree.inRange newSeqno then some found else none
  | none => (r.supportingSignature newSeqno).filter fun found => found.2.tree.inRange newSeqno

/-- Receipts from the entry that has arrived, and the seqno to fetch next. -/
def populateReceipts (r : Request) (newSeqno : Nat) : Request × Option Nat :=
  match r.getStoreDetails newSeqno with
  | none => (r, none)
  | some d =>
    if d.store = none then (r, none)
    else if d.isSignature then
      match d.signed with
      | some s => (r.coverEarlier newSeqno s, none)
      | none => (r, none)
    else if newSeqno ∈ r.supportingSignatures then
      -- This was a search for a signature.
      (r, some (skipRequested r.requestedSeqnos.val (newSeqno + 1)))
    else if d.receipt = none then
      match r.findSignature newSeqno with
      | some (details, s) =>
        -- The commit evidence is that of the signature.
        (r.setStoreDetails newSeqno (d.assign s newSeqno fun _ => details.getCommitEvidence), none)
      | none => (r, (r.endOfMatchingRange newSeqno).map (· + 1))
    else (r, none)

def take (r : Request) (seqno : Nat) (e : LedgerEntry) (store : Store) (d : StoreDetails) : Request × Option Nat :=
  let r := r.setStoreDetails seqno (d.fill e store)
  if r.includeReceipts then
    match r.populateReceipts seqno with
    | (r, none) => (r, none)
    | (r, some next) =>
      ({ r with supportingSignatures := (r.supportingSignatures.erase seqno).insert next {} }, some next)
  else (r, none)

def search (r : Request) (next : Option Nat) : Request :=
  match next with
  | none => r
  | some seqno => { r with supportingSignatures := r.supportingSignatures.insert seqno {} }

def populateAll : Request → List Nat → Request × List Nat
  | r, [] => (r, [])
  | r, seqno :: seqnos =>
    let (r, next) := r.populateReceipts seqno
    let (r, later) := (r.search next).populateAll seqnos
    (r, next.toList ++ later)

/-- Existing details are kept. The result are the seqnos to fetch. -/
def adjustRanges (r : Request) (newSeqnos : SeqNoCollection) (shouldIncludeReceipts : Bool) : Request × List Nat :=
  if newSeqnos = r.requestedSeqnos ∧ shouldIncludeReceipts = r.includeReceipts then (r, [])
  else
    let newlyRequested := newSeqnos.val.filter fun seqno => (r.getStoreDetails seqno).isNone
    let adjusted : Request :=
      { r with
        requestedStores := fun seqno => (r.getStoreDetails seqno).getD {}
        firstRequestedSeqno := newSeqnos.val.headD 0
        ledgerSecretRecoveryInfo := none
        requestedSeqnos := newSeqnos
        includeReceipts := shouldIncludeReceipts
        supportingSignatures := ∅ }
    if shouldIncludeReceipts ∧ !r.includeReceipts then
      let (adjusted, searched) := adjusted.populateAll newSeqnos.val
      (adjusted, newlyRequested ++ searched)
    else (adjusted, newlyRequested)

def awaits (r : Request) (seqno : Nat) : Bool := r.ledgerSecretRecoveryInfo.any fun info => info.targetSeqno = seqno

def fetches (r : Request) (seqno : Nat) : Bool :=
  (r.getStoreDetails seqno).any fun d => d.currentStage = .fetching

end Request

/-- The view of each committed seqno, if there is a consensus, and the first of the
node's own ledger secrets. -/
structure Service where
  getView : Option (Nat → Nat)
  firstSecret : LedgerSecret

abbrev Handle := Nat

structure StateCache where
  requests : List (Handle × Request) := []
  pendingFetches : Finset Nat := ∅
  historicalLedgerSecrets : List LedgerSecret := []

structure State where
  store : Option Store
  receipt : Option TxReceipt
  transactionId : TxID
  deriving DecidableEq

namespace StateCache

variable (service : Service)

def getEarliestKnownLedgerSecret (c : StateCache) : LedgerSecret :=
  c.historicalLedgerSecrets.head?.getD service.firstSecret

/-- A secret that is known already is kept. -/
def setSecret (c : StateCache) (secret : LedgerSecret) : StateCache :=
  if c.historicalLedgerSecrets.any fun known => known.version = secret.version then c
  else { c with
    historicalLedgerSecrets :=
      c.historicalLedgerSecrets.orderedInsert (fun a b => a.version ≤ b.version) secret }

def fetch (c : StateCache) (seqnos : List Nat) : StateCache :=
  { c with pendingFetches := c.pendingFetches ∪ seqnos.toFinset }

/-- The result is `none` if it throws. -/
def fetchSupportingSecretIfNeeded (c : StateCache) (seqno : Nat) : Option (Option LedgerSecretRecoveryInfo × StateCache) :=
  let secret := c.getEarliestKnownLedgerSecret service
  if seqno < secret.version then
    secret.previousSecretStoredVersion.map fun target => (some ⟨target, secret⟩, c.fetch [target])
  else some (none, c)

/-- What becomes of one request when an entry arrives. It can throw, and reading a
secret that is not there is undefined. -/
inductive Processed where
  | done (c : StateCache) (r : Request)
  | threw (c : StateCache) (r : Request)
  | undefined

def recoverSecret (c : StateCache) (r : Request) (store : Store) : Processed :=
  match store.pastLedgerSecret with
  | none => .undefined
  | some secret =>
    let c := c.setSecret secret
    let r := { r with ledgerSecretRecoveryInfo := none }
    match c.fetchSupportingSecretIfNeeded service r.firstRequestedSeqno with
    | none => .threw c r
    | some (some info, c) => .done c { r with ledgerSecretRecoveryInfo := some info }
    | some (none, c) => .done (c.fetch r.requestedSeqnos.val) r

def processRequest (c : StateCache) (r : Request) (seqno : Nat) (e : LedgerEntry) (store : Store) : Processed :=
  if r.awaits seqno then c.recoverSecret service r store
  else
    match r.getStoreDetails seqno with
    | some d =>
      if d.currentStage = .fetching then
        let (r, next) := r.take seqno e store d
        .done (c.fetch next.toList) r
      else .done c r
    | none => .done c r

def processRequests (seqno : Nat) (e : LedgerEntry) (store : Store) :
    StateCache → List (Handle × Request) → Option (StateCache × List (Handle × Request))
  | c, [] => some (c, [])
  | c, (handle, r) :: rest =>
    match c.processRequest service r seqno e store with
    | .undefined => none
    | .threw c r => some (c, (handle, r) :: rest)
    | .done c r => (processRequests seqno e store c rest).map fun (c, rest) => (c, (handle, r) :: rest)

def processDeserialisedStore (c : StateCache) (seqno : Nat) (e : LedgerEntry) (store : Store) : Option StateCache :=
  (processRequests service seqno e store c c.requests).map fun (c, requests) => { c with requests }

def canDecrypt (c : StateCache) (seqno version : Nat) : Bool :=
  if seqno < service.firstSecret.version then c.historicalLedgerSecrets.any fun secret => secret.version ≤ version
  else service.firstSecret.version ≤ version

/-- An entry that a request waits for the secret in is read in public-only mode. -/
def deserialiseLedgerEntry (c : StateCache) (seqno : Nat) (data : Option LedgerEntry) : Option (LedgerEntry × Store) :=
  data.bind fun e =>
    let publicOnly := c.requests.any fun (_, r) => r.awaits seqno
    if publicOnly || c.canDecrypt service seqno e.txid.seqno then some (e, e.store publicOnly) else none

/-- The entry is not from another seqno or a fork. -/
def accepts (seqno : Nat) (e : LedgerEntry) : Bool :=
  e.txid.seqno = seqno && service.getView.any fun view => view seqno = e.txid.view

def handleLedgerEntry (c : StateCache) (seqno : Nat) (data : Option LedgerEntry) : Option StateCache :=
  if seqno ∉ c.pendingFetches then some c
  else
    let c := { c with pendingFetches := c.pendingFetches.erase seqno }
    match c.deserialiseLedgerEntry service seqno data with
    | none => some c
    | some (e, store) => if accepts service seqno e then c.processDeserialisedStore service seqno e store else some c

def handleNoEntry (c : StateCache) (seqno : Nat) : StateCache :=
  if seqno ∈ c.pendingFetches then
    { c with
      requests := c.requests.filter fun (_, r) => (r.getStoreDetails seqno).isNone
      pendingFetches := c.pendingFetches.erase seqno }
  else c

def handleNoEntryRange (c : StateCache) (fromSeqno toSeqno : Nat) : StateCache :=
  (List.range' fromSeqno (toSeqno + 1 - fromSeqno)).foldl handleNoEntry c

def findRequest (c : StateCache) (handle : Handle) : Request := ((c.requests.find? (·.1 = handle)).map (·.2)).getD {}

def setRequest (c : StateCache) (handle : Handle) (r : Request) : StateCache :=
  if c.requests.any (·.1 = handle) then
    { c with requests := c.requests.map fun request => if request.1 = handle then (handle, r) else request }
  else { c with requests := c.requests.orderedInsert (fun a b => a.1 ≤ b.1) (handle, r) }

def trustedStates (r : Request) (seqnos : SeqNoCollection) : List State :=
  let complete := seqnos.val.all fun seqno =>
    let d := r.requestedStores seqno
    d.currentStage = .trusted && (!r.includeReceipts || d.receipt.isSome)
  if complete then
    seqnos.val.map fun seqno =>
      let d := r.requestedStores seqno
      ⟨d.store, d.receipt, d.transactionId⟩
  else []

/-- Secrets first, then the entries that are new. The second result is `none` if a
secret is needed that was never stored. -/
def getStatesInternal (c : StateCache) (handle : Handle) (seqnos : SeqNoCollection) (expiry : Nat)
    (includeReceipts : Bool) : StateCache × Option (List State) :=
  let (r, newSeqnos) := (c.findRequest handle).adjustRanges seqnos includeReceipts
  match c.fetchSupportingSecretIfNeeded service r.firstRequestedSeqno with
  | none => (c.setRequest handle r, none)
  | some (secretFetch, c) =>
    let (r, c) :=
      match secretFetch with
      | some info =>
        ({ r with
            ledgerSecretRecoveryInfo :=
              if r.awaits info.targetSeqno then r.ledgerSecretRecoveryInfo else some info }, c)
      | none => (r, c.fetch newSeqnos)
    let r := { r with timeToExpiry := expiry }
    (c.setRequest handle r, some (trustedStates r seqnos))

def tick (c : StateCache) (elapsed : Nat) : StateCache :=
  { c with
    requests := (c.requests.filter fun (_, r) => elapsed < r.timeToExpiry).map fun (handle, r) =>
      (handle, { r with timeToExpiry := r.timeToExpiry - elapsed }) }

def dropCachedStates (c : StateCache) (handle : Handle) : StateCache :=
  { c with requests := c.requests.filter (·.1 ≠ handle) }

end StateCache

/-- An entry that cannot be deserialised is `none`. -/
inductive Action where
  | getStates (handle : Handle) (seqnos : SeqNoCollection) (expiry : Nat) (includeReceipts : Bool)
  | ledgerEntry (seqno : Nat) (data : Option LedgerEntry)
  | noEntryRange (fromSeqno toSeqno : Nat)
  | tick (elapsed : Nat)
  | drop (handle : Handle)
  deriving DecidableEq

/-- An empty range is refused. -/
def StateCache.step (service : Service) (c : StateCache) : Action → Option StateCache
  | .getStates handle seqnos expiry includeReceipts =>
    if seqnos.val = [] then none else some (c.getStatesInternal service handle seqnos expiry includeReceipts).1
  | .ledgerEntry seqno data => c.handleLedgerEntry service seqno data
  | .noEntryRange fromSeqno toSeqno => some (c.handleNoEntryRange fromSeqno toSeqno)
  | .tick elapsed => some (c.tick elapsed)
  | .drop handle => some (c.dropCachedStates handle)

end CCF.Historical
