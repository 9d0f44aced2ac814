import ShardedCCF.Lib.Run
import ShardedCCF.Lib.Versioned

/-! The snapshot that an untrusted host gives to a joining node. Signatures, certificates
and sealed data are terms: a host can use its own keys, and what the service gave away. -/
namespace CCF.Startup
open List Option
open Lib (atOrBelow)

abbrev Key := Nat

/-- What the public domain says of the state: its version, the view of its last signature
and all other tables. -/
structure PublicDomain where
  version : Nat
  signatureView : Option Nat
  tables : Nat
  deriving DecidableEq, Repr

/-- The private domain, encrypted under a ledger secret with the public domain as
additional data. -/
structure Box where
  key : Key
  additionalData : PublicDomain
  plain : Nat
  deriving DecidableEq, Repr

/-- The part of a snapshot that is for the store. No two of these have the same digest, so
each stands for its digest. -/
structure StoreSnapshot where
  flags : Nat
  publicDomain : PublicDomain
  privateDomain : Box
  deriving DecidableEq, Repr

structure Certificate where
  subject : Key
  issuer : Key
  deriving DecidableEq, Repr

/-- The Merkle root is that of the claims of all leaves. -/
structure Signature where
  key : Key
  root : List (Option StoreSnapshot)
  deriving DecidableEq, Repr

structure Receipt where
  claimsDigest : Option StoreSnapshot
  before : List (Option StoreSnapshot)
  after : List (Option StoreSnapshot)
  cert : Certificate
  signature : Signature
  deriving DecidableEq, Repr

def Receipt.calculateRoot (receipt : Receipt) : List (Option StoreSnapshot) :=
  receipt.before ++ receipt.claimsDigest :: receipt.after

structure Snapshot where
  store : StoreSnapshot
  receipt : Option Receipt
  deriving DecidableEq, Repr

/-- The state of the store after a snapshot was applied; private tables only if their
domain was read. -/
structure State where
  publicDomain : PublicDomain
  privateDomain : Option Nat
  deriving DecidableEq, Repr

def StoreSnapshot.state (s : StoreSnapshot) (publicOnly : Bool) : State :=
  ⟨s.publicDomain, if publicOnly then none else some s.privateDomain.plain⟩

/-- `Store::deserialise_snapshot`. With the domain restricted to the public one, nothing is
decrypted. -/
def StoreSnapshot.deserialise (s : StoreSnapshot) (secrets : List (Nat × Key)) (publicOnly : Bool) : Option State :=
  if publicOnly then some (s.state true)
  else (atOrBelow secrets s.publicDomain.version).bind fun secret =>
    if s.privateDomain.key = secret.2 ∧ s.privateDomain.additionalData = s.publicDomain then some (s.state false)
    else none

/-- The signature is checked against the certificate in the receipt itself, and that one
only against a previous service identity, if there is one. -/
def Receipt.verify (receipt : Receipt) (store : StoreSnapshot) (prevServiceIdentity : Option Key) : Prop :=
  receipt.claimsDigest = some store ∧ receipt.signature = ⟨receipt.cert.subject, receipt.calculateRoot⟩ ∧
    ∀ identity, prevServiceIdentity = some identity → receipt.cert.issuer = identity

instance (receipt : Receipt) (store : StoreSnapshot) (prevServiceIdentity : Option Key) :
    Decidable (receipt.verify store prevServiceIdentity) :=
  haveI : Decidable (∀ identity, prevServiceIdentity = some identity → receipt.cert.issuer = identity) :=
    match prevServiceIdentity with
    | none => .isTrue (fun _ absent => (nomatch absent))
    | some p => decidable_of_iff (receipt.cert.issuer = p) (by simp)
  inferInstanceAs (Decidable (_ ∧ _ ∧ _))

/-- `deserialise_snapshot` without an evidence seqno; `none` where it throws. -/
def Snapshot.deserialise (s : Snapshot) (secrets : List (Nat × Key)) (publicOnly : Bool)
    (prevServiceIdentity : Option Key) : Option State :=
  s.receipt.bind fun receipt =>
    if receipt.verify s.store prevServiceIdentity then s.store.deserialise secrets publicOnly else none

structure JoinResponse where
  trusted : Bool
  ledgerSecrets : List (Nat × Key)
  publicOnly : Bool

/-- The snapshot is verified at start-up without any secret, and applied when the service
has accepted the node. The result is the state with which the node is part of the network. -/
def join (prevServiceIdentity : Option Key) (snapshot : Snapshot) (resp : JoinResponse) : Option State :=
  (snapshot.deserialise [] true prevServiceIdentity).bind fun _ =>
    if resp.trusted then
      (snapshot.deserialise resp.ledgerSecrets resp.publicOnly prevServiceIdentity).bind fun state =>
        if state.publicDomain.signatureView.isSome then some state else none
    else none

/-! The service. -/

structure Service where
  identity : Key
  nodes : List Key := []
  certificates : List Certificate
  signatures : List Signature := []
  ledgerSecrets : List (Nat × Key)
  sealedBoxes : List Box := []
  /-- The digests that a node has committed to. -/
  committed : List StoreSnapshot := []

def Service.create (identity secret : Key) : Service where
  identity
  certificates := [⟨identity, identity⟩]
  ledgerSecrets := [(1, secret)]

inductive Action where
  | endorse (node : Key)
  | rekey (version : Nat) (secret : Key)
  | claim (digest : StoreSnapshot)
  /-- A node serialises a snapshot. Only if its evidence commits does it reach the host.
  The same holds of a ledger entry, whose digest is in the tree. -/
  | serialise (flags : Nat) (publicDomain : PublicDomain) (privateDomain : Nat) (commits : Bool)
  | sign (node : Key) (root : List (Option StoreSnapshot))

/-- Nodes' keys are not those of others, and new secrets are fresh. -/
def Service.step (s : Service) : Action → Option Service
  | .endorse node =>
    if node = s.identity then none
    else some { s with nodes := node :: s.nodes, certificates := ⟨node, s.identity⟩ :: s.certificates }
  | .rekey version secret =>
    if ∀ older ∈ s.ledgerSecrets, older.1 < version ∧ older.2 ≠ secret then
      some { s with ledgerSecrets := s.ledgerSecrets ++ [(version, secret)] }
    else none
  | .claim digest => some { s with committed := digest :: s.committed }
  | .serialise flags publicDomain privateDomain commits =>
    (atOrBelow s.ledgerSecrets publicDomain.version).map fun secret =>
      let box : Box := ⟨secret.2, publicDomain, privateDomain⟩
      if commits then
        { s with committed := ⟨flags, publicDomain, box⟩ :: s.committed, sealedBoxes := box :: s.sealedBoxes }
      else s
  | .sign node root =>
    if node ∈ s.nodes ∧ root.reduceOption ⊆ s.committed then
      some { s with signatures := ⟨node, root⟩ :: s.signatures }
    else none

/-- What the host can make: with the keys of the service and its nodes, only what they
have made. -/
structure Service.Feasible (s : Service) (snapshot : Snapshot) : Prop where
  sealedByNode : snapshot.store.privateDomain.key ∈ s.ledgerSecrets.map (·.2) → snapshot.store.privateDomain ∈ s.sealedBoxes
  endorsed : ∀ receipt ∈ snapshot.receipt, receipt.cert.issuer = s.identity → receipt.cert ∈ s.certificates
  signed : ∀ receipt ∈ snapshot.receipt, receipt.signature.key ∈ s.identity :: s.nodes → receipt.signature ∈ s.signatures

/-- What the service gives away rests on digests that a node has committed to. -/
structure Service.Sound (s : Service) : Prop where
  certificates : ∀ cert ∈ s.certificates, cert.subject ∈ s.identity :: s.nodes
  signatures : ∀ signature ∈ s.signatures, signature.root.reduceOption ⊆ s.committed
  boxes : ∀ box ∈ s.sealedBoxes, ∃ c ∈ s.committed, c.privateDomain = box ∧ c.publicDomain = box.additionalData

namespace Service
variable {s t : Service}

theorem sound_create (service secret : Key) : (create service secret).Sound where
  certificates cert member := by
    rw [mem_singleton.mp member]
    exact mem_cons_self
  signatures _ member := (nomatch member)
  boxes _ member := (nomatch member)

theorem Sound.commit (sound : s.Sound) (digest : StoreSnapshot) : ({ s with committed := digest :: s.committed } : Service).Sound where
  certificates := sound.certificates
  signatures signature member := List.Subset.trans (sound.signatures signature member) (subset_cons_self _ _)
  boxes box member :=
    let ⟨c, there, same⟩ := sound.boxes box member
    ⟨c, mem_cons_of_mem _ there, same⟩

theorem sound_step (moved : s.step action = some t) (sound : s.Sound) : t.Sound := by
  cases action with
  | endorse node =>
    obtain ⟨-, moved⟩ := ite_none_left_eq_some.mp moved
    obtain rfl := some.inj moved
    refine { sound with certificates := fun cert member => ?_ }
    obtain rfl | older := mem_cons.mp member
    · simp
    have known := sound.certificates cert older
    simp only [mem_cons] at known ⊢
    exact known.imp_right .inr
  | rekey version secret =>
    obtain ⟨-, moved⟩ := ite_none_right_eq_some.mp moved
    obtain rfl := some.inj moved
    exact { sound with }
  | claim digest =>
    obtain rfl := some.inj moved
    exact sound.commit digest
  | serialise flags publicDomain privateDomain commits =>
    obtain ⟨secret, -, rfl⟩ := map_eq_some_iff.mp moved
    cases commits with
    | false => exact sound
    | true =>
      have more := sound.commit ⟨flags, publicDomain, ⟨secret.2, publicDomain, privateDomain⟩⟩
      refine { more with boxes := fun box member => ?_ }
      obtain rfl | older := mem_cons.mp member
      · exact ⟨_, mem_cons_self, rfl, rfl⟩
      · exact more.boxes box older
  | sign node root =>
    obtain ⟨⟨-, covered⟩, moved⟩ := ite_none_right_eq_some.mp moved
    obtain rfl := some.inj moved
    refine { sound with signatures := fun signature member => ?_ }
    obtain rfl | older := mem_cons.mp member
    · exact covered
    · exact sound.signatures signature older

theorem sound_of_run {service secret : Key} (run : Lib.Run step (create service secret) trace s) : s.Sound :=
  run.invariant Sound (sound_create service secret) fun _ _ _ sound moved => sound_step moved sound

end Service

theorem join_eq_some (joined : join prevServiceIdentity snapshot resp = some state) :
    (∃ receipt, snapshot.receipt = some receipt ∧ receipt.verify snapshot.store prevServiceIdentity) ∧
      state = snapshot.store.state resp.publicOnly ∧
      (resp.publicOnly = false → ∃ secret ∈ resp.ledgerSecrets, snapshot.store.privateDomain.key = secret.2 ∧
        snapshot.store.privateDomain.additionalData = snapshot.store.publicDomain) := by
  obtain ⟨_, -, joined⟩ := bind_eq_some_iff.mp joined
  obtain ⟨-, joined⟩ := ite_none_right_eq_some.mp joined
  obtain ⟨applied, deserialised, joined⟩ := bind_eq_some_iff.mp joined
  obtain rfl : applied = state := some.inj (ite_none_right_eq_some.mp joined).2
  obtain ⟨receipt, given, deserialised⟩ := bind_eq_some_iff.mp deserialised
  obtain ⟨verified, deserialised⟩ := ite_none_right_eq_some.mp deserialised
  refine ⟨⟨receipt, given, verified⟩, ?_⟩
  unfold StoreSnapshot.deserialise at deserialised
  cases publicOnly : resp.publicOnly with
  | true =>
    rw [publicOnly, if_pos rfl] at deserialised
    exact ⟨(some.inj deserialised).symm, fun restricted => (nomatch restricted)⟩
  | false =>
    rw [publicOnly, if_neg Bool.false_ne_true] at deserialised
    obtain ⟨secret, found, deserialised⟩ := bind_eq_some_iff.mp deserialised
    obtain ⟨decrypted, deserialised⟩ := ite_none_right_eq_some.mp deserialised
    have member := (mem_filter.mp (mem_of_getLast? found)).1
    exact ⟨(some.inj deserialised).symm, fun _ => ⟨secret, member, decrypted⟩⟩

section Trust
variable {s : Service} {snapshot : Snapshot}

/-- A receipt whose signer the service endorses is for a digest that a node has committed to. -/
theorem committed_of_endorsed (sound : s.Sound) (feasible : s.Feasible snapshot) (given : snapshot.receipt = some receipt)
    (verified : receipt.verify snapshot.store (some s.identity)) : snapshot.store ∈ s.committed := by
  obtain ⟨claimed, signed, endorsed⟩ := verified
  have certified := sound.certificates _ (feasible.endorsed receipt given (endorsed _ rfl))
  have genuine := feasible.signed receipt given (by rw [signed]; exact certified)
  rw [signed] at genuine
  apply sound.signatures _ genuine
  rw [reduceOption_mem_iff, Receipt.calculateRoot, claimed]
  exact mem_append_right _ mem_cons_self

/-- What a ledger secret decrypts was serialised by a node. -/
theorem committed_of_decrypted (sound : s.Sound) (feasible : s.Feasible snapshot) (member : secret ∈ s.ledgerSecrets)
    (decrypted : snapshot.store.privateDomain.key = secret.2)
    (whole : snapshot.store.privateDomain.additionalData = snapshot.store.publicDomain) :
    ∃ c ∈ s.committed, c.state false = snapshot.store.state false := by
  have box := feasible.sealedByNode (by rw [decrypted]; exact List.mem_map_of_mem member)
  obtain ⟨c, there, same, domain⟩ := sound.boxes _ box
  refine ⟨c, there, ?_⟩
  rw [StoreSnapshot.state, StoreSnapshot.state, same, domain, whole]

/-- A snapshot that the host makes itself, with a key of its own. -/
def forge (key issuer tables boxKey : Nat) : Snapshot :=
  let publicDomain : PublicDomain := ⟨1, some 1, tables⟩
  let store : StoreSnapshot := ⟨0, publicDomain, ⟨boxKey, publicDomain, 0⟩⟩
  ⟨store, some ⟨some store, [], [], ⟨key, issuer⟩, ⟨key, [some store]⟩⟩⟩

theorem forge_feasible (unknown : key ∉ s.identity :: s.nodes) (other : issuer ≠ s.identity)
    (fresh : boxKey ∉ s.ledgerSecrets.map (·.2)) : s.Feasible (forge key issuer tables boxKey) where
  sealedByNode known := absurd known fresh
  endorsed receipt given trusted := by
    obtain rfl := some.inj given
    exact absurd trusted other
  signed receipt given trusted := by
    obtain rfl := some.inj given
    exact absurd trusted unknown

theorem join_forge (accepted : ∀ identity, prevServiceIdentity = some identity → issuer = identity) :
    join prevServiceIdentity (forge key issuer tables boxKey) ⟨true, secrets, true⟩ = some ⟨⟨1, some 1, tables⟩, none⟩ := by
  have deserialised (given : List (Nat × Key)) :
      (forge key issuer tables boxKey).deserialise given true prevServiceIdentity = some ⟨⟨1, some 1, tables⟩, none⟩ := by
    rw [Snapshot.deserialise, forge, bind_some, if_pos ⟨rfl, rfl, accepted⟩]
    rfl
  rw [join, deserialised, bind_some, if_pos rfl, deserialised]
  rfl

end Trust

end CCF.Startup
