import ShardedCCF.Lib.Bytes

/-! A node-to-node channel: the key exchange that establishes its two keys, and
the messages sealed with them. Key shares and signatures are symbolic. A share is
named by the node that generated it, a shared secret is the unordered pair of two
shares, and a signature names its signer and the shares it covers. -/
namespace CCF.Channels

abbrev Bytes := List Lib.Byte
abbrev NodeId := List Char
abbrev Salt := Bytes

inductive ChannelStatus where
  | inactive | initiated | waitingForFinal | established
  deriving DecidableEq, Repr

/-- The public share of a node's nth key pair, or of any other one. -/
inductive KeyShare where
  | own (node : NodeId) (count : Nat)
  | other (point : Nat)
  deriving DecidableEq, Repr

/-- Key shares are signed one after the other, without separators. -/
abbrev Shares := List KeyShare

structure Signature where
  signer : NodeId
  content : Shares
  deriving DecidableEq, Repr

/-- An absent signature or certificate is one of zero bytes. Certificates are
represented by the node whose key they hold. -/
inductive KeyExchangeMsg where
  | init (version : Nat) (ks : Shares) (sig : Option Signature) (pc : Option NodeId) (salt : Salt) (excess : Nat)
  | response (version : Nat) (ks : Shares) (sig : Option Signature) (pc : Option NodeId) (excess : Nat)
  | final (sig : Option Signature)
  | malformed
  deriving DecidableEq, Repr

structure Key where
  secret : Sym2 KeyShare
  salt : Salt
  label : List Char
  deriving DecidableEq

structure OutgoingMsg where
  type : Nat
  rawAad : Bytes
  rawPlain : Bytes
  deriving DecidableEq, Repr

structure Sealed where
  msg : OutgoingMsg
  key : Key
  iv : Nat
  deriving DecidableEq

structure Session where
  own : KeyShare
  peer : KeyShare
  salt : Salt
  initiator : Bool
  deriving DecidableEq

def Session.key (x : Session) (label : List Char) : Key := ⟨s(x.own, x.peer), x.salt, label⟩

/-- What the channel uses and does not define: endorsement by the service,
OpenSSL's key derivation, which may refuse a point, and entropy. -/
structure Env where
  endorsed : NodeId → Bool
  derives : KeyShare → Bool
  random : Nat → Salt
  minGapBetweenInitiationAttempts : Nat

structure Call where
  tid : Nat
  now : Nat
  deriving DecidableEq, Repr

structure KeyExchangeContext where
  ownKey : Option KeyShare
  peerKey : Option KeyShare
  made : Nat
  deriving DecidableEq

namespace KeyExchangeContext

def reset (self : NodeId) (k : KeyExchangeContext) : KeyExchangeContext :=
  { ownKey := some (.own self k.made), peerKey := none, made := k.made + 1 }

/-- Anything but one point is not parsed. -/
def loadPeerKeyShare (k : KeyExchangeContext) : Shares → Option KeyExchangeContext
  | [ks] => some { k with peerKey := some ks }
  | _ => none

/-- The own share is gone once a secret was derived from it. -/
def computeSharedSecret (env : Env) (k : KeyExchangeContext) : Option (KeyShare × KeyShare × KeyExchangeContext) :=
  match k.ownKey, k.peerKey with
  | some ownKey, some peerKey =>
    if env.derives peerKey then some (ownKey, peerKey, { k with ownKey := none, peerKey := none }) else none
  | _, _ => none

end KeyExchangeContext

structure ChannelSeqno where
  mainThreadSeqno : Nat := 0
  tidSeqno : Nat := 0
  deriving DecidableEq

structure Channel where
  self : NodeId
  peerId : NodeId
  messageLimit : Nat
  kex : KeyExchangeContext
  status : ChannelStatus := .inactive
  peerCv : Option NodeId := none
  hkdfSalt : Salt
  recvKey : Option Key := none
  sendKey : Option Key := none
  sendNonce : Nat := 1
  outgoingMsg : Option OutgoingMsg := none
  localRecvNonce : Nat → ChannelSeqno := fun _ => {}
  lastInitiationTime : Nat := 0
  salts : Nat := 1
  /-- Key exchange messages sent, sealed messages sent, and sessions established,
  the newest first. -/
  sent : List KeyExchangeMsg := []
  sealed : List Sealed := []
  sessions : List Session := []

namespace Channel

def new (env : Env) (self peerId : NodeId) (messageLimit : Nat) : Channel where
  self
  peerId
  messageLimit
  kex := KeyExchangeContext.reset self { ownKey := none, peerKey := none, made := 0 }
  hkdfSalt := env.random 0

def protocolVersion : Nat := 1

def drawSalt (env : Env) (c : Channel) : Channel :=
  { c with hkdfSalt := env.random c.salts, salts := c.salts + 1 }

def sendKeyExchangeInit (c : Channel) : Channel :=
  match c.kex.ownKey with
  | none => c
  | some ownKey =>
    { c with sent := .init protocolVersion [ownKey] (some ⟨c.self, [ownKey]⟩) (some c.self) c.hkdfSalt 0 :: c.sent }

def sendKeyExchangeResponse (c : Channel) : Option Channel :=
  match c.kex.ownKey, c.kex.peerKey with
  | some ownKey, some peerKey =>
    some { c with
      sent := .response protocolVersion [ownKey] (some ⟨c.self, [ownKey, peerKey]⟩) (some c.self) 0 :: c.sent }
  | _, _ => none

def sendKeyExchangeFinal (c : Channel) : Option Channel :=
  match c.kex.peerKey with
  | none => none
  | some peerKey => some { c with sent := .final (some ⟨c.self, [peerKey]⟩) :: c.sent }

def initiate (env : Env) (call : Call) (c : Channel) : Channel :=
  let c := { c with kex := c.kex.reset c.self, peerCv := none }
  let c := c.drawSalt env
  let c := { c with status := .initiated, lastInitiationTime := call.now }
  c.sendKeyExchangeInit

def reset (env : Env) (c : Channel) : Channel :=
  let c := { c with
    status := .inactive, kex := c.kex.reset c.self, peerCv := none, recvKey := none, sendKey := none }
  c.drawSalt env

def closeChannel (env : Env) (c : Channel) : Channel :=
  { c.reset env with outgoingMsg := none }

def advanceConnectionAttempt (env : Env) (call : Call) (c : Channel) : Channel :=
  match c.status with
  | .inactive => c.initiate env call
  | .initiated =>
    if call.now - c.lastInitiationTime ≥ env.minGapBetweenInitiationAttempts then c.initiate env call else c
  | _ => c

/-- The first byte of the IV is the thread, the other seven the counter. -/
def ivOf (nonce tid : Nat) : Nat := tid % 256 + 256 * (nonce % 2 ^ 56)

def encrypt (call : Call) (msg : OutgoingMsg) (c : Channel) : Channel :=
  match c.sendKey with
  | none => c
  | some key =>
    { c with
      sendNonce := (c.sendNonce + 1) % 2 ^ 64
      sealed := ⟨msg, key, ivOf c.sendNonce call.tid⟩ :: c.sealed }

def send (env : Env) (call : Call) (msg : OutgoingMsg) (c : Channel) : Channel × Bool :=
  if c.status ≠ .established then
    ({ c.advanceConnectionAttempt env call with outgoingMsg := some msg }, false)
  else (c.encrypt call msg, true)

/-- The keys of a session, labelled with the node identifiers in the order in which
messages travel. -/
def sendKeyOf (c : Channel) (x : Session) : Key := x.key (c.self ++ c.peerId)

def recvKeyOf (c : Channel) (x : Session) : Key := x.key (c.peerId ++ c.self)

def install (x : Session) (c : Channel) : Channel :=
  { c with
    recvKey := some (c.recvKeyOf x)
    sendKey := some (c.sendKeyOf x)
    sendNonce := 1
    localRecvNonce := fun _ => {}
    status := .established
    sessions := x :: c.sessions }

/-- The result is `none` where no secret can be derived. -/
def establish (env : Env) (call : Call) (initiator : Bool) (c : Channel) : Option Channel :=
  match c.kex.computeSharedSecret env with
  | none => none
  | some (own, peer, kex) =>
    let c := install ⟨own, peer, c.hkdfSalt, initiator⟩ { c with kex }
    match c.outgoingMsg with
    | none => some c
    | some msg => some { (c.send env call msg).1 with outgoingMsg := none }

def verifyPeerSignature (content : Shares) (sig : Signature) (verifier : Option NodeId) : Bool :=
  verifier = some sig.signer && decide (sig.content = content)

/-- What has been accepted is used even if its share then is not parsed. -/
def recvKeyExchangeInit (env : Env) (c : Channel) (version : Nat) (ks : Shares) (sig : Option Signature)
    (pc : Option NodeId) (salt : Salt) (excess : Nat) (theyHavePriority : Bool) : Channel × Bool :=
  if version ≠ protocolVersion then (c, false)
  else if ks = [] then (c, false)
  else match sig, pc with
    | some sig, some cert =>
      if salt = [] then (c, false)
      else if excess ≠ 0 then (c, false)
      else if ¬ env.endorsed cert then (c, false)
      else if ¬ verifyPeerSignature ks sig (some cert) then (c, false)
      else if c.status = .initiated ∧ ¬ theyHavePriority then (c, true)
      else
        let c := if c.status = .established then { c with kex := c.kex.reset c.self } else c
        let c := { c with peerCv := some cert, hkdfSalt := salt }
        match c.kex.loadPeerKeyShare ks with
        | none => (c, false)
        | some kex =>
          let c := { c with kex, status := .waitingForFinal }
          match c.sendKeyExchangeResponse with
          | none => (c, false)
          | some c => (c, true)
    | _, _ => (c, false)

def recvKeyExchangeResponse (env : Env) (call : Call) (c : Channel) (version : Nat) (ks : Shares)
    (sig : Option Signature) (pc : Option NodeId) (excess : Nat) : Channel × Bool :=
  if c.status ≠ .initiated then (c, false)
  else if version ≠ protocolVersion then (c, false)
  else if ks = [] then (c, false)
  else match sig, pc, c.kex.ownKey with
    | some sig, some cert, some oks =>
      if excess ≠ 0 then (c, false)
      else if ¬ env.endorsed cert then (c, false)
      -- A signature over both shares, the peer's first.
      else if ¬ verifyPeerSignature (ks ++ [oks]) sig (some cert) then (c, false)
      else
        let c := { c with peerCv := some cert }
        match c.kex.loadPeerKeyShare ks with
        | none => (c, false)
        | some kex =>
          match ({ c with kex } : Channel).sendKeyExchangeFinal with
          | none => ({ c with kex }, false)
          | some c =>
            match c.establish env call true with
            | none => (c, false)
            | some c => (c, true)
    | _, _, _ => (c, false)

/-- Only the own share is covered by the signature. -/
def recvKeyExchangeFinal (env : Env) (call : Call) (c : Channel) (sig : Option Signature) : Channel × Bool :=
  if c.status ≠ .waitingForFinal then (c, false)
  else match sig, c.kex.ownKey with
    | some sig, some oks =>
      if ¬ verifyPeerSignature [oks] sig c.peerCv then (c, false)
      else match c.establish env call false with
        | none => (c, false)
        | some c => (c, true)
    | _, _ => (c, false)

/-- What is thrown is caught here and answered with `false`. -/
def recvKeyExchangeMessage (env : Env) (call : Call) (c : Channel) : KeyExchangeMsg → Channel × Bool
  | .init version ks sig pc salt excess =>
    c.recvKeyExchangeInit env version ks sig pc salt excess (c.self < c.peerId)
  | .response version ks sig pc excess => c.recvKeyExchangeResponse env call version ks sig pc excess
  | .final sig => c.recvKeyExchangeFinal env call sig
  | .malformed => (c, false)

def lastNonce (call : Call) (tid : Nat) (c : Channel) : Nat :=
  if call.tid = 0 then (c.localRecvNonce tid).mainThreadSeqno else (c.localRecvNonce tid).tidSeqno

def setLastNonce (call : Call) (tid nonce : Nat) (c : Channel) : Channel :=
  { c with
    localRecvNonce := Function.update c.localRecvNonce tid
      (if call.tid = 0 then { c.localRecvNonce tid with mainThreadSeqno := nonce }
        else { c.localRecvNonce tid with tidSeqno := nonce }) }

/-- Whether the tag matches is given. The message limit is checked in either case. -/
def decrypt (env : Env) (call : Call) (tid nonce : Nat) (authentic : Bool) (c : Channel) : Channel × Bool :=
  if nonce ≤ c.lastNonce call tid then (c, false)
  else
    let c := if authentic then c.setLastNonce call tid nonce else c
    let numMessages := (c.sendNonce + nonce) % 2 ^ 64
    (if numMessages ≥ c.messageLimit then (c.reset env).initiate env call else c, authentic)

/-- `recv_authenticated`, `recv_authenticated_with_load` and `recv_encrypted`. -/
def recvSealed (env : Env) (call : Call) (tid nonce : Nat) (authentic : Bool) (c : Channel) : Channel × Bool :=
  if c.status ≠ .established then (c.advanceConnectionAttempt env call, false)
  else c.decrypt env call tid nonce authentic

end Channel

inductive ChannelCall where
  | recvKeyExchangeMessage (m : KeyExchangeMsg)
  | recvSealed (tid nonce : Nat) (authentic : Bool)
  | send (msg : OutgoingMsg)
  | initiate
  | reset
  | closeChannel
  deriving DecidableEq

def KeyExchangeMsg.shares : KeyExchangeMsg → Shares
  | .init _ ks _ _ _ _ => ks
  | .response _ ks _ _ _ => ks
  | _ => []

def KeyExchangeMsg.signature : KeyExchangeMsg → Option Signature
  | .init _ _ sig _ _ _ => sig
  | .response _ _ sig _ _ => sig
  | .final sig => sig
  | .malformed => none

/-- A share of a key pair that has not been made yet is in no message. -/
def KeyShare.madeBefore (node : NodeId) (made : Nat) : KeyShare → Bool
  | .own by' count => by' ≠ node || count < made
  | .other _ => true

namespace Channel

def perform (env : Env) (call : Call) (c : Channel) : ChannelCall → Channel
  | .recvKeyExchangeMessage m => (c.recvKeyExchangeMessage env call m).1
  | .recvSealed tid nonce authentic => (c.recvSealed env call tid nonce authentic).1
  | .send msg => (c.send env call msg).1
  | .initiate => c.initiate env call
  | .reset => c.reset env
  | .closeChannel => c.closeChannel env

def foreseeable (c : Channel) : ChannelCall → Bool
  | .recvKeyExchangeMessage m => m.shares.all (·.madeBefore c.self c.kex.made)
  | _ => true

/-- Any call, with any message that does not guess a share to come. -/
def step (env : Env) (c : Channel) (action : Call × ChannelCall) : Option Channel :=
  if c.foreseeable action.2 then some (c.perform env action.1 action.2) else none

end Channel
end CCF.Channels
