import ShardedCCF.Node.ChannelKeys

/-! Two channels with each other's identities over a network that delivers any
message whose signatures it has seen. When the responder accepts the initiator's
final message, both hold the same keys, provided that init messages arrive as they
were sent and that none comes in between. -/
namespace CCF.Channels
open List Option Function

inductive Side where
  | alice | bob
  deriving DecidableEq, Repr

def Side.other : Side → Side
  | .alice => .bob
  | .bob => .alice

theorem Side.eq_or_eq_other (x y : Side) : y = x ∨ y = x.other := by
  cases x <;> cases y <;> simp [other]

theorem Side.other_ne (x : Side) : x.other ≠ x := by
  cases x <;> decide

@[simp] theorem Side.other_other (x : Side) : x.other.other = x := by
  cases x <;> rfl

abbrev Peers := Side → Channel

namespace Peers

variable {env : Side → Env} {s s' : Peers} {call : Call}

/-- A signature by one of the two nodes is taken from one of its messages. -/
def unforged (s : Peers) : ChannelCall → Bool
  | .recvKeyExchangeMessage m =>
    m.signature.all fun sig => [Side.alice, .bob].all fun y =>
      sig.signer ≠ (s y).self || (s y).sent.any (·.signature = some sig)
  | _ => true

def start (env : Side → Env) (name : Side → NodeId) (limit : Nat) : Peers :=
  fun x => Channel.new (env x) (name x) (name x.other) limit

def step (env : Side → Env) (s : Peers) (action : Side × Call × ChannelCall) : Option Peers :=
  if (s .alice).foreseeable action.2.2 && (s .bob).foreseeable action.2.2 && s.unforged action.2.2 then
    some (Function.update s action.1 ((s action.1).perform (env action.1) action.2.1 action.2.2))
  else none

/-- An init message was sent like this by the peer and does not replace another one
while the final message is awaited; a response carries the peer's certificate. -/
def faithful (s : Peers) (action : Side × Call × ChannelCall) : Bool :=
  match action.2.2 with
  | .recvKeyExchangeMessage (.init version ks sig pc salt excess) =>
    .init version ks sig pc salt excess ∈ (s action.1.other).sent ∧
      ((s action.1).status = .waitingForFinal → ks = (s action.1).kex.peerKey.toList)
  | .recvKeyExchangeMessage (.response _ _ _ pc _) => pc = some (s action.1.other).self
  | _ => true

end Peers

/-- The init message that a node sends for a share and a salt. -/
def initBy (node : NodeId) (share : KeyShare) (salt : Salt) : KeyExchangeMsg :=
  .init Channel.protocolVersion [share] (some ⟨node, [share]⟩) (some node) salt 0

def responseBy (node : NodeId) (share other : KeyShare) : KeyExchangeMsg :=
  .response Channel.protocolVersion [share] (some ⟨node, [share, other]⟩) (some node) 0

def finalBy (node : NodeId) (other : KeyShare) : KeyExchangeMsg :=
  .final (some ⟨node, [other]⟩)

inductive Sends (node : NodeId) (made : Nat) : KeyExchangeMsg → Prop where
  | init (n : Nat) (salt : Salt) : n < made → Sends node made (initBy node (.own node n) salt)
  | response (n : Nat) (other : KeyShare) : n < made → Sends node made (responseBy node (.own node n) other)
  | final (other : KeyShare) : Sends node made (finalBy node other)

theorem Sends.mono (sends : Sends node made m) (le : made ≤ made') : Sends node made' m := by
  cases sends with
  | init n salt below => exact .init n salt (below.trans_le le)
  | response n other below => exact .response n other (below.trans_le le)
  | final other => exact .final other

theorem Sends.init_below (sends : Sends node made (initBy node' share salt)) :
    ∃ n < made, share = .own node n := by
  generalize message : initBy node' share salt = m at sends
  cases sends with
  | init n salt' below =>
    simp only [initBy, KeyExchangeMsg.init.injEq, List.cons.injEq] at message
    exact ⟨n, below, message.2.1.1⟩
  | response | final => cases message

theorem Sends.response_below (sends : Sends node made (responseBy node' share other)) :
    ∃ n < made, share = .own node n := by
  generalize message : responseBy node' share other = m at sends
  cases sends with
  | response n other' below =>
    simp only [responseBy, KeyExchangeMsg.response.injEq, List.cons.injEq] at message
    exact ⟨n, below, message.2.1.1⟩
  | init | final => cases message

/-- Only a response is signed over two shares. -/
theorem Sends.response_of_signature (sends : Sends node made m)
    (signed : m.signature = some ⟨signer, [share, other]⟩) : m = responseBy node share other := by
  cases sends with
  | init n salt below => simp [initBy, KeyExchangeMsg.signature] at signed
  | response n other' below =>
    simp only [responseBy, KeyExchangeMsg.signature, some.injEq, Signature.mk.injEq, List.cons.injEq,
      and_true] at signed
    rw [← signed.2.1, signed.2.2]
  | final other' => simp [finalBy, KeyExchangeMsg.signature] at signed

theorem Sends.init_eq (sends : Sends node made (.init version ks sig pc salt excess)) :
    ∃ share, KeyExchangeMsg.init version ks sig pc salt excess = initBy node share salt := by
  generalize message : KeyExchangeMsg.init version ks sig pc salt excess = m at sends
  cases sends with
  | init n salt' below =>
    refine ⟨.own node n, ?_⟩
    simp only [initBy, KeyExchangeMsg.init.injEq] at message ⊢
    simp only [message, and_self]
  | response | final => cases message

namespace Channel

variable {env : Env} {c d c' d' : Channel} {call : Call}

/-- What a channel's messages and own share say about it and its peer. -/
structure Agrees (c d : Channel) : Prop where
  own : ∀ share, c.kex.ownKey = some share → ∃ n < c.kex.made, share = .own c.self n
  sends : ∀ m ∈ c.sent, Sends c.self c.kex.made m
  salts : ∀ share salt salt', initBy c.self share salt ∈ c.sent → initBy c.self share salt' ∈ c.sent → salt = salt'
  initiated : c.status = .initiated → ∃ share, c.kex.ownKey = some share ∧ initBy c.self share c.hkdfSalt ∈ c.sent
  responded : ∀ share other, responseBy c.self share other ∈ c.sent → c.kex.ownKey = some share →
    c.status = .waitingForFinal ∧ c.kex.peerKey = some other ∧ initBy d.self other c.hkdfSalt ∈ d.sent
  sessions : ∀ x ∈ c.sessions, x.initiator →
    initBy c.self x.own x.salt ∈ c.sent ∧ responseBy d.self x.peer x.own ∈ d.sent

theorem Agrees.peer (agrees : c.Agrees d) (self : d'.self = d.self) (sent : d.sent ⊆ d'.sent) : c.Agrees d' := by
  obtain ⟨own, sends, salts, initiated, responded, sessions⟩ := agrees
  refine ⟨own, sends, salts, initiated, fun share other member held => ?_, fun x member initiator => ?_⟩
  · obtain ⟨waiting, loaded, known⟩ := responded share other member held
    exact ⟨waiting, loaded, sent (self ▸ known)⟩
  · obtain ⟨mine, theirs⟩ := sessions x member initiator
    exact ⟨mine, sent (self ▸ theirs)⟩

/-- The parts of a channel that the key exchange depends on are the same. -/
structure SameExchange (c c' : Channel) : Prop where
  self : c'.self = c.self
  kex : c'.kex = c.kex
  status : c'.status = c.status
  hkdfSalt : c'.hkdfSalt = c.hkdfSalt
  sent : c'.sent = c.sent
  sessions : c'.sessions = c.sessions

section
variable (agrees : c.Agrees d)
include agrees

theorem Agrees.congr (same : SameExchange c c') : c'.Agrees d := by
  obtain ⟨self, kex, status, hkdfSalt, sent, sessions⟩ := same
  obtain ⟨own, sends, salts, initiated, responded, established⟩ := agrees
  refine ⟨?_, ?_, ?_, ?_, ?_, ?_⟩
  all_goals simpa only [self, kex, status, hkdfSalt, sent, sessions]

theorem Agrees.renew (status : ChannelStatus) (salt : Salt) (other : status ≠ .initiated) :
    ({ c with kex := c.kex.reset c.self, status, hkdfSalt := salt } : Channel).Agrees d := by
  obtain ⟨own, sends, salts, initiated, responded, sessions⟩ := agrees
  refine ⟨fun share held => ⟨c.kex.made, Nat.lt_succ_self _, (some.inj held).symm⟩,
    fun m member => (sends m member).mono (Nat.le_succ _), salts, fun same => absurd same other,
    fun share peer member held => ?_, sessions⟩
  obtain ⟨n, below, named⟩ := (sends _ member).response_below
  rw [← some.inj held, KeyShare.own.injEq] at named
  exact absurd named.2 (Nat.ne_of_gt below)

theorem Agrees.initiate : (c.initiate env call).Agrees d := by
  have renewed := agrees.renew .inactive (env.random c.salts) (by decide)
  obtain ⟨own, sends, salts, -, responded, sessions⟩ := renewed
  have unused : ∀ salt, initBy c.self (.own c.self c.kex.made) salt ∉ c.sent := fun salt member => by
    obtain ⟨n, below, named⟩ := (agrees.sends _ member).init_below
    rw [KeyShare.own.injEq] at named
    exact absurd named.2 (Nat.ne_of_gt below)
  refine ⟨own, ?_, ?_, fun _ => ⟨_, rfl, mem_cons_self⟩, ?_, ?_⟩
  · intro m member
    rcases mem_cons.mp member with rfl | earlier
    · exact .init c.kex.made _ (Nat.lt_succ_self _)
    · exact sends m earlier
  · intro share salt salt' first second
    rcases mem_cons.mp first with new | earlier <;> rcases mem_cons.mp second with new' | earlier'
    · simp only [initBy, KeyExchangeMsg.init.injEq] at new new'
      exact new.2.2.2.2.1.trans new'.2.2.2.2.1.symm
    · simp only [initBy, KeyExchangeMsg.init.injEq, List.cons.injEq] at new
      rw [new.2.1.1] at earlier'
      exact absurd earlier' (unused salt')
    · simp only [initBy, KeyExchangeMsg.init.injEq, List.cons.injEq] at new'
      rw [new'.2.1.1] at earlier
      exact absurd earlier (unused salt)
    · exact salts share salt salt' earlier earlier'
  · intro share other member held
    rcases mem_cons.mp member with new | earlier
    · cases new
    · cases (responded share other earlier held).1
  · intro x member initiator
    obtain ⟨mine, theirs⟩ := sessions x member initiator
    exact ⟨mem_cons_of_mem _ mine, theirs⟩

theorem Agrees.reset : (c.reset env).Agrees d :=
  (agrees.renew .inactive (env.random c.salts) (by decide)).congr ⟨rfl, rfl, rfl, rfl, rfl, rfl⟩

theorem Agrees.advanceConnectionAttempt : (c.advanceConnectionAttempt env call).Agrees d := by
  unfold Channel.advanceConnectionAttempt
  split
  · exact agrees.initiate
  · split
    · exact agrees.initiate
    · exact agrees
  · exact agrees

end

theorem SameExchange.encrypt : SameExchange c (c.encrypt call msg) := by
  unfold Channel.encrypt
  split <;> exact ⟨rfl, rfl, rfl, rfl, rfl, rfl⟩

theorem Agrees.send (agrees : c.Agrees d) : (c.send env call msg).1.Agrees d := by
  unfold Channel.send
  split
  · exact agrees.advanceConnectionAttempt.congr ⟨rfl, rfl, rfl, rfl, rfl, rfl⟩
  · exact agrees.congr .encrypt

theorem Agrees.decrypt (agrees : c.Agrees d) : (c.decrypt env call tid nonce authentic).1.Agrees d := by
  unfold Channel.decrypt
  split
  · exact agrees
  dsimp only
  generalize taken : (if authentic then c.setLastNonce call tid nonce else c : Channel) = e
  have noted : e.Agrees d := by
    subst taken
    split
    · exact agrees.congr ⟨rfl, rfl, rfl, rfl, rfl, rfl⟩
    · exact agrees
  split
  · exact noted.reset.initiate
  · exact noted

/-- What a channel looks like after a session was established. -/
structure Establishes (c c' : Channel) (x : Session) : Prop where
  own : c.kex.ownKey = some x.own
  peer : c.kex.peerKey = some x.peer
  salt : x.salt = c.hkdfSalt
  self : c'.self = c.self
  made : c'.kex.made = c.kex.made
  dropped : c'.kex.ownKey = none
  status : c'.status = .established
  sent : c'.sent = c.sent
  sessions : c'.sessions = x :: c.sessions
  sendKey : c'.sendKey = some (c.sendKeyOf x)
  recvKey : c'.recvKey = some (c.recvKeyOf x)

theorem establish_spec (established : c.establish env call initiator = some c') :
    ∃ x, x.initiator = initiator ∧ Establishes c c' x := by
  unfold Channel.establish KeyExchangeContext.computeSharedSecret at established
  cases own : c.kex.ownKey with
  | none => simp [own] at established
  | some share =>
    cases peer : c.kex.peerKey with
    | none => simp [own, peer] at established
    | some share' =>
      simp only [own, peer] at established
      split at established
      · cases established
      rename_i own' peer' kex derived
      split at derived
      · cases derived
        refine ⟨⟨share, share', c.hkdfSalt, initiator⟩, rfl, ?_⟩
        split at established
        · cases established
          exact ⟨own, peer, rfl, rfl, rfl, rfl, rfl, rfl, rfl, rfl, rfl⟩
        · cases established
          exact ⟨own, peer, rfl, rfl, rfl, rfl, rfl, rfl, rfl, rfl, rfl⟩
      · cases derived

section
variable (agrees : c.Agrees d)
include agrees

theorem Agrees.establish (established : Establishes c c' x)
    (grounds : x.initiator → initBy c.self x.own x.salt ∈ c.sent ∧ responseBy d.self x.peer x.own ∈ d.sent) :
    c'.Agrees d := by
  obtain ⟨own, peer, salt, self, made, dropped, status, sent, sessions, -, -⟩ := established
  refine ⟨?_, ?_, ?_, ?_, ?_, ?_⟩
  · intro share held
    simp [dropped] at held
  · rw [self, made, sent]
    exact agrees.sends
  · rw [self, sent]
    exact agrees.salts
  · intro same
    simp [status] at same
  · intro share other member held
    simp [dropped] at held
  · intro y member initiator
    rw [sessions] at member
    rw [self, sent]
    rcases mem_cons.mp member with rfl | earlier
    · exact grounds initiator
    · exact agrees.sessions y earlier initiator

theorem Agrees.accept (cert : Option NodeId) (sent : initBy d.self share salt ∈ d.sent)
    (alone : c.status = .waitingForFinal → [share] = c.kex.peerKey.toList) : ({ c with
      peerCv := cert, hkdfSalt := salt, kex := { c.kex with peerKey := some share }, status := .waitingForFinal } :
        Channel).Agrees d := by
  obtain ⟨own, sends, salts, initiated, responded, sessions⟩ := agrees
  refine ⟨own, sends, salts, nofun, fun mine other member held => ⟨rfl, ?_, ?_⟩, sessions⟩
  all_goals
    obtain ⟨waiting, loaded, -⟩ := responded mine other member held
    have same := alone waiting
    rw [loaded, toList_some, List.cons.injEq] at same
    obtain rfl := same.1
  · rfl
  · exact sent

theorem Agrees.respond (waiting : c.status = .waitingForFinal) (loaded : c.kex.peerKey = some share)
    (known : initBy d.self share c.hkdfSalt ∈ d.sent) (sent : c.sendKeyExchangeResponse = some c') : c'.Agrees d := by
  unfold Channel.sendKeyExchangeResponse at sent
  split at sent
  case h_2 => cases sent
  rename_i mine other held loaded'
  obtain rfl : share = other := some.inj (loaded.symm.trans loaded')
  cases sent
  obtain ⟨own, sends, salts, initiated, responded, sessions⟩ := agrees
  refine ⟨own, fun m member => ?_, fun s z z' first second => ?_, fun same => ?_, fun s o member held' => ?_,
    fun x member initiator => ?_⟩
  · rcases mem_cons.mp member with rfl | earlier
    · obtain ⟨n, below, rfl⟩ := own mine held
      exact .response n share below
    · exact sends m earlier
  · exact salts s z z' ((mem_cons.mp first).resolve_left nofun) ((mem_cons.mp second).resolve_left nofun)
  · rw [show c.status = .initiated from same] at waiting
    cases waiting
  · rcases mem_cons.mp member with new | earlier
    · simp only [responseBy, KeyExchangeMsg.response.injEq, some.injEq, Signature.mk.injEq, List.cons.injEq]
        at new
      obtain rfl : o = share := new.2.2.1.2.2.1
      exact ⟨waiting, loaded, known⟩
    · exact responded s o earlier held'
  · obtain ⟨first, second⟩ := sessions x member initiator
    exact ⟨mem_cons_of_mem _ first, second⟩

theorem Agrees.recvKeyExchangeInit (sent : initBy d.self share salt ∈ d.sent)
    (alone : c.status = .waitingForFinal → [share] = c.kex.peerKey.toList) :
    (c.recvKeyExchangeInit env protocolVersion [share] (some ⟨d.self, [share]⟩) (some d.self) salt 0
      priority).1.Agrees d := by
  unfold Channel.recvKeyExchangeInit
  iterate 2
    split
    · exact agrees
  dsimp only
  iterate 5
    split
    · exact agrees
  generalize taken : (if c.status = .established then { c with kex := c.kex.reset c.self } else c : Channel) = e
  obtain ⟨agrees', alone'⟩ : e.Agrees d ∧ (e.status = .waitingForFinal → [share] = e.kex.peerKey.toList) := by
    subst taken
    split
    · rename_i established
      have renewed := agrees.renew c.status c.hkdfSalt (by simp [established])
      exact ⟨renewed.congr ⟨rfl, rfl, rfl, rfl, rfl, rfl⟩, fun waiting => by
        rw [show c.status = .waitingForFinal from waiting] at established
        cases established⟩
    · exact ⟨agrees, alone⟩
  have waiting := agrees'.accept (some d.self) sent alone'
  simp only [KeyExchangeContext.loadPeerKeyShare]
  split
  · exact waiting
  · rename_i responded
    exact waiting.respond rfl rfl sent responded

theorem Agrees.recvKeyExchangeResponse
    (signed : ∀ m, m.signer = d.self → sig = some m → ∃ n ∈ d.sent, n.signature = some m)
    (theirs : ∀ m ∈ d.sent, Sends d.self d.kex.made m) :
    (c.recvKeyExchangeResponse env call version ks sig (some d.self) excess).1.Agrees d := by
  unfold Channel.recvKeyExchangeResponse
  split
  · exact agrees
  rename_i expected
  have status := not_not.mp expected
  iterate 2
    split
    · exact agrees
  cases sig with
  | none => exact agrees
  | some sig =>
  cases held : c.kex.ownKey with
  | none => exact agrees
  | some oks =>
  dsimp only
  iterate 2
    split
    · exact agrees
  split
  · exact agrees
  rename_i verified
  split
  · exact agrees.congr ⟨rfl, rfl, rfl, rfl, rfl, rfl⟩
  rename_i kex loaded
  obtain ⟨share, rfl, rfl⟩ := KeyExchangeContext.loadPeerKeyShare_eq loaded
  simp only [sendKeyExchangeFinal]
  -- The final message is sent for a share that is not awaiting one.
  have finished : ({ c with
      peerCv := some d.self, kex := { c.kex with peerKey := some share }, sent := finalBy c.self share :: c.sent } :
        Channel).Agrees d := by
    obtain ⟨own, sends, salts, initiated, responded, sessions⟩ := agrees
    refine ⟨own, fun m member => ?_, fun s z z' first second => ?_, fun same => ?_, fun s o member held' => ?_,
      fun x member initiator => ?_⟩
    · rcases mem_cons.mp member with rfl | earlier
      · exact .final share
      · exact sends m earlier
    · exact salts s z z' ((mem_cons.mp first).resolve_left nofun) ((mem_cons.mp second).resolve_left nofun)
    · obtain ⟨mine, held', known⟩ := initiated same
      exact ⟨mine, held', mem_cons_of_mem _ known⟩
    · have waiting := (responded s o ((mem_cons.mp member).resolve_left nofun) held').1
      rw [status] at waiting
      cases waiting
    · obtain ⟨first, second⟩ := sessions x member initiator
      exact ⟨mem_cons_of_mem _ first, second⟩
  split
  · exact finished
  rename_i c' established
  obtain ⟨x, -, installed⟩ := establish_spec established
  refine finished.establish installed fun _ => ?_
  obtain ⟨mine, held', known⟩ := finished.initiated status
  have own : x.own = oks := some.inj (installed.own.symm.trans held)
  have peer : x.peer = share := (some.inj installed.peer).symm
  refine ⟨?_, ?_⟩
  · rw [installed.salt, some.inj (installed.own.symm.trans held')]
    exact known
  · simp only [verifyPeerSignature, Bool.and_eq_true, decide_eq_true_eq, not_not] at verified
    obtain ⟨m, member, signature⟩ := signed sig (some.inj verified.1).symm rfl
    obtain ⟨signer, content⟩ := sig
    obtain rfl : content = [share, oks] := verified.2
    rw [peer, own, ← (theirs m member).response_of_signature signature]
    exact member

theorem Agrees.recvKeyExchangeFinal : (c.recvKeyExchangeFinal env call sig).1.Agrees d := by
  unfold Channel.recvKeyExchangeFinal
  split
  · exact agrees
  split
  case h_2 => exact agrees
  split
  · exact agrees
  split
  · exact agrees
  rename_i established
  obtain ⟨x, responder, installed⟩ := establish_spec established
  exact agrees.establish installed fun initiator => by simp [responder] at initiator

end

structure Extends (c c' : Channel) : Prop where
  self : c'.self = c.self
  peerId : c'.peerId = c.peerId
  sent : c.sent ⊆ c'.sent

theorem Extends.refl (c : Channel) : Extends c c := ⟨rfl, rfl, fun _ => id⟩

theorem Extends.trans (first : Extends c d) (second : Extends d c') : Extends c c' :=
  ⟨second.self.trans first.self, second.peerId.trans first.peerId, fun _ member => second.sent (first.sent member)⟩

theorem Extends.initiate : Extends c (c.initiate env call) :=
  ⟨rfl, rfl, subset_cons_self _ _⟩

theorem Extends.reset : Extends c (c.reset env) := ⟨rfl, rfl, fun _ => id⟩

theorem Extends.advanceConnectionAttempt : Extends c (c.advanceConnectionAttempt env call) := by
  unfold Channel.advanceConnectionAttempt
  split
  · exact .initiate
  · split
    · exact .initiate
    · exact .refl c
  · exact .refl c

theorem Extends.send (env : Env) (call : Call) (msg : OutgoingMsg) (c : Channel) :
    Extends c (c.send env call msg).1 := by
  unfold Channel.send Channel.encrypt
  split
  · have advanced : Extends c (c.advanceConnectionAttempt env call) := .advanceConnectionAttempt
    exact ⟨advanced.self, advanced.peerId, advanced.sent⟩
  · split <;> exact ⟨rfl, rfl, fun _ => id⟩

theorem Extends.establish (established : c.establish env call initiator = some c') : Extends c c' := by
  unfold Channel.establish at established
  split at established
  · cases established
  dsimp only at established
  split at established <;> cases established
  · exact ⟨rfl, rfl, fun _ => id⟩
  rename_i own peer kex _ _ msg _
  obtain ⟨self, peerId, sent⟩ := Extends.send env call msg (install ⟨own, peer, c.hkdfSalt, initiator⟩ { c with kex })
  exact ⟨self, peerId, sent⟩

theorem Extends.recvKeyExchangeInit :
    Extends c (c.recvKeyExchangeInit env version ks sig pc salt excess priority).1 := by
  unfold Channel.recvKeyExchangeInit
  iterate 2
    split
    · exact .refl c
  split
  case h_2 => exact .refl c
  iterate 5
    split
    · exact .refl c
  dsimp only
  generalize taken : (if c.status = .established then { c with kex := c.kex.reset c.self } else c : Channel) = e
  have renewed : Extends c e := by
    subst taken
    split <;> exact ⟨rfl, rfl, fun _ => id⟩
  split
  · exact renewed.trans ⟨rfl, rfl, fun _ => id⟩
  split
  · exact renewed.trans ⟨rfl, rfl, fun _ => id⟩
  rename_i sent
  unfold sendKeyExchangeResponse at sent
  split at sent <;> cases sent
  exact renewed.trans ⟨rfl, rfl, subset_cons_self _ _⟩

theorem Extends.recvKeyExchangeResponse :
    Extends c (c.recvKeyExchangeResponse env call version ks sig pc excess).1 := by
  unfold Channel.recvKeyExchangeResponse
  iterate 3
    split
    · exact .refl c
  split
  case h_2 => exact .refl c
  iterate 3
    split
    · exact .refl c
  dsimp only
  split
  · exact ⟨rfl, rfl, fun _ => id⟩
  split
  · exact ⟨rfl, rfl, fun _ => id⟩
  rename_i finished
  unfold sendKeyExchangeFinal at finished
  split at finished <;> cases finished
  split
  · exact ⟨rfl, rfl, subset_cons_self _ _⟩
  rename_i established
  obtain ⟨self, peerId, sent⟩ := Extends.establish established
  exact ⟨self, peerId, fun m member => sent (mem_cons_of_mem _ member)⟩

theorem Extends.recvKeyExchangeFinal : Extends c (c.recvKeyExchangeFinal env call sig).1 := by
  unfold Channel.recvKeyExchangeFinal
  split
  · exact .refl c
  split
  case h_2 => exact .refl c
  split
  · exact .refl c
  split
  · exact .refl c
  · rename_i established
    exact .establish established

theorem Extends.decrypt : Extends c (c.decrypt env call tid nonce authentic).1 := by
  unfold Channel.decrypt
  split
  · exact .refl c
  dsimp only
  generalize taken : (if authentic then c.setLastNonce call tid nonce else c : Channel) = e
  have noted : Extends c e := by
    subst taken
    split <;> exact ⟨rfl, rfl, fun _ => id⟩
  split
  · have renewed : Extends e (e.reset env) := .reset
    exact (noted.trans renewed).trans .initiate
  · exact noted

theorem Extends.perform (action : ChannelCall) : Extends c (c.perform env call action) := by
  cases action with
  | recvKeyExchangeMessage m =>
    cases m with
    | init => exact .recvKeyExchangeInit
    | response => exact .recvKeyExchangeResponse
    | final => exact .recvKeyExchangeFinal
    | malformed => exact .refl c
  | recvSealed tid nonce authentic =>
    simp only [Channel.perform, recvSealed]
    split
    · exact .advanceConnectionAttempt
    · exact .decrypt
  | send msg => exact .send env call msg c
  | initiate => exact .initiate
  | reset => exact .reset
  | closeChannel => exact ⟨rfl, rfl, fun _ => id⟩

theorem Agrees.new (env : Env) (self peerId : NodeId) (limit : Nat) (d : Channel) :
    (Channel.new env self peerId limit).Agrees d :=
  ⟨fun _ held => ⟨0, Nat.one_pos, (some.inj held).symm⟩, nofun, nofun, nofun, nofun, nofun⟩

end Channel

namespace Peers

open Channel

variable {env : Side → Env} {s s' : Peers} {name : Side → NodeId}

structure Agreeing (name : Side → NodeId) (s : Peers) : Prop where
  self : ∀ x, (s x).self = name x
  peerId : ∀ x, (s x).peerId = name x.other
  agrees : ∀ x, (s x).Agrees (s x.other)

theorem signed_of_unforged (unforged : s.unforged (.recvKeyExchangeMessage m) = true) (y : Side)
    (signed : m.signature = some sig) (signer : sig.signer = (s y).self) :
    ∃ n ∈ (s y).sent, n.signature = some sig := by
  simp only [Peers.unforged, signed, all_some, List.all_eq_true, Bool.or_eq_true, List.any_eq_true,
    decide_eq_true_eq] at unforged
  have every : y ∈ [Side.alice, .bob] := by cases y <;> decide
  exact (unforged y every).resolve_left (not_not.mpr signer)

theorem Agreeing.perform (agreeing : Agreeing name s) (env : Side → Env) (unforged : s.unforged action = true)
    (faithful : s.faithful (x, call, action)) :
    ((s x).perform (env x) call action).Agrees (s x.other) := by
  have agrees := agreeing.agrees x
  have theirs := (agreeing.agrees x.other).sends
  cases action with
  | recvKeyExchangeMessage m =>
    cases m with
    | init version ks sig pc salt excess =>
      obtain ⟨sent, alone⟩ := of_decide_eq_true faithful
      obtain ⟨share, message⟩ := (theirs _ sent).init_eq
      have known := sent
      obtain ⟨rfl, rfl, rfl, rfl, -, rfl⟩ := message
      exact agrees.recvKeyExchangeInit known alone
    | response version ks sig pc excess =>
      obtain rfl : pc = some (s x.other).self := of_decide_eq_true faithful
      exact agrees.recvKeyExchangeResponse
        (fun m signer signed => signed_of_unforged unforged x.other signed signer) theirs
    | final => exact agrees.recvKeyExchangeFinal
    | malformed => exact agrees
  | recvSealed tid nonce authentic =>
    simp only [Channel.perform, recvSealed]
    split
    · exact agrees.advanceConnectionAttempt
    · exact agrees.decrypt
  | send msg => exact agrees.send
  | initiate => exact agrees.initiate
  | reset => exact agrees.reset
  | closeChannel =>
    have closed : ((s x).reset (env x)).Agrees (s x.other) := agrees.reset
    exact closed.congr ⟨rfl, rfl, rfl, rfl, rfl, rfl⟩

theorem Agreeing.step (agreeing : Agreeing name s) (moved : s.step env action = some s')
    (faithful : s.faithful action) : Agreeing name s' := by
  obtain ⟨x, call, action⟩ := action
  simp only [Peers.step, Bool.and_eq_true] at moved
  split at moved
  case isFalse => cases moved
  rename_i guards
  cases moved
  have performed := agreeing.perform env guards.2 faithful
  have extended : Extends (s x) ((s x).perform (env x) call action) := .perform action
  refine ⟨fun y => ?_, fun y => ?_, fun y => ?_⟩
  all_goals rcases Side.eq_or_eq_other x y with rfl | rfl
  · rw [update_self, extended.self, agreeing.self]
  · rw [update_of_ne (Side.other_ne x), agreeing.self]
  · rw [update_self, extended.peerId, agreeing.peerId]
  · rw [update_of_ne (Side.other_ne x), agreeing.peerId]
  · rw [update_self, update_of_ne (Side.other_ne y)]
    exact performed
  · rw [Side.other_other, update_self, update_of_ne (Side.other_ne x)]
    have other := agreeing.agrees x.other
    rw [Side.other_other] at other
    exact other.peer extended.self extended.sent

theorem agreeing_run (run : Lib.Run (step env) (start env name limit) trace s)
    (faithful : ∀ t ∈ trace, t.pre.faithful t.action) : Agreeing name s :=
  run.invariant_of faithful (Agreeing name) ⟨fun _ => rfl, fun _ => rfl, fun _ => .new _ _ _ _ _⟩
    fun _ _ _ earlier moved good => earlier.step moved good

/-- Along faithful runs, a responder that accepts the final message for a session of
the initiator sends with the key the initiator receives with, and conversely. -/
theorem key_agreement (name : Side → NodeId) (limit : Nat)
    (run : Lib.Run (step env) (start env name limit) trace s)
    (faithful : ∀ t ∈ trace, t.pre.faithful t.action)
    (session : x ∈ (s responder.other).sessions) (initiator : x.initiator)
    (own : (s responder).kex.ownKey = some x.peer)
    (accepted : ((s responder).recvKeyExchangeFinal (env responder) call sig).2 = true) :
    let c := ((s responder).recvKeyExchangeFinal (env responder) call sig).1
    c.recvKey = some ((s responder.other).sendKeyOf x) ∧ c.sendKey = some ((s responder.other).recvKeyOf x) := by
  have agreeing := agreeing_run run faithful
  have mine := agreeing.agrees responder
  have theirs := agreeing.agrees responder.other
  rw [Side.other_other] at theirs
  obtain ⟨announced, answered⟩ := theirs.sessions x session initiator
  obtain ⟨waiting, peer, known⟩ := mine.responded _ _ answered own
  have salt : (s responder).hkdfSalt = x.salt := theirs.salts _ _ _ known announced
  unfold recvKeyExchangeFinal at accepted ⊢
  simp only [waiting, own, ne_eq, not_true_eq_false, if_false] at accepted ⊢
  cases sig with
  | none => cases accepted
  | some sig =>
  by_cases verified : verifyPeerSignature [x.peer] sig (s responder).peerCv = true
  case neg => simp [verified] at accepted
  cases established : (s responder).establish (env responder) call false with
  | none => simp [verified, established] at accepted
  | some c =>
    obtain ⟨y, -, installed⟩ := establish_spec established
    have keys : ∀ label, y.key label = x.key label := fun label => by
      rw [Session.key, Session.key, installed.salt, salt, some.inj (installed.own.symm.trans own),
        some.inj (installed.peer.symm.trans peer), Sym2.eq_swap]
    simp only [verified, not_true_eq_false, if_false]
    simp only [installed.recvKey, installed.sendKey, sendKeyOf, recvKeyOf, keys, agreeing.self, agreeing.peerId,
      Side.other_other, and_self]

def names : Side → NodeId
  | .alice => ['a']
  | .bob => ['b']

/-- A key exchange, up to the final message that bob is about to receive. -/
def exchange : List (Side × Call × ChannelCall) :=
  [(.alice, ⟨0, 0⟩, .initiate),
    (.bob, ⟨0, 1⟩, .recvKeyExchangeMessage (initBy ['a'] (.own ['a'] 1) [1])),
    (.alice, ⟨0, 2⟩, .recvKeyExchangeMessage (responseBy ['b'] (.own ['b'] 0) (.own ['a'] 1)))]

/-- Alice initiates twice. Bob receives her first init message when she has already
established a session from the second. -/
def replayed : List (Side × Call × ChannelCall) :=
  [(.alice, ⟨0, 0⟩, .initiate), (.alice, ⟨0, 1⟩, .initiate),
    (.bob, ⟨0, 2⟩, .recvKeyExchangeMessage (initBy ['a'] (.own ['a'] 2) [2])),
    (.alice, ⟨0, 3⟩, .recvKeyExchangeMessage (responseBy ['b'] (.own ['b'] 0) (.own ['a'] 2))),
    (.bob, ⟨0, 4⟩, .recvKeyExchangeMessage (initBy ['a'] (.own ['a'] 1) [1]))]

def finalOfAlice : Option Signature := some ⟨['a'], [.own ['b'] 0]⟩

theorem key_agreement_after_exchange :
    ∃ trace s, Lib.Run (step fun _ => trusting) (start (fun _ => trusting) names 100) trace s ∧
      ∃ x ∈ (s .alice).sessions, let c := ((s .bob).recvKeyExchangeFinal trusting ⟨0, 3⟩ finalOfAlice).1
        c.recvKey = some ((s .alice).sendKeyOf x) ∧ c.sendKey = some ((s .alice).recvKeyOf x) := by
  refine Lib.exists_run_of (P := fun trace s => (∀ t ∈ trace, t.pre.faithful t.action = true) ∧
    ((s .bob).recvKeyExchangeFinal trusting ⟨0, 3⟩ finalOfAlice).2 = true ∧
    ∃ x ∈ (s .alice).sessions, x.initiator ∧ (s .bob).kex.ownKey = some x.peer) exchange (by decide +kernel) ?_
  intro trace s run ⟨faithful, accepted, x, session, initiator, own⟩
  exact ⟨x, session, key_agreement names 100 run faithful session initiator own accepted⟩

/-- Bob accepts the final message of a session of alice's and derives other keys. -/
theorem key_disagreement :
    ∃ trace s, Lib.Run (step fun _ => trusting) (start (fun _ => trusting) names 100) trace s ∧
      ((s .bob).recvKeyExchangeFinal trusting ⟨0, 5⟩ finalOfAlice).2 = true ∧
      s.unforged (.recvKeyExchangeMessage (.final finalOfAlice)) = true ∧
      ∃ x ∈ (s .alice).sessions, x.initiator ∧ (s .bob).kex.ownKey = some x.peer ∧
        (s .alice).sendKey = some ((s .alice).sendKeyOf x) ∧
        ((s .bob).recvKeyExchangeFinal trusting ⟨0, 5⟩ finalOfAlice).1.recvKey ≠ some ((s .alice).sendKeyOf x) :=
  Lib.exists_run replayed (by decide +kernel)

end Peers
end CCF.Channels
