import ShardedCCF.Node.Channels
import ShardedCCF.Lib.Run

/-! No own key share and no IV is used twice. A share is dropped when a secret is
derived from it, and what is derived later comes from a share made later. -/
namespace CCF.Channels
open List

variable {env : Env} {c c' : Channel} {call : Call}

theorem KeyShare.madeBefore_mono {s : KeyShare} (le : m ≤ n) (before : s.madeBefore node m) :
    s.madeBefore node n := by
  cases s with
  | own by' count =>
    simp only [madeBefore, Bool.or_eq_true, decide_eq_true_eq] at before ⊢
    exact before.imp_right fun lower => lower.trans_le le
  | other => rfl

theorem KeyShare.not_madeBefore (node : NodeId) (n : Nat) : ¬ (KeyShare.own node n).madeBefore node n := by
  simp [madeBefore]

def Session.madeBefore (node : NodeId) (made : Nat) (x : Session) : Prop :=
  x.own.madeBefore node made ∧ x.peer.madeBefore node made

theorem Session.key_ne {x y : Session} (before : x.madeBefore node n) (own : y.own = .own node n) :
    x.key label ≠ y.key label' := by
  intro same
  have secrets : s(x.own, x.peer) = s(y.own, y.peer) := congrArg Key.secret same
  have member : y.own ∈ s(x.own, x.peer) := secrets ▸ Sym2.mem_mk_left y.own y.peer
  rw [own, Sym2.mem_iff] at member
  rcases member with equal | equal
  · exact KeyShare.not_madeBefore node n (equal ▸ before.1)
  · exact KeyShare.not_madeBefore node n (equal ▸ before.2)

/-- The counters under one key are the first ones, each once, the newest first. -/
def Numbered (sealed : List Sealed) : Prop :=
  ∀ key, (sealed.filter (·.key = key)).map (·.iv / 256) =
    ((List.range (sealed.filter (·.key = key)).length).map fun i => (i + 1) % 2 ^ 56).reverse

/-- Fewer messages than counters leave no two with one IV. -/
theorem Numbered.nodup {sealed : List Sealed} (numbered : Numbered sealed) (few : ∀ key, (sealed.filter (·.key = key)).length < 2 ^ 56) :
    (sealed.map fun p => (p.key, p.iv)).Nodup := by
  have counters : ∀ key, ((sealed.filter (·.key = key)).map (·.iv / 256)).Nodup := fun key => by
    rw [numbered key, nodup_reverse]
    refine Nodup.map_on (fun i inside j inside' same => ?_) nodup_range
    have := few key
    rw [mem_range] at inside inside'
    omega
  refine pairwise_map.mpr (pairwise_iff_forall_sublist.mpr ?_)
  intro p q ordered same
  obtain ⟨key, iv⟩ := Prod.mk.inj same
  have both : [p, q].Sublist (sealed.filter (·.key = q.key)) := by
    have := ordered.filter (·.key = q.key)
    simpa [key] using this
  have pair := (both.map (·.iv / 256)).nodup (counters q.key)
  simp [iv] at pair

theorem KeyExchangeContext.loadPeerKeyShare_eq {k k' : KeyExchangeContext} (loaded : k.loadPeerKeyShare ks = some k') :
    ∃ share, ks = [share] ∧ k' = { k with peerKey := some share } := by
  unfold KeyExchangeContext.loadPeerKeyShare at loaded
  split at loaded
  · rename_i share
    exact ⟨share, rfl, (Option.some.inj loaded).symm⟩
  · cases loaded

namespace Channel

def sealedWith (c : Channel) (key : Key) : List Sealed := c.sealed.filter (·.key = key)

structure SharesFresh (c : Channel) : Prop where
  own : ∀ share, c.kex.ownKey = some share → ∃ n, c.kex.made = n + 1 ∧ share = .own c.self n ∧
    ∀ x ∈ c.sessions, x.madeBefore c.self n
  peer : ∀ share, c.kex.peerKey = some share → share.madeBefore c.self c.kex.made
  sessions : ∀ x ∈ c.sessions, x.madeBefore c.self c.kex.made
  distinct : (c.sessions.map (·.own)).Nodup

structure SealsNumbered (c : Channel) : Prop where
  current : ∀ key, c.sendKey = some key → ∃ x ∈ c.sessions, key = c.sendKeyOf x
  nonce : ∀ key, c.sendKey = some key → c.sendNonce = ((c.sealedWith key).length + 1) % 2 ^ 64
  earlier : ∀ p ∈ c.sealed, ∃ x ∈ c.sessions, p.key = c.sendKeyOf x
  numbered : Numbered c.sealed

structure Secure (c : Channel) : Prop where
  fresh : c.SharesFresh
  seals : c.SealsNumbered

structure SameKeys (c c' : Channel) : Prop where
  self : c'.self = c.self
  peerId : c'.peerId = c.peerId
  kex : c'.kex = c.kex
  sendKey : c'.sendKey = c.sendKey
  sendNonce : c'.sendNonce = c.sendNonce
  sealed : c'.sealed = c.sealed
  sessions : c'.sessions = c.sessions

theorem SealsNumbered.congr (seals : c.SealsNumbered) (self : c'.self = c.self) (peerId : c'.peerId = c.peerId)
    (sendKey : c'.sendKey = c.sendKey) (sendNonce : c'.sendNonce = c.sendNonce) (sealed : c'.sealed = c.sealed)
    (sessions : c'.sessions = c.sessions) : c'.SealsNumbered := by
  obtain ⟨current, nonce, earlier, numbered⟩ := seals
  have keys : c'.sendKeyOf = c.sendKeyOf := funext fun x => by rw [sendKeyOf, sendKeyOf, self, peerId]
  refine ⟨?_, ?_, ?_, ?_⟩
  · rw [sendKey, sessions, keys]
    exact current
  · simp only [sealedWith, sendKey, sendNonce, sealed]
    exact nonce
  · rw [sealed, sessions, keys]
    exact earlier
  · rw [sealed]
    exact numbered

section
variable (secure : c.Secure)
include secure

theorem Secure.congr (same : SameKeys c c') : c'.Secure := by
  refine ⟨?_, secure.seals.congr same.self same.peerId same.sendKey same.sendNonce same.sealed same.sessions⟩
  obtain ⟨own, peer, sessions, distinct⟩ := secure.fresh
  refine ⟨?_, ?_, ?_, ?_⟩
  all_goals simp only [same.kex, same.self, same.sessions]; assumption

theorem Secure.renew : ({ c with kex := c.kex.reset c.self } : Channel).Secure := by
  refine ⟨⟨fun share own => ⟨c.kex.made, rfl, (Option.some.inj own).symm, secure.fresh.sessions⟩, ?_,
    fun x member => ?_, secure.fresh.distinct⟩, secure.seals.congr rfl rfl rfl rfl rfl rfl⟩
  · intro share absent
    cases absent
  · have before := secure.fresh.sessions x member
    exact ⟨KeyShare.madeBefore_mono (Nat.le_succ _) before.1, KeyShare.madeBefore_mono (Nat.le_succ _) before.2⟩

theorem Secure.load (before : share.madeBefore c.self c.kex.made) :
    ({ c with kex := { c.kex with peerKey := some share } } : Channel).Secure := by
  refine ⟨⟨secure.fresh.own, ?_, secure.fresh.sessions, secure.fresh.distinct⟩,
    secure.seals.congr rfl rfl rfl rfl rfl rfl⟩
  intro other same
  cases same
  exact before

theorem Secure.forgetKey : ({ c with sendKey := none } : Channel).Secure := by
  obtain ⟨⟨own, peer, sessions, distinct⟩, ⟨current, nonce, earlier, numbered⟩⟩ := secure
  refine ⟨⟨own, peer, sessions, distinct⟩, ⟨?_, ?_, earlier, numbered⟩⟩
  · intro key absent
    cases absent
  · intro key absent
    cases absent

theorem Secure.initiate : (c.initiate env call).Secure := by
  exact secure.renew.congr ⟨rfl, rfl, rfl, rfl, rfl, rfl, rfl⟩

theorem Secure.reset : (c.reset env).Secure :=
  secure.forgetKey.renew.congr ⟨rfl, rfl, rfl, rfl, rfl, rfl, rfl⟩

theorem Secure.advanceConnectionAttempt : (c.advanceConnectionAttempt env call).Secure := by
  unfold Channel.advanceConnectionAttempt
  split
  · exact secure.initiate
  · split
    · exact secure.initiate
    · exact secure
  · exact secure

end

theorem iv_div (nonce tid : Nat) : ivOf nonce tid / 256 = nonce % 2 ^ 56 := by
  unfold ivOf
  omega

theorem Secure.encrypt (secure : c.Secure) : (c.encrypt call msg).Secure := by
  unfold Channel.encrypt
  split
  · exact secure
  rename_i key held
  obtain ⟨fresh, ⟨current, nonce, earlier, numbered⟩⟩ := secure
  refine ⟨⟨fresh.own, fresh.peer, fresh.sessions, fresh.distinct⟩, ⟨current, ?_, ?_, ?_⟩⟩
  · intro other same
    obtain rfl : key = other := Option.some.inj (held.symm.trans same)
    have := nonce key held
    simp only [sealedWith, filter_cons, decide_true, if_true, length_cons] at this ⊢
    omega
  · intro p member
    rcases mem_cons.mp member with rfl | older
    · exact current key held
    · exact earlier p older
  · intro other
    by_cases same : key = other
    · subst same
      have counted := nonce key held
      simp only [sealedWith] at counted
      simp only [filter_cons, decide_true, if_true, map_cons, length_cons, range_succ,
        map_append, reverse_append, map_nil, reverse_cons, reverse_nil, nil_append,
        singleton_append, iv_div, numbered key]
      congr 1
      omega
    · simp only [filter_cons, same, decide_false, Bool.false_eq_true, if_false]
      exact numbered other

theorem Secure.send (secure : c.Secure) : (c.send env call msg).1.Secure := by
  unfold Channel.send
  split
  · exact secure.advanceConnectionAttempt.congr ⟨rfl, rfl, rfl, rfl, rfl, rfl, rfl⟩
  · exact secure.encrypt

/-- No earlier session has the key of one from a share made later. -/
theorem Secure.install (secure : c.Secure) (salt : Salt) (initiator : Bool) (own : c.kex.ownKey = some share) (peer : c.kex.peerKey = some share') :
    (Channel.install ⟨share, share', salt, initiator⟩
      { c with kex := { c.kex with ownKey := none, peerKey := none } }).Secure := by
  obtain ⟨⟨ownFresh, peerFresh, sessions, distinct⟩, ⟨current, nonce, earlier, numbered⟩⟩ := secure
  obtain ⟨n, made, rfl, older⟩ := ownFresh share own
  set x : Session := ⟨.own c.self n, share', salt, initiator⟩
  have unused : ∀ label, c.sealed.filter (·.key = x.key label) = [] := fun label => by
    rw [filter_eq_nil_iff]
    intro p member
    obtain ⟨y, known, key⟩ := earlier p member
    simp only [decide_eq_true_eq, key]
    exact Session.key_ne (older y known) rfl
  refine ⟨⟨?_, ?_, ?_, ?_⟩, ⟨?_, ?_, ?_, numbered⟩⟩
  · intro share absent
    cases absent
  · intro share absent
    cases absent
  · intro y member
    rcases mem_cons.mp member with rfl | known
    · refine ⟨?_, peerFresh share' peer⟩
      simp [KeyShare.madeBefore, x, Channel.install, made]
    · exact sessions y known
  · refine nodup_cons.mpr ⟨fun member => ?_, distinct⟩
    obtain ⟨y, known, same⟩ := List.mem_map.mp member
    have before := (older y known).1
    rw [same] at before
    exact KeyShare.not_madeBefore c.self n before
  · intro key same
    cases same
    exact ⟨x, mem_cons_self, rfl⟩
  · intro key same
    cases same
    have none : (c.sealed.filter (·.key = x.key (c.self ++ c.peerId))).length = 0 := by
      rw [unused]
      rfl
    change 1 = ((c.sealed.filter (·.key = x.key (c.self ++ c.peerId))).length + 1) % 2 ^ 64
    omega
  · intro p member
    obtain ⟨y, known, key⟩ := earlier p member
    exact ⟨y, mem_cons_of_mem _ known, key⟩

theorem Secure.establish (secure : c.Secure) (established : c.establish env call initiator = some c') :
    c'.Secure := by
  unfold Channel.establish KeyExchangeContext.computeSharedSecret at established
  cases own : c.kex.ownKey with
  | none => simp [own] at established
  | some share =>
    cases peer : c.kex.peerKey with
    | none => simp [own, peer] at established
    | some share' =>
      simp only [own, peer] at established
      split at established
      · cases established
      rename_i own' peer' kex derived
      split at derived
      · cases derived
        have installed := secure.install c.hkdfSalt initiator own peer
        split at established
        · cases established
          exact installed
        rename_i msg _
        cases established
        have sent : (Channel.send env call msg _).1.Secure := installed.send
        exact sent.congr ⟨rfl, rfl, rfl, rfl, rfl, rfl, rfl⟩
      · cases derived

theorem SameKeys.sendKeyExchangeResponse (sent : c.sendKeyExchangeResponse = some c') : SameKeys c c' := by
  unfold Channel.sendKeyExchangeResponse at sent
  split at sent
  · cases sent
    exact ⟨rfl, rfl, rfl, rfl, rfl, rfl, rfl⟩
  · cases sent

theorem SameKeys.sendKeyExchangeFinal (sent : c.sendKeyExchangeFinal = some c') : SameKeys c c' := by
  unfold Channel.sendKeyExchangeFinal at sent
  split at sent
  · cases sent
  · cases sent
    exact ⟨rfl, rfl, rfl, rfl, rfl, rfl, rfl⟩

theorem Secure.loadPeerKeyShare {kex : KeyExchangeContext} (secure : c.Secure) (foreseen : ∀ share ∈ ks, share.madeBefore c.self c.kex.made)
    (loaded : c.kex.loadPeerKeyShare ks = some kex) : ({ c with kex } : Channel).Secure := by
  obtain ⟨share, rfl, rfl⟩ := KeyExchangeContext.loadPeerKeyShare_eq loaded
  exact secure.load (foreseen share mem_cons_self)

section
variable (secure : c.Secure)
include secure

theorem Secure.recvKeyExchangeInit (foreseen : ∀ share ∈ ks, share.madeBefore c.self c.kex.made) :
    (c.recvKeyExchangeInit env version ks sig pc salt excess priority).1.Secure := by
  unfold Channel.recvKeyExchangeInit
  split
  · exact secure
  split
  · exact secure
  split
  case h_2 => exact secure
  rename_i sig cert
  iterate 5
    split
    · exact secure
  dsimp only
  -- An established channel takes a new share first.
  generalize taken : (if c.status = .established then { c with kex := c.kex.reset c.self } else c : Channel) = d
  obtain ⟨secure', foreseen'⟩ : d.Secure ∧ ∀ share ∈ ks, share.madeBefore d.self d.kex.made := by
    subst taken
    split
    · exact ⟨secure.renew, fun share member => KeyShare.madeBefore_mono (Nat.le_succ _) (foreseen share member)⟩
    · exact ⟨secure, foreseen⟩
  have accepted : ({ d with peerCv := some cert, hkdfSalt := salt } : Channel).Secure :=
    secure'.congr ⟨rfl, rfl, rfl, rfl, rfl, rfl, rfl⟩
  split
  · exact accepted
  rename_i kex loaded
  have waiting : ({ d with peerCv := some cert, hkdfSalt := salt, kex, status := .waitingForFinal } :
      Channel).Secure :=
    (accepted.loadPeerKeyShare foreseen' loaded).congr ⟨rfl, rfl, rfl, rfl, rfl, rfl, rfl⟩
  split
  · exact waiting
  · rename_i sent
    exact waiting.congr (.sendKeyExchangeResponse sent)

theorem Secure.recvKeyExchangeResponse (foreseen : ∀ share ∈ ks, share.madeBefore c.self c.kex.made) :
    (c.recvKeyExchangeResponse env call version ks sig pc excess).1.Secure := by
  unfold Channel.recvKeyExchangeResponse
  iterate 3
    split
    · exact secure
  split
  case h_2 => exact secure
  rename_i sig cert oks own
  iterate 3
    split
    · exact secure
  dsimp only
  have accepted : ({ c with peerCv := some cert } : Channel).Secure :=
    secure.congr ⟨rfl, rfl, rfl, rfl, rfl, rfl, rfl⟩
  split
  · exact accepted
  rename_i kex loaded
  have exchanged := accepted.loadPeerKeyShare foreseen loaded
  split
  · exact exchanged
  rename_i d sent
  have finished := exchanged.congr (.sendKeyExchangeFinal sent)
  split
  · exact finished
  · rename_i established
    exact finished.establish established

theorem Secure.recvKeyExchangeFinal : (c.recvKeyExchangeFinal env call sig).1.Secure := by
  unfold Channel.recvKeyExchangeFinal
  split
  · exact secure
  split
  · split
    · exact secure
    split
    · exact secure
    · rename_i established
      exact secure.establish established
  · exact secure

theorem Secure.decrypt : (c.decrypt env call tid nonce authentic).1.Secure := by
  unfold Channel.decrypt
  split
  · exact secure
  dsimp only
  generalize taken : (if authentic then c.setLastNonce call tid nonce else c : Channel) = d
  have noted : d.Secure := by
    subst taken
    split
    · exact secure.congr ⟨rfl, rfl, rfl, rfl, rfl, rfl, rfl⟩
    · exact secure
  split
  · exact noted.reset.initiate
  · exact noted

theorem Secure.step (moved : c.step env action = some c') : c'.Secure := by
  unfold Channel.step at moved
  split at moved
  case isFalse => cases moved
  rename_i foreseen
  cases moved
  obtain ⟨call, action⟩ := action
  cases action with
  | recvKeyExchangeMessage m =>
    have foreseen : ∀ share ∈ m.shares, share.madeBefore c.self c.kex.made := List.all_eq_true.mp foreseen
    cases m with
    | init => exact secure.recvKeyExchangeInit foreseen
    | response => exact secure.recvKeyExchangeResponse foreseen
    | final => exact secure.recvKeyExchangeFinal
    | malformed => exact secure
  | recvSealed tid nonce authentic =>
    simp only [perform, recvSealed]
    split
    · exact secure.advanceConnectionAttempt
    · exact secure.decrypt
  | send msg => exact secure.send
  | initiate => exact secure.initiate
  | reset => exact secure.reset
  | closeChannel =>
    have closed : (c.reset env).Secure := secure.reset
    exact closed.congr ⟨rfl, rfl, rfl, rfl, rfl, rfl, rfl⟩

end

theorem Secure.new (env : Env) (self peerId : NodeId) (limit : Nat) : (Channel.new env self peerId limit).Secure := by
  refine ⟨⟨fun share own => ⟨0, rfl, (Option.some.inj own).symm, ?_⟩, ?_, ?_, nodup_nil⟩, ⟨?_, ?_, ?_, ?_⟩⟩
  all_goals first | exact fun _ => rfl | exact nofun

/-- Over any calls on a channel, and any messages that guess no share to come, no
two sessions come from one own share, and no two messages are sealed under one key
with one IV as long as its counters last. -/
theorem keys_and_nonces_unique (self peerId : NodeId) (limit : Nat)
    (run : Lib.Run (step env) (Channel.new env self peerId limit) trace c)
    (few : ∀ key, (c.sealedWith key).length < 2 ^ 56) :
    (c.sessions.map (·.own)).Nodup ∧ (c.sealed.map fun p => (p.key, p.iv)).Nodup := by
  have secure := run.invariant Secure (.new env self peerId limit) fun _ _ _ secure moved => secure.step moved
  exact ⟨secure.fresh.distinct, secure.seals.numbered.nodup few⟩

/-- Every certificate is endorsed, every point derives a secret. -/
def trusting : Env where
  endorsed _ := true
  derives _ := true
  random n := [Fin.ofNat 256 n]
  minGapBetweenInitiationAttempts := 1

/-- A session as the initiator, and after a reset another one as the responder. -/
def twoSessions : List (Call × ChannelCall) :=
  [(⟨0, 0⟩, .initiate),
    (⟨0, 1⟩, .recvKeyExchangeMessage (.response 1 [.other 7] (some ⟨['b'], [.other 7, .own ['a'] 1]⟩) (some ['b']) 0)),
    (⟨0, 2⟩, .send ⟨1, [], [5]⟩), (⟨1, 2⟩, .send ⟨1, [], [6]⟩), (⟨0, 3⟩, .reset),
    (⟨0, 4⟩, .recvKeyExchangeMessage (.init 1 [.other 8] (some ⟨['b'], [.other 8]⟩) (some ['b']) [9] 0)),
    (⟨0, 5⟩, .recvKeyExchangeMessage (.final (some ⟨['b'], [.own ['a'] 2]⟩))),
    (⟨0, 6⟩, .send ⟨1, [], [7]⟩)]

theorem keys_and_nonces_unique_two_sessions :
    ∃ trace c, Lib.Run (step trusting) (Channel.new trusting ['a'] ['b'] 100) trace c ∧
      c.sessions.length = 2 ∧ c.sealed.length = 3 ∧
      (c.sessions.map (·.own)).Nodup ∧ (c.sealed.map fun p => (p.key, p.iv)).Nodup := by
  refine Lib.exists_run_of (P := fun _ c => c.sessions.length = 2 ∧ c.sealed.length = 3) twoSessions (by decide +kernel) ?_
  intro trace c run ⟨sessions, sealed⟩
  refine ⟨sessions, sealed, keys_and_nonces_unique ['a'] ['b'] 100 run fun key => ?_⟩
  calc (c.sealedWith key).length ≤ c.sealed.length := length_filter_le _ _
    _ = 3 := sealed
    _ < 2 ^ 56 := by decide

end Channel
end CCF.Channels
