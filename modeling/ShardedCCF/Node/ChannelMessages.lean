import ShardedCCF.Node.ChannelKeys

/-! The messages that an established channel receives: what a forged one can do,
and how often a genuine one is accepted. -/
namespace CCF.Channels
open List

def maxNumThreads : Nat := 24

structure GcmHdr where
  tag : Bytes
  iv : Bytes
  deriving DecidableEq

namespace GcmHdr

def serialisedSize : Nat := 24

/-- The header and what follows it. Short data is an error, which is thrown. -/
def deserialise (data : Bytes) : Option (GcmHdr × Bytes) :=
  if data.length < serialisedSize then none
  else some (⟨data.take 16, (data.drop 16).take 8⟩, data.drop serialisedSize)

def tid (h : GcmHdr) : Nat := Lib.ofBytes (h.iv.take 1)

def nonce (h : GcmHdr) : Nat := Lib.ofBytes (h.iv.drop 1)

end GcmHdr

/-- What `recv_authenticated`, `recv_authenticated_with_load` and `recv_encrypted`
are called with. -/
inductive Incoming where
  | authenticated (aad data : Bytes)
  | authenticatedWithLoad (data : Bytes)
  | encrypted (aad data : Bytes)

/-- The header, with the cipher text and the additional data that its tag covers. -/
def Incoming.unpack : Incoming → Option (GcmHdr × Bytes × Bytes)
  | .authenticated aad data => (GcmHdr.deserialise data).map fun (h, _) => (h, [], aad)
  | .authenticatedWithLoad data =>
    -- For short data the size to skip wraps around, and `skip` throws.
    if data.length < GcmHdr.serialisedSize then none
    else
      let load := data.length - GcmHdr.serialisedSize
      (GcmHdr.deserialise (data.drop load)).map fun (h, _) => (h, [], data.take load)
  | .encrypted aad data => (GcmHdr.deserialise data).map fun (h, cipher) => (h, cipher, aad)

inductive Received where
  | threw
  | outside
  | returned (c : Channel) (accepted : Bool)

namespace Channel
variable {env : Env} {call : Call} {c c' : Channel} {m : Incoming} {verifies : GcmHdr → Bytes → Bytes → Bool}

/-- Which tags verify under the key is given. The thread in the header is the index of
an array, and only a debug build checks it. -/
def recv (env : Env) (call : Call) (verifies : GcmHdr → Bytes → Bytes → Bool) (c : Channel) (m : Incoming) : Received :=
  if c.status ≠ .established then .returned (c.advanceConnectionAttempt env call) false
  else
    match m.unpack with
    | none => .threw
    | some (h, cipher, aad) =>
      if maxNumThreads ≤ h.tid then .outside
      else
        let (c, accepted) := c.decrypt env call h.tid h.nonce (verifies h cipher aad)
        .returned c accepted

def Unaffected (c : Channel) : Received → Prop
  | .threw => True
  | .outside => False
  | .returned c' accepted =>
    accepted = false ∧ c'.status = c.status ∧ c'.recvKey = c.recvKey ∧ c'.sendKey = c.sendKey ∧
      c'.sendNonce = c.sendNonce ∧ c'.localRecvNonce = c.localRecvNonce

/-- The thread exists, and the nonce is an old one or does not reach the limit. -/
def Harmless (call : Call) (c : Channel) (h : GcmHdr) : Prop :=
  h.tid < maxNumThreads ∧
    (h.nonce ≤ c.lastNonce call h.tid ∨ (c.sendNonce + h.nonce) % 2 ^ 64 < c.messageLimit)

@[simp] theorem initiate_status (env : Env) (call : Call) (c : Channel) : (c.initiate env call).status = .initiated := by
  unfold initiate sendKeyExchangeInit
  dsimp only
  split <;> rfl

theorem decrypt_forged (env : Env) (call : Call) (tid nonce : Nat) (c : Channel) :
    c.decrypt env call tid nonce false =
      (if c.lastNonce call tid < nonce ∧ c.messageLimit ≤ (c.sendNonce + nonce) % 2 ^ 64
        then (c.reset env).initiate env call else c, false) := by
  unfold decrypt
  split
  · rw [if_neg (by omega)]
  simp only [Bool.false_eq_true, if_false, ge_iff_le]
  congr 1
  exact if_congr (by omega) rfl rfl

def fresh : Channel :=
  install ⟨.own ['a'] 0, .own ['b'] 0, [], true⟩ (new trusting ['a'] ['b'] 100)

structure Delivery where
  call : Call
  tid : Nat
  nonce : Nat
  authentic : Bool

def acceptedOf (env : Env) : Channel → List Delivery → List (Nat × Nat)
  | _, [] => []
  | c, d :: rest =>
    let (c, accepted) := c.recvSealed env d.call d.tid d.nonce d.authentic
    if accepted then (d.tid, d.nonce) :: acceptedOf env c rest else acceptedOf env c rest

@[simp] theorem initiate_localRecvNonce (env : Env) (call : Call) (c : Channel) :
    (c.initiate env call).localRecvNonce = c.localRecvNonce := by
  unfold initiate sendKeyExchangeInit
  dsimp only
  split <;> rfl

theorem advanceConnectionAttempt_localRecvNonce (env : Env) (call : Call) (c : Channel) :
    (c.advanceConnectionAttempt env call).localRecvNonce = c.localRecvNonce := by
  unfold advanceConnectionAttempt
  split
  · exact initiate_localRecvNonce env call c
  · split
    · exact initiate_localRecvNonce env call c
    · rfl
  · rfl

theorem lastNonce_congr (same : c'.localRecvNonce = c.localRecvNonce) : c'.lastNonce call t = c.lastNonce call t := by
  rw [lastNonce, lastNonce, same]

theorem lastNonce_setLastNonce_self (c : Channel) (side : call'.tid = 0 ↔ call.tid = 0) :
    (c.setLastNonce call tid nonce).lastNonce call' tid = nonce := by
  by_cases main : call.tid = 0 <;> simp [lastNonce, setLastNonce, side, main]

theorem lastNonce_setLastNonce_of_ne (c : Channel) (other : t ≠ tid) :
    (c.setLastNonce call tid nonce).lastNonce call' t = c.lastNonce call' t := by
  simp [lastNonce, setLastNonce, other]

/-- A delivery is refused, or its nonce is a new one and is recorded. -/
theorem recvSealed_cases (env : Env) (call : Call) (tid nonce : Nat) (authentic : Bool) (c : Channel) :
    ∃ c', (c.recvSealed env call tid nonce authentic = (c', false) ∧ c'.localRecvNonce = c.localRecvNonce) ∨
      (c.recvSealed env call tid nonce authentic = (c', true) ∧ c.lastNonce call tid < nonce ∧
        c'.localRecvNonce = (c.setLastNonce call tid nonce).localRecvNonce) := by
  -- The limit leaves the nonces.
  have limited (d : Channel) (reached : Prop) [Decidable reached] :
      (if reached then (d.reset env).initiate env call else d).localRecvNonce = d.localRecvNonce := by
    split
    · exact initiate_localRecvNonce env call (d.reset env)
    · rfl
  unfold recvSealed decrypt
  split
  · exact ⟨_, .inl ⟨rfl, advanceConnectionAttempt_localRecvNonce env call c⟩⟩
  split
  · exact ⟨_, .inl ⟨rfl, rfl⟩⟩
  rename_i above
  cases authentic with
  | false => exact ⟨_, .inl ⟨rfl, limited c _⟩⟩
  | true => exact ⟨_, .inr ⟨rfl, not_le.mp above, limited (c.setLastNonce call tid nonce) _⟩⟩

/-- Every delivery of the thread's messages is processed on the side of the call: on
the main thread, or on workers. -/
def SameSide (call : Call) (tid : Nat) (ds : List Delivery) : Prop :=
  ∀ d ∈ ds, d.tid = tid → (call.tid = 0 ↔ d.call.tid = 0)

theorem lastNonce_lt_of_mem_acceptedOf (side : SameSide call t ds) (accepted : (t, n) ∈ acceptedOf env c ds) :
    c.lastNonce call t < n := by
  induction ds generalizing c with
  | nil => cases accepted
  | cons d ds ih =>
    have later : SameSide call t ds := fun d' member => side d' (mem_cons_of_mem d member)
    have here := side d mem_cons_self
    obtain ⟨c', ⟨refused, same⟩ | ⟨taken, above, recorded⟩⟩ :=
      recvSealed_cases env d.call d.tid d.nonce d.authentic c
    · simp only [acceptedOf, refused, Bool.false_eq_true, if_false] at accepted
      exact lastNonce_congr same ▸ ih later accepted
    simp only [acceptedOf, taken, if_true] at accepted
    by_cases own : t = d.tid
    · subst own
      have before : c.lastNonce call d.tid < d.nonce := by simpa only [lastNonce, here rfl] using above
      rcases mem_cons.mp accepted with now | after
      · cases now
        exact before
      have newer := ih later after
      rw [lastNonce_congr recorded, lastNonce_setLastNonce_self c (here rfl)] at newer
      exact before.trans newer
    · have newer := ih later ((mem_cons.mp accepted).resolve_left fun now => own (congrArg Prod.fst now))
      rwa [lastNonce_congr recorded, lastNonce_setLastNonce_of_ne c own] at newer

end Channel
end CCF.Channels
