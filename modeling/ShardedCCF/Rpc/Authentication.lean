import ShardedCCF.Kv.Opacity
import ShardedCCF.Rpc.Frontend

/-! Requests to endpoints with authentication policies. The policies are asked once,
before the first execution of the handler; each retry has a transaction of its own.
Requests interleave with each other, with other transactions, and with compactions
and rollbacks of the store. -/
namespace CCF.Rpc
open Option

variable {Name K V : Type} [LinearOrder Name] [LinearOrder K]

abbrev Tables (Name K V : Type) [LinearOrder K] := Name → Kv.State K V

/-- Policies on certificates and signatures look the caller up in a map. A caller
without a certificate or a signature has no key. -/
inductive AuthnPolicy (Name K V : Type) where
  | empty
  | lookup (map : Name) (key : Option K) (verify : V → Bool)

namespace AuthnPolicy

def accepts (tables : Tables Name K V) : AuthnPolicy Name K V → Bool
  | .empty => true
  | .lookup map key verify => key.any fun k => ((tables map).value k).any verify

/-- `UserCertAuthnPolicy` and `MemberCertAuthnPolicy`. -/
def cert (map : Name) (callerId : Option K) : AuthnPolicy Name K V := .lookup map callerId fun _ => true

def calls (t : Nat) : AuthnPolicy Name K V → List (Kv.Action Name K V)
  | .lookup map (some key) _ => [.handle t map, .operate t map (.get key)]
  | _ => []

end AuthnPolicy

inductive Progress where
  | received
  | executing
  | committed
  | refused
  deriving DecidableEq, Repr

structure Request (Name K V : Type) [LinearOrder K] where
  policies : List (AuthnPolicy Name K V)
  tx : Nat
  attempts : Nat := 0
  progress : Progress := .received
  /-- The tables at the version that this attempt reads. -/
  read : Option (Tables Name K V) := none

namespace Request

def authenticated (r : Request Name K V) (tables : Tables Name K V) : Bool := r.policies.any (·.accepts tables)

def retry (r : Request Name K V) (tx : Nat) : Request Name K V :=
  if r.attempts + 1 < maxAttempts then { r with tx, attempts := r.attempts + 1, read := none }
  else { r with attempts := r.attempts + 1, progress := .refused }

end Request

structure Service (Name K V : Type) [LinearOrder Name] [LinearOrder K] where
  kv : Kv.System Name K V
  requests : List (Request Name K V)
  nextTx : Nat

inductive Action (Name K V : Type) [LinearOrder Name] [LinearOrder K] where
  /-- A call on a transaction that is not of a request, or on the store. -/
  | other (a : Kv.Action Name K V)
  | authenticate (i : Nat)
  | handle (i : Nat) (name : Name)
  | operate (i : Nat) (name : Name) (op : Kv.Operation K V)
  | commit (i : Nat) (consensus : Option (Kv.Consensus (Kv.WriteSet Name K V)))

namespace Service

def tables (s : Service Name K V) : Tables Name K V := s.kv.store.mapState

def setRequest (s : Service Name K V) (i : Nat) (r : Request Name K V) : Service Name K V :=
  { s with requests := s.requests.set i r }

theorem mem_setRequest {s : Service Name K V} (member : r' ∈ (s.setRequest i r).requests) :
    r' ∈ s.requests ∨ r' = r :=
  List.mem_or_eq_of_mem_set member

inductive Advances (tables : Tables Name K V) (r : Request Name K V) : Request Name K V → Prop where
  | refused : Advances tables r { r with progress := .refused }
  | authenticated (read : Option (Tables Name K V)) : r.policies = [] ∨ r.authenticated tables = true →
      read = none ∨ read = some tables → Advances tables r { r with progress := .executing, read }
  | acquired : r.progress = .executing → Advances tables r { r with read := r.read <|> some tables }
  | retried (tx : Nat) : r.progress = .executing → Advances tables r (r.retry tx)
  | committed : r.progress = .executing → Advances tables r { r with progress := .committed }

section Calls
variable [Inhabited V]

def run (kv : Kv.System Name K V) (calls : List (Kv.Action Name K V)) : Option (Kv.System Name K V) :=
  calls.foldlM Kv.System.step kv

/-- The policies are asked in order, up to the first that accepts the caller. -/
def authenticate (s : Service Name K V) (i : Nat) (r : Request Name K V) : Option (Service Name K V) :=
  if r.progress = .received then
    let asked := r.policies.takeWhile (fun p => !p.accepts s.tables) ++
      (r.policies.find? fun p => p.accepts s.tables).toList
    (run s.kv (asked.flatMap (·.calls r.tx))).map fun kv =>
      if r.policies = [] ∨ r.authenticated s.tables then
        { s with kv }.setRequest i
          { r with
            progress := .executing
            read := if (kv.txs r.tx).readTxid.isSome then some s.tables else none }
      else { s with kv }.setRequest i { r with progress := .refused }
  else none

/-- A handle that cannot be acquired is a conflict with a compaction. The first one
fixes the version that is read. -/
def handle (s : Service Name K V) (i : Nat) (r : Request Name K V) (name : Name) : Option (Service Name K V) :=
  if r.progress = .executing then
    let (acquired, tx, store) := (s.kv.txs r.tx).getHandleByName s.kv.store name
    let kv := { s.kv.setTx r.tx tx with store }
    if acquired then
      some ({ s with kv }.setRequest i { r with read := r.read <|> some s.tables })
    else some ({ s with kv, nextTx := s.nextTx + 1 }.setRequest i (r.retry s.nextTx))
  else none

def commit (s : Service Name K V) (i : Nat) (r : Request Name K V)
    (consensus : Option (Kv.Consensus (Kv.WriteSet Name K V))) : Option (Service Name K V) :=
  if r.progress = .executing then
    ((s.kv.txs r.tx).commit s.kv.store consensus).map fun (result, _, tx, store) =>
      let kv := { s.kv.setTx r.tx tx with store }
      match result with
      | .success => { s with kv }.setRequest i { r with progress := .committed }
      | .failConflict => { s with kv, nextTx := s.nextTx + 1 }.setRequest i (r.retry s.nextTx)
      | .failNoReplicate => { s with kv }.setRequest i { r with progress := .refused }
  else none

def step (s : Service Name K V) : Action Name K V → Option (Service Name K V)
  | .other a => (s.kv.step a).map fun kv => { s with kv }
  | .authenticate i => s.requests[i]?.bind (s.authenticate i)
  | .handle i name => s.requests[i]?.bind fun r => s.handle i r name
  | .operate i name op => s.requests[i]?.bind fun r =>
    if r.progress = .executing then (s.kv.step (.operate r.tx name op)).map fun kv => { s with kv } else none
  | .commit i consensus => s.requests[i]?.bind fun r => s.commit i r consensus

theorem step_advances {s t : Service Name K V} (moved : s.step a = some t) (member : r' ∈ t.requests) :
    r' ∈ s.requests ∨ ∃ r ∈ s.requests, Advances s.tables r r' := by
  cases a with
  | other a =>
    simp only [step, map_eq_some_iff] at moved
    obtain ⟨kv, -, rfl⟩ := moved
    exact .inl member
  | authenticate i =>
    simp only [step, bind_eq_some_iff] at moved
    obtain ⟨r, found, moved⟩ := moved
    have there := List.mem_of_getElem? found
    unfold authenticate at moved
    split at moved
    · simp only [map_eq_some_iff] at moved
      obtain ⟨kv, -, rfl⟩ := moved
      split at member
      · rename_i accepted
        obtain old | rfl := mem_setRequest member
        · exact .inl old
        refine .inr ⟨r, there, .authenticated _ accepted ?_⟩
        split
        · exact .inr rfl
        · exact .inl rfl
      obtain old | rfl := mem_setRequest member
      · exact .inl old
      · exact .inr ⟨r, there, .refused⟩
    · cases moved
  | handle i name =>
    simp only [step, bind_eq_some_iff] at moved
    obtain ⟨r, found, moved⟩ := moved
    have there := List.mem_of_getElem? found
    unfold handle at moved
    split at moved
    · rename_i executing
      dsimp only at moved
      split at moved
      · cases moved
        obtain old | rfl := mem_setRequest member
        · exact .inl old
        · exact .inr ⟨r, there, .acquired executing⟩
      cases moved
      obtain old | rfl := mem_setRequest member
      · exact .inl old
      · exact .inr ⟨r, there, .retried _ executing⟩
    · cases moved
  | operate i name op =>
    simp only [step, bind_eq_some_iff] at moved
    obtain ⟨r, -, moved⟩ := moved
    split at moved
    · simp only [map_eq_some_iff] at moved
      obtain ⟨kv, -, rfl⟩ := moved
      exact .inl member
    · cases moved
  | commit i consensus =>
    simp only [step, bind_eq_some_iff] at moved
    obtain ⟨r, found, moved⟩ := moved
    have there := List.mem_of_getElem? found
    unfold commit at moved
    split at moved
    · rename_i executing
      simp only [map_eq_some_iff] at moved
      obtain ⟨⟨result, batch, tx, store⟩, -, rfl⟩ := moved
      cases result with
      | success =>
        obtain old | rfl := mem_setRequest member
        · exact .inl old
        · exact .inr ⟨r, there, .committed executing⟩
      | failConflict =>
        obtain old | rfl := mem_setRequest member
        · exact .inl old
        · exact .inr ⟨r, there, .retried _ executing⟩
      | failNoReplicate =>
        obtain old | rfl := mem_setRequest member
        · exact .inl old
        · exact .inr ⟨r, there, .refused⟩
    · cases moved

end Calls

/-- The caller of no request that is being executed loses its authentication. -/
def Retains (before after : Service Name K V) : Prop :=
  ∀ r ∈ after.requests, r.progress = .executing → r.authenticated before.tables = true →
    r.authenticated after.tables = true

instance (before after : Service Name K V) : Decidable (Retains before after) :=
  inferInstanceAs (Decidable (∀ r ∈ after.requests, _))

/-- A request that is executed is authenticated, now and in what its attempt reads. -/
structure Guarded (tables : Tables Name K V) (r : Request Name K V) : Prop where
  now : r.progress = .executing → r.authenticated tables = true
  read : r.progress = .executing ∨ r.progress = .committed → ∀ seen, r.read = some seen → r.authenticated seen = true

omit [LinearOrder Name] in
theorem Guarded.retain {tables later : Tables Name K V} {r : Request Name K V} (guarded : Guarded tables r)
    (retained : r.progress = .executing → r.authenticated tables = true → r.authenticated later = true) :
    Guarded later r :=
  ⟨fun executing => retained executing (guarded.now executing), guarded.read⟩

omit [LinearOrder Name] in
theorem Guarded.advance {tables later : Tables Name K V} {r r' : Request Name K V} (guarded : Guarded tables r)
    (policies : r.policies ≠ []) (advances : Advances tables r r')
    (retained : r'.progress = .executing → r'.authenticated tables = true → r'.authenticated later = true) :
    Guarded later r' := by
  cases advances with
  | refused => exact ⟨fun executing => (nomatch executing), fun running => by simp at running⟩
  | authenticated read accepted seen =>
    have accepted := accepted.resolve_left policies
    refine ⟨fun executing => retained executing accepted, fun _ tables' same => ?_⟩
    obtain rfl | rfl := seen
    · cases same
    · cases same
      exact accepted
  | acquired executing =>
    have now := guarded.now executing
    refine ⟨fun executing => retained executing now, fun running tables' same => ?_⟩
    cases first : r.read with
    | none =>
      simp only [first, orElse_eq_orElse, orElse_none, some.injEq] at same
      exact same ▸ now
    | some seen =>
      simp only [first, orElse_eq_orElse, orElse_some, some.injEq] at same
      exact same ▸ guarded.read (.inl executing) seen first
  | retried tx executing =>
    unfold Request.retry at retained ⊢
    split
    · rename_i left
      rw [if_pos left] at retained
      exact ⟨fun running => retained running (guarded.now executing), fun _ tables' same => (nomatch same)⟩
    · exact ⟨fun executing => (nomatch executing), fun running => by simp at running⟩
  | committed executing => exact ⟨fun running => (nomatch running), fun _ => guarded.read (.inl executing)⟩

omit [LinearOrder Name] in
theorem advances_policies {tables : Tables Name K V} (advances : Advances tables r r') : r'.policies = r.policies := by
  cases advances with
  | retried tx executing =>
    unfold Request.retry
    split <;> rfl
  | _ => rfl

/-- In a run in which no caller is removed while its request is executed, a request
that commits was authenticated in the very tables that its attempt read. -/
theorem commits_authenticated [Inhabited V] {kv : Kv.System Name K V} {requests : List (Request Name K V)} {nextTx : Nat}
    (received : ∀ r ∈ requests, r.progress = .received) (policies : ∀ r ∈ requests, r.policies ≠ [])
    (run : Lib.Run step ⟨kv, requests, nextTx⟩ trace s) (retained : ∀ t ∈ trace, Retains t.pre t.post) :
    ∀ r ∈ s.requests, r.progress = .committed → ∀ seen, r.read = some seen → r.authenticated seen = true := by
  suffices guarded : ∀ r ∈ s.requests, r.policies ≠ [] ∧ Guarded s.tables r from
    fun r member committed => (guarded r member).2.read (.inr committed)
  refine run.invariant_of retained (fun s => ∀ r ∈ s.requests, r.policies ≠ [] ∧ Guarded s.tables r) ?_ ?_
  · intro r member
    have fresh := received r member
    exact ⟨policies r member, fun executing => by simp [fresh] at executing, fun running => by simp [fresh] at running⟩
  · intro s a t ih moved retains r member
    obtain old | ⟨r₀, there, advances⟩ := step_advances moved member
    · exact ⟨(ih r old).1, (ih r old).2.retain (retains r member)⟩
    · have nonempty := (ih r₀ there).1
      exact ⟨advances_policies advances ▸ nonempty, (ih r₀ there).2.advance nonempty advances (retains r member)⟩

/-- Map 0 holds the certificates of users, and user 7 asks for a handler on map 1. -/
def userRequest : Request Nat Nat Nat := { policies := [.cert 0 (some 7)], tx := 0 }

def oneRequest : Service Nat Nat Nat := ⟨{ store := Kv.Store.empty }, [userRequest], 20⟩

/-- A transaction of the service that writes or removes one key. -/
def transaction (t name : Nat) (op : Kv.Operation Nat Nat) : List (Action Nat Nat Nat) :=
  [.other (.handle t name), .other (.operate t name op), .other (.commit t none)]

def incremented (value : Nat) : List (Action Nat Nat Nat) :=
  [.handle 0 1, .operate 0 1 (.get 3), .operate 0 1 (.put 3 value)]

/-- User 7 is added, and its request commits at the second attempt. -/
theorem commits_authenticated_retried : ∃ trace s, Lib.Run step oneRequest trace s ∧
    (s.requests.map fun r => (r.progress, r.attempts)) = [(.committed, 1)] ∧
    ∀ r ∈ s.requests, r.progress = .committed → ∀ seen, r.read = some seen → r.authenticated seen = true := by
  refine Lib.exists_run_of (P := fun trace s => (s.requests.map fun r => (r.progress, r.attempts)) = [(.committed, 1)] ∧
    ∀ t ∈ trace, Retains t.pre t.post)
    (List.flatten [transaction 10 0 (.put 7 1), [.authenticate 0], incremented 5, transaction 11 1 (.put 3 4),
      [.commit 0 none], incremented 6, [.commit 0 none]]) (by decide +kernel) ?_
  exact fun trace s run ⟨ended, retained⟩ => ⟨ended, commits_authenticated (by decide) (by decide) run retained⟩

/-- User 7 is removed while its request is executed. The attempt conflicts, and the
next one commits although no policy accepts the user in what it reads. -/
theorem removed_user_commits : ∃ trace s, Lib.Run step oneRequest trace s ∧
    ∃ r ∈ s.requests, r.progress = .committed ∧ ∃ seen, r.read = some seen ∧ r.authenticated seen = false :=
  Lib.exists_run (List.flatten [transaction 10 0 (.put 7 1), [.authenticate 0], incremented 5, transaction 11 1 (.put 3 4),
    transaction 12 0 (.remove 7), [.commit 0 none], incremented 6, [.commit 0 none]]) (by decide +kernel)

end Service
end CCF.Rpc
