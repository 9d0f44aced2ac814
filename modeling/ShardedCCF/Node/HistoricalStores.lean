import ShardedCCF.Node.HistoricalSteps

/-! The stores that historical requests return. An entry is deserialised once for
all the requests that fetch it, without its private writes if one of them waits for
a ledger secret in it. -/
namespace CCF.Historical

variable {service : Service} {ledger : Nat → LedgerEntry} {r r' : Request} {c c' u : StateCache} {a : Action}

def Action.Honest (ledger : Nat → LedgerEntry) : Action → Prop
  | .ledgerEntry seqno data => data = some (ledger seqno)
  | _ => True

/-- No request fetches an entry that another one waits for the ledger secret in. -/
def StateCache.Unshared (c : StateCache) : Action → Prop
  | .ledgerEntry seqno _ => (∃ x ∈ c.requests, x.2.awaits seqno) →
    ∀ x ∈ c.requests, x.2.awaits seqno ∨ x.2.fetches seqno = false
  | _ => True

def Request.Complete (ledger : Nat → LedgerEntry) (r : Request) : Prop :=
  ∀ s d, r.getStoreDetails s = some d → d.currentStage = .trusted → d.store = some ((ledger s).store false)

def StateCache.Complete (ledger : Nat → LedgerEntry) (c : StateCache) : Prop :=
  ∀ x ∈ c.requests, x.2.Complete ledger

namespace Request

theorem complete_empty : ({} : Request).Complete ledger := by
  intro s d tracked
  simp [getStoreDetails] at tracked

theorem not_trusted_of_fresh (fresh : SameEntry {} d) : d.currentStage ≠ .trusted := by
  rw [fresh.currentStage]
  decide

theorem Complete.of_details (complete : r.Complete ledger)
    (details : ∀ s d', r'.getStoreDetails s = some d' →
      SameEntry {} d' ∨ ∃ d, r.getStoreDetails s = some d ∧ SameEntry d d') : r'.Complete ledger := by
  intro s d' tracked trusted
  rcases details s d' tracked with fresh | ⟨d, before, same⟩
  · exact absurd trusted (not_trusted_of_fresh fresh)
  · rw [same.store]
    exact complete s d before (same.currentStage ▸ trusted)

theorem Complete.adjustRanges (complete : r.Complete ledger) (seqnos : SeqNoCollection) (receipts : Bool) :
    (r.adjustRanges seqnos receipts).1.Complete ledger :=
  complete.of_details fun _ _ => getStoreDetails_adjustRanges

@[simp] theorem fill_store (d : StoreDetails) (e : LedgerEntry) (store : Store) :
    (d.fill e store).store = some store := by
  unfold StoreDetails.fill
  split <;> rfl

theorem Complete.take (complete : r.Complete ledger) (d : StoreDetails) :
    (r.take seqno (ledger seqno) ((ledger seqno).store false) d).1.Complete ledger := by
  intro s d' tracked trusted
  rcases getStoreDetails_take tracked with rfl | ⟨rfl, same⟩ | ⟨-, before, there, same⟩
  · exact absurd trusted (by decide)
  · rw [same.store, fill_store]
  · rw [same.store]
    exact complete s before there (same.currentStage ▸ trusted)

theorem Complete.withRecovery (complete : r.Complete ledger) (info : Option LedgerSecretRecoveryInfo) :
    { r with ledgerSecretRecoveryInfo := info }.Complete ledger := complete

theorem Complete.withExpiry (complete : r.Complete ledger) (expiry : Nat) :
    { r with timeToExpiry := expiry }.Complete ledger := complete

end Request

namespace StateCache

theorem Complete.step (complete : c.Complete ledger) (honest : a.Honest ledger) (unshared : c.Unshared a)
    (moved : c.step service a = some c') : c'.Complete ledger := by
  refine forall_step complete Request.complete_empty (fun r info whole => whole.withRecovery info)
    (fun r expiry whole => whole.withExpiry expiry) ?_ ?_ moved
  · intro handle seqnos expiry receipts _ whole
    exact whole.adjustRanges seqnos receipts
  · rintro seqno data e store rfl deserialised - x member awaits d tracked fetching whole
    obtain rfl : data = some (ledger seqno) := honest
    -- The entry was read in public-only mode if some request waits for its secret.
    obtain ⟨e', here, mode⟩ := Option.bind_eq_some_iff.mp deserialised
    cases here
    obtain ⟨-, read⟩ := Option.ite_none_right_eq_some.mp mode
    cases read
    have private_ : (c.requests.any fun x => x.2.awaits seqno) = false := by
      rw [Bool.eq_false_iff]
      intro shared
      obtain ⟨y, there, waits⟩ := List.any_eq_true.mp shared
      rcases unshared ⟨y, there, waits⟩ x member with alsoWaits | unfetched
      · rw [awaits] at alsoWaits
        cases alsoWaits
      · simp [Request.fetches, tracked, fetching] at unfetched
    have store : (ledger seqno).store (c.requests.any fun x => x.2.awaits seqno) = (ledger seqno).store false := by
      rw [private_]
    exact store ▸ whole.take d

theorem Complete.findRequest (complete : c.Complete ledger) (handle : Handle) :
    (c.findRequest handle).Complete ledger :=
  forall_findRequest complete Request.complete_empty handle

/-- Where no request shares an entry with one that waits for its secret, the
states that a call returns have the stores of the ledger's entries, public and
private, whatever the other requests are. -/
theorem states_of_ledger (run : Lib.Run (step service) {} trace c)
    (honest : ∀ t ∈ trace, t.action.Honest ledger) (unshared : ∀ t ∈ trace, t.pre.Unshared t.action)
    (returned : (c.getStatesInternal service handle seqnos expiry receipts).2 = some states) :
    states = [] ∨ states.map State.store = seqnos.val.map fun s => some ((ledger s).store false) := by
  have complete : c.Complete ledger :=
    run.invariant_of (fun t member => And.intro (honest t member) (unshared t member)) (Complete ledger)
      (fun x absurd => nomatch absurd) fun _ _ _ before moved good => before.step good.1 good.2 moved
  obtain ⟨-, r, info, remaining, -, adjusted, -, result⟩ :=
    getStatesInternal_spec service c handle seqnos expiry receipts
  have whole := (complete.findRequest handle).adjustRanges seqnos receipts
  rw [result states returned, trustedStates]
  split
  case isFalse => exact .inl rfl
  case isTrue all =>
    right
    rw [List.map_map]
    apply List.map_congr_left
    intro s member
    have trusted := List.all_eq_true.mp all s member
    rw [Bool.and_eq_true, decide_eq_true_eq] at trusted
    have requested : s ∈ r.requestedSeqnos.val := by
      rw [adjusted]
      simpa using member
    subst adjusted
    exact whole s _ (Request.getStoreDetails_of_mem requested) trusted.1

/-- The ledger secret from seqno 10 on is known; entry 10 has the one before, and
private writes of its own. -/
def rekeyedService : Service where
  getView := some fun _ => 2
  firstSecret := ⟨10, some 10⟩

def rekeyedLedger (seqno : Nat) : LedgerEntry where
  txid := ⟨2, seqno⟩
  entryDigest := seqno
  pastLedgerSecret := if seqno = 10 then some ⟨1, none⟩ else none
  publicWrites := [(0, seqno)]
  privateWrites := [(1, seqno)]

instance (c : StateCache) (a : Action) : Decidable (c.Unshared a) :=
  match a with
  | .ledgerEntry .. => inferInstanceAs (Decidable ((∃ x ∈ c.requests, _) → ∀ x ∈ c.requests, _ ∨ _))
  | .getStates .. | .noEntryRange .. | .tick _ | .drop _ => isTrue trivial

instance (ledger : Nat → LedgerEntry) (a : Action) : Decidable (a.Honest ledger) :=
  match a with
  | .ledgerEntry seqno data => inferInstanceAs (Decidable (data = some (ledger seqno)))
  | .getStates .. | .noEntryRange .. | .tick _ | .drop _ => isTrue trivial

def one (seqno : Nat) : SeqNoCollection := ⟨[seqno], List.pairwise_singleton _ seqno⟩

/-- A request for an old entry gets the secret and then the entry. -/
theorem states_of_ledger_recovered :
    ∃ trace c, Lib.Run (step rekeyedService) {} trace c ∧ (∀ t ∈ trace, t.action.Honest rekeyedLedger) ∧
      (∀ t ∈ trace, t.pre.Unshared t.action) ∧
      (c.getStatesInternal rekeyedService 1 (one 5) 9 false).2.any (fun states => states.length = 1) ∧
      ∀ states, (c.getStatesInternal rekeyedService 1 (one 5) 9 false).2 = some states →
        states = [] ∨ states.map State.store = (one 5).val.map fun s => some ((rekeyedLedger s).store false) := by
  refine Lib.exists_run_of (P := fun trace c => (∀ t ∈ trace, t.action.Honest rekeyedLedger) ∧
    (∀ t ∈ trace, t.pre.Unshared t.action) ∧
    (c.getStatesInternal rekeyedService 1 (one 5) 9 false).2.any (fun states => states.length = 1) = true)
    [.getStates 1 (one 5) 9 false, .ledgerEntry 10 (some (rekeyedLedger 10)),
      .ledgerEntry 5 (some (rekeyedLedger 5))] (by decide +kernel) ?_
  intro trace c run ⟨honest, unshared, returned⟩
  exact ⟨honest, unshared, returned, fun states => states_of_ledger run honest unshared⟩

/-- Entry 10 arrives while the first handle waits for the secret in it. The
second one, which asked for the entry itself, gets it without private writes. -/
theorem shared_entry_loses_private_writes :
    ∃ trace c states, Lib.Run (step rekeyedService) {} trace c ∧
      (∀ t ∈ trace, t.action.Honest rekeyedLedger) ∧
      (c.getStatesInternal rekeyedService 2 (one 10) 9 false).2 = some states ∧
      ¬ (states = [] ∨ states.map State.store = (one 10).val.map fun s => some ((rekeyedLedger s).store false)) := by
  obtain ⟨trace, c, run, honest, states, returned, wrong⟩ :
      ∃ trace c, Lib.Run (step rekeyedService) {} trace c ∧ (∀ t ∈ trace, t.action.Honest rekeyedLedger) ∧
        ∃ states ∈ (c.getStatesInternal rekeyedService 2 (one 10) 9 false).2,
          ¬ (states = [] ∨ states.map State.store = (one 10).val.map fun s => some ((rekeyedLedger s).store false)) :=
    Lib.exists_run [.getStates 1 (one 5) 9 false, .getStates 2 (one 10) 9 false,
      .ledgerEntry 10 (some (rekeyedLedger 10))] (by decide +kernel)
  exact ⟨trace, c, states, run, honest, returned, wrong⟩

end StateCache
end CCF.Historical
