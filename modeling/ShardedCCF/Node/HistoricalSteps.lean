import ShardedCCF.Node.HistoricalQueries

/-! What one step of the state cache makes of each request. -/
namespace CCF.Historical
open List hiding next
open Option Function
open Std (ExtTreeMap)

variable {service : Service}

namespace StateCache

@[simp] theorem fetch_historical (c : StateCache) (seqnos : List Nat) :
    (c.fetch seqnos).historicalLedgerSecrets = c.historicalLedgerSecrets := rfl

theorem mem_fetch {c : StateCache} {seqnos : List Nat} :
    q ∈ (c.fetch seqnos).pendingFetches ↔ q ∈ c.pendingFetches ∨ q ∈ seqnos := by
  simp [fetch]

@[simp] theorem setSecret_pending (c : StateCache) (secret : LedgerSecret) :
    (c.setSecret secret).pendingFetches = c.pendingFetches := by
  unfold setSecret
  split <;> rfl

theorem setSecret_congr {c u : StateCache} (same : c.historicalLedgerSecrets = u.historicalLedgerSecrets)
    (secret : LedgerSecret) : (c.setSecret secret).historicalLedgerSecrets = (u.setSecret secret).historicalLedgerSecrets := by
  unfold setSecret
  rw [same]
  split <;> simp [same]

theorem setSecret_setSecret (c : StateCache) (secret : LedgerSecret) :
    (c.setSecret secret).setSecret secret = c.setSecret secret := by
  have known : (c.setSecret secret).historicalLedgerSecrets.any (fun s => s.version = secret.version) = true := by
    unfold setSecret
    split
    · assumption
    · simp
  rw [setSecret, if_pos known]

theorem fetchSupporting_congr {c u : StateCache} (same : c.historicalLedgerSecrets = u.historicalLedgerSecrets)
    (broken : c.fetchSupportingSecretIfNeeded service seqno = none) : u.fetchSupportingSecretIfNeeded service seqno = none := by
  unfold fetchSupportingSecretIfNeeded getEarliestKnownLedgerSecret at *
  simp only at broken ⊢
  split at broken <;> simp_all

structure Supported (c : StateCache) (info : Option LedgerSecretRecoveryInfo) (u : StateCache) : Prop where
  requests : u.requests = c.requests
  historical : u.historicalLedgerSecrets = c.historicalLedgerSecrets
  pending : c.pendingFetches ⊆ u.pendingFetches
  none : info = none → u = c

theorem fetchSupporting_spec {c u : StateCache} (found : c.fetchSupportingSecretIfNeeded service seqno = some (info, u)) :
    Supported c info u := by
  unfold fetchSupportingSecretIfNeeded at found
  simp only at found
  split at found
  · simp only [map_eq_some_iff, Prod.mk.injEq] at found
    obtain ⟨target, -, rfl, rfl⟩ := found
    exact ⟨rfl, rfl, Finset.subset_union_left, fun absurd => nomatch absurd⟩
  · obtain ⟨rfl, rfl⟩ := found
    exact ⟨rfl, rfl, subset_rfl, fun _ => rfl⟩

theorem mem_setRequest {c : StateCache} (member : (handle', r') ∈ (c.setRequest handle r).requests) :
    (handle', r') = (handle, r) ∨ handle' ≠ handle ∧ (handle', r') ∈ c.requests := by
  unfold setRequest at member
  split at member
  · simp only [List.mem_map] at member
    obtain ⟨x, there, equal⟩ := member
    split at equal
    · exact .inl equal.symm
    rename_i other
    subst equal
    exact .inr ⟨other, there⟩
  rename_i absent
  simp only [mem_orderedInsert] at member
  obtain equal | there := member
  · exact .inl equal
  refine .inr ⟨?_, there⟩
  rintro rfl
  exact absent (List.any_eq_true.mpr ⟨_, there, by simp⟩)

@[simp] theorem setRequest_pending (c : StateCache) (handle : Handle) (r : Request) :
    (c.setRequest handle r).pendingFetches = c.pendingFetches := by
  unfold setRequest
  split <;> rfl

theorem findRequest_mem (c : StateCache) (handle : Handle) :
    (handle, c.findRequest handle) ∈ c.requests ∨ c.findRequest handle = {} := by
  unfold findRequest
  cases found : c.requests.find? (·.1 = handle) with
  | none => exact .inr rfl
  | some x =>
    have same : x.1 = handle := by simpa using find?_some found
    subst same
    exact .inl (mem_of_find?_eq_some found)

end StateCache

inductive Outcome (service : Service) (seqno : Nat) (e : LedgerEntry) (store : Store) (c : StateCache) (r : Request) :
    StateCache.Processed → Prop where
  | passed : r.awaits seqno = false → r.fetches seqno = false → Outcome service seqno e store c r (.done c r)
  | took : r.awaits seqno = false → r.getStoreDetails seqno = some d → d.currentStage = .fetching →
      Outcome service seqno e store c r
        (.done (c.fetch (r.take seqno e store d).2.toList) (r.take seqno e store d).1)
  | undefined : r.awaits seqno → store.pastLedgerSecret = none → Outcome service seqno e store c r .undefined
  | recovered : r.awaits seqno → store.pastLedgerSecret = some secret →
      (c.setSecret secret).fetchSupportingSecretIfNeeded service r.firstRequestedSeqno = some (some info, u) →
      Outcome service seqno e store c r (.done u { r with ledgerSecretRecoveryInfo := some info })
  | resumed : r.awaits seqno → store.pastLedgerSecret = some secret →
      (c.setSecret secret).fetchSupportingSecretIfNeeded service r.firstRequestedSeqno = some (none, u) →
      Outcome service seqno e store c r
        (.done (u.fetch r.requestedSeqnos.val) { r with ledgerSecretRecoveryInfo := none })
  | threw : r.awaits seqno → store.pastLedgerSecret = some secret →
      (c.setSecret secret).fetchSupportingSecretIfNeeded service r.firstRequestedSeqno = none →
      Outcome service seqno e store c r
        (.threw (c.setSecret secret) { r with ledgerSecretRecoveryInfo := none })

namespace StateCache

theorem recoverSecret_outcome (c : StateCache) (awaits : r.awaits seqno) (e : LedgerEntry) (store : Store) :
    Outcome service seqno e store c r (c.recoverSecret service r store) := by
  unfold recoverSecret
  cases stored : store.pastLedgerSecret with
  | none => exact .undefined awaits stored
  | some secret =>
    dsimp only
    cases found : (c.setSecret secret).fetchSupportingSecretIfNeeded service r.firstRequestedSeqno with
    | none => exact .threw awaits stored found
    | some result =>
      obtain ⟨info, u⟩ := result
      cases info with
      | none => exact .resumed awaits stored found
      | some info => exact .recovered awaits stored found

theorem processRequest_outcome (service : Service) (c : StateCache) (r : Request) (seqno : Nat) (e : LedgerEntry) (store : Store) :
    Outcome service seqno e store c r (c.processRequest service r seqno e store) := by
  unfold processRequest
  by_cases awaits : r.awaits seqno
  · rw [if_pos awaits]
    exact recoverSecret_outcome c awaits e store
  rw [if_neg awaits]
  have awaits : r.awaits seqno = false := by simpa using awaits
  cases tracked : r.getStoreDetails seqno with
  | none => exact .passed awaits (by simp [Request.fetches, tracked])
  | some d =>
    dsimp only
    by_cases fetching : d.currentStage = .fetching
    · rw [if_pos fetching]
      exact .took awaits tracked fetching
    · rw [if_neg fetching]
      exact .passed awaits (by simp [Request.fetches, tracked, fetching])

end StateCache

/-- The requests one after the other, up to the first that throws. -/
inductive Processing (service : Service) (seqno : Nat) (e : LedgerEntry) (store : Store) :
    StateCache → List (Handle × Request) → StateCache → List (Handle × Request) → Prop where
  | nil : Processing service seqno e store c [] c []
  | done : Outcome service seqno e store c r (.done u r') → Processing service seqno e store u rest c' rest' →
      Processing service seqno e store c ((handle, r) :: rest) c' ((handle, r') :: rest')
  | threw : Outcome service seqno e store c r (.threw u r') →
      Processing service seqno e store c ((handle, r) :: rest) u ((handle, r') :: rest)

theorem processing_of_processRequests
    (processed : StateCache.processRequests service seqno e store c requests = some (c', requests')) :
    Processing service seqno e store c requests c' requests' := by
  induction requests generalizing c requests' with
  | nil =>
    cases processed
    exact .nil
  | cons request rest ih =>
    obtain ⟨handle, r⟩ := request
    have outcome := StateCache.processRequest_outcome service c r seqno e store
    rw [StateCache.processRequests] at processed
    cases result : c.processRequest service r seqno e store with
    | undefined => simp [result] at processed
    | threw u r' =>
      rw [result] at processed outcome
      cases processed
      exact .threw outcome
    | done u r' =>
      rw [result] at processed outcome
      obtain ⟨⟨u', rest'⟩, others, equal⟩ := map_eq_some_iff.mp processed
      cases equal
      exact .done outcome (ih others)

structure SameEntry (d d' : StoreDetails) : Prop where
  currentStage : d'.currentStage = d.currentStage
  entryDigest : d'.entryDigest = d.entryDigest
  claimsDigest : d'.claimsDigest = d.claimsDigest
  store : d'.store = d.store
  isSignature : d'.isSignature = d.isSignature
  hasCommitEvidence : d'.hasCommitEvidence = d.hasCommitEvidence

theorem SameEntry.refl (d : StoreDetails) : SameEntry d d := ⟨rfl, rfl, rfl, rfl, rfl, rfl⟩

theorem SameEntry.trans (first : SameEntry a b) (second : SameEntry b d) : SameEntry a d where
  currentStage := second.currentStage.trans first.currentStage
  entryDigest := second.entryDigest.trans first.entryDigest
  claimsDigest := second.claimsDigest.trans first.claimsDigest
  store := second.store.trans first.store
  isSignature := second.isSignature.trans first.isSignature
  hasCommitEvidence := second.hasCommitEvidence.trans first.hasCommitEvidence

theorem sameEntry_assign (d : StoreDetails) (s : Signed) (seqno : Nat) (evidence : StoreDetails → Option TxID) :
    SameEntry d (d.assign s seqno evidence) := ⟨rfl, rfl, rfl, rfl, rfl, rfl⟩

structure Rewritten (r r' : Request) : Prop where
  firstRequestedSeqno : r'.firstRequestedSeqno = r.firstRequestedSeqno
  requestedSeqnos : r'.requestedSeqnos = r.requestedSeqnos
  timeToExpiry : r'.timeToExpiry = r.timeToExpiry
  includeReceipts : r'.includeReceipts = r.includeReceipts
  supportingSignatures : r'.supportingSignatures = r.supportingSignatures
  ledgerSecretRecoveryInfo : r'.ledgerSecretRecoveryInfo = r.ledgerSecretRecoveryInfo
  requestedStores : ∀ s, SameEntry (r.requestedStores s) (r'.requestedStores s)

theorem Rewritten.refl (r : Request) : Rewritten r r := ⟨rfl, rfl, rfl, rfl, rfl, rfl, fun _ => .refl _⟩

theorem Rewritten.getStoreDetails {r r' : Request} (rewritten : Rewritten r r')
    (tracked : r'.getStoreDetails s = some d') : ∃ d, r.getStoreDetails s = some d ∧ SameEntry d d' := by
  unfold Request.getStoreDetails at *
  rw [rewritten.requestedSeqnos, rewritten.supportingSignatures] at tracked
  split at tracked
  · rename_i member
    cases tracked
    exact ⟨_, if_pos member, rewritten.requestedStores s⟩
  · rename_i absent
    exact ⟨d', (if_neg absent).trans tracked, .refl d'⟩

namespace Request

theorem getStoreDetails_of_mem {r : Request} (member : s ∈ r.requestedSeqnos.val) :
    r.getStoreDetails s = some (r.requestedStores s) := if_pos member

theorem getStoreDetails_of_not_mem {r : Request} (absent : s ∉ r.requestedSeqnos.val) :
    r.getStoreDetails s = r.supportingSignatures[s]? := if_neg absent

theorem rewritten_coverEarlier (r : Request) (newSeqno : Nat) (s : Signed) :
    Rewritten r (r.coverEarlier newSeqno s) := by
  refine ⟨rfl, rfl, rfl, rfl, rfl, rfl, fun q => ?_⟩
  unfold coverEarlier
  dsimp only
  split
  · exact sameEntry_assign ..
  · exact .refl _

theorem setStoreDetails_of_mem {r : Request} (member : s ∈ r.requestedSeqnos.val) (d : StoreDetails) :
    r.setStoreDetails s d = { r with requestedStores := Function.update r.requestedStores s d } := if_pos member

theorem setStoreDetails_of_not_mem {r : Request} (absent : s ∉ r.requestedSeqnos.val) (d : StoreDetails) :
    r.setStoreDetails s d = { r with supportingSignatures := r.supportingSignatures.insert s d } := if_neg absent

theorem rewritten_setStoreDetails {r : Request} (member : s ∈ r.requestedSeqnos.val)
    (same : SameEntry (r.requestedStores s) d) : Rewritten r (r.setStoreDetails s d) := by
  rw [setStoreDetails_of_mem member]
  refine ⟨rfl, rfl, rfl, rfl, rfl, rfl, fun q => ?_⟩
  dsimp only
  rcases eq_or_ne q s with rfl | other
  · rw [update_self]
    exact same
  · rw [update_of_ne other]
    exact .refl _

inductive Populates (r : Request) (newSeqno : Nat) : Request × Option Nat → Prop where
  | settled : newSeqno ∈ r.requestedSeqnos.val → newSeqno ∉ r.supportingSignatures →
      (r.requestedStores newSeqno).store.isSome → (r.requestedStores newSeqno).isSignature = false →
      (r.requestedStores newSeqno).receipt.isSome → Populates r newSeqno (r, none)
  | absent : (∀ d, r.getStoreDetails newSeqno = some d → d.store = none) → Populates r newSeqno (r, none)
  | unsigned : r.getStoreDetails newSeqno = some d → d.store.isSome → d.isSignature → d.signed = none →
      Populates r newSeqno (r, none)
  | signature : r.getStoreDetails newSeqno = some d → d.store.isSome → d.isSignature → d.signed = some s →
      Populates r newSeqno (r.coverEarlier newSeqno s, none)
  | searched : r.getStoreDetails newSeqno = some d → d.store.isSome → d.isSignature = false →
      newSeqno ∈ r.supportingSignatures →
      Populates r newSeqno (r, some (skipRequested r.requestedSeqnos.val (newSeqno + 1)))
  | covered : newSeqno ∈ r.requestedSeqnos.val → newSeqno ∉ r.supportingSignatures →
      (r.requestedStores newSeqno).store.isSome → (r.requestedStores newSeqno).isSignature = false →
      (r.requestedStores newSeqno).receipt = none → r.findSignature newSeqno = some (details, s) →
      Populates r newSeqno
        (r.setStoreDetails newSeqno
          ((r.requestedStores newSeqno).assign s newSeqno fun _ => details.getCommitEvidence), none)
  | uncovered : newSeqno ∈ r.requestedSeqnos.val → newSeqno ∉ r.supportingSignatures →
      (r.requestedStores newSeqno).store.isSome → (r.requestedStores newSeqno).isSignature = false →
      (r.requestedStores newSeqno).receipt = none → r.findSignature newSeqno = none →
      Populates r newSeqno (r, (r.endOfMatchingRange newSeqno).map (· + 1))

theorem populateReceipts_populates (r : Request) (newSeqno : Nat) :
    Populates r newSeqno (r.populateReceipts newSeqno) := by
  unfold populateReceipts
  cases tracked : r.getStoreDetails newSeqno with
  | none => exact .absent fun d found => nomatch tracked.symm.trans found
  | some d =>
    dsimp only
    by_cases empty : d.store = none
    · rw [if_pos empty]
      exact .absent fun d' found => some.inj (tracked.symm.trans found) ▸ empty
    rw [if_neg empty]
    have held : d.store.isSome := isSome_iff_ne_none.mpr empty
    by_cases signature : d.isSignature
    · rw [if_pos signature]
      cases signed : d.signed with
      | none => exact .unsigned tracked held signature signed
      | some s => exact .signature tracked held signature signed
    rw [if_neg signature]
    have plain : d.isSignature = false := by simpa using signature
    by_cases searching : newSeqno ∈ r.supportingSignatures
    · rw [if_pos searching]
      exact .searched tracked held plain searching
    rw [if_neg searching]
    -- What is tracked and does not support is requested.
    have member : newSeqno ∈ r.requestedSeqnos.val := by
      by_contra absent
      rw [getStoreDetails_of_not_mem absent] at tracked
      exact searching (Lib.mem_of_eq_some tracked)
    obtain rfl : r.requestedStores newSeqno = d :=
      some.inj ((getStoreDetails_of_mem member).symm.trans tracked)
    by_cases unsettled : (r.requestedStores newSeqno).receipt = none
    case neg =>
      rw [if_neg unsettled]
      exact .settled member searching held plain (isSome_iff_ne_none.mpr unsettled)
    rw [if_pos unsettled]
    cases found : r.findSignature newSeqno with
    | none => exact .uncovered member searching held plain unsettled found
    | some result => exact .covered member searching held plain unsettled found

theorem populateReceipts_rewritten (r : Request) (newSeqno : Nat) :
    Rewritten r (r.populateReceipts newSeqno).1 := by
  have populates := populateReceipts_populates r newSeqno
  generalize r.populateReceipts newSeqno = result at populates
  cases populates with
  | settled | absent | unsigned | searched | uncovered => exact .refl r
  | signature => exact rewritten_coverEarlier ..
  | covered member => exact rewritten_setStoreDetails member (sameEntry_assign ..)

theorem getStoreDetails_setStoreDetails (r : Request) (seqno : Nat) (d : StoreDetails) (s : Nat) :
    (r.setStoreDetails seqno d).getStoreDetails s = if s = seqno then some d else r.getStoreDetails s := by
  by_cases member : seqno ∈ r.requestedSeqnos.val
  · rw [setStoreDetails_of_mem member]
    unfold getStoreDetails
    split_ifs with there same same
    · dsimp only
      rw [same, update_self]
    · dsimp only
      rw [update_of_ne same]
    · exact absurd (same ▸ member) there
    · rfl
  · rw [setStoreDetails_of_not_mem member]
    unfold getStoreDetails
    split_ifs with there same same
    · exact absurd (same ▸ there) member
    · rfl
    · rw [ExtTreeMap.getElem?_insert, if_pos (by simp [same])]
    · rw [ExtTreeMap.getElem?_insert, if_neg (by simpa using Ne.symm same)]

theorem getStoreDetails_insert {r : Request}
    (tracked : { r with supportingSignatures := r.supportingSignatures.insert next {} }.getStoreDetails s = some d) :
    d = {} ∨ r.getStoreDetails s = some d := by
  unfold getStoreDetails at *
  split_ifs at tracked ⊢ with member
  · exact .inr tracked
  · exact (Lib.insert_eq_some tracked).imp And.right And.right

theorem getStoreDetails_erase {r : Request}
    (tracked : { r with supportingSignatures := r.supportingSignatures.erase seqno }.getStoreDetails s = some d) :
    r.getStoreDetails s = some d := by
  unfold getStoreDetails at *
  split_ifs at tracked ⊢ with member
  · exact tracked
  · exact (Lib.erase_eq_some tracked).2

theorem getStoreDetails_take {r : Request} (tracked : (r.take seqno e store d).1.getStoreDetails s = some d') :
    d' = {} ∨ s = seqno ∧ SameEntry (d.fill e store) d' ∨
      s ≠ seqno ∧ ∃ before, r.getStoreDetails s = some before ∧ SameEntry before d' := by
  have origin (d' : StoreDetails)
      (tracked : ((r.setStoreDetails seqno (d.fill e store)).populateReceipts seqno).1.getStoreDetails s = some d') :
      s = seqno ∧ SameEntry (d.fill e store) d' ∨
        s ≠ seqno ∧ ∃ before, r.getStoreDetails s = some before ∧ SameEntry before d' := by
    obtain ⟨between, there, same⟩ := (populateReceipts_rewritten _ _).getStoreDetails tracked
    rw [getStoreDetails_setStoreDetails] at there
    split at there
    · rename_i here
      cases there
      exact .inl ⟨here, same⟩
    · rename_i other
      exact .inr ⟨other, between, there, same⟩
  unfold take at tracked
  dsimp only at tracked
  split at tracked
  · split at tracked
    · rename_i populated
      exact .inr (origin d' (by rw [populated]; exact tracked))
    rename_i rewritten next populated
    rcases getStoreDetails_insert
        (r := { rewritten with supportingSignatures := rewritten.supportingSignatures.erase seqno }) tracked with
      fresh | old
    · exact .inl fresh
    · exact .inr (origin d' (by rw [populated]; exact getStoreDetails_erase old))
  · rw [getStoreDetails_setStoreDetails] at tracked
    split at tracked
    · rename_i here
      cases tracked
      exact .inr (.inl ⟨here, .refl _⟩)
    · rename_i other
      exact .inr (.inr ⟨other, d', tracked, .refl _⟩)

theorem populateAll_cons (r : Request) (seqno : Nat) (seqnos : List Nat) :
    r.populateAll (seqno :: seqnos) =
      ((((r.populateReceipts seqno).1.search (r.populateReceipts seqno).2).populateAll seqnos).1,
        (r.populateReceipts seqno).2.toList ++
          (((r.populateReceipts seqno).1.search (r.populateReceipts seqno).2).populateAll seqnos).2) := rfl

theorem getStoreDetails_search {r : Request} (tracked : (r.search next).getStoreDetails s = some d) :
    d = {} ∨ r.getStoreDetails s = some d := by
  cases next with
  | none => exact .inr tracked
  | some q => exact getStoreDetails_insert tracked

theorem getStoreDetails_populateAll {r : Request} (tracked : (r.populateAll seqnos).1.getStoreDetails s = some d') :
    SameEntry {} d' ∨ ∃ d, r.getStoreDetails s = some d ∧ SameEntry d d' := by
  induction seqnos generalizing r with
  | nil => exact .inr ⟨d', tracked, .refl d'⟩
  | cons seqno seqnos ih =>
    rcases ih tracked with fresh | ⟨between, there, same⟩
    · exact .inl fresh
    rcases getStoreDetails_search there with rfl | before
    · exact .inl same
    · obtain ⟨d, old, first⟩ := (populateReceipts_rewritten r seqno).getStoreDetails before
      exact .inr ⟨d, old, first.trans same⟩

structure SameRanges (r r' : Request) : Prop where
  firstRequestedSeqno : r'.firstRequestedSeqno = r.firstRequestedSeqno
  requestedSeqnos : r'.requestedSeqnos = r.requestedSeqnos
  includeReceipts : r'.includeReceipts = r.includeReceipts
  ledgerSecretRecoveryInfo : r'.ledgerSecretRecoveryInfo = r.ledgerSecretRecoveryInfo

theorem sameRanges_populateAll (r : Request) (l : List Nat) : SameRanges r (r.populateAll l).1 := by
  induction l generalizing r with
  | nil => exact ⟨rfl, rfl, rfl, rfl⟩
  | cons seqno l ih =>
    have rewritten := populateReceipts_rewritten r seqno
    have rest := ih ((r.populateReceipts seqno).1.search (r.populateReceipts seqno).2)
    have first : SameRanges r ((r.populateReceipts seqno).1.search (r.populateReceipts seqno).2) := by
      cases (r.populateReceipts seqno).2 <;>
        exact ⟨rewritten.firstRequestedSeqno, rewritten.requestedSeqnos, rewritten.includeReceipts,
          rewritten.ledgerSecretRecoveryInfo⟩
    exact ⟨rest.firstRequestedSeqno.trans first.firstRequestedSeqno, rest.requestedSeqnos.trans first.requestedSeqnos,
      rest.includeReceipts.trans first.includeReceipts,
      rest.ledgerSecretRecoveryInfo.trans first.ledgerSecretRecoveryInfo⟩

@[simp] theorem adjustRanges_requestedSeqnos (r : Request) (seqnos : SeqNoCollection) (receipts : Bool) :
    (r.adjustRanges seqnos receipts).1.requestedSeqnos = seqnos := by
  unfold adjustRanges
  split
  · rename_i same
    exact same.1.symm
  split
  · exact (sameRanges_populateAll _ _).requestedSeqnos
  · rfl

@[simp] theorem adjustRanges_includeReceipts (r : Request) (seqnos : SeqNoCollection) (receipts : Bool) :
    (r.adjustRanges seqnos receipts).1.includeReceipts = receipts := by
  unfold adjustRanges
  split
  · rename_i same
    exact same.2.symm
  split
  · exact (sameRanges_populateAll _ _).includeReceipts
  · rfl

theorem getStoreDetails_adjustRanges {r : Request}
    (tracked : (r.adjustRanges seqnos receipts).1.getStoreDetails s = some d') :
    SameEntry {} d' ∨ ∃ d, r.getStoreDetails s = some d ∧ SameEntry d d' := by
  have kept (d' : StoreDetails) (u : Request) (empty : u.supportingSignatures = ∅)
      (stores : u.requestedStores = fun seqno => (r.getStoreDetails seqno).getD {})
      (tracked : u.getStoreDetails s = some d') :
      SameEntry {} d' ∨ ∃ d, r.getStoreDetails s = some d ∧ SameEntry d d' := by
    unfold getStoreDetails at tracked
    split at tracked
    · rw [stores] at tracked
      obtain rfl := some.inj tracked
      dsimp only
      cases r.getStoreDetails s with
      | none => exact .inl (.refl _)
      | some d => exact .inr ⟨d, rfl, .refl _⟩
    · simp [empty] at tracked
  unfold adjustRanges at tracked
  split at tracked
  · exact .inr ⟨d', tracked, .refl d'⟩
  split at tracked
  · rcases getStoreDetails_populateAll tracked with fresh | ⟨d, there, same⟩
    · exact .inl fresh
    rcases kept d _ rfl rfl there with fresh | ⟨before, old, first⟩
    · exact .inl (fresh.trans same)
    · exact .inr ⟨before, old, first.trans same⟩
  · exact kept d' _ rfl rfl tracked

end Request

section Every
variable {I : Request → Prop} {c c' : StateCache} {a : Action}

theorem Processing.every (processing : Processing service seqno e store c requests c' requests')
    (every : ∀ x ∈ requests, I x.2) (recover : ∀ r info, I r → I { r with ledgerSecretRecoveryInfo := info })
    (takes : ∀ x ∈ requests, x.2.awaits seqno = false → ∀ d, x.2.getStoreDetails seqno = some d →
      d.currentStage = .fetching → I x.2 → I (x.2.take seqno e store d).1) : ∀ x ∈ requests', I x.2 := by
  induction processing with
  | nil => exact every
  | done outcome _ ih =>
    intro x member
    rcases mem_cons.mp member with rfl | later
    · have before := every _ mem_cons_self
      cases outcome with
      | passed => exact before
      | took awaits tracked fetching => exact takes _ mem_cons_self awaits _ tracked fetching before
      | recovered => exact recover _ _ before
      | resumed => exact recover _ _ before
    · exact ih (fun y there => every y (mem_cons_of_mem _ there))
        (fun y there => takes y (mem_cons_of_mem _ there)) x later
  | threw outcome =>
    intro x member
    rcases mem_cons.mp member with rfl | later
    · cases outcome with
      | threw => exact recover _ _ (every _ mem_cons_self)
    · exact every x (mem_cons_of_mem _ later)

namespace StateCache

theorem getStatesInternal_spec (service : Service) (c : StateCache) (handle : Handle) (seqnos : SeqNoCollection)
    (expiry : Nat) (receipts : Bool) :
    ∃ (u : StateCache) (r : Request) (info : Option LedgerSecretRecoveryInfo) (remaining : Nat), u.requests = c.requests ∧
      r = { ((c.findRequest handle).adjustRanges seqnos receipts).1 with
        ledgerSecretRecoveryInfo := info, timeToExpiry := remaining } ∧
      (c.getStatesInternal service handle seqnos expiry receipts).1 = u.setRequest handle r ∧
      ∀ states, (c.getStatesInternal service handle seqnos expiry receipts).2 = some states →
        states = trustedStates r seqnos := by
  unfold getStatesInternal
  generalize (c.findRequest handle).adjustRanges seqnos receipts = adjusted
  obtain ⟨r, newSeqnos⟩ := adjusted
  dsimp only
  cases found : c.fetchSupportingSecretIfNeeded service r.firstRequestedSeqno with
  | none => exact ⟨c, r, _, _, rfl, rfl, rfl, fun states absurd => nomatch absurd⟩
  | some result =>
    obtain ⟨info, u⟩ := result
    have supported := fetchSupporting_spec found
    cases info with
    | none =>
      exact ⟨u.fetch newSeqnos, _, _, _, supported.requests, rfl, rfl,
        fun states returned => (some.inj returned).symm⟩
    | some info =>
      exact ⟨u, _, _, _, supported.requests, rfl, rfl, fun states returned => (some.inj returned).symm⟩

theorem handleNoEntryRange_requests (c : StateCache) (fromSeqno toSeqno : Nat) :
    ∀ x ∈ (c.handleNoEntryRange fromSeqno toSeqno).requests, x ∈ c.requests := by
  unfold handleNoEntryRange
  generalize List.range' fromSeqno (toSeqno + 1 - fromSeqno) = seqnos
  induction seqnos generalizing c with
  | nil => exact fun x member => member
  | cons seqno seqnos ih =>
    intro x member
    have there := ih (c.handleNoEntry seqno) x member
    unfold handleNoEntry at there
    split at there
    · exact (mem_filter.mp there).1
    · exact there

theorem forall_findRequest (every : ∀ x ∈ c.requests, I x.2) (empty : I {}) (handle : Handle) :
    I (c.findRequest handle) := by
  rcases findRequest_mem c handle with member | none_
  · exact every _ member
  · rw [none_]
    exact empty

theorem forall_step (every : ∀ x ∈ c.requests, I x.2) (empty : I {})
    (recover : ∀ r info, I r → I { r with ledgerSecretRecoveryInfo := info })
    (expire : ∀ r expiry, I r → I { r with timeToExpiry := expiry })
    (adjust : ∀ handle seqnos expiry receipts, a = .getStates handle seqnos expiry receipts →
      I (c.findRequest handle) → I ((c.findRequest handle).adjustRanges seqnos receipts).1)
    (takes : ∀ seqno data e store, a = .ledgerEntry seqno data →
      c.deserialiseLedgerEntry service seqno data = some (e, store) → accepts service seqno e →
      ∀ x ∈ c.requests, x.2.awaits seqno = false → ∀ d, x.2.getStoreDetails seqno = some d →
        d.currentStage = .fetching → I x.2 → I (x.2.take seqno e store d).1)
    (moved : c.step service a = some c') : ∀ x ∈ c'.requests, I x.2 := by
  cases a with
  | getStates handle seqnos expiry receipts =>
    obtain ⟨-, done⟩ := ite_none_left_eq_some.mp moved
    obtain rfl := some.inj done
    obtain ⟨u, r, info, remaining, requests, rfl, after, -⟩ :=
      getStatesInternal_spec service c handle seqnos expiry receipts
    have adjusted := adjust handle seqnos expiry receipts rfl (forall_findRequest every empty handle)
    rw [after]
    rintro ⟨other, r'⟩ member
    rcases mem_setRequest member with same | ⟨-, old⟩
    · cases same
      exact expire _ remaining (recover _ info adjusted)
    · exact every _ (requests ▸ old)
  | ledgerEntry seqno data =>
    have moved : c.handleLedgerEntry service seqno data = some c' := moved
    unfold handleLedgerEntry at moved
    split at moved
    · cases moved
      exact every
    dsimp only at moved
    split at moved
    · cases moved
      exact every
    rename_i e store deserialised
    split at moved
    case isFalse =>
      cases moved
      exact every
    case isTrue accepted =>
    obtain ⟨⟨u, requests⟩, processed, rfl⟩ := map_eq_some_iff.mp moved
    exact (processing_of_processRequests processed).every every recover
      (takes seqno data e store rfl deserialised accepted)
  | noEntryRange fromSeqno toSeqno =>
    cases moved
    exact fun x member => every x (handleNoEntryRange_requests c fromSeqno toSeqno x member)
  | tick elapsed =>
    cases moved
    intro x member
    obtain ⟨y, there, rfl⟩ := List.mem_map.mp member
    exact expire _ _ (every y (mem_filter.mp there).1)
  | drop handle =>
    cases moved
    exact fun x member => every x (mem_filter.mp member).1

end StateCache
end Every
end CCF.Historical
