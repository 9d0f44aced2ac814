import ShardedCCF.Node.HistoricalSearch

/-! Which entries the state cache asks the host for, as long as a request is
incomplete. -/
namespace CCF.Historical
open Lib List Option
open Std (ExtTreeMap)

variable {service : Service} {ledger : Nat → LedgerEntry} {r r' : Request} {c c' u : StateCache} {a : Action}
  {P Q : Finset Nat}

namespace Request

/-- The receipt of an entry is sought: a later seqno is being fetched, and the
signature that covers the entry does not come before it. -/
def Sought (ledger : Nat → LedgerEntry) (r : Request) (s : Nat) : Prop :=
  ∃ q, s < q ∧ Plain ledger s q ∧
    ((q ∈ r.requestedSeqnos.val ∧ (r.requestedStores q).store = none ∧ (ledger q).signed.isSome) ∨
      ∃ d, r.supportingSignatures[q]? = some d ∧ d.store = none)

/-- What a request relies on, with the seqnos that are pending. -/
structure Tended (ledger : Nat → LedgerEntry) (P : Finset Nat) (r : Request) : Prop extends Faithful ledger r where
  requested : r.ledgerSecretRecoveryInfo = none →
    ∀ s ∈ r.requestedSeqnos.val, (r.requestedStores s).store = none → s ∈ P
  supporting : ∀ s d, r.supportingSignatures[s]? = some d → d.store = none → s ∈ P
  disjoint : ∀ s ∈ r.requestedSeqnos.val, s ∉ r.supportingSignatures
  bare : r.includeReceipts = false → r.supportingSignatures = ∅
  signatures : ∀ s d, r.getStoreDetails s = some d → d.store.isSome → (ledger s).signed.isSome → d.receipt.isSome
  first : r.firstRequestedSeqno = r.requestedSeqnos.val.headD 0
  sought : r.includeReceipts → ∀ s ∈ r.requestedSeqnos.val, (r.requestedStores s).store.isSome →
    (r.requestedStores s).receipt = none → r.Sought ledger s
  covered : r.includeReceipts → ∀ s ∈ r.requestedSeqnos.val, ∀ q ∈ r.requestedSeqnos.val, s < q →
    Plain ledger s q → (ledger q).signed.isSome → (r.requestedStores s).store.isSome →
    (r.requestedStores q).store.isSome → (r.requestedStores s).receipt.isSome

theorem Sought.transfer (sought : r.Sought ledger s) (seqnos : r'.requestedSeqnos = r.requestedSeqnos)
    (stores : ∀ q ∈ r.requestedSeqnos.val, q ≠ x → (r.requestedStores q).store = none →
      (r'.requestedStores q).store = none)
    (supports : ∀ q d, q ≠ x → r.supportingSignatures[q]? = some d → d.store = none →
      ∃ d', r'.supportingSignatures[q]? = some d' ∧ d'.store = none) :
    r'.Sought ledger s ∨ s < x ∧ Plain ledger s x ∧
      (x ∈ r.requestedSeqnos.val ∧ (ledger x).signed.isSome ∨ x ∈ r.supportingSignatures) := by
  obtain ⟨q, above, plain, fetched⟩ := sought
  rcases eq_or_ne q x with rfl | other
  · refine .inr ⟨above, plain, fetched.imp (fun ⟨member, _, signature⟩ => ⟨member, signature⟩) ?_⟩
    exact fun ⟨d, there, _⟩ => mem_of_eq_some there
  refine .inl ⟨q, above, plain, fetched.imp ?_ ?_⟩
  · rintro ⟨member, empty, signature⟩
    exact ⟨seqnos ▸ member, stores q member other empty, signature⟩
  · rintro ⟨d, there, empty⟩
    exact supports q d other there empty

/-- Of the seqnos up to `q`, either one is a signature that is still fetched or
none is a signature. -/
theorem sought_or_plain (requested : ∀ p, s < p → p < q → (ledger p).signed.isSome → p ∈ r.requestedSeqnos.val)
    (arrived : ∀ p, s < p → p < q → (ledger p).signed.isSome → Plain ledger s p → (r.requestedStores p).store = none) :
    r.Sought ledger s ∨ Plain ledger s q := by
  classical
  by_cases signature : ∃ p, s < p ∧ p < q ∧ (ledger p).signed.isSome
  · left
    -- The first of them.
    obtain ⟨above, below, signed⟩ := Nat.find_spec signature
    have plain : Plain ledger s (Nat.find signature) := by
      intro p after before
      by_contra some_
      exact Nat.find_min signature before ⟨after, before.trans below, isSome_iff_ne_none.mpr some_⟩
    exact ⟨_, above, plain, .inl ⟨requested _ above below signed, arrived _ above below signed plain, signed⟩⟩
  right
  intro p after before
  by_contra some_
  exact signature ⟨p, after, before, isSome_iff_ne_none.mpr some_⟩

theorem isSome_store_of_signed {d : StoreDetails} (signed : d.signed = some t) : d.store.isSome := by
  unfold StoreDetails.signed at signed
  split at signed
  · cases store : d.store with
    | none => simp [store] at signed
    | some _ => rfl
  · cases signed

theorem not_arrived_of_uncovered (faithful : r.Faithful ledger) (wellSigned : WellSigned ledger)
    (uncovered : r.findSignature x = none) (requested : p ∈ r.requestedSeqnos.val) (after : x < p)
    (signature : (ledger p).signed.isSome) (plain : Plain ledger x p) : (r.requestedStores p).store = none := by
  by_contra held
  have held : (r.requestedStores p).store.isSome := isSome_iff_ne_none.mpr held
  have signed := (faithful.signed p _ (getStoreDetails_of_mem requested) held).2
  rw [← signed] at signature
  cases later : r.laterSignature x with
  | none =>
    rw [laterSignature_eq_none later requested after] at signature
    cases signature
  | some result =>
    obtain ⟨d, t⟩ := result
    obtain ⟨q, there, above, rfl, isSigned, earliest⟩ := laterSignature_eq_some later
    -- It is the first one found, and it covers the entry.
    have same : q = p := by
      rcases Nat.lt_trichotomy p q with before | rfl | beyond
      · rw [earliest p requested after before] at signature
        cases signature
      · rfl
      have known := (faithful.signed q _ (getStoreDetails_of_mem there) (isSome_store_of_signed isSigned)).2
      rw [isSigned, plain q above beyond] at known
      cases known
    subst same
    rw [isSigned] at signed
    have covers := (wellSigned q t signed.symm x above).mpr plain
    simp [findSignature, later, covers] at uncovered

theorem sought_of_uncovered (faithful : r.Faithful ledger) (wellSigned : WellSigned ledger)
    (member : x ∈ r.requestedSeqnos.val) (uncovered : r.findSignature x = none)
    (last : r.endOfMatchingRange x = some stop) : r.Sought ledger x ∨ Plain ledger x (stop + 1) := by
  obtain ⟨stop', found, reached, inside, -⟩ := endOfMatchingRange_spec member
  obtain rfl : stop' = stop := some.inj (found.symm.trans last)
  apply sought_or_plain
  · intro p after before _
    exact inside p after.le (Nat.le_of_lt_succ before)
  · intro p after before signature plain
    have requested := inside p after.le (Nat.le_of_lt_succ before)
    exact not_arrived_of_uncovered faithful wellSigned uncovered requested after signature plain

/-- A request after the entry at `x` has arrived, from what it was. -/
structure Arrives (ledger : Nat → LedgerEntry) (Q : Finset Nat) (x : Nat) (r r' : Request) : Prop where
  faithful : r'.Faithful ledger
  seqnos : r'.requestedSeqnos = r.requestedSeqnos
  includes : r'.includeReceipts = r.includeReceipts
  firstSeqno : r'.firstRequestedSeqno = r.firstRequestedSeqno
  recovery : r'.ledgerSecretRecoveryInfo = r.ledgerSecretRecoveryInfo
  stores : ∀ s, s ≠ x → (r'.requestedStores s).store = (r.requestedStores s).store
  receipts : ∀ s, s ≠ x → (r.requestedStores s).receipt.isSome → (r'.requestedStores s).receipt.isSome
  arrived : x ∈ r.requestedSeqnos.val → (r'.requestedStores x).store.isSome
  supporting : ∀ q d, r'.supportingSignatures[q]? = some d → d.store = none → q ∈ Q
  supports : ∀ q d, q ≠ x → r.supportingSignatures[q]? = some d → d.store = none →
    ∃ d', r'.supportingSignatures[q]? = some d' ∧ d'.store = none
  disjoint : ∀ s ∈ r.requestedSeqnos.val, s ∉ r'.supportingSignatures
  bare : r.includeReceipts = false → r'.supportingSignatures = ∅
  signatures : ∀ s d, r'.getStoreDetails s = some d → d.store.isSome → (ledger s).signed.isSome → d.receipt.isSome
  own : r.includeReceipts → x ∈ r.requestedSeqnos.val → (r'.requestedStores x).receipt = none →
    r'.Sought ledger x ∧ ∀ q ∈ r.requestedSeqnos.val, x < q → Plain ledger x q → (ledger q).signed.isSome →
      (r'.requestedStores q).store = none
  others : r.includeReceipts → ∀ s ∈ r.requestedSeqnos.val, s < x → Plain ledger s x →
    (x ∈ r.requestedSeqnos.val ∧ (ledger x).signed.isSome ∨ x ∈ r.supportingSignatures) →
    (r'.requestedStores s).store.isSome → (r'.requestedStores s).receipt = none →
    r'.Sought ledger s ∧ ¬ (x ∈ r.requestedSeqnos.val ∧ (ledger x).signed.isSome)

theorem Arrives.tended (arrives : Arrives ledger Q x r r') (tended : r.Tended ledger P)
    (more : ∀ p ∈ P, p ≠ x → p ∈ Q) : r'.Tended ledger Q where
  toFaithful := arrives.faithful
  requested waiting s member empty := by
    rw [arrives.seqnos] at member
    rcases eq_or_ne s x with rfl | other
    · rw [← not_isSome_iff_eq_none] at empty
      exact absurd (arrives.arrived member) empty
    · exact more s (tended.requested (arrives.recovery ▸ waiting) s member (arrives.stores s other ▸ empty)) other
  supporting := arrives.supporting
  disjoint := by rw [arrives.seqnos]; exact arrives.disjoint
  bare := by rw [arrives.includes]; exact arrives.bare
  signatures := arrives.signatures
  first := by rw [arrives.firstSeqno, arrives.seqnos]; exact tended.first
  sought includes s member held missing := by
    rw [arrives.seqnos] at member
    rw [arrives.includes] at includes
    rcases eq_or_ne s x with rfl | other
    · exact (arrives.own includes member missing).1
    have before : (r.requestedStores s).receipt = none := by
      rw [← not_isSome_iff_eq_none] at missing ⊢
      exact fun there => missing (arrives.receipts s other there)
    have sought := tended.sought includes s member (arrives.stores s other ▸ held) before
    rcases sought.transfer arrives.seqnos (fun q _ different empty => (arrives.stores q different).trans empty)
      arrives.supports with still | ⟨above, plain, tracked⟩
    · exact still
    · exact (arrives.others includes s member above plain tracked held missing).1
  covered includes s member q requested above plain signature held there := by
    rw [arrives.seqnos] at member requested
    rw [arrives.includes] at includes
    rw [← ne_none_iff_isSome]
    intro missing
    rcases eq_or_ne s x with rfl | other
    · have empty := (arrives.own includes member missing).2 q requested above plain signature
      rw [empty] at there
      cases there
    rcases eq_or_ne q x with rfl | different
    · exact (arrives.others includes s member above plain (.inl ⟨requested, signature⟩) held missing).2
        ⟨requested, signature⟩
    have receipt := tended.covered includes s member q requested above plain signature
      (arrives.stores s other ▸ held) (arrives.stores q different ▸ there)
    rw [← not_isSome_iff_eq_none] at missing
    exact missing (arrives.receipts s other receipt)

section Arrival
variable {filled : StoreDetails}

@[simp] theorem setStoreDetails_requestedSeqnos (r : Request) (x : Nat) (d : StoreDetails) :
    (r.setStoreDetails x d).requestedSeqnos = r.requestedSeqnos := by
  unfold setStoreDetails
  split <;> rfl

@[simp] theorem setStoreDetails_includeReceipts (r : Request) (x : Nat) (d : StoreDetails) :
    (r.setStoreDetails x d).includeReceipts = r.includeReceipts := by
  unfold setStoreDetails
  split <;> rfl

@[simp] theorem setStoreDetails_firstRequestedSeqno (r : Request) (x : Nat) (d : StoreDetails) :
    (r.setStoreDetails x d).firstRequestedSeqno = r.firstRequestedSeqno := by
  unfold setStoreDetails
  split <;> rfl

@[simp] theorem setStoreDetails_ledgerSecretRecoveryInfo (r : Request) (x : Nat) (d : StoreDetails) :
    (r.setStoreDetails x d).ledgerSecretRecoveryInfo = r.ledgerSecretRecoveryInfo := by
  unfold setStoreDetails
  split <;> rfl

theorem setStoreDetails_requestedStores_of_ne (r : Request) (d : StoreDetails) (other : s ≠ x) :
    (r.setStoreDetails x d).requestedStores s = r.requestedStores s := by
  unfold setStoreDetails
  split
  · exact Function.update_of_ne other ..
  · rfl

theorem setStoreDetails_requestedStores_self (d : StoreDetails) (member : x ∈ r.requestedSeqnos.val) :
    (r.setStoreDetails x d).requestedStores x = d := by
  rw [setStoreDetails_of_mem member]
  exact Function.update_self ..

theorem setStoreDetails_supporting_of_ne (r : Request) (d : StoreDetails) (other : q ≠ x) :
    (r.setStoreDetails x d).supportingSignatures[q]? = r.supportingSignatures[q]? := by
  unfold setStoreDetails
  split
  · rfl
  · rw [ExtTreeMap.getElem?_insert, if_neg (by simpa using Ne.symm other)]

theorem Tended.supporting_of_arrival (tended : r.Tended ledger P) (held : filled.store.isSome)
    (found : (r.setStoreDetails x filled).supportingSignatures[q]? = some d) (empty : d.store = none) :
    q ≠ x ∧ r.supportingSignatures[q]? = some d := by
  have other : q ≠ x := by
    rintro rfl
    by_cases member : q ∈ r.requestedSeqnos.val
    · rw [setStoreDetails_of_mem member] at found
      exact tended.disjoint q member (mem_of_eq_some found)
    rw [setStoreDetails_of_not_mem member] at found
    rw [ExtTreeMap.getElem?_insert_self] at found
    cases found
    rw [empty] at held
    cases held
  rw [setStoreDetails_supporting_of_ne r filled other] at found
  exact ⟨other, found⟩

theorem Tended.signatures_of_arrival (tended : r.Tended ledger P)
    (signature : (ledger x).signed.isSome → filled.receipt.isSome) (s : Nat) (d : StoreDetails)
    (there : (r.setStoreDetails x filled).getStoreDetails s = some d) (arrived : d.store.isSome)
    (signed : (ledger s).signed.isSome) : d.receipt.isSome := by
  rw [getStoreDetails_setStoreDetails] at there
  split at there
  · rename_i same
    cases there
    exact signature (same ▸ signed)
  · exact tended.signatures s d there arrived signed

theorem Tended.arrives_of_rewritten (tended : r.Tended ledger P) (more : ∀ p ∈ P, p ≠ x → p ∈ Q)
    (held : filled.store.isSome) (signature : (ledger x).signed.isSome → filled.receipt.isSome)
    (faithful : r'.Faithful ledger) (tracked : x ∈ r.requestedSeqnos.val ∨ x ∈ r.supportingSignatures)
    (rewritten : Rewritten (r.setStoreDetails x filled) r')
    (receipts : ∀ s, ((r.setStoreDetails x filled).requestedStores s).receipt.isSome →
      (r'.requestedStores s).receipt.isSome)
    (own : r.includeReceipts → x ∈ r.requestedSeqnos.val → (r'.requestedStores x).receipt.isSome)
    (others : r.includeReceipts → ∀ s ∈ r.requestedSeqnos.val, s < x → Plain ledger s x →
      (x ∈ r.requestedSeqnos.val ∧ (ledger x).signed.isSome ∨ x ∈ r.supportingSignatures) →
      (r'.requestedStores s).store.isSome → (r'.requestedStores s).receipt.isSome) : Arrives ledger Q x r r' where
  faithful := faithful
  seqnos := by simpa using rewritten.requestedSeqnos
  includes := by simpa using rewritten.includeReceipts
  firstSeqno := by simpa using rewritten.firstRequestedSeqno
  recovery := by simpa using rewritten.ledgerSecretRecoveryInfo
  stores s other := by
    rw [(rewritten.requestedStores s).store, setStoreDetails_requestedStores_of_ne r filled other]
  receipts s other there := receipts s (by rwa [setStoreDetails_requestedStores_of_ne r filled other])
  arrived member := by
    rw [(rewritten.requestedStores x).store, setStoreDetails_requestedStores_self filled member]
    exact held
  supporting q d found empty := by
    rw [rewritten.supportingSignatures] at found
    obtain ⟨other, before⟩ := tended.supporting_of_arrival held found empty
    exact more q (tended.supporting q d before empty) other
  supports q d other found empty := by
    rw [rewritten.supportingSignatures]
    exact ⟨d, (setStoreDetails_supporting_of_ne r filled other).trans found, empty⟩
  disjoint s member there := by
    rw [rewritten.supportingSignatures, ExtTreeMap.mem_iff_isSome_getElem?] at there
    rcases eq_or_ne s x with rfl | other
    · rw [setStoreDetails_of_mem member] at there
      exact tended.disjoint s member (ExtTreeMap.mem_iff_isSome_getElem?.mpr there)
    · rw [setStoreDetails_supporting_of_ne r filled other] at there
      exact tended.disjoint s member (ExtTreeMap.mem_iff_isSome_getElem?.mpr there)
  bare excludes := by
    have member : x ∈ r.requestedSeqnos.val := by
      rcases tracked with member | supports
      · exact member
      · simp [tended.bare excludes] at supports
    rw [rewritten.supportingSignatures, setStoreDetails_of_mem member]
    exact tended.bare excludes
  signatures s d there arrived signed := by
    have before := tended.signatures_of_arrival signature
    by_cases member : s ∈ (r.setStoreDetails x filled).requestedSeqnos.val
    · rw [getStoreDetails_of_mem (rewritten.requestedSeqnos ▸ member)] at there
      cases there
      exact receipts s (before s _ (getStoreDetails_of_mem member)
        ((rewritten.requestedStores s).store ▸ arrived) signed)
    · rw [getStoreDetails_of_not_mem (rewritten.requestedSeqnos ▸ member), rewritten.supportingSignatures] at there
      exact before s d ((getStoreDetails_of_not_mem member).trans there) arrived signed
  own includes member missing := by
    rw [← not_isSome_iff_eq_none] at missing
    exact absurd (own includes member) missing
  others includes s member above plain known there missing := by
    rw [← not_isSome_iff_eq_none] at missing
    exact absurd (others includes s member above plain known there) missing

theorem supports_insert {m : ExtTreeMap Nat StoreDetails} {q : Nat} {d : StoreDetails} (n : Nat)
    (found : m[q]? = some d) (empty : d.store = none) :
    ∃ d' : StoreDetails, (m.insert n {})[q]? = some d' ∧ d'.store = none := by
  rw [ExtTreeMap.getElem?_insert]
  split
  · exact ⟨{}, rfl, rfl⟩
  · exact ⟨d, found, empty⟩

theorem Tended.arrives_of_search (tended : r.Tended ledger P) (more : ∀ p ∈ P, p ≠ x → p ∈ Q)
    (held : filled.store.isSome) (signature : (ledger x).signed.isSome → filled.receipt.isSome)
    (includes : r.includeReceipts) (fetched : n ∈ Q)
    (outside : n ∉ r.requestedSeqnos.val)
    (equation : r' = { r.setStoreDetails x filled with
      supportingSignatures := ((r.setStoreDetails x filled).supportingSignatures.erase x).insert n {} })
    (faithful : r'.Faithful ledger)
    (own : x ∈ r.requestedSeqnos.val → (r'.requestedStores x).receipt = none →
      r'.Sought ledger x ∧ ∀ q ∈ r.requestedSeqnos.val, x < q → Plain ledger x q → (ledger q).signed.isSome →
        (r'.requestedStores q).store = none)
    (others : ∀ s ∈ r.requestedSeqnos.val, s < x → Plain ledger s x →
      (x ∈ r.requestedSeqnos.val ∧ (ledger x).signed.isSome ∨ x ∈ r.supportingSignatures) →
      (r'.requestedStores s).store.isSome → (r'.requestedStores s).receipt = none →
      r'.Sought ledger s ∧ ¬ (x ∈ r.requestedSeqnos.val ∧ (ledger x).signed.isSome)) : Arrives ledger Q x r r' where
  faithful := faithful
  seqnos := by rw [equation]; exact setStoreDetails_requestedSeqnos ..
  includes := by rw [equation]; exact setStoreDetails_includeReceipts ..
  firstSeqno := by rw [equation]; exact setStoreDetails_firstRequestedSeqno ..
  recovery := by rw [equation]; exact setStoreDetails_ledgerSecretRecoveryInfo ..
  stores s other := by
    rw [equation]
    exact congrArg StoreDetails.store (setStoreDetails_requestedStores_of_ne r filled other)
  receipts s other there := by
    rw [equation]
    rwa [setStoreDetails_requestedStores_of_ne r filled other]
  arrived member := by
    rw [equation]
    rwa [setStoreDetails_requestedStores_self filled member]
  supporting q d found empty := by
    rw [equation] at found
    obtain ⟨rfl, -⟩ | ⟨-, old⟩ := insert_eq_some found
    · exact fetched
    · obtain ⟨other, before⟩ := tended.supporting_of_arrival held (erase_eq_some old).2 empty
      exact more q (tended.supporting q d before empty) other
  supports q d other found empty := by
    rw [equation]
    refine supports_insert n ?_ empty
    rw [ExtTreeMap.getElem?_erase, if_neg (by simpa using Ne.symm other),
      setStoreDetails_supporting_of_ne r filled other]
    exact found
  disjoint s member there := by
    rw [equation] at there
    obtain ⟨d, found⟩ := exists_of_mem there
    obtain ⟨rfl, -⟩ | ⟨-, old⟩ := insert_eq_some found
    · exact outside member
    obtain ⟨other, old⟩ := erase_eq_some old
    rw [setStoreDetails_supporting_of_ne r filled other] at old
    exact tended.disjoint s member (mem_of_eq_some old)
  bare excludes := by
    rw [includes] at excludes
    cases excludes
  signatures s d there arrived signed := by
    rw [equation] at there
    have before := tended.signatures_of_arrival signature
    rcases getStoreDetails_insert
        (r := { r.setStoreDetails x filled with
          supportingSignatures := (r.setStoreDetails x filled).supportingSignatures.erase x }) there with rfl | old
    · cases arrived
    · exact before s d (getStoreDetails_erase old) arrived signed
  own _ := own
  others _ := others

theorem Tended.independent (tended : r.Tended ledger P) (member : x ∈ r.requestedSeqnos.val)
    (unsigned : (ledger x).signed.isSome = false) :
    ¬ (x ∈ r.requestedSeqnos.val ∧ (ledger x).signed.isSome ∨ x ∈ r.supportingSignatures) := by
  rintro (⟨-, isSigned⟩ | supports)
  · rw [unsigned] at isSigned
    cases isSigned
  · exact tended.disjoint x member supports

theorem mem_of_tracked (tracked : r.getStoreDetails x = some d) :
    x ∈ r.requestedSeqnos.val ∨ x ∈ r.supportingSignatures := by
  by_cases member : x ∈ r.requestedSeqnos.val
  · exact .inl member
  · rw [getStoreDetails_of_not_mem member] at tracked
    exact .inr (mem_of_eq_some tracked)

theorem coverEarlier_receipts (r : Request) (there : (r.requestedStores s).receipt.isSome) :
    ((r.coverEarlier x t).requestedStores s).receipt.isSome := by
  unfold coverEarlier
  dsimp only
  split
  · rfl
  · exact there

theorem coverEarlier_covers (member : s ∈ r.requestedSeqnos.val) (below : s < x) (covers : t.tree.inRange s = true)
    (held : (r.requestedStores s).store.isSome) : ((r.coverEarlier x t).requestedStores s).receipt.isSome := by
  unfold coverEarlier
  dsimp only
  rw [if_pos ⟨member, below, covers, held⟩]
  rfl

theorem assign_receipts (member : x ∈ r.requestedSeqnos.val) (there : (r.requestedStores s).receipt.isSome) :
    ((r.setStoreDetails x (StoreDetails.assign d t x evidence)).requestedStores s).receipt.isSome := by
  rcases eq_or_ne s x with rfl | other
  · rw [setStoreDetails_requestedStores_self _ member]
    rfl
  · rwa [setStoreDetails_requestedStores_of_ne _ _ other]

theorem coverEarlier_self (r : Request) (x : Nat) (t : Signed) :
    (r.coverEarlier x t).requestedStores x = r.requestedStores x := by
  unfold coverEarlier
  dsimp only
  rw [if_neg (fun covered => Nat.lt_irrefl x covered.2.1)]

/-- The search after a plain entry that supported: a signature on the way that had
arrived would have covered the entries before. -/
theorem Tended.sought_past (tended : r.Tended ledger P) (includes : r.includeReceipts)
    (unsigned : (ledger x).signed = none) (member : s ∈ r.requestedSeqnos.val) (below : s < x)
    (reaches : Plain ledger s x) (arrived : (r.requestedStores s).store.isSome)
    (missing : (r.requestedStores s).receipt = none) (seqnos : r'.requestedSeqnos = r.requestedSeqnos)
    (stores : ∀ p, p ≠ x → r'.requestedStores p = r.requestedStores p)
    (search : r'.supportingSignatures[skipRequested r.requestedSeqnos.val (x + 1)]? = some {}) :
    r'.Sought ledger s := by
  have beyond (p : Nat) (after : s < p) (isSigned : (ledger p).signed.isSome) : x < p := by
    rcases Nat.lt_trichotomy p x with early | rfl | late
    · rw [reaches p after early] at isSigned
      cases isSigned
    · rw [unsigned] at isSigned
      cases isSigned
    · exact late
  have way : r'.Sought ledger s ∨ Plain ledger s (skipRequested r.requestedSeqnos.val (x + 1)) := by
    apply sought_or_plain
    · intro p after before isSigned
      rw [seqnos]
      exact mem_of_lt_skipRequested (beyond p after isSigned) before
    · intro p after before isSigned between
      have later := beyond p after isSigned
      rw [stores p later.ne']
      by_contra there
      have receipt := tended.covered includes s member p (mem_of_lt_skipRequested later before) after between isSigned
        arrived (isSome_iff_ne_none.mpr there)
      rw [missing] at receipt
      cases receipt
  rcases way with sought | plain
  · exact sought
  · have := le_skipRequested r.requestedSeqnos.val (x + 1)
    exact ⟨_, by omega, plain, .inr ⟨{}, search, rfl⟩⟩

theorem Faithful.setStoreDetails (faithful : r.Faithful ledger) (stage : filled.currentStage = .trusted)
    (held : filled.store.isSome) (signature : filled.isSignature = (ledger x).signed.isSome)
    (signed : filled.signed = (ledger x).signed) : (r.setStoreDetails x filled).Faithful ledger := by
  constructor
  · intro s d there
    rw [getStoreDetails_setStoreDetails] at there
    split at there
    · cases there
      rw [stage]
      simp [isSome_iff_ne_none.mp held]
    · exact faithful.stage s d there
  · intro s d there arrived
    rw [getStoreDetails_setStoreDetails] at there
    split at there
    · rename_i same
      cases there
      rw [same]
      exact ⟨signature, signed⟩
    · exact faithful.signed s d there arrived

theorem Sought.mono (sought : r.Sought ledger s) (seqnos : r'.requestedSeqnos = r.requestedSeqnos)
    (stores : ∀ q ∈ r.requestedSeqnos.val, (r.requestedStores q).store = none → (r'.requestedStores q).store = none)
    (supports : ∀ (q : Nat) (d : StoreDetails), r.supportingSignatures[q]? = some d → d.store = none →
      ∃ d' : StoreDetails, r'.supportingSignatures[q]? = some d' ∧ d'.store = none) : r'.Sought ledger s := by
  obtain ⟨q, above, plain, fetched⟩ := sought
  refine ⟨q, above, plain, fetched.imp ?_ ?_⟩
  · rintro ⟨member, empty, signature⟩
    exact ⟨seqnos ▸ member, stores q member empty, signature⟩
  · rintro ⟨d, there, empty⟩
    exact supports q d there empty

theorem sought_of_search (faithful : r.Faithful ledger) (wellSigned : WellSigned ledger)
    (member : x ∈ r.requestedSeqnos.val) (uncovered : r.findSignature x = none)
    (range : r.endOfMatchingRange x = some last) (seqnos : r'.requestedSeqnos = r.requestedSeqnos)
    (stores : r'.requestedStores = r.requestedStores)
    (supports : ∀ (q : Nat) (d : StoreDetails), r.supportingSignatures[q]? = some d → d.store = none →
      ∃ d' : StoreDetails, r'.supportingSignatures[q]? = some d' ∧ d'.store = none)
    (search : r'.supportingSignatures[last + 1]? = some {}) :
    r'.Sought ledger x ∧ ∀ q ∈ r.requestedSeqnos.val, x < q → Plain ledger x q → (ledger q).signed.isSome →
      (r'.requestedStores q).store = none := by
  obtain ⟨_, found, reached, -⟩ := endOfMatchingRange_spec member
  obtain rfl := some.inj (range.symm.trans found)
  refine ⟨?_, fun q requested after plain signed => ?_⟩
  · rcases sought_of_uncovered faithful wellSigned member uncovered range with sought | plain
    · exact sought.mono seqnos (fun q _ empty => stores ▸ empty) supports
    · exact ⟨last + 1, by omega, plain, .inr ⟨{}, search, rfl⟩⟩
  · rw [stores]
    exact not_arrived_of_uncovered faithful wellSigned uncovered requested after signed plain

theorem Tended.take (tended : r.Tended ledger P) (wellSigned : WellSigned ledger)
    (tracked : r.getStoreDetails x = some d) (more : ∀ p ∈ P, p ≠ x → p ∈ Q)
    (next : ∀ n, (r.take x (ledger x) ((ledger x).store publicOnly) d).2 = some n → n ∈ Q) :
    (r.take x (ledger x) ((ledger x).store publicOnly) d).1.Tended ledger Q := by
  have faithful := tended.toFaithful.take (x := x) d publicOnly
  obtain ⟨signature, signed, stage, held, ownReceipt⟩ := fill_signed d (ledger x) publicOnly
  unfold Request.take at next faithful ⊢
  dsimp only at next faithful ⊢
  generalize filling : d.fill (ledger x) ((ledger x).store publicOnly) = filled at *
  -- The details of the entry in the request that has it.
  have here : (r.setStoreDetails x filled).getStoreDetails x = some filled := by
    rw [getStoreDetails_setStoreDetails, if_pos rfl]
  by_cases includes : r.includeReceipts
  case neg =>
    rw [setStoreDetails_includeReceipts, if_neg includes] at next faithful ⊢
    refine Arrives.tended (tended.arrives_of_rewritten more held ownReceipt faithful (mem_of_tracked tracked) (.refl _)
      (fun s there => there) ?_ ?_)
      tended more
    · exact fun included => absurd included includes
    · exact fun included => absurd included includes
  rw [setStoreDetails_includeReceipts, if_pos includes] at next faithful ⊢
  have populates := populateReceipts_populates (r.setStoreDetails x filled) x
  generalize (r.setStoreDetails x filled).populateReceipts x = result at populates next faithful ⊢
  cases populates with
  | absent empty =>
    rw [empty filled here] at held
    cases held
  | unsigned there _ isSignature none_ =>
    obtain rfl := some.inj (here.symm.trans there)
    rw [signature, ← signed, none_] at isSignature
    cases isSignature
  | settled member _ _ plain receipt =>
    rw [setStoreDetails_requestedSeqnos] at member
    rw [setStoreDetails_requestedStores_self filled member] at plain receipt
    refine Arrives.tended (tended.arrives_of_rewritten more held ownReceipt faithful (mem_of_tracked tracked) (.refl _)
      (fun s there => there) ?_ ?_)
      tended more
    · intro _ _
      rwa [setStoreDetails_requestedStores_self filled member]
    · exact fun _ _ _ _ _ depends =>
        absurd depends (tended.independent member (signature.symm.trans plain))
  | signature there _ isSignature found =>
    obtain rfl := some.inj (here.symm.trans there)
    rw [found] at signed
    refine Arrives.tended (tended.arrives_of_rewritten more held ownReceipt faithful (mem_of_tracked tracked)
      (rewritten_coverEarlier ..) ?_ ?_ ?_) tended more
    · exact fun s there => coverEarlier_receipts _ there
    · intro _ member
      rw [coverEarlier_self, setStoreDetails_requestedStores_self filled member]
      exact ownReceipt (by rw [← signed]; rfl)
    · intro _ s member below plain _ there
      rw [((rewritten_coverEarlier ..).requestedStores s).store] at there
      exact coverEarlier_covers (by simpa using member) below ((wellSigned x _ signed.symm s below).mpr plain) there
  | searched there _ plain supports =>
    obtain rfl := some.inj (here.symm.trans there)
    have unsigned : (ledger x).signed = none := by
      rw [plain] at signature
      simpa using signature.symm
    have absent : x ∉ r.requestedSeqnos.val := by
      intro member
      rw [setStoreDetails_of_mem member] at supports
      exact tended.disjoint x member supports
    refine Arrives.tended (tended.arrives_of_search more held ownReceipt includes (next _ rfl) ?_ rfl faithful ?_ ?_) tended more
    · rw [setStoreDetails_requestedSeqnos]
      exact skipRequested_not_mem r.requestedSeqnos.property (x + 1)
    · exact fun member => absurd member absent
    · intro s member below reaches _ arrived missing
      refine ⟨?_, fun requested => absent requested.1⟩
      rw [setStoreDetails_requestedStores_of_ne r filled (by omega)] at arrived missing
      refine tended.sought_past includes unsigned member below reaches arrived missing
        (setStoreDetails_requestedSeqnos ..) (fun p other => setStoreDetails_requestedStores_of_ne r filled other) ?_
      rw [setStoreDetails_requestedSeqnos]
      exact ExtTreeMap.getElem?_insert_self
  | covered member _ _ plain _ found =>
    rw [setStoreDetails_requestedSeqnos] at member
    rw [setStoreDetails_requestedStores_self filled member] at plain
    have requested : x ∈ (r.setStoreDetails x filled).requestedSeqnos.val := by simpa using member
    refine Arrives.tended (tended.arrives_of_rewritten more held ownReceipt faithful (mem_of_tracked tracked)
      (rewritten_setStoreDetails requested (sameEntry_assign ..)) (fun s => assign_receipts requested) ?_ ?_)
      tended more
    · intro _ _
      rw [setStoreDetails_requestedStores_self _ requested]
      rfl
    · exact fun _ _ _ _ _ depends =>
        absurd depends (tended.independent member (signature.symm.trans plain))
  | uncovered member _ _ plain _ none_ =>
    obtain ⟨last, range, -, -, outside⟩ := endOfMatchingRange_spec member
    have between : (r.setStoreDetails x filled).Faithful ledger :=
      tended.toFaithful.setStoreDetails stage held signature signed
    have requested : x ∈ r.requestedSeqnos.val := by simpa using member
    rw [setStoreDetails_requestedStores_self filled requested] at plain
    rw [range] at next faithful ⊢
    refine Arrives.tended (tended.arrives_of_search more held ownReceipt includes (next _ rfl) ?_ rfl faithful ?_ ?_) tended more
    · simpa using outside
    · intro _ _
      rw [← setStoreDetails_requestedSeqnos r x filled]
      refine sought_of_search between wellSigned member none_ range rfl rfl (fun q d there empty => ?_)
        ExtTreeMap.getElem?_insert_self
      obtain ⟨other, -⟩ := tended.supporting_of_arrival held there empty
      refine supports_insert _ ?_ empty
      rwa [ExtTreeMap.getElem?_erase, if_neg (by simpa using Ne.symm other)]
    · exact fun _ _ _ _ depends =>
        absurd depends (tended.independent requested (signature.symm.trans plain))

end Arrival

/-- Receipts for the entries `l` that are there, with searches for the others. -/
structure Populated (ledger : Nat → LedgerEntry) (l searched : List Nat) (r r' : Request) : Prop where
  seqnos : r'.requestedSeqnos = r.requestedSeqnos
  includes : r'.includeReceipts = r.includeReceipts
  firstSeqno : r'.firstRequestedSeqno = r.firstRequestedSeqno
  recovery : r'.ledgerSecretRecoveryInfo = r.ledgerSecretRecoveryInfo
  stores : ∀ s, (r'.requestedStores s).store = (r.requestedStores s).store
  receipts : ∀ s, (r.requestedStores s).receipt.isSome → (r'.requestedStores s).receipt.isSome
  supports : ∀ (q : Nat) (d : StoreDetails), r.supportingSignatures[q]? = some d → d.store = none →
    ∃ d' : StoreDetails, r'.supportingSignatures[q]? = some d' ∧ d'.store = none
  supporting : ∀ (q : Nat) (d : StoreDetails), r'.supportingSignatures[q]? = some d →
    r.supportingSignatures[q]? = some d ∨ d = {} ∧ q ∈ searched
  outside : ∀ q ∈ searched, q ∉ r.requestedSeqnos.val
  served : ∀ s ∈ l, (r'.requestedStores s).store.isSome → (r'.requestedStores s).receipt = none →
    r'.Sought ledger s ∧ ∀ q ∈ r.requestedSeqnos.val, s < q → Plain ledger s q → (ledger q).signed.isSome →
      (r'.requestedStores q).store = none
  settled : (∀ s ∈ l, (r.requestedStores s).store.isSome → (r.requestedStores s).receipt.isSome) → searched = []

theorem Populated.refl (r : Request) : Populated ledger [] [] r r where
  seqnos := rfl
  includes := rfl
  firstSeqno := rfl
  recovery := rfl
  stores _ := rfl
  receipts _ there := there
  supports _ d there empty := ⟨d, there, empty⟩
  supporting _ _ there := .inl there
  outside _ member := nomatch member
  served _ member := nomatch member
  settled _ := rfl

theorem Populated.sought (populated : Populated ledger l searched r r') (sought : r.Sought ledger s) :
    r'.Sought ledger s :=
  Sought.mono sought populated.seqnos (fun q _ empty => (populated.stores q).trans empty) populated.supports

theorem Populated.trans (first : Populated ledger l searched r between) (second : Populated ledger l' searched' between r') :
    Populated ledger (l ++ l') (searched ++ searched') r r' where
  seqnos := second.seqnos.trans first.seqnos
  includes := second.includes.trans first.includes
  firstSeqno := second.firstSeqno.trans first.firstSeqno
  recovery := second.recovery.trans first.recovery
  stores s := (second.stores s).trans (first.stores s)
  receipts s there := second.receipts s (first.receipts s there)
  supports q d there empty := by
    obtain ⟨d', found, still⟩ := first.supports q d there empty
    exact second.supports q d' found still
  supporting q d there := by
    rcases second.supporting q d there with before | ⟨fresh, member⟩
    · exact (first.supporting q d before).imp_right fun ⟨fresh, member⟩ => ⟨fresh, mem_append_left _ member⟩
    · exact .inr ⟨fresh, mem_append_right _ member⟩
  outside q member := by
    rcases mem_append.mp member with early | late
    · exact first.outside q early
    · exact first.seqnos ▸ second.outside q late
  served s member held missing := by
    rcases mem_append.mp member with early | late
    · have before : (between.requestedStores s).receipt = none := by
        rw [← not_isSome_iff_eq_none] at missing ⊢
        exact fun there => missing (second.receipts s there)
      obtain ⟨sought, empty⟩ := first.served s early (second.stores s ▸ held) before
      exact ⟨second.sought sought, fun q requested above plain signed =>
        (second.stores q).trans (empty q requested above plain signed)⟩
    · exact first.seqnos ▸ second.served s late held missing
  settled all := by
    rw [first.settled fun s member => all s (mem_append_left _ member), nil_append]
    apply second.settled
    intro s member held
    exact first.receipts s (all s (mem_append_right _ member) (first.stores s ▸ held))

theorem populated_populateReceipts (faithful : r.Faithful ledger) (wellSigned : WellSigned ledger)
    (signatures : ∀ s d, r.getStoreDetails s = some d → d.store.isSome → (ledger s).signed.isSome → d.receipt.isSome)
    (member : x ∈ r.requestedSeqnos.val) (disjoint : x ∉ r.supportingSignatures) :
    Populated ledger [x] (r.populateReceipts x).2.toList r
      ((r.populateReceipts x).1.search (r.populateReceipts x).2) := by
  -- Without a search, and with a receipt if the entry is there.
  have settles (r' : Request) (rewritten : Rewritten r r')
      (receipts : ∀ s, (r.requestedStores s).receipt.isSome → (r'.requestedStores s).receipt.isSome)
      (served : (r.requestedStores x).store.isSome → (r'.requestedStores x).receipt.isSome) :
      Populated ledger [x] [] r r' := by
    refine ⟨rewritten.requestedSeqnos, rewritten.includeReceipts, rewritten.firstRequestedSeqno,
      rewritten.ledgerSecretRecoveryInfo, fun s => (rewritten.requestedStores s).store, receipts, ?_, ?_, ?_, ?_,
      fun _ => rfl⟩
    · intro q d there empty
      exact ⟨d, rewritten.supportingSignatures ▸ there, empty⟩
    · exact fun q d there => .inl (rewritten.supportingSignatures ▸ there)
    · exact fun q absurd => nomatch absurd
    · intro s same held missing
      obtain rfl := mem_singleton.mp same
      rw [← not_isSome_iff_eq_none] at missing
      exact absurd (served ((rewritten.requestedStores s).store ▸ held)) missing
  have here := getStoreDetails_of_mem member
  have populates := populateReceipts_populates r x
  generalize r.populateReceipts x = result at populates
  cases populates with
  | absent empty =>
    apply settles r (.refl r) (fun _ there => there)
    intro held
    rw [empty _ here] at held
    cases held
  | unsigned there held isSignature none_ =>
    obtain ⟨signature, signed⟩ := faithful.signed x _ there held
    rw [signature, ← signed, none_] at isSignature
    cases isSignature
  | settled _ _ _ _ receipt => exact settles r (.refl r) (fun _ there => there) fun _ => receipt
  | signature there held isSignature found =>
    obtain rfl := some.inj (here.symm.trans there)
    apply settles _ (rewritten_coverEarlier ..) (fun _ => coverEarlier_receipts r)
    intro _
    rw [coverEarlier_self]
    exact signatures x _ there held ((faithful.signed x _ there held).1 ▸ isSignature)
  | searched _ _ _ supports => exact absurd supports disjoint
  | covered _ _ _ _ _ found =>
    apply settles _ (rewritten_setStoreDetails member (sameEntry_assign ..)) (fun s => assign_receipts member)
    intro _
    rw [setStoreDetails_requestedStores_self _ member]
    rfl
  | uncovered _ _ held _ missing none_ =>
    obtain ⟨last, range, -, -, outside⟩ := endOfMatchingRange_spec member
    rw [range]
    refine ⟨rfl, rfl, rfl, rfl, fun _ => rfl, fun _ there => there, fun q d => supports_insert _, ?_, ?_, ?_, ?_⟩
    · intro q d there
      obtain ⟨rfl, rfl⟩ | ⟨-, old⟩ := insert_eq_some there
      · exact .inr ⟨rfl, by simp⟩
      · exact .inl old
    · intro q listed
      obtain rfl : q = last + 1 := by simpa using listed
      exact outside
    · intro s same _ _
      obtain rfl := mem_singleton.mp same
      exact sought_of_search faithful wellSigned member none_ range rfl rfl (fun q d => supports_insert _)
        ExtTreeMap.getElem?_insert_self
    · intro all
      have receipt := all x mem_cons_self held
      rw [missing] at receipt
      cases receipt

theorem populated_populateAll (faithful : r.Faithful ledger) (wellSigned : WellSigned ledger)
    (signatures : ∀ s d, r.getStoreDetails s = some d → d.store.isSome → (ledger s).signed.isSome → d.receipt.isSome)
    (members : ∀ s ∈ l, s ∈ r.requestedSeqnos.val)
    (disjoint : ∀ s ∈ r.requestedSeqnos.val, s ∉ r.supportingSignatures) :
    Populated ledger l (r.populateAll l).2 r (r.populateAll l).1 := by
  induction l generalizing r with
  | nil => exact .refl r
  | cons x l ih =>
    have member := members x mem_cons_self
    have first := populated_populateReceipts faithful wellSigned signatures member (disjoint x member)
    rw [populateAll_cons]
    have details (s : Nat) (d' : StoreDetails)
        (there : ((r.populateReceipts x).1.search (r.populateReceipts x).2).getStoreDetails s = some d') :
        d' = {} ∨ ∃ d, r.getStoreDetails s = some d ∧ SameEntry d d' := by
      rcases getStoreDetails_search there with fresh | before
      · exact .inl fresh
      · exact .inr ((populateReceipts_rewritten r x).getStoreDetails before)
    refine first.trans (ih ?_ ?_ ?_ ?_)
    · refine faithful.of_details fun s d' there => (details s d' there).imp_left ?_
      rintro rfl
      exact .refl _
    · intro s d' there held signed
      by_cases requested : s ∈ r.requestedSeqnos.val
      · rw [getStoreDetails_of_mem (first.seqnos ▸ requested)] at there
        cases there
        exact first.receipts s (signatures s _ (getStoreDetails_of_mem requested) (first.stores s ▸ held) signed)
      rw [getStoreDetails_of_not_mem (first.seqnos ▸ requested)] at there
      rcases first.supporting s d' there with before | ⟨rfl, -⟩
      · exact signatures s d' ((getStoreDetails_of_not_mem requested).trans before) held signed
      · cases held
    · exact fun s later => first.seqnos ▸ members s (mem_cons_of_mem _ later)
    · intro s requested supports
      rw [first.seqnos] at requested
      obtain ⟨d, there⟩ := exists_of_mem supports
      rcases first.supporting s d there with before | ⟨-, listed⟩
      · exact disjoint s requested (mem_of_eq_some before)
      · exact first.outside s listed requested

theorem Tended.update (tended : r.Tended ledger P) (info : Option LedgerSecretRecoveryInfo) (expiry : Nat)
    (requested : info = none → ∀ s ∈ r.requestedSeqnos.val, (r.requestedStores s).store = none → s ∈ Q)
    (supporting : ∀ s d, r.supportingSignatures[s]? = some d → d.store = none → s ∈ Q) :
    { r with ledgerSecretRecoveryInfo := info, timeToExpiry := expiry }.Tended ledger Q where
  stage := tended.stage
  signed := tended.signed
  requested := requested
  supporting := supporting
  disjoint := tended.disjoint
  bare := tended.bare
  signatures := tended.signatures
  first := tended.first
  sought := tended.sought
  covered := tended.covered

theorem Tended.mono (tended : r.Tended ledger P) (more : P ⊆ Q) : r.Tended ledger Q :=
  tended.update r.ledgerSecretRecoveryInfo r.timeToExpiry
    (fun waiting s member empty => more (tended.requested waiting s member empty))
    fun s d there empty => more (tended.supporting s d there empty)

theorem tended_empty : ({} : Request).Tended ledger P where
  stage s d there := by simp [getStoreDetails] at there
  signed s d there := by simp [getStoreDetails] at there
  requested _ s member := nomatch member
  supporting s d there := by simp at there
  disjoint s member := nomatch member
  bare _ := rfl
  signatures s d there := by simp [getStoreDetails] at there
  first := rfl
  sought _ s member := nomatch member
  covered _ s member := nomatch member

/-- The request cannot do without the entry that is asked for. While it waits for a
ledger secret, it asks for its own seqnos again when it has the secret. -/
def Needs (r : Request) (x : Nat) : Prop :=
  r.fetches x ∧ ¬ (r.ledgerSecretRecoveryInfo.isSome ∧ x ∈ r.requestedSeqnos.val)

theorem fetches_iff (faithful : r.Faithful ledger) :
    r.fetches x ↔ ∃ d, r.getStoreDetails x = some d ∧ d.store = none := by
  unfold fetches
  cases there : r.getStoreDetails x with
  | none => simp
  | some d =>
    have stage := faithful.stage x d there
    simpa using stage

theorem Tended.forget (tended : r.Tended ledger P) (unneeded : ¬ r.Needs x) (more : ∀ p ∈ P, p ≠ x → p ∈ Q) :
    r.Tended ledger Q := by
  refine tended.update r.ledgerSecretRecoveryInfo r.timeToExpiry (fun waiting s member empty => ?_)
    fun s d there empty => ?_
  · refine more s (tended.requested waiting s member empty) ?_
    rintro rfl
    refine unneeded ⟨(fetches_iff tended.toFaithful).mpr ⟨_, getStoreDetails_of_mem member, empty⟩, ?_⟩
    rintro ⟨waits, -⟩
    rw [waiting] at waits
    cases waits
  · refine more s (tended.supporting s d there empty) ?_
    rintro rfl
    have absent : s ∉ r.requestedSeqnos.val := fun member =>
      tended.disjoint s member (mem_of_eq_some there)
    exact unneeded ⟨(fetches_iff tended.toFaithful).mpr ⟨d, (getStoreDetails_of_not_mem absent).trans there, empty⟩,
      fun requested => absent requested.2⟩

theorem Tended.recover (tended : r.Tended ledger P) (info : Option LedgerSecretRecoveryInfo)
    (requested : info = none → ∀ s ∈ r.requestedSeqnos.val, s ∈ Q) (unsupported : x ∉ r.supportingSignatures)
    (more : ∀ p ∈ P, p ≠ x → p ∈ Q) : { r with ledgerSecretRecoveryInfo := info }.Tended ledger Q := by
  refine tended.update info r.timeToExpiry (fun waiting s member _ => requested waiting s member)
    fun s d there empty => more s (tended.supporting s d there empty) ?_
  rintro rfl
  exact unsupported (mem_of_eq_some there)

theorem Tended.withExpiry (tended : r.Tended ledger P) (expiry : Nat) :
    { r with timeToExpiry := expiry }.Tended ledger P :=
  tended.update r.ledgerSecretRecoveryInfo expiry tended.requested tended.supporting

def Receipted (r : Request) (seqnos : SeqNoCollection) : Prop :=
  ∀ s ∈ seqnos.val, ∀ d, r.getStoreDetails s = some d → d.store.isSome → d.receipt.isSome

/-- What a changed range can rely on: `Q` are the seqnos that will be asked for if no
secret is needed. -/
theorem Tended.adjustRanges (tended : r.Tended ledger P) (wellSigned : WellSigned ledger)
    (changed : ¬ (seqnos = r.requestedSeqnos ∧ receipts = r.includeReceipts))
    (asked : info = none → (∀ s ∈ seqnos.val, r.fetches s → s ∈ P) ∧ P ⊆ Q ∧
      ∀ s ∈ (r.adjustRanges seqnos receipts).2, s ∈ Q)
    (receipted : receipts → (r.includeReceipts ∨ info.isSome) → r.Receipted seqnos) :
    { (r.adjustRanges seqnos receipts).1 with ledgerSecretRecoveryInfo := info }.Tended ledger Q := by
  have faithful : (r.adjustRanges seqnos receipts).1.Faithful ledger :=
    tended.toFaithful.of_details fun _ _ => getStoreDetails_adjustRanges
  unfold Request.adjustRanges at asked faithful ⊢
  rw [if_neg changed] at asked faithful ⊢
  generalize equation : ({ r with
        requestedStores := fun seqno => (r.getStoreDetails seqno).getD {}
        firstRequestedSeqno := seqnos.val.headD 0
        ledgerSecretRecoveryInfo := none
        requestedSeqnos := seqnos
        includeReceipts := receipts
        supportingSignatures := ∅ } : Request) = adjusted at asked faithful ⊢
  have seqnos_eq : adjusted.requestedSeqnos = seqnos := by rw [← equation]
  have includes_eq : adjusted.includeReceipts = receipts := by rw [← equation]
  have first_eq : adjusted.firstRequestedSeqno = adjusted.requestedSeqnos.val.headD 0 := by rw [← equation]
  have supporting_eq : adjusted.supportingSignatures = ∅ := by rw [← equation]
  have stores_eq (s : Nat) : adjusted.requestedStores s = (r.getStoreDetails s).getD {} := by rw [← equation]
  -- What is there was there before.
  have details (s : Nat) (d : StoreDetails) (there : adjusted.getStoreDetails s = some d) :
      s ∈ seqnos.val ∧ (d = {} ∧ r.getStoreDetails s = none ∨ r.getStoreDetails s = some d) := by
    unfold getStoreDetails at there
    split at there
    · rename_i member
      rw [stores_eq] at there
      obtain rfl := some.inj there
      refine ⟨seqnos_eq ▸ member, ?_⟩
      cases r.getStoreDetails s with
      | none => exact .inl ⟨rfl, rfl⟩
      | some d => exact .inr rfl
    · simp [supporting_eq] at there
  have signatures : ∀ s d, adjusted.getStoreDetails s = some d → d.store.isSome → (ledger s).signed.isSome →
      d.receipt.isSome := by
    intro s d there held signed
    rcases (details s d there).2 with ⟨rfl, -⟩ | before
    · cases held
    · exact tended.signatures s d before held signed
  have requests (asks : info = none) (s : Nat) (member : s ∈ seqnos.val)
      (empty : (adjusted.requestedStores s).store = none) :
      s ∈ P ∨ s ∈ seqnos.val.filter fun seqno => (r.getStoreDetails seqno).isNone := by
    rw [stores_eq] at empty
    cases before : r.getStoreDetails s with
    | none => exact .inr (mem_filter.mpr ⟨member, by simp [before]⟩)
    | some d =>
      rw [before] at empty
      exact .inl ((asked asks).1 s member ((fetches_iff tended.toFaithful).mpr ⟨d, before, empty⟩))
  by_cases fresh : receipts ∧ !r.includeReceipts
  · -- Receipts are asked for the first time.
    rw [if_pos fresh] at asked faithful ⊢
    have between : adjusted.Faithful ledger := by
      refine tended.toFaithful.of_details fun s d there => ?_
      rcases (details s d there).2 with ⟨rfl, -⟩ | before
      · exact .inl (.refl _)
      · exact .inr ⟨d, before, .refl d⟩
    have populated := populated_populateAll between wellSigned signatures (l := seqnos.val)
      (fun s member => seqnos_eq ▸ member) (fun s _ supports => by simp [supporting_eq] at supports)
    generalize adjusted.populateAll seqnos.val = result at asked populated faithful ⊢
    obtain ⟨final, searched⟩ := result
    have searches : info.isSome → searched = [] := by
      intro waits
      apply populated.settled
      intro s member held
      rw [stores_eq] at held ⊢
      cases before : r.getStoreDetails s with
      | none => simp [before] at held
      | some d =>
        rw [before] at held
        exact receipted fresh.1 (.inr waits) s member d before held
    refine ⟨⟨faithful.stage, faithful.signed⟩, ?_, ?_, ?_, ?_, ?_, ?_, ?_, ?_⟩
    · intro asks s member empty
      rw [populated.seqnos, seqnos_eq] at member
      rcases requests asks s member (populated.stores s ▸ empty) with known | new
      · exact (asked asks).2.1 known
      · exact (asked asks).2.2 s (mem_append_left _ new)
    · intro q d there _
      rcases populated.supporting q d there with before | ⟨-, listed⟩
      · simp [supporting_eq] at before
      cases waits : info with
      | none => exact (asked waits).2.2 q (mem_append_right _ listed)
      | some _ =>
        rw [searches (by simp [waits])] at listed
        cases listed
    · intro s member supports
      rw [populated.seqnos] at member
      obtain ⟨d, there⟩ := exists_of_mem supports
      rcases populated.supporting s d there with before | ⟨-, listed⟩
      · simp [supporting_eq] at before
      · exact populated.outside s listed member
    · intro excludes
      rw [populated.includes, includes_eq, fresh.1] at excludes
      cases excludes
    · intro s d there held signed
      by_cases requested : s ∈ adjusted.requestedSeqnos.val
      · rw [getStoreDetails_of_mem (populated.seqnos ▸ requested)] at there
        cases there
        exact populated.receipts s (signatures s _ (getStoreDetails_of_mem requested) (populated.stores s ▸ held) signed)
      rw [getStoreDetails_of_not_mem (populated.seqnos ▸ requested)] at there
      rcases populated.supporting s d there with before | ⟨rfl, -⟩
      · simp [supporting_eq] at before
      · cases held
    · rw [populated.firstSeqno, populated.seqnos]
      exact first_eq
    · intro _ s member held missing
      rw [populated.seqnos, seqnos_eq] at member
      exact (populated.served s member held missing).1
    · intro _ s member q requested above plain signed held there
      rw [populated.seqnos] at requested
      rw [populated.seqnos, seqnos_eq] at member
      rw [← ne_none_iff_isSome]
      intro missing
      rw [(populated.served s member held missing).2 q requested above plain signed] at there
      cases there
  · rw [if_neg fresh] at asked faithful ⊢
    -- Whatever is there has its receipt.
    have served (includes : adjusted.includeReceipts) (s : Nat) (member : s ∈ adjusted.requestedSeqnos.val)
        (held : (adjusted.requestedStores s).store.isSome) : (adjusted.requestedStores s).receipt.isSome := by
      rw [includes_eq] at includes
      rw [seqnos_eq] at member
      have already : r.includeReceipts := by
        by_contra off
        exact fresh ⟨includes, by simpa using off⟩
      rw [stores_eq] at held ⊢
      cases before : r.getStoreDetails s with
      | none => simp [before] at held
      | some d =>
        rw [before] at held
        exact receipted includes (.inl already) s member d before held
    refine ⟨⟨faithful.stage, faithful.signed⟩, ?_, ?_, ?_, ?_, ?_, ?_, ?_, ?_⟩
    · intro asks s member empty
      rw [seqnos_eq] at member
      rcases requests asks s member empty with known | new
      · exact (asked asks).2.1 known
      · exact (asked asks).2.2 s new
    · intro q d there
      simp [supporting_eq] at there
    · intro s _ supports
      simp [supporting_eq] at supports
    · exact fun _ => supporting_eq
    · exact signatures
    · exact first_eq
    · intro includes s member held missing
      have receipt := served includes s member held
      rw [missing] at receipt
      cases receipt
    · exact fun includes s member q _ _ _ _ held _ => served includes s member held

end Request

/-- The claim of the cache on the host: an incomplete request that waits for no secret has its
own seqnos asked for, and for each entry without a receipt a later seqno that may cover it. -/
structure Request.Attended (P : Finset Nat) (r : Request) : Prop where
  requested : ∀ s ∈ r.requestedSeqnos.val, r.fetches s → s ∈ P
  receipts : r.includeReceipts → ∀ s ∈ r.requestedSeqnos.val, (r.requestedStores s).store.isSome →
    (r.requestedStores s).receipt = none → ∃ q, s < q ∧ r.fetches q ∧ q ∈ P

theorem Request.Tended.attended (tended : r.Tended ledger P) (ready : r.ledgerSecretRecoveryInfo = none) :
    r.Attended P := by
  have own (s : Nat) (member : s ∈ r.requestedSeqnos.val) (empty : (r.requestedStores s).store = none) :
      r.fetches s ∧ s ∈ P :=
    ⟨(fetches_iff tended.toFaithful).mpr ⟨_, getStoreDetails_of_mem member, empty⟩,
      tended.requested ready s member empty⟩
  constructor
  · intro s member fetches
    obtain ⟨d, there, empty⟩ := (fetches_iff tended.toFaithful).mp fetches
    rw [getStoreDetails_of_mem member] at there
    cases there
    exact (own s member empty).2
  · intro includes s member held missing
    obtain ⟨q, above, -, ⟨requested, empty, -⟩ | ⟨d, there, empty⟩⟩ := tended.sought includes s member held missing
    · exact ⟨q, above, own q requested empty⟩
    have absent : q ∉ r.requestedSeqnos.val := fun requested =>
      tended.disjoint q requested (mem_of_eq_some there)
    exact ⟨q, above, (fetches_iff tended.toFaithful).mpr ⟨d, (getStoreDetails_of_not_mem absent).trans there, empty⟩,
      tended.supporting q d there empty⟩

def Action.Genuine (service : Service) (ledger : Nat → LedgerEntry) : Action → Prop
  | .ledgerEntry seqno data => ∀ e, data = some e → StateCache.accepts service seqno e → e = ledger seqno
  | _ => True

namespace StateCache

def NeedsSecret (service : Service) (c : StateCache) (seqnos : SeqNoCollection) : Prop :=
  seqnos.val.headD 0 < (c.getEarliestKnownLedgerSecret service).version

/-- What must not happen for requests to go on. -/
def Careful (service : Service) (c : StateCache) : Action → Prop
  | .ledgerEntry seqno data =>
    -- An entry that is turned down is needed by no request.
    ((c.deserialiseLedgerEntry service seqno data).any (fun x => accepts service seqno x.1) = false →
      ∀ x ∈ c.requests, ¬ x.2.Needs seqno) ∧
    ∀ x ∈ c.requests, x.2.awaits seqno →
      -- A request does not search for a signature in the entry that has its secret.
      seqno ∉ x.2.supportingSignatures ∧
      -- The secrets before the one it gets were stored.
      ∀ e secret, data = some e → e.pastLedgerSecret = some secret →
        (c.setSecret secret).fetchSupportingSecretIfNeeded service x.2.firstRequestedSeqno ≠ none
  | .getStates handle seqnos _ receipts =>
    (c.NeedsSecret service seqnos → (c.getEarliestKnownLedgerSecret service).previousSecretStoredVersion ≠ none) ∧
    (¬ (seqnos = (c.findRequest handle).requestedSeqnos ∧ receipts = (c.findRequest handle).includeReceipts) →
      -- What is still fetched of the new range is asked for.
      (¬ c.NeedsSecret service seqnos →
        ∀ s ∈ seqnos.val, (c.findRequest handle).fetches s → s ∈ c.pendingFetches) ∧
      -- A search that is dropped is not needed.
      (receipts → ((c.findRequest handle).includeReceipts ∨ c.NeedsSecret service seqnos) →
        (c.findRequest handle).Receipted seqnos))
  | _ => True

def Tended (ledger : Nat → LedgerEntry) (c : StateCache) : Prop :=
  ∀ x ∈ c.requests, x.2.Tended ledger c.pendingFetches

/-- The cache knows the same secrets once it has the one in the entry. -/
def SameSecrets (store : Store) (c u : StateCache) : Prop :=
  ∀ secret, store.pastLedgerSecret = some secret →
    (u.setSecret secret).historicalLedgerSecrets = (c.setSecret secret).historicalLedgerSecrets

end StateCache

open StateCache

theorem Outcome.tended {before : StateCache}
    (outcome : Outcome service x (ledger x) ((ledger x).store publicOnly) c r (.done u r'))
    (tended : r.Tended ledger P) (wellSigned : WellSigned ledger)
    (unsupported : r.awaits x → x ∉ r.supportingSignatures)
    (secrets : SameSecrets ((ledger x).store publicOnly) before c) (more : ∀ p ∈ P, p ≠ x → p ∈ c.pendingFetches) :
    r'.Tended ledger u.pendingFetches ∧ c.pendingFetches ⊆ u.pendingFetches ∧
      SameSecrets ((ledger x).store publicOnly) before u := by
  cases outcome with
  | passed _ unfetched =>
    refine ⟨tended.forget (fun needs => ?_) more, subset_rfl, secrets⟩
    rw [needs.1] at unfetched
    cases unfetched
  | @took d _ tracked _ =>
    have grows : c.pendingFetches ⊆
        (c.fetch (r.take x (ledger x) ((ledger x).store publicOnly) d).2.toList).pendingFetches :=
      fun p there => mem_fetch.mpr (.inl there)
    refine ⟨tended.take wellSigned tracked (fun p there other => grows (more p there other)) ?_, grows, ?_⟩
    · intro n next
      exact mem_fetch.mpr (.inr (by simp [next]))
    · intro secret stored
      rw [setSecret_congr (fetch_historical c _) secret]
      exact secrets secret stored
  | recovered awaits stored found =>
    have supported := fetchSupporting_spec found
    have grows : c.pendingFetches ⊆ u.pendingFetches := by simpa using supported.pending
    refine ⟨tended.recover _ (fun absurd => nomatch absurd) (unsupported awaits)
      (fun p there other => grows (more p there other)), grows, ?_⟩
    intro other known
    cases stored.symm.trans known
    rw [setSecret_congr supported.historical, setSecret_setSecret]
    exact secrets _ stored
  | @resumed secret between awaits stored found =>
    have supported := fetchSupporting_spec found
    have grows : c.pendingFetches ⊆ (between.fetch r.requestedSeqnos.val).pendingFetches := by
      intro p there
      exact mem_fetch.mpr (.inl (supported.pending (by simpa using there)))
    refine ⟨tended.recover _ (fun _ s member => mem_fetch.mpr (.inr member)) (unsupported awaits)
      (fun p there other => grows (more p there other)), grows, ?_⟩
    intro other known
    cases stored.symm.trans known
    rw [setSecret_congr (c := between.fetch r.requestedSeqnos.val) (u := c.setSecret secret) supported.historical,
      setSecret_setSecret]
    exact secrets _ stored

theorem Processing.tended {before : StateCache} {requests requests' : List (Handle × Request)}
    (processing : Processing service x (ledger x) ((ledger x).store publicOnly) c requests c' requests')
    (tended : ∀ y ∈ requests, y.2.Tended ledger P) (wellSigned : WellSigned ledger)
    (unsupported : ∀ y ∈ requests, y.2.awaits x → x ∉ y.2.supportingSignatures)
    (stored : ∀ y ∈ requests, y.2.awaits x → ∀ secret, (ledger x).pastLedgerSecret = some secret →
      (before.setSecret secret).fetchSupportingSecretIfNeeded service y.2.firstRequestedSeqno ≠ none)
    (secrets : SameSecrets ((ledger x).store publicOnly) before c) (more : ∀ p ∈ P, p ≠ x → p ∈ c.pendingFetches) :
    c.pendingFetches ⊆ c'.pendingFetches ∧ ∀ y ∈ requests', y.2.Tended ledger c'.pendingFetches := by
  induction processing with
  | nil => exact ⟨subset_rfl, fun y member => nomatch member⟩
  | done outcome rest ih =>
    obtain ⟨this, grows, known⟩ := outcome.tended (tended _ mem_cons_self) wellSigned
      (unsupported _ mem_cons_self) secrets more
    obtain ⟨growsAgain, others⟩ := ih (fun y member => tended y (mem_cons_of_mem _ member))
      (fun y member => unsupported y (mem_cons_of_mem _ member))
      (fun y member => stored y (mem_cons_of_mem _ member)) known
      (fun p there other => grows (more p there other))
    refine ⟨grows.trans growsAgain, fun y member => ?_⟩
    rcases mem_cons.mp member with rfl | later
    · exact this.mono growsAgain
    · exact others y later
  | threw outcome =>
    cases outcome with
    | threw awaits found failed =>
      exact absurd (fetchSupporting_congr (secrets _ found) failed) (stored _ mem_cons_self awaits _ found)

namespace StateCache

theorem Tended.handleLedgerEntry (tended : c.Tended ledger) (wellSigned : WellSigned ledger)
    (genuine : Action.Genuine service ledger (.ledgerEntry seqno data))
    (careful : c.Careful service (.ledgerEntry seqno data))
    (handled : c.handleLedgerEntry service seqno data = some c') : c'.Tended ledger := by
  unfold StateCache.handleLedgerEntry at handled
  split at handled
  · cases handled
    exact tended
  -- An entry that was turned down is forgotten.
  have forgotten (refused : (c.deserialiseLedgerEntry service seqno data).any (fun x => accepts service seqno x.1) = false) :
      Tended ledger { c with pendingFetches := c.pendingFetches.erase seqno } := by
    intro x member
    exact (tended x member).forget (careful.1 refused x member) fun p there other => Finset.mem_erase.mpr ⟨other, there⟩
  have same : StateCache.deserialiseLedgerEntry service { c with pendingFetches := c.pendingFetches.erase seqno } seqno data =
      c.deserialiseLedgerEntry service seqno data := rfl
  dsimp only at handled
  rw [same] at handled
  split at handled
  · rename_i failed
    cases handled
    exact forgotten (by simp [failed])
  rename_i e store deserialised
  split at handled
  case isFalse refused =>
    cases handled
    exact forgotten (by simpa [deserialised] using refused)
  case isTrue accepted =>
  obtain ⟨e', here, mode⟩ := bind_eq_some_iff.mp deserialised
  obtain ⟨-, read⟩ := ite_none_right_eq_some.mp mode
  cases read
  obtain rfl := genuine e here accepted
  obtain ⟨⟨u, requests⟩, processed, rfl⟩ := map_eq_some_iff.mp handled
  have processing := processing_of_processRequests processed
  have secrets : SameSecrets ((ledger seqno).store (c.requests.any fun x => x.2.awaits seqno)) c
      { c with pendingFetches := c.pendingFetches.erase seqno } := by
    intro secret _
    have same : { c with pendingFetches := c.pendingFetches.erase seqno }.historicalLedgerSecrets =
      c.historicalLedgerSecrets := rfl
    exact setSecret_congr same secret
  refine (processing.tended tended wellSigned (fun y member awaits => (careful.2 y member awaits).1) ?_ secrets ?_).2
  · intro y member awaits secret stored
    exact (careful.2 y member awaits).2 _ secret here stored
  · exact fun p there other => Finset.mem_erase.mpr ⟨other, there⟩

theorem Tended.findRequest (tended : c.Tended ledger) (handle : Handle) :
    (c.findRequest handle).Tended ledger c.pendingFetches := by
  rcases findRequest_mem c handle with member | empty
  · exact tended _ member
  · rw [empty]
    exact Request.tended_empty

theorem Tended.setRequest (tended : c.Tended ledger) (requests : u.requests = c.requests)
    (grows : c.pendingFetches ⊆ u.pendingFetches) (replaced : r.Tended ledger u.pendingFetches) (handle : Handle) :
    (u.setRequest handle r).Tended ledger := by
  rintro ⟨other, r'⟩ member
  rw [setRequest_pending]
  rcases mem_setRequest member with same | ⟨-, old⟩
  · cases same
    exact replaced
  · exact (tended _ (requests ▸ old)).mono grows

theorem adjustRanges_first (tended : r.Tended ledger P) (seqnos : SeqNoCollection) (receipts : Bool) :
    (r.adjustRanges seqnos receipts).1.firstRequestedSeqno = seqnos.val.headD 0 := by
  unfold Request.adjustRanges
  split
  · rename_i same
    rw [same.1]
    exact tended.first
  split
  · exact (Request.sameRanges_populateAll _ _).firstRequestedSeqno
  · rfl

theorem Tended.getStatesInternal (tended : c.Tended ledger) (wellSigned : WellSigned ledger)
    (careful : c.Careful service (.getStates handle seqnos expiry receipts)) :
    (c.getStatesInternal service handle seqnos expiry receipts).1.Tended ledger := by
  have own := tended.findRequest handle
  obtain ⟨stored, safe⟩ := careful
  have firstSeqno := adjustRanges_first own seqnos receipts
  unfold StateCache.getStatesInternal
  generalize c.findRequest handle = before at own safe firstSeqno ⊢
  -- The request as it is if the ranges stay or change.
  have adjusted (info : Option LedgerSecretRecoveryInfo) (Q : Finset Nat) (grows : c.pendingFetches ⊆ Q)
      (asks : info = none → ¬ c.NeedsSecret service seqnos ∧
        ∀ s ∈ (before.adjustRanges seqnos receipts).2, s ∈ Q)
      (waits : info.isSome → c.NeedsSecret service seqnos)
      (changed : ¬ (seqnos = before.requestedSeqnos ∧ receipts = before.includeReceipts)) :
      { (before.adjustRanges seqnos receipts).1 with ledgerSecretRecoveryInfo := info }.Tended ledger Q := by
    obtain ⟨kept, dropped⟩ := safe changed
    refine own.adjustRanges wellSigned changed (fun none_ => ⟨kept (asks none_).1, grows, (asks none_).2⟩) ?_
    intro includes reason
    exact dropped includes (reason.imp_right waits)
  have unchanged (same : seqnos = before.requestedSeqnos ∧ receipts = before.includeReceipts) :
      before.adjustRanges seqnos receipts = (before, []) := if_pos same
  have cleared (changed : ¬ (seqnos = before.requestedSeqnos ∧ receipts = before.includeReceipts)) :
      (before.adjustRanges seqnos receipts).1.ledgerSecretRecoveryInfo = none := by
    unfold Request.adjustRanges
    rw [if_neg changed]
    split
    · exact (Request.sameRanges_populateAll _ _).ledgerSecretRecoveryInfo
    · rfl
  generalize before.adjustRanges seqnos receipts = result at adjusted unchanged cleared firstSeqno ⊢
  obtain ⟨r, newSeqnos⟩ := result
  dsimp only at adjusted unchanged cleared firstSeqno ⊢
  cases found : c.fetchSupportingSecretIfNeeded service r.firstRequestedSeqno with
  | none =>
    exfalso
    unfold fetchSupportingSecretIfNeeded at found
    dsimp only at found
    split at found
    · rename_i needs
      rw [firstSeqno] at needs
      simp only [map_eq_none_iff] at found
      exact stored needs found
    · cases found
  | some result =>
    obtain ⟨info, u⟩ := result
    have supported := fetchSupporting_spec found
    have needs : info.isSome ↔ c.NeedsSecret service seqnos := by
      unfold fetchSupportingSecretIfNeeded at found
      dsimp only at found
      rw [firstSeqno] at found
      split at found
      · rename_i needs
        obtain ⟨target, -, same⟩ := map_eq_some_iff.mp found
        cases same
        exact ⟨fun _ => needs, fun _ => rfl⟩
      rename_i known
      cases found
      exact ⟨(fun waits => nomatch waits), fun needs => absurd needs known⟩
    cases info with
    | none =>
      dsimp only
      have grows : c.pendingFetches ⊆ (u.fetch newSeqnos).pendingFetches := fun p there =>
        mem_fetch.mpr (.inl (supported.pending there))
      have free : ¬ c.NeedsSecret service seqnos := fun secret => nomatch needs.mpr secret
      refine tended.setRequest (u := u.fetch newSeqnos) supported.requests grows (Request.Tended.withExpiry ?_ expiry) handle
      by_cases same : seqnos = before.requestedSeqnos ∧ receipts = before.includeReceipts
      · obtain ⟨rfl, -⟩ := Prod.mk.inj (unchanged same)
        exact own.mono grows
      have tended := adjusted none _ grows (fun _ => ⟨free, fun s member => mem_fetch.mpr (.inr member)⟩)
        (fun absurd => nomatch absurd) same
      have ready := cleared same
      cases r
      cases ready
      exact tended
    | some info =>
      dsimp only
      -- Either way the request waits.
      obtain ⟨waiting, recovery⟩ : ∃ waiting, (if r.awaits info.targetSeqno then r.ledgerSecretRecoveryInfo
          else some info) = some waiting := by
        split
        · rename_i awaits
          unfold Request.awaits at awaits
          cases known : r.ledgerSecretRecoveryInfo with
          | none => simp [known] at awaits
          | some waiting => exact ⟨waiting, rfl⟩
        · exact ⟨info, rfl⟩
      have waits : { r with ledgerSecretRecoveryInfo := some waiting }.Tended ledger u.pendingFetches := by
        by_cases same : seqnos = before.requestedSeqnos ∧ receipts = before.includeReceipts
        · obtain ⟨rfl, -⟩ := Prod.mk.inj (unchanged same)
          exact own.update (some waiting) _ nofun fun s d there empty => supported.pending (own.supporting s d there empty)
        · exact adjusted (some waiting) _ supported.pending (fun absurd => nomatch absurd)
            (fun _ => needs.mp rfl) same
      rw [recovery]
      exact tended.setRequest supported.requests supported.pending (waits.withExpiry expiry) handle

theorem Tended.handleNoEntry (tended : c.Tended ledger) (seqno : Nat) : (c.handleNoEntry seqno).Tended ledger := by
  unfold StateCache.handleNoEntry
  split
  · intro x member
    obtain ⟨there, untracked⟩ := mem_filter.mp member
    refine (tended x there).forget (x := seqno) (fun needs => ?_) fun p pending other =>
      Finset.mem_erase.mpr ⟨other, pending⟩
    obtain ⟨d, tracked, -⟩ := (Request.fetches_iff (tended x there).toFaithful).mp needs.1
    simp [tracked] at untracked
  · exact tended

theorem Tended.step (tended : c.Tended ledger) (wellSigned : WellSigned ledger) (genuine : a.Genuine service ledger)
    (careful : c.Careful service a) (moved : c.step service a = some c') : c'.Tended ledger := by
  cases a with
  | getStates handle seqnos expiry receipts =>
    obtain ⟨-, done⟩ := ite_none_left_eq_some.mp moved
    cases done
    exact tended.getStatesInternal wellSigned careful
  | ledgerEntry seqno data => exact tended.handleLedgerEntry wellSigned genuine careful moved
  | noEntryRange fromSeqno toSeqno =>
    cases moved
    unfold handleNoEntryRange
    generalize List.range' fromSeqno (toSeqno + 1 - fromSeqno) = seqnos
    induction seqnos generalizing c with
    | nil => exact tended
    | cons seqno seqnos ih => exact ih (tended.handleNoEntry seqno) trivial
  | tick elapsed =>
    cases moved
    intro x member
    obtain ⟨y, there, rfl⟩ := List.mem_map.mp member
    exact (tended y (mem_filter.mp there).1).withExpiry _
  | drop handle =>
    cases moved
    exact fun x member => tended x (mem_filter.mp member).1

/-- As long as no needed entry is turned down and no search or secret is dropped, an
incomplete request that waits for no secret has what it needs asked for. -/
theorem requests_attended (wellSigned : WellSigned ledger) (run : Lib.Run (step service) {} trace c)
    (genuine : ∀ t ∈ trace, t.action.Genuine service ledger)
    (careful : ∀ t ∈ trace, t.pre.Careful service t.action) (member : (handle, r) ∈ c.requests)
    (ready : r.ledgerSecretRecoveryInfo = none) : r.Attended c.pendingFetches := by
  have tended : c.Tended ledger :=
    run.invariant_of (fun t member => And.intro (genuine t member) (careful t member)) (Tended ledger)
      (fun x absurd => nomatch absurd) fun _ _ _ before moved good => before.step wellSigned good.1 good.2 moved
  exact (tended _ member).attended ready

/-- A ledger with a signature at every fourth seqno, in view 2. -/
def signedLedger (seqno : Nat) : LedgerEntry where
  txid := ⟨2, seqno⟩
  entryDigest := seqno
  signed := if seqno % 4 = 0 then some ⟨⟨seqno, 2, seqno⟩, ⟨seqno - 4, seqno⟩⟩ else none

theorem signedLedger_wellSigned : WellSigned signedLedger := by
  intro q t signed s below
  unfold signedLedger at signed
  split at signed
  case isFalse => cases signed
  case isTrue multiple =>
  cases signed
  simp only [SerialisedMerkleTree.inRange, Bool.and_eq_true, decide_eq_true_eq]
  constructor
  · rintro ⟨from_, -⟩ p after before
    unfold signedLedger
    rw [if_neg (by omega)]
  · intro plain
    refine ⟨?_, below.le⟩
    by_contra early
    have unsigned := plain (q - 4) (by omega) (by omega)
    unfold signedLedger at unsigned
    rw [if_pos (by omega)] at unsigned
    cases unsigned

def openService : Service where
  getView := some fun _ => 2
  firstSecret := ⟨1, none⟩

def pair (first second : Nat) (ordered : first < second) : SeqNoCollection :=
  ⟨[first, second], by simp [ordered]⟩

instance (r : Request) (x : Nat) : Decidable (r.Needs x) := by
  unfold Request.Needs
  infer_instance

instance (r : Request) (seqnos : SeqNoCollection) : Decidable (r.Receipted seqnos) := by
  unfold Request.Receipted
  infer_instance

instance (service : Service) (c : StateCache) (seqnos : SeqNoCollection) : Decidable (c.NeedsSecret service seqnos) :=
  inferInstanceAs (Decidable (_ < _))

instance (service : Service) (ledger : Nat → LedgerEntry) (a : Action) : Decidable (a.Genuine service ledger) :=
  match a with
  | .ledgerEntry _ data => inferInstanceAs (Decidable (∀ e ∈ data, _ → _))
  | .getStates .. | .noEntryRange .. | .tick _ | .drop _ => isTrue trivial

instance (service : Service) (c : StateCache) (a : Action) : Decidable (c.Careful service a) :=
  match a with
  | .ledgerEntry seqno data =>
    have (x : Handle × Request) : Decidable (∀ e secret, data = some e → e.pastLedgerSecret = some secret →
        (c.setSecret secret).fetchSupportingSecretIfNeeded service x.2.firstRequestedSeqno ≠ none) :=
      decidable_of_iff (∀ e ∈ data, ∀ secret ∈ e.pastLedgerSecret, _)
        ⟨fun all e secret here known => all e here secret known, fun all e here secret known => all e secret here known⟩
    inferInstanceAs (Decidable ((_ → ∀ x ∈ c.requests, ¬ x.2.Needs seqno) ∧ ∀ x ∈ c.requests, _ → _ ∧ _))
  | .getStates _ seqnos _ _ =>
    inferInstanceAs (Decidable ((_ → _) ∧ (¬ (_ ∧ _) → (¬ _ → ∀ s ∈ seqnos.val, _ → _) ∧ (_ → (_ ∨ _) → _))))
  | .noEntryRange .. | .tick _ | .drop _ => isTrue trivial

/-- Entry 5 arrives and a search for its signature begins at 7. -/
theorem requests_attended_searching :
    ∃ trace c r, Lib.Run (step openService) {} trace c ∧ (∀ t ∈ trace, t.action.Genuine openService signedLedger) ∧
      (∀ t ∈ trace, t.pre.Careful openService t.action) ∧ (1, r) ∈ c.requests ∧
      r.ledgerSecretRecoveryInfo = none ∧ c.pendingFetches = {6, 7} ∧ r.Attended c.pendingFetches := by
  obtain ⟨trace, c, run, genuine, careful, ⟨⟨_, r⟩, member, rfl, ready⟩, pending⟩ :
      ∃ trace c, Run (step openService) {} trace c ∧ (∀ t ∈ trace, t.action.Genuine openService signedLedger) ∧
        (∀ t ∈ trace, t.pre.Careful openService t.action) ∧
        (∃ x ∈ c.requests, x.1 = 1 ∧ x.2.ledgerSecretRecoveryInfo = none) ∧ c.pendingFetches = {6, 7} :=
    exists_run [.getStates 1 (pair 5 6 (by decide)) 9 true, .ledgerEntry 5 (some (signedLedger 5))]
      (by decide +kernel)
  exact ⟨trace, c, r, run, genuine, careful, member, ready, pending,
    requests_attended signedLedger_wellSigned run genuine careful member ready⟩

/-- An entry that cannot be deserialised is not asked for again. -/
theorem rejected_entry_forgotten :
    ∃ trace c r, Lib.Run (step openService) {} trace c ∧ (∀ t ∈ trace, t.action.Genuine openService signedLedger) ∧
      (1, r) ∈ c.requests ∧ r.ledgerSecretRecoveryInfo = none ∧ ¬ r.Attended c.pendingFetches := by
  obtain ⟨trace, c, run, genuine, ⟨_, r⟩, member, rfl, ready, requested, fetches, forgotten⟩ :
      ∃ trace c, Run (step openService) {} trace c ∧ (∀ t ∈ trace, t.action.Genuine openService signedLedger) ∧
        ∃ x ∈ c.requests, x.1 = 1 ∧ x.2.ledgerSecretRecoveryInfo = none ∧
          5 ∈ x.2.requestedSeqnos.val ∧ x.2.fetches 5 ∧ 5 ∉ c.pendingFetches :=
    exists_run [.getStates 1 (pair 5 6 (by decide)) 9 true, .ledgerEntry 5 none] (by decide +kernel)
  exact ⟨trace, c, r, run, genuine, member, ready, fun attended => forgotten (attended.requested 5 requested fetches)⟩

end StateCache
end CCF.Historical
