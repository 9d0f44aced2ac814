import ShardedCCF.Node.HistoricalFetches

/-! The receipts and transaction ids that historical requests return, and how they
depend on the order in which entries arrive. -/
namespace CCF.Historical
open Lib
open List hiding next
open Option Function
open Std (ExtTreeMap)

variable {service : Service} {ledger : Nat → LedgerEntry} {r r' : Request} {c c' : StateCache} {a : Action}

/-- Signatures name their own place, and the entries up to a signature are of its view. -/
structure WellFormed (ledger : Nat → LedgerEntry) : Prop where
  wellSigned : WellSigned ledger
  seqno : ∀ s, (ledger s).txid.seqno = s
  own : ∀ q t, (ledger q).signed = some t → (⟨t.sig.view, t.sig.seqno⟩ : TxID) = (ledger q).txid
  view : ∀ q t, (ledger q).signed = some t → ∀ s < q, Plain ledger s q → (ledger s).signed = none →
    (ledger s).txid.view = t.sig.view

def LedgerEntry.commitEvidence (e : LedgerEntry) : Option TxID := if e.hasCommitEvidence then some e.txid else none

open Classical in
noncomputable def nextSignature (ledger : Nat → LedgerEntry) (s : Nat) : Option Signed :=
  if later : ∃ q, s < q ∧ (ledger q).signed.isSome then (ledger (Nat.find later)).signed else none

/-- The receipt of an entry: a signature stands for itself, anything else is covered by
the next signature. -/
noncomputable def receiptOf (ledger : Nat → LedgerEntry) (s : Nat) : Option TxReceipt :=
  match (ledger s).signed with
  | some t => some { sig := t.sig }
  | none => (nextSignature ledger s).map fun t =>
    { sig := t.sig
      path := some (t.tree, s)
      writeSetDigest := some (ledger s).entryDigest
      commitEvidence := (ledger s).commitEvidence
      claimsDigest := (ledger s).claimsDigest }

theorem nextSignature_eq_some (signed : (ledger q).signed = some t) (above : s < q) (plain : Plain ledger s q) :
    nextSignature ledger s = some t := by
  classical
  have later : ∃ q, s < q ∧ (ledger q).signed.isSome := ⟨q, above, by simp [signed]⟩
  unfold nextSignature
  rw [dif_pos later]
  obtain ⟨beyond, found⟩ := Nat.find_spec later
  have first := Nat.find_min' later ⟨above, by simp [signed]⟩
  rcases Nat.eq_or_lt_of_le first with same | before
  · rw [same, signed]
  · rw [plain _ beyond before] at found
    cases found

structure Describes (e : LedgerEntry) (d : StoreDetails) : Prop where
  stage : d.currentStage = .fetching → d.store = none
  fresh : d.store = none → d = {}
  entryDigest : d.store.isSome → d.entryDigest = e.entryDigest
  claimsDigest : d.store.isSome → d.claimsDigest = e.claimsDigest
  hasCommitEvidence : d.store.isSome → d.hasCommitEvidence = e.hasCommitEvidence
  signed : d.store.isSome → d.signed = e.signed

/-- The receipt and transaction id, if there is a receipt, are those of the ledger. -/
def Proves (ledger : Nat → LedgerEntry) (s : Nat) (d : StoreDetails) : Prop :=
  ∀ receipt, d.receipt = some receipt → receiptOf ledger s = some receipt ∧ d.transactionId = (ledger s).txid

theorem describes_empty (e : LedgerEntry) : Describes e {} :=
  ⟨fun _ => rfl, fun _ => rfl, (fun held => nomatch held), (fun held => nomatch held), (fun held => nomatch held),
    (fun held => nomatch held)⟩

theorem proves_empty : Proves ledger s {} := fun _ absurd => nomatch absurd

theorem Describes.assign (describes : Describes e d) (held : d.store.isSome) (t : Signed) (s : Nat)
    (evidence : StoreDetails → Option TxID) : Describes e (d.assign t s evidence) where
  stage := describes.stage
  fresh empty := by
    rw [show d.store = none from empty] at held
    cases held
  entryDigest := describes.entryDigest
  claimsDigest := describes.claimsDigest
  hasCommitEvidence := describes.hasCommitEvidence
  signed := describes.signed

theorem proves_assign (wellFormed : WellFormed ledger) (describes : Describes (ledger s) d) (held : d.store.isSome)
    (plainEntry : (ledger s).signed = none) (signed : (ledger q).signed = some t) (above : s < q)
    (plain : Plain ledger s q) : Proves ledger s (d.assign t s StoreDetails.getCommitEvidence) := by
  intro receipt assigned
  obtain rfl := some.inj assigned
  have txid : (⟨t.sig.view, s⟩ : TxID) = (ledger s).txid := calc
    (⟨t.sig.view, s⟩ : TxID) = ⟨(ledger s).txid.view, (ledger s).txid.seqno⟩ := by
      rw [wellFormed.view q t signed s above plain plainEntry, wellFormed.seqno s]
    _ = (ledger s).txid := rfl
  refine ⟨?_, txid⟩
  have evidence : StoreDetails.getCommitEvidence { d with transactionId := ⟨t.sig.view, s⟩ } =
      (ledger s).commitEvidence := by
    unfold StoreDetails.getCommitEvidence LedgerEntry.commitEvidence
    rw [← describes.hasCommitEvidence held, ← txid]
  unfold receiptOf
  rw [plainEntry, nextSignature_eq_some signed above plain, ← describes.entryDigest held,
    ← describes.claimsDigest held, ← evidence]
  rfl

theorem describes_fill (e : LedgerEntry) (publicOnly : Bool) :
    Describes e (StoreDetails.fill {} e (e.store publicOnly)) := by
  obtain ⟨-, signed, trusted, held, -⟩ := fill_signed {} e publicOnly
  have same : (StoreDetails.fill {} e (e.store publicOnly)).entryDigest = e.entryDigest ∧
      (StoreDetails.fill {} e (e.store publicOnly)).claimsDigest = e.claimsDigest ∧
      (StoreDetails.fill {} e (e.store publicOnly)).hasCommitEvidence = e.hasCommitEvidence := by
    unfold StoreDetails.fill
    cases e.signed <;> cases e.claimsDigest <;> exact ⟨rfl, rfl, rfl⟩
  refine ⟨fun fetching => ?_, fun empty => ?_, fun _ => same.1, fun _ => same.2.1, fun _ => same.2.2, fun _ => signed⟩
  · rw [trusted] at fetching
    cases fetching
  · rw [empty] at held
    cases held

theorem proves_fill (wellFormed : WellFormed ledger) (s : Nat) (store : Store) :
    Proves ledger s (StoreDetails.fill {} (ledger s) store) := by
  intro receipt here
  unfold receiptOf
  cases signed : (ledger s).signed with
  | none => simp [StoreDetails.fill, signed] at here
  | some t =>
    simp only [StoreDetails.fill, signed, some.injEq] at here ⊢
    exact ⟨here, wellFormed.own s t signed⟩

namespace Request

def Tracks (r : Request) (s : Nat) (d : StoreDetails) : Prop :=
  s ∈ r.requestedSeqnos.val ∧ r.requestedStores s = d ∨ r.supportingSignatures[s]? = some d

theorem tracks_of_getStoreDetails (tracked : r.getStoreDetails s = some d) : r.Tracks s d := by
  unfold getStoreDetails at tracked
  split at tracked
  · rename_i member
    exact .inl ⟨member, some.inj tracked⟩
  · exact .inr tracked

/-- The receipt is to be replaced by one from a signature further on in the list. -/
def Awaiting (ledger : Nat → LedgerEntry) (l : List Nat) (r : Request) (s : Nat) : Prop :=
  s ∈ r.requestedSeqnos.val ∧ (r.requestedStores s).store.isSome ∧ (ledger s).signed = none ∧
    ∃ q ∈ l, q ∈ r.requestedSeqnos.val ∧ s < q ∧ Plain ledger s q ∧ (r.requestedStores q).signed.isSome

/-- All details are as in the ledger, and so are the receipts, save those that wait for
a signature in the list. -/
structure Proper (ledger : Nat → LedgerEntry) (l : List Nat) (r : Request) : Prop where
  describes : ∀ s d, r.Tracks s d → Describes (ledger s) d
  requested : ∀ s ∈ r.requestedSeqnos.val, Proves ledger s (r.requestedStores s) ∨ r.Awaiting ledger l s
  supporting : ∀ s d, r.supportingSignatures[s]? = some d → Proves ledger s d

def Sound (ledger : Nat → LedgerEntry) (r : Request) : Prop :=
  ∀ s d, r.Tracks s d → Describes (ledger s) d ∧ Proves ledger s d

theorem Sound.proper (sound : r.Sound ledger) (l : List Nat) : r.Proper ledger l where
  describes s d tracks := (sound s d tracks).1
  requested s member := .inl (sound s _ (.inl ⟨member, rfl⟩)).2
  supporting s d supports := (sound s d (.inr supports)).2

theorem Proper.sound (proper : r.Proper ledger []) : r.Sound ledger := by
  refine fun s d tracks => ⟨proper.describes s d tracks, ?_⟩
  rcases tracks with ⟨member, rfl⟩ | supports
  · rcases proper.requested s member with done | ⟨-, -, -, q, absurd, -⟩
    · exact done
    · cases absurd
  · exact proper.supporting s d supports

theorem Sound.of_tracks (sound : r.Sound ledger) (tracks : ∀ s d, r'.Tracks s d → d = {} ∨ r.Tracks s d) :
    r'.Sound ledger := by
  intro s d tracked
  rcases tracks s d tracked with rfl | before
  · exact ⟨describes_empty _, proves_empty⟩
  · exact sound s d before

theorem Awaiting.skip (awaiting : r.Awaiting ledger (x :: l) s)
    (unsigned : x ∈ r.requestedSeqnos.val → (r.requestedStores x).signed = none) : r.Awaiting ledger l s := by
  obtain ⟨member, held, plainEntry, q, listed, requested, above, plain, signed⟩ := awaiting
  rcases mem_cons.mp listed with rfl | later
  · rw [unsigned requested] at signed
    cases signed
  · exact ⟨member, held, plainEntry, q, later, requested, above, plain, signed⟩

theorem Awaiting.rewritten (awaiting : r.Awaiting ledger l s) (rewritten : Rewritten r r') :
    r'.Awaiting ledger l s := by
  obtain ⟨member, held, plainEntry, q, listed, requested, above, plain, signed⟩ := awaiting
  have same := rewritten.requestedSeqnos
  refine ⟨same ▸ member, ?_, plainEntry, q, listed, same ▸ requested, above, plain, ?_⟩
  · rw [(rewritten.requestedStores s).store]
    exact held
  · rw [(rewritten.requestedStores q).signed]
    exact signed

theorem Proper.skip (proper : r.Proper ledger (x :: l))
    (unsigned : x ∈ r.requestedSeqnos.val → (r.requestedStores x).signed = none) : r.Proper ledger l where
  describes := proper.describes
  requested s member := (proper.requested s member).imp_right fun awaiting => awaiting.skip unsigned
  supporting := proper.supporting

theorem signed_of_isSignature {d : StoreDetails} (plain : d.isSignature = false) : d.signed = none := by
  simp [StoreDetails.signed, plain]

theorem signed_of_store {d : StoreDetails} (empty : d.store = none) : d.signed = none := by
  simp [StoreDetails.signed, empty]

theorem Proper.coverEarlier (proper : r.Proper ledger (x :: l)) (wellFormed : WellFormed ledger)
    (signed : (ledger x).signed = some t)
    (apart : ∀ s ∈ r.requestedSeqnos.val, s < x → (r.requestedStores s).signed.isSome → t.tree.inRange s = false) :
    (r.coverEarlier x t).Proper ledger l where
  describes s d tracks := by
    rcases tracks with ⟨member, rfl⟩ | supports
    · have before := proper.describes s _ (.inl ⟨member, rfl⟩)
      unfold Request.coverEarlier
      dsimp only
      split
      · rename_i covered
        exact before.assign covered.2.2.2 ..
      · exact before
    · exact proper.describes s d (.inr supports)
  requested s member := by
    by_cases covered : s ∈ r.requestedSeqnos.val ∧ s < x ∧ t.tree.inRange s ∧ (r.requestedStores s).store.isSome
    · left
      have equation : (r.coverEarlier x t).requestedStores s =
        (r.requestedStores s).assign t s StoreDetails.getCommitEvidence := if_pos covered
      obtain ⟨-, above, inRange, held⟩ := covered
      have describes := proper.describes s _ (.inl ⟨member, rfl⟩)
      -- No earlier signature is covered.
      have plainEntry : (ledger s).signed = none := by
        rw [← describes.signed held, ← not_isSome_iff_eq_none]
        intro signature
        rw [apart s member above signature] at inRange
        cases inRange
      rw [equation]
      exact proves_assign wellFormed describes held plainEntry signed above
        ((wellFormed.wellSigned x t signed s above).mp inRange)
    · have equation : (r.coverEarlier x t).requestedStores s = r.requestedStores s := if_neg covered
      rw [equation]
      refine (proper.requested s member).imp_right fun awaiting => ?_
      -- It does not wait for this signature, which would have covered it.
      obtain ⟨-, held, plainEntry, q, listed, requested, above, plain, signature⟩ := awaiting
      rcases mem_cons.mp listed with rfl | later
      · exact absurd ⟨member, above, (wellFormed.wellSigned q t signed s above).mpr plain, held⟩ covered
      · have awaiting : r.Awaiting ledger l s := ⟨member, held, plainEntry, q, later, requested, above, plain, signature⟩
        exact awaiting.rewritten (rewritten_coverEarlier r x t)
  supporting := proper.supporting

/-- The signature that an entry's receipt comes from is held. -/
theorem tracks_of_findSignature (found : r.findSignature x = some (d, t)) (unsupported : x ∉ r.supportingSignatures) :
    ∃ q, x < q ∧ r.Tracks q d ∧ d.signed = some t ∧ t.tree.inRange x := by
  unfold findSignature at found
  cases later : r.laterSignature x with
  | some result =>
    rw [later] at found
    obtain ⟨inRange, same⟩ := ite_none_right_eq_some.mp found
    cases same
    obtain ⟨q, member, above, here, signed, -⟩ := laterSignature_eq_some later
    exact ⟨q, above, .inl ⟨member, here⟩, signed, inRange⟩
  | none =>
    rw [later] at found
    obtain ⟨supporting, inRange⟩ := filter_eq_some_iff.mp found
    obtain ⟨⟨q, d'⟩, first, here⟩ := bind_eq_some_iff.mp supporting
    obtain ⟨t', signed, same⟩ := map_eq_some_iff.mp here
    cases same
    have there : r.supportingSignatures[q]? = some d := by
      exact ExtTreeMap.mem_toList_iff_getElem?_eq_some.mp (mem_of_find?_eq_some first)
    have reached : x ≤ q := by simpa using find?_some first
    refine ⟨q, Nat.lt_of_le_of_ne reached ?_, .inr there, signed, inRange⟩
    rintro rfl
    exact unsupported (mem_of_eq_some there)

/-- What one arrived entry does. If it has its own signature already, that one is
further on in the list. -/
theorem Proper.populateReceipts (proper : r.Proper ledger (x :: l)) (wellFormed : WellFormed ledger)
    (covers : ∀ q d t, x ∈ r.requestedSeqnos.val → (r.requestedStores x).isSignature = false → x < q → r.Tracks q d →
      d.signed = some t → t.tree.inRange x → q ∈ l ∧ q ∈ r.requestedSeqnos.val ∧ r.requestedStores q = d)
    (apart : ∀ d t, r.getStoreDetails x = some d → d.signed = some t →
      ∀ s ∈ r.requestedSeqnos.val, s < x → (r.requestedStores s).signed.isSome → t.tree.inRange s = false) :
    (r.populateReceipts x).1.Proper ledger l := by
  have populates := populateReceipts_populates r x
  generalize r.populateReceipts x = result at populates
  -- The details of a requested seqno that has some.
  have own (d : StoreDetails) (tracked : r.getStoreDetails x = some d) (member : x ∈ r.requestedSeqnos.val) :
      r.requestedStores x = d := some.inj ((getStoreDetails_of_mem member).symm.trans tracked)
  cases populates with
  | settled _ _ _ plain | uncovered _ _ _ plain => exact proper.skip fun _ => signed_of_isSignature plain
  | absent empty => exact proper.skip fun member => signed_of_store (empty _ (getStoreDetails_of_mem member))
  | unsigned tracked _ _ unsigned => exact proper.skip fun member => own _ tracked member ▸ unsigned
  | searched tracked _ plain => exact proper.skip fun member => own _ tracked member ▸ signed_of_isSignature plain
  | signature tracked held isSignature signed =>
    rename_i d t
    have describes := proper.describes x d (tracks_of_getStoreDetails tracked)
    exact proper.coverEarlier wellFormed ((describes.signed held).symm.trans signed) (apart d t tracked signed)
  | covered member unsupported held plain missing found =>
    rename_i details t
    obtain ⟨q, above, tracks, signed, inRange⟩ := tracks_of_findSignature found unsupported
    obtain ⟨listed, requested, rfl⟩ := covers q _ t member plain above tracks signed inRange
    have rewritten : Rewritten r (r.setStoreDetails x
        ((r.requestedStores x).assign t x fun _ => (r.requestedStores q).getCommitEvidence)) :=
      rewritten_setStoreDetails member (sameEntry_assign ..)
    have unsigned := signed_of_isSignature plain
    rw [setStoreDetails_of_mem member] at rewritten ⊢
    constructor
    · intro s d tracks
      rcases tracks with ⟨there, rfl⟩ | supports
      · have before := proper.describes s _ (.inl ⟨there, rfl⟩)
        dsimp only
        rcases eq_or_ne s x with rfl | other
        · rw [update_self]
          exact before.assign held ..
        · rw [update_of_ne other]
          exact before
      · exact proper.describes s d (.inr supports)
    · intro s there
      dsimp only
      rcases eq_or_ne s x with rfl | other
      · right
        have describes := proper.describes s _ (.inl ⟨member, rfl⟩)
        have arrived := isSome_store_of_signed signed
        have signature := (proper.describes q _ tracks).signed arrived
        rw [signed] at signature
        have awaiting : r.Awaiting ledger l s := by
          refine ⟨member, held, ?_, q, listed, requested, above, ?_, by simp [signed]⟩
          · rw [← describes.signed held]
            exact unsigned
          · exact (wellFormed.wellSigned q t signature.symm s above).mp inRange
        exact awaiting.rewritten rewritten
      · rw [update_of_ne other]
        refine (proper.requested s there).imp_right fun awaiting => ?_
        exact (awaiting.skip fun _ => unsigned).rewritten rewritten
    · exact proper.supporting

theorem tracks_setStoreDetails (tracks : (r.setStoreDetails x filled).Tracks s d) : s = x ∧ d = filled ∨ r.Tracks s d := by
  unfold setStoreDetails at tracks
  split at tracks
  · rcases tracks with ⟨member, rfl⟩ | supports
    · dsimp only
      rcases eq_or_ne s x with rfl | other
      · exact .inl ⟨rfl, update_self ..⟩
      · rw [update_of_ne other]
        exact .inr (.inl ⟨member, rfl⟩)
    · exact .inr (.inr supports)
  rcases tracks with old | supports
  · exact .inr (.inl old)
  · exact (insert_eq_some supports).imp_right fun old => .inr old.2

theorem supporting_search {s : Nat} (there : (r.search next).supportingSignatures[s]? = some d) :
    d = {} ∨ r.supportingSignatures[s]? = some d := by
  cases next with
  | none => exact .inr there
  | some n => exact (insert_eq_some there).imp And.right And.right

theorem tracks_search (tracks : (r.search next).Tracks s d) : d = {} ∨ r.Tracks s d := by
  rcases tracks with old | supports
  · cases next <;> exact .inr (.inl old)
  · exact (supporting_search supports).imp_right .inr

theorem tracks_erase (tracks : { r with supportingSignatures := r.supportingSignatures.erase x }.Tracks s d) :
    r.Tracks s d := by
  rcases tracks with old | supports
  · exact .inl old
  · exact .inr (erase_eq_some supports).2

def Uncovered (r : Request) (x : Nat) : Prop :=
  (∀ q ∈ r.requestedSeqnos.val, x < q → ∀ t ∈ (r.requestedStores q).signed, t.tree.inRange x = false) ∧
    ∀ y ∈ r.supportingSignatures.toList, x < y.1 → ∀ t ∈ y.2.signed, t.tree.inRange x = false

/-- No requested signature that the request has is covered by another one. -/
def Succeeds (r : Request) (x : Nat) (t : Signed) : Prop :=
  ∀ s ∈ r.requestedSeqnos.val, s < x → (r.requestedStores s).signed.isSome → t.tree.inRange s = false

/-- An entry arrives before its signature, and a signature does not cover another one. -/
def Fits (r : Request) (x : Nat) (e : LedgerEntry) : Prop :=
  match e.signed with
  | none => x ∈ r.requestedSeqnos.val → r.Uncovered x
  | some t => r.Succeeds x t

theorem Uncovered.tracks (uncovered : r.Uncovered x) (above : x < q) (tracks : r.Tracks q d) (signed : d.signed = some t) :
    t.tree.inRange x = false := by
  rcases tracks with ⟨member, rfl⟩ | supports
  · exact uncovered.1 q member above t signed
  · exact uncovered.2 (q, d) (ExtTreeMap.mem_toList_iff_getElem?_eq_some.mpr supports) above t signed

theorem Sound.setStoreDetails (sound : r.Sound ledger) (describes : Describes (ledger x) filled)
    (proves : Proves ledger x filled) : (r.setStoreDetails x filled).Sound ledger := by
  intro s d tracks
  rcases tracks_setStoreDetails tracks with ⟨rfl, rfl⟩ | before
  · exact ⟨describes, proves⟩
  · exact sound s d before

theorem Sound.take (sound : r.Sound ledger) (wellFormed : WellFormed ledger) (tracked : r.getStoreDetails x = some d)
    (fetching : d.currentStage = .fetching) (fits : r.includeReceipts → r.Fits x (ledger x)) (publicOnly : Bool) :
    (r.take x (ledger x) ((ledger x).store publicOnly) d).1.Sound ledger := by
  have describes := (sound x d (tracks_of_getStoreDetails tracked)).1
  obtain rfl := describes.fresh (describes.stage fetching)
  have filled := sound.setStoreDetails (describes_fill (ledger x) publicOnly)
    (proves_fill wellFormed x ((ledger x).store publicOnly))
  obtain ⟨isSignature, signed, -⟩ := fill_signed {} (ledger x) publicOnly
  unfold Request.take
  dsimp only
  split
  case isFalse => exact filled
  case isTrue includes =>
  rw [setStoreDetails_includeReceipts] at includes
  have fits := fits includes
  have populated := ((filled.proper [x]).populateReceipts wellFormed ?_ ?_).sound
  · split
    · rename_i result
      rw [result] at populated
      exact populated
    rename_i rewritten next result
    rw [result] at populated
    refine populated.of_tracks fun s d' tracks => ?_
    have tracks : (Request.search { rewritten with
      supportingSignatures := rewritten.supportingSignatures.erase x } (some next)).Tracks s d' := tracks
    exact (tracks_search tracks).imp_right tracks_erase
  · intro q d' t member plain above tracks signature inRange
    rw [setStoreDetails_requestedSeqnos] at member
    rw [setStoreDetails_requestedStores_self _ member, isSignature] at plain
    have unsigned : (ledger x).signed = none := by simpa using plain
    rw [Fits, unsigned] at fits
    rcases tracks_setStoreDetails tracks with ⟨rfl, -⟩ | before
    · exact absurd above (Nat.lt_irrefl q)
    · rw [(fits member).tracks above before signature] at inRange
      cases inRange
  · intro d' t there signature s member above earlier
    rw [getStoreDetails_setStoreDetails, if_pos rfl] at there
    cases there
    rw [signed] at signature
    rw [Fits, signature] at fits
    rw [setStoreDetails_requestedSeqnos] at member
    rw [setStoreDetails_requestedStores_of_ne r _ above.ne] at earlier
    exact fits s member above earlier

theorem Proper.search (proper : r.Proper ledger l) (next : Option Nat) : (r.search next).Proper ledger l := by
  constructor
  · intro s d tracks
    rcases tracks_search tracks with rfl | before
    · exact describes_empty _
    · exact proper.describes s d before
  · cases next with
    | none => exact proper.requested
    | some n => exact proper.requested
  · intro s d supports
    rcases supporting_search supports with rfl | old
    · exact proves_empty
    · exact proper.supporting s d old

/-- Receipts for all that is there. A seqno before its signature gets its final
receipt when the signature's turn comes. -/
theorem Proper.populateAll (proper : r.Proper ledger l) (wellFormed : WellFormed ledger)
    (split : r.requestedSeqnos.val = done ++ l)
    (searching : ∀ (q : Nat) (d : StoreDetails), r.supportingSignatures[q]? = some d → d.store = none)
    (apart : ∀ q ∈ r.requestedSeqnos.val, ∀ t, (r.requestedStores q).signed = some t → r.Succeeds q t) :
    (r.populateAll l).1.Sound ledger := by
  induction l generalizing r done with
  | nil => exact proper.sound
  | cons x l ih =>
    have requested : x ∈ r.requestedSeqnos.val := by
      rw [split]
      exact mem_append_right _ mem_cons_self
    have populated := proper.populateReceipts wellFormed ?_ ?_
    · have rewritten := populateReceipts_rewritten r x
      rw [populateAll_cons]
      have seqnos : ((r.populateReceipts x).1.search (r.populateReceipts x).2).requestedSeqnos = r.requestedSeqnos := by
        cases (r.populateReceipts x).2 <;> exact rewritten.requestedSeqnos
      have stores : ((r.populateReceipts x).1.search (r.populateReceipts x).2).requestedStores =
          (r.populateReceipts x).1.requestedStores := by
        cases (r.populateReceipts x).2 <;> rfl
      have splitAgain : ((r.populateReceipts x).1.search (r.populateReceipts x).2).requestedSeqnos.val =
          (done ++ [x]) ++ l := by
        rw [seqnos, split, append_assoc, singleton_append]
      refine ih (populated.search _) splitAgain ?_ ?_
      · intro q d supports
        rcases supporting_search supports with rfl | old
        · rfl
        · exact searching q d (rewritten.supportingSignatures ▸ old)
      · unfold Succeeds
        rw [seqnos, stores]
        intro q member t signed s there above earlier
        rw [(rewritten.requestedStores q).signed] at signed
        rw [(rewritten.requestedStores s).signed] at earlier
        exact apart q member t signed s there above earlier
    · intro q d t _ _ above tracks signed _
      rcases tracks with ⟨member, here⟩ | supports
      · refine ⟨?_, member, here⟩
        have sorted := split ▸ r.requestedSeqnos.property
        rw [split] at member
        rcases mem_append.mp member with early | late
        · have := (pairwise_append.mp sorted).2.2 q early x mem_cons_self
          omega
        rcases mem_cons.mp late with rfl | later
        · exact absurd above (Nat.lt_irrefl q)
        · exact later
      · rw [signed_of_store (searching q d supports)] at signed
        cases signed
    · intro d t tracked signed
      rw [getStoreDetails_of_mem requested] at tracked
      cases tracked
      exact apart x requested t signed

/-- Of the requested signatures that are there none covers another one. -/
def Separate (r : Request) (seqnos : SeqNoCollection) : Prop :=
  ∀ q ∈ seqnos.val, ∀ later ∈ r.getStoreDetails q, ∀ t ∈ later.signed, ∀ s ∈ seqnos.val, s < q →
    ∀ earlier ∈ r.getStoreDetails s, earlier.signed.isSome → t.tree.inRange s = false

theorem Sound.adjustRanges {receipts : Bool} (sound : r.Sound ledger) (wellFormed : WellFormed ledger)
    (separate : receipts → r.includeReceipts = false → r.Separate seqnos) :
    (r.adjustRanges seqnos receipts).1.Sound ledger := by
  unfold Request.adjustRanges
  split
  · exact sound
  have kept (s : Nat) : (∃ d, r.getStoreDetails s = some d ∧ (r.getStoreDetails s).getD {} = d) ∨
      (r.getStoreDetails s).getD {} = {} := by
    cases tracked : r.getStoreDetails s with
    | none => exact .inr rfl
    | some d => exact .inl ⟨d, rfl, rfl⟩
  have adjusted (u : Request) (empty : u.supportingSignatures = ∅)
      (stores : u.requestedStores = fun seqno => (r.getStoreDetails seqno).getD {}) : u.Sound ledger := by
    refine sound.of_tracks fun s d tracks => ?_
    rcases tracks with ⟨-, rfl⟩ | supports
    · rw [stores]
      rcases kept s with ⟨d, tracked, same⟩ | none_
      · right
        dsimp only
        rw [same]
        exact tracks_of_getStoreDetails tracked
      · exact .inl none_
    · simp [empty] at supports
  split
  case isFalse => exact adjusted _ rfl rfl
  case isTrue newly =>
    have apart := separate newly.1 (by simpa using newly.2)
    refine ((adjusted _ rfl rfl).proper _).populateAll wellFormed (nil_append _).symm ?_ ?_
    · intro q d supports
      simp at supports
    · intro q member t signed s there above earlier
      dsimp only at member signed there earlier
      rcases kept q with ⟨later, tracked, same⟩ | none_
      · rcases kept s with ⟨before, alsoTracked, alsoSame⟩ | none_
        · rw [same] at signed
          rw [alsoSame] at earlier
          exact apart q member later tracked t signed s there above before alsoTracked earlier
        · rw [none_] at earlier
          cases earlier
      · rw [none_] at signed
        cases signed

theorem sound_empty : ({} : Request).Sound ledger := by
  rintro s d (⟨member, -⟩ | supports)
  · cases member
  · simp at supports

end Request

namespace StateCache

/-- Entries arrive before their signatures, and no requested signature covers another
one that is there. -/
def InOrder (c : StateCache) : Action → Prop
  | .ledgerEntry seqno data => ∀ e ∈ data, ∀ x ∈ c.requests, x.2.includeReceipts → x.2.fetches seqno → x.2.Fits seqno e
  | .getStates handle seqnos _ receipts =>
    receipts → (c.findRequest handle).includeReceipts = false → (c.findRequest handle).Separate seqnos
  | _ => True

def Sound (ledger : Nat → LedgerEntry) (c : StateCache) : Prop := ∀ x ∈ c.requests, x.2.Sound ledger

theorem Sound.step (sound : c.Sound ledger) (wellFormed : WellFormed ledger) (genuine : a.Genuine service ledger)
    (ordered : c.InOrder a) (moved : c.step service a = some c') : c'.Sound ledger := by
  refine forall_step sound Request.sound_empty (fun r info before => before) (fun r expiry before => before) ?_ ?_ moved
  · rintro handle seqnos expiry receipts rfl before
    exact before.adjustRanges wellFormed ordered
  · rintro seqno data e store rfl deserialised accepted x member - d tracked fetching before
    obtain ⟨e', here, mode⟩ := bind_eq_some_iff.mp deserialised
    obtain ⟨-, read⟩ := ite_none_right_eq_some.mp mode
    cases read
    obtain rfl := genuine e here accepted
    refine before.take wellFormed tracked fetching (fun includes => ?_) _
    exact ordered _ here x member includes (by simp [Request.fetches, tracked, fetching])

/-- Where entries arrive before their signatures, the states that a call returns have
the transaction ids and receipts that the ledger gives them, so that these do not
depend on the order in any other way. -/
theorem receipts_of_ledger (wellFormed : WellFormed ledger) (run : Lib.Run (step service) {} trace c)
    (genuine : ∀ t ∈ trace, t.action.Genuine service ledger) (ordered : ∀ t ∈ trace, t.pre.InOrder t.action)
    (asked : c.InOrder (.getStates handle seqnos expiry true))
    (returned : (c.getStatesInternal service handle seqnos expiry true).2 = some states) :
    states = [] ∨ states.map (fun state => (state.transactionId, state.receipt)) =
      seqnos.val.map fun s => ((ledger s).txid, receiptOf ledger s) := by
  have sound : c.Sound ledger :=
    run.invariant_of (fun t member => And.intro (genuine t member) (ordered t member)) (Sound ledger)
      (fun x absurd => nomatch absurd) fun _ _ _ before moved good => before.step wellFormed good.1 good.2 moved
  obtain ⟨-, r, info, remaining, -, adjusted, -, result⟩ :=
    getStatesInternal_spec service c handle seqnos expiry true
  have whole := (forall_findRequest sound Request.sound_empty handle).adjustRanges wellFormed asked
  have includes : r.includeReceipts := by
    rw [adjusted]
    exact Request.adjustRanges_includeReceipts ..
  rw [result states returned, trustedStates]
  split
  case isFalse => exact .inl rfl
  case isTrue all =>
    right
    rw [List.map_map]
    apply map_congr_left
    intro s member
    have trusted := List.all_eq_true.mp all s member
    rw [includes, Bool.and_eq_true, Bool.not_true, Bool.false_or] at trusted
    obtain ⟨receipt, there⟩ := isSome_iff_exists.mp trusted.2
    have requested : s ∈ r.requestedSeqnos.val := by
      rw [adjusted]
      simpa using member
    subst adjusted
    obtain ⟨known, txid⟩ := (whole s _ (.inl ⟨requested, rfl⟩)).2 receipt there
    exact Prod.ext txid (there.trans known.symm)

theorem signedLedger_wellFormed : WellFormed signedLedger where
  wellSigned := signedLedger_wellSigned
  seqno s := rfl
  own q t signed := by
    unfold signedLedger at signed
    split at signed
    · cases signed
      rfl
    · cases signed
  view q t signed s _ _ _ := by
    unfold signedLedger at signed
    split at signed
    · cases signed
      rfl
    · cases signed

instance (r : Request) (x : Nat) : Decidable (r.Uncovered x) :=
  inferInstanceAs (Decidable (_ ∧ _))

instance (r : Request) (x : Nat) (e : LedgerEntry) : Decidable (r.Fits x e) := by
  unfold Request.Fits Request.Succeeds
  split <;> infer_instance

instance (r : Request) (seqnos : SeqNoCollection) : Decidable (r.Separate seqnos) := by
  unfold Request.Separate
  infer_instance

instance (c : StateCache) (a : Action) : Decidable (c.InOrder a) :=
  match a with
  | .ledgerEntry _ data => inferInstanceAs (Decidable (∀ e ∈ data, ∀ x ∈ c.requests, _ → _ → _))
  | .getStates .. => inferInstanceAs (Decidable (_ → _ → _))
  | .noEntryRange .. | .tick _ | .drop _ => isTrue trivial

/-- Entry 5 arrives and then the signature that covers it. -/
theorem receipts_of_ledger_in_order :
    ∃ trace c, Lib.Run (step openService) {} trace c ∧ (∀ t ∈ trace, t.action.Genuine openService signedLedger) ∧
      (∀ t ∈ trace, t.pre.InOrder t.action) ∧
      c.InOrder (.getStates 1 (pair 5 8 (by decide)) 9 true) ∧
      (c.getStatesInternal openService 1 (pair 5 8 (by decide)) 9 true).2.any (fun states => states.length = 2) ∧
      ∀ states, (c.getStatesInternal openService 1 (pair 5 8 (by decide)) 9 true).2 = some states →
        states = [] ∨ states.map (fun state => (state.transactionId, state.receipt)) =
          (pair 5 8 (by decide)).val.map fun s => ((signedLedger s).txid, receiptOf signedLedger s) := by
  obtain ⟨trace, c, run, genuine, ordered, asked, returned⟩ :
      ∃ trace c, Run (step openService) {} trace c ∧ (∀ t ∈ trace, t.action.Genuine openService signedLedger) ∧
        (∀ t ∈ trace, t.pre.InOrder t.action) ∧ c.InOrder (.getStates 1 (pair 5 8 (by decide)) 9 true) ∧
        (c.getStatesInternal openService 1 (pair 5 8 (by decide)) 9 true).2.any (fun states => states.length = 2) :=
    exists_run [.getStates 1 (pair 5 8 (by decide)) 9 true, .ledgerEntry 5 (some (signedLedger 5)),
      .ledgerEntry 8 (some (signedLedger 8))] (by decide +kernel)
  exact ⟨trace, c, run, genuine, ordered, asked, returned, fun states =>
    receipts_of_ledger signedLedger_wellFormed run genuine ordered asked⟩

/-- The signature arrives first. The receipt of entry 5 then has the commit evidence of
the signature transaction. -/
theorem late_entry_gets_foreign_evidence :
    ∃ trace c states, Lib.Run (step openService) {} trace c ∧
      (∀ t ∈ trace, t.action.Genuine openService signedLedger) ∧
      (c.getStatesInternal openService 1 (pair 5 8 (by decide)) 9 true).2 = some states ∧
      ¬ (states = [] ∨ states.map (fun state => (state.transactionId, state.receipt)) =
        (pair 5 8 (by decide)).val.map fun s => ((signedLedger s).txid, receiptOf signedLedger s)) := by
  obtain ⟨trace, c, run, genuine, returned⟩ :
      ∃ trace c, Run (step openService) {} trace c ∧ (∀ t ∈ trace, t.action.Genuine openService signedLedger) ∧
        (c.getStatesInternal openService 1 (pair 5 8 (by decide)) 9 true).2.any fun states =>
          ((states.head?.bind State.receipt).bind (·.commitEvidence)) = some (TxID.mk 2 8) :=
    exists_run [.getStates 1 (pair 5 8 (by decide)) 9 true, .ledgerEntry 8 (some (signedLedger 8)),
      .ledgerEntry 5 (some (signedLedger 5))] (by decide +kernel)
  obtain ⟨states, result, evidence⟩ := (Option.any_eq_true _ _).mp returned
  refine ⟨trace, c, states, run, genuine, result, ?_⟩
  obtain ⟨receipt, there, foreign⟩ := bind_eq_some_iff.mp (of_decide_eq_true evidence)
  obtain ⟨first, head, known⟩ := bind_eq_some_iff.mp there
  obtain ⟨rest, rfl⟩ := head?_eq_some_iff.mp head
  rintro (empty | same)
  · cases empty
  have ideal : receiptOf signedLedger 5 = some
      { sig := ⟨8, 2, 8⟩, path := some (⟨4, 8⟩, 5), writeSetDigest := some 5, commitEvidence := some ⟨2, 5⟩ } := by
    have next : nextSignature signedLedger 5 = some ⟨⟨8, 2, 8⟩, ⟨4, 8⟩⟩ :=
      nextSignature_eq_some (q := 8) rfl (by decide) fun p above below => by
        unfold signedLedger
        rw [if_neg (by omega)]
    have plain : (signedLedger 5).signed = none := rfl
    unfold receiptOf
    rw [plain, next]
    rfl
  have own : first.receipt = receiptOf signedLedger 5 := congrArg Prod.snd (List.cons.inj same).1
  rw [own, ideal] at known
  cases known
  cases foreign

end StateCache
end CCF.Historical
