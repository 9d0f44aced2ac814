import ShardedCCF.Node.HistoricalSteps

/-! Where receipts come from: the ledger's signatures, what of them a request has,
and where it looks for them. -/
namespace CCF.Historical
open List

variable {ledger : Nat → LedgerEntry} {r r' : Request}

/-- Every seqno strictly between the two is that of a plain entry. -/
def Plain (ledger : Nat → LedgerEntry) (s q : Nat) : Prop := ∀ p, s < p → p < q → (ledger p).signed = none

/-- The tree of a signature reaches back to the signature before. -/
def WellSigned (ledger : Nat → LedgerEntry) : Prop :=
  ∀ q t, (ledger q).signed = some t → ∀ s < q, (t.tree.inRange s = true ↔ Plain ledger s q)

theorem le_skipRequested (l : List Nat) (n : Nat) : n ≤ skipRequested l n := by
  unfold skipRequested
  induction l generalizing n with
  | nil => exact Nat.le_refl n
  | cons a l ih =>
    rw [foldl_cons]
    split
    · exact (Nat.le_succ n).trans (ih (n + 1))
    · exact ih n

theorem mem_of_lt_skipRequested {l : List Nat} (from_ : n ≤ p) (below : p < skipRequested l n) : p ∈ l := by
  unfold skipRequested at below
  induction l generalizing n with
  | nil => exact absurd from_ (Nat.not_le_of_lt below)
  | cons a l ih =>
    rw [foldl_cons] at below
    split at below
    · rename_i next
      rcases Nat.eq_or_lt_of_le from_ with rfl | later
      · rw [next]
        exact mem_cons_self
      · exact mem_cons_of_mem _ (ih later below)
    · exact mem_cons_of_mem _ (ih from_ below)

theorem skipRequested_not_mem {l : List Nat} (sorted : l.Pairwise (· < ·)) (n : Nat) : skipRequested l n ∉ l := by
  have above : ∀ (l : List Nat) (n : Nat), (∀ a ∈ l, n < a) → skipRequested l n = n := by
    intro l
    induction l with
    | nil => intro n _; rfl
    | cons a l ih =>
      intro n larger
      have first := larger a mem_cons_self
      unfold skipRequested
      rw [foldl_cons, if_neg (by omega)]
      exact ih n fun b member => larger b (mem_cons_of_mem _ member)
  induction l generalizing n with
  | nil => exact not_mem_nil
  | cons a l ih =>
    obtain ⟨first, rest⟩ := pairwise_cons.mp sorted
    have equation : skipRequested (a :: l) n = skipRequested l (if a = n then n + 1 else n) := rfl
    rw [equation, mem_cons, not_or]
    refine ⟨?_, ih rest _⟩
    split
    · have := le_skipRequested l (n + 1)
      omega
    rename_i other
    rcases Nat.lt_or_gt_of_ne other with smaller | larger
    · have := le_skipRequested l n
      omega
    · rw [above l n fun b member => larger.trans (first b member)]
      exact Ne.symm other

theorem ranges_cons (b : Nat) (l : List Nat) : ∃ last rest, ranges (b :: l) = (b, last) :: rest ∧ b ≤ last := by
  induction l generalizing b with
  | nil => exact ⟨b, [], rfl, Nat.le_refl b⟩
  | cons first l ih =>
    obtain ⟨last, rest, equation, ordered⟩ := ih first
    rw [ranges, equation]
    dsimp only
    split
    · exact ⟨last, rest, rfl, by omega⟩
    · exact ⟨b, _, rfl, Nat.le_refl b⟩

theorem find_ranges {l : List Nat} (sorted : l.Pairwise (· < ·)) (member : x ∈ l) :
    ∃ range, (ranges l).find? (fun y => decide (x ≤ y.2)) = some range ∧ x ≤ range.2 ∧
      (∀ p, x ≤ p → p ≤ range.2 → p ∈ l) ∧ range.2 + 1 ∉ l := by
  induction l generalizing x with
  | nil => cases member
  | cons b l ih =>
    obtain ⟨smallest, rest⟩ := pairwise_cons.mp sorted
    cases l with
    | nil =>
      obtain rfl := mem_singleton.mp member
      refine ⟨(x, x), by simp [ranges], Nat.le_refl x, fun p above below => ?_, by simp⟩
      exact mem_singleton.mpr (Nat.le_antisymm below above)
    | cons first l =>
      obtain ⟨last, others, equation, ordered⟩ := ranges_cons first l
      obtain ⟨firstFound, foundFirst, -, filled, gap⟩ := ih rest mem_cons_self
      rw [equation, find?_cons_of_pos (by simpa using ordered)] at foundFirst
      obtain rfl := Option.some.inj foundFirst
      have next := smallest first mem_cons_self
      rw [ranges, equation]
      dsimp only
      rcases mem_cons.mp member with rfl | later
      · split
        case isTrue joined =>
          refine ⟨(x, last), by simp; omega, by dsimp only; omega, fun p above below => ?_, ?_⟩
          · rcases Nat.eq_or_lt_of_le above with rfl | beyond
            · exact mem_cons_self
            · exact mem_cons_of_mem _ (filled p (by omega) below)
          · rw [mem_cons, not_or]
            exact ⟨by dsimp only; omega, gap⟩
        case isFalse apart =>
          refine ⟨(x, x), by simp, Nat.le_refl x, fun p above below => ?_, ?_⟩
          · rw [Nat.le_antisymm below above]
            exact mem_cons_self
          · intro inside
            rcases mem_cons.mp inside with same | inside
            · omega
            rcases mem_cons.mp inside with same | inside
            · exact apart same.symm
            · have := (pairwise_cons.mp rest).1 _ inside
              omega
      · obtain ⟨range, found, reached, inside, outside⟩ := ih rest later
        have above := smallest x later
        have kept : range.2 + 1 ∉ b :: first :: l := by
          rw [mem_cons, not_or]
          exact ⟨by omega, outside⟩
        have within (p : Nat) (after : x ≤ p) (before : p ≤ range.2) : p ∈ b :: first :: l :=
          mem_cons_of_mem _ (inside p after before)
        rw [equation] at found
        split
        case isTrue joined =>
          by_cases here : x ≤ last
          · rw [find?_cons_of_pos (by simpa using here)] at found ⊢
            obtain rfl := Option.some.inj found
            exact ⟨(b, last), rfl, reached, within, kept⟩
          · rw [find?_cons_of_neg (by simpa using here)] at found ⊢
            exact ⟨range, found, reached, within, kept⟩
        case isFalse apart =>
          rw [find?_cons_of_neg (by simpa using above)]
          exact ⟨range, found, reached, within, kept⟩

theorem Request.endOfMatchingRange_spec (member : x ∈ r.requestedSeqnos.val) :
    ∃ last, r.endOfMatchingRange x = some last ∧ x ≤ last ∧
      (∀ p, x ≤ p → p ≤ last → p ∈ r.requestedSeqnos.val) ∧ last + 1 ∉ r.requestedSeqnos.val := by
  obtain ⟨range, found, reached, inside, outside⟩ := find_ranges r.requestedSeqnos.property member
  exact ⟨range.2, by simp [endOfMatchingRange, found], reached, inside, outside⟩

/-- The first requested signature after a seqno that is there. -/
theorem Request.laterSignature_eq_some (found : r.laterSignature x = some (d, t)) :
    ∃ q ∈ r.requestedSeqnos.val, x < q ∧ r.requestedStores q = d ∧ d.signed = some t ∧
      ∀ p ∈ r.requestedSeqnos.val, x < p → p < q → (r.requestedStores p).signed = none := by
  obtain ⟨before, q, after, split, here, none_⟩ := findSome?_eq_some_iff.mp found
  obtain ⟨t', signed, same⟩ := Option.map_eq_some_iff.mp here
  cases same
  have listed : q ∈ r.requestedSeqnos.val.filter (x < ·) := by
    rw [split]
    exact mem_append_right _ mem_cons_self
  obtain ⟨member, above⟩ := mem_filter.mp listed
  refine ⟨q, member, by simpa using above, rfl, signed, fun p requested beyond below => ?_⟩
  have there : p ∈ before ++ q :: after := by
    rw [← split]
    exact mem_filter.mpr ⟨requested, by simpa using beyond⟩
  have sorted : (before ++ q :: after).Pairwise (· < ·) := by
    rw [← split]
    exact r.requestedSeqnos.property.filter _
  rcases mem_append.mp there with early | late
  · simpa using none_ p early
  rcases mem_cons.mp late with rfl | later
  · exact absurd below (Nat.lt_irrefl p)
  · have := (pairwise_cons.mp (pairwise_append.mp sorted).2.1).1 p later
    omega

theorem Request.laterSignature_eq_none (absent : r.laterSignature x = none) (member : q ∈ r.requestedSeqnos.val)
    (above : x < q) : (r.requestedStores q).signed = none := by
  have none_ := findSome?_eq_none_iff.mp absent q (mem_filter.mpr ⟨member, by simpa using above⟩)
  simpa using none_

structure Request.Faithful (ledger : Nat → LedgerEntry) (r : Request) : Prop where
  stage : ∀ s d, r.getStoreDetails s = some d → (d.currentStage = .fetching ↔ d.store = none)
  signed : ∀ s d, r.getStoreDetails s = some d → d.store.isSome →
    d.isSignature = (ledger s).signed.isSome ∧ d.signed = (ledger s).signed

theorem SameEntry.signed (same : SameEntry d d') : d'.signed = d.signed := by
  unfold StoreDetails.signed
  rw [same.isSignature, same.store]

theorem Request.Faithful.of_details (faithful : r.Faithful ledger)
    (details : ∀ s d', r'.getStoreDetails s = some d' →
      SameEntry {} d' ∨ ∃ d, r.getStoreDetails s = some d ∧ SameEntry d d') : r'.Faithful ledger := by
  constructor
  · intro s d' tracked
    rcases details s d' tracked with fresh | ⟨d, before, same⟩
    · simp [fresh.currentStage, fresh.store]
    · rw [same.currentStage, same.store]
      exact faithful.stage s d before
  · intro s d' tracked held
    rcases details s d' tracked with fresh | ⟨d, before, same⟩
    · simp [fresh.store] at held
    · rw [same.isSignature, same.signed]
      exact faithful.signed s d before (same.store ▸ held)

theorem fill_signed (d : StoreDetails) (e : LedgerEntry) (publicOnly : Bool) :
    (d.fill e (e.store publicOnly)).isSignature = e.signed.isSome ∧
      (d.fill e (e.store publicOnly)).signed = e.signed ∧
      (d.fill e (e.store publicOnly)).currentStage = .trusted ∧
      (d.fill e (e.store publicOnly)).store.isSome ∧
      (e.signed.isSome → (d.fill e (e.store publicOnly)).receipt.isSome) := by
  unfold StoreDetails.fill
  cases signed : e.signed <;> simp [StoreDetails.signed, LedgerEntry.store, signed]

theorem Request.Faithful.take (faithful : r.Faithful ledger) (d : StoreDetails) (publicOnly : Bool) :
    (r.take x (ledger x) ((ledger x).store publicOnly) d).1.Faithful ledger := by
  obtain ⟨signature, signed, stage, held, -⟩ := fill_signed d (ledger x) publicOnly
  constructor
  · intro s d' tracked
    rcases getStoreDetails_take tracked with rfl | ⟨rfl, same⟩ | ⟨-, before, there, same⟩
    · simp
    · rw [same.currentStage, same.store, stage]
      simp [Option.isSome_iff_ne_none.mp held]
    · rw [same.currentStage, same.store]
      exact faithful.stage s before there
  · intro s d' tracked arrived
    rcases getStoreDetails_take tracked with rfl | ⟨rfl, same⟩ | ⟨-, before, there, same⟩
    · simp at arrived
    · rw [same.isSignature, same.signed]
      exact ⟨signature, signed⟩
    · rw [same.isSignature, same.signed]
      exact faithful.signed s before there (same.store ▸ arrived)

end CCF.Historical
