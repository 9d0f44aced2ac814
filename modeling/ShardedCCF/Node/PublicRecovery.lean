import ShardedCCF.Lib.Run
import ShardedCCF.Aft.ViewHistory

/-! Public recovery: `recover_public_ledger_entries` replays a ledger that the host reads,
and `recover_public_ledger_end_unsafe` truncates it to the last signature and makes the
node primary. -/
namespace CCF.Recovery
open List Option
open Aft (ViewHistory)

/-- The record in the signatures table. The token is the signature itself, which covers the
Merkle root and nothing else of the record. -/
structure SignatureRecord where
  seqno : Nat
  view : Nat
  token : Nat
  deriving DecidableEq, Repr

/-- The public part of a ledger entry, with the version that it claims. -/
structure Entry where
  version : Nat
  term : Nat
  signature : Option SignatureRecord := none
  /-- A signature transaction has the serialised tree and no other table. -/
  wellFormed : Bool := true
  body : Nat := 0
  deriving DecidableEq, Repr

/-- The node while it is reading the public ledger. The store is the list of the entries
that it holds; the tree is that of its leaves. -/
structure Reading where
  store : List Entry := []
  version : Nat := 0
  compacted : Nat := 0
  tree : List Entry := []
  lastRecoveredIdx : Nat := 0
  lastRecoveredSignedIdx : Nat := 0
  viewHistory : List Nat := []
  deriving DecidableEq, Repr

structure Ended where
  store : List Entry
  version : Nat
  ledgerEnd : Nat
  termOfNextVersion : Nat
  firstSecretVersion : Nat
  /-- The consensus: last index, commit index, view and history. -/
  lastIdx : Nat
  commitIdx : Nat
  currentView : Nat
  viewHistory : ViewHistory

/-- Whether a node's signature verifies for the leaves of a tree. -/
abbrev Verifier := Nat → List Entry → Bool

namespace Reading

/-- `Store::rollback`, which throws below the compacted version. The tree is retracted in
any case, the maps only if the store is ahead. -/
def rollback (s : Reading) (version : Nat) : Option Reading :=
  if version < s.compacted then none
  else
    let s := { s with tree := s.tree.take version }
    if s.version ≤ version then some s
    else some { s with version, store := s.store.rdropWhile fun e => version < e.version }

inductive ApplyResult where
  /-- The store may have the entry. -/
  | fail (s : Reading)
  | pass (s : Reading)
  | passSignature (record : SignatureRecord) (s : Reading)

/-- `CFTExecutionWrapper::apply`. The store is rolled back to the version before that of the
entry (on 64 bits: not at all for version 0), and the order of versions is not checked. -/
def apply (verify : Verifier) (s : Reading) (e : Entry) : ApplyResult :=
  match if e.version = 0 then some s else s.rollback (e.version - 1) with
  | none => .fail s
  | some s =>
    let s := { s with store := s.store ++ [e], version := e.version }
    let appended := { s with tree := s.tree ++ [e] }
    match e.signature with
    | none => .pass appended
    | some record =>
      if e.wellFormed && verify record.token s.tree then .passSignature record appended else .fail s

def compact (s : Reading) (version : Nat) : Reading := if s.version < version then s else { s with compacted := version }

/-- Views are learnt from signatures. Those that are missing start after the last one. -/
def recordSignature (s : Reading) (record : SignatureRecord) : Reading :=
  let viewStartIdx := if s.viewHistory.isEmpty then 1 else s.lastRecoveredSignedIdx + 1
  { s.compact s.lastRecoveredIdx with
    viewHistory := s.viewHistory ++ List.replicate (record.view - s.viewHistory.length) viewStartIdx
    lastRecoveredSignedIdx := s.lastRecoveredIdx }

/-- `recover_public_ledger_end_unsafe`; `none` where it throws. The consensus gets the index
and view of the signatures table. -/
def finish (s : Reading) : Option Ended :=
  (s.rollback s.lastRecoveredSignedIdx).bind fun rolled =>
    let record := (rolled.store.filterMap (·.signature)).getLast?
    let index := (record.map (·.seqno)).getD 0
    let view := (record.map (·.view)).getD 0
    (ViewHistory.initialise s.viewHistory).bind fun history =>
      (history.update index view).map fun history =>
        { store := rolled.store, version := rolled.version, ledgerEnd := s.lastRecoveredSignedIdx,
          termOfNextVersion := s.viewHistory.length + 2, firstSecretVersion := s.lastRecoveredSignedIdx + 1,
          lastIdx := index, commitIdx := index, currentView := view + 2, viewHistory := history }

end Reading

inductive Node where
  | reading (s : Reading)
  | ended (o : Ended)

inductive Action where
  | entry (e : Entry)
  | done

/-- One entry of a batch, or the empty batch. An entry that fails ends the recovery. -/
def Node.step (verify : Verifier) : Node → Action → Option Node
  | .reading s, .entry e =>
    match s.apply verify e with
    | .fail s => s.finish.map .ended
    | .pass s => some (.reading { s with lastRecoveredIdx := s.lastRecoveredIdx + 1 })
    | .passSignature record s =>
      some (.reading (Reading.recordSignature { s with lastRecoveredIdx := s.lastRecoveredIdx + 1 } record))
  | .reading s, .done => s.finish.map .ended
  | .ended _, _ => none

/-! Entries in order. -/

def Numbered (entries : List Entry) : Prop := ∀ i, (bound : i < entries.length) → entries[i].version = i + 1

namespace Numbered

theorem append (numbered : Numbered entries) (next : e.version = entries.length + 1) : Numbered (entries ++ [e]) := by
  intro i bound
  by_cases old : i < entries.length
  · rw [getElem_append_left old]
    exact numbered i old
  obtain rfl : i = entries.length := by
    rw [length_append, length_singleton] at bound
    omega
  simpa using next

theorem of_append (numbered : Numbered (entries ++ rest)) : Numbered entries := by
  intro i bound
  rw [← numbered i (by rw [length_append]; omega), getElem_append_left bound]

theorem rdropWhile (numbered : Numbered entries) (k : Nat) :
    entries.rdropWhile (fun e => k < e.version) = entries.take k := by
  induction entries using reverseRecOn with
  | nil => simp
  | append_singleton entries e ih =>
    have version : e.version = entries.length + 1 := by simpa using numbered entries.length (by simp)
    rw [rdropWhile_concat, version]
    split
    case isTrue above =>
      have within : k ≤ entries.length := Nat.le_of_lt_succ (by simpa using above)
      rw [ih numbered.of_append, take_append_of_le_length within]
    case isFalse below =>
      rw [take_of_length_le (by simpa using below)]

end Numbered

namespace Reading
variable {s : Reading} {verify : Verifier}

structure InStep (s : Reading) : Prop where
  numbered : Numbered s.store
  version : s.version = s.store.length
  tree : s.tree = s.store
  idx : s.lastRecoveredIdx = s.store.length
  signed : s.lastRecoveredSignedIdx ≤ s.store.length
  compacted : s.compacted = s.lastRecoveredSignedIdx

theorem rollback_spec (numbered : Numbered s.store) (version : s.version = s.store.length) (kept : s.compacted ≤ k)
    (within : k ≤ s.store.length) : ∃ r, s.rollback k = some r ∧ r.store = s.store.take k ∧ r.version = k := by
  rw [rollback, if_neg kept.not_gt]
  by_cases ahead : s.version ≤ k
  · have whole : s.store.length ≤ k := version ▸ ahead
    exact ⟨_, if_pos ahead, (take_of_length_le whole).symm, version.trans (le_antisymm whole within)⟩
  · exact ⟨_, if_neg ahead, numbered.rdropWhile k, rfl⟩

def push (s : Reading) (e : Entry) : Reading := { s with store := s.store ++ [e], version := s.version + 1 }

def accept (s : Reading) (e : Entry) : Reading :=
  { s with store := s.store ++ [e], version := s.version + 1, tree := s.store ++ [e], lastRecoveredIdx := s.lastRecoveredIdx + 1 }

theorem step_next (inStep : s.InStep) (next : e.version = s.lastRecoveredIdx + 1) :
    (Node.reading s).step verify (.entry e) =
      match e.signature with
      | none => some (.reading (s.accept e))
      | some record =>
        if e.wellFormed && verify record.token s.store then some (.reading ((s.accept e).recordSignature record))
        else (s.push e).finish.map .ended := by
  have version : e.version = s.version + 1 := by rw [next, inStep.idx, inStep.version]
  have nothing : s.rollback (e.version - 1) = some s := by
    have ahead : s.compacted ≤ s.version := by rw [inStep.compacted, inStep.version]; exact inStep.signed
    have leaves : s.tree.take s.version = s.tree := take_of_length_le (by rw [inStep.tree, inStep.version])
    rw [version, Nat.add_sub_cancel, rollback, if_neg ahead.not_gt]
    simp only [leaves, le_refl, if_true]
  rw [Node.step, apply, if_neg (by omega), nothing]
  simp only [inStep.tree, version]
  cases e.signature with
  | none => rfl
  | some record => cases verified : e.wellFormed && verify record.token s.store <;> simp [verified, accept, push, inStep.tree]

/-- After a failed entry, or at the end, the store goes back to the last signature. -/
theorem finish_spec (numbered : Numbered s.store) (version : s.version = s.store.length)
    (kept : s.compacted ≤ s.lastRecoveredSignedIdx) (within : s.lastRecoveredSignedIdx ≤ s.store.length)
    (finished : s.finish = some o) :
    o.store = s.store.take s.lastRecoveredSignedIdx ∧ o.version = s.lastRecoveredSignedIdx ∧
      o.ledgerEnd = s.lastRecoveredSignedIdx := by
  obtain ⟨r, rolled, store, at_signature⟩ := rollback_spec numbered version kept within
  rw [finish, rolled, bind_some] at finished
  obtain ⟨history, -, finished⟩ := bind_eq_some_iff.mp finished
  obtain ⟨updated, -, rfl⟩ := map_eq_some_iff.mp finished
  exact ⟨store, at_signature, rfl⟩

theorem InStep.push (inStep : s.InStep) (next : e.version = s.lastRecoveredIdx + 1) :
    Numbered (s.push e).store ∧ (s.push e).version = (s.push e).store.length := by
  refine ⟨inStep.numbered.append (by rw [next, inStep.idx]), ?_⟩
  simp [Reading.push, inStep.version]

theorem InStep.accept (inStep : s.InStep) (next : e.version = s.lastRecoveredIdx + 1) : (s.accept e).InStep where
  numbered := (inStep.push next).1
  version := (inStep.push next).2
  tree := rfl
  idx := by simp [Reading.accept, inStep.idx]
  signed := inStep.signed.trans (by simp [Reading.accept])
  compacted := inStep.compacted

theorem InStep.recordSignature_eq (inStep : s.InStep) (record : SignatureRecord) :
    s.recordSignature record = { s with
      compacted := s.lastRecoveredIdx
      viewHistory := s.viewHistory ++ List.replicate (record.view - s.viewHistory.length)
        (if s.viewHistory.isEmpty then 1 else s.lastRecoveredSignedIdx + 1)
      lastRecoveredSignedIdx := s.lastRecoveredIdx } := by
  have compact : s.compact s.lastRecoveredIdx = { s with compacted := s.lastRecoveredIdx } :=
    if_neg (by rw [inStep.idx, inStep.version]; exact lt_irrefl _)
  rw [Reading.recordSignature, compact]

theorem InStep.recordSignature (inStep : s.InStep) (record : SignatureRecord) : (s.recordSignature record).InStep := by
  rw [inStep.recordSignature_eq]
  exact ⟨inStep.numbered, inStep.version, inStep.tree, inStep.idx, inStep.idx.le, rfl⟩

end Reading

/-! A host that is not trusted. -/

/-- What the nodes of a service have signed: for each signature the leaves that it covers
and the entry that carries it. -/
structure Service where
  made : Nat → Option (List Entry × Entry)
  carries : ∀ token leaves e, made token = some (leaves, e) →
    ∃ record, e.signature = some record ∧ record.token = token ∧ record.seqno = leaves.length + 1
  numbered : ∀ token leaves e, made token = some (leaves, e) → Numbered (leaves ++ [e])

/-- Only a signature that a node has made for these leaves verifies. -/
def Service.verify (service : Service) : Verifier := fun token tree => (service.made token).any fun made => made.1 = tree

/-- A ledger up to a signature, as a node of the service has signed it. -/
def Service.Genuine (service : Service) (ledger : List Entry) : Prop :=
  ∃ token leaves e, service.made token = some (leaves, e) ∧ ledger = leaves ++ [e]

/-- The host gives the entry that comes next. It may have altered it, but not the record
around a signature that verifies. -/
def Admissible (service : Service) : Node → Action → Prop
  | .reading s, .entry e => e.version = s.lastRecoveredIdx + 1 ∧
      ∀ record ∈ e.signature, ∀ leaves genuine, service.made record.token = some (leaves, genuine) → e = genuine
  | _, _ => True

instance (service : Service) : (n : Node) → (a : Action) → Decidable (Admissible service n a)
  | .reading s, .entry e =>
    decidable_of_iff (e.version = s.lastRecoveredIdx + 1 ∧ (e.signature.all fun record =>
        (service.made record.token).all fun made => e = made.2) = true) (by
      cases signature : e.signature with
      | none => simp [Admissible, signature]
      | some record =>
        cases made : service.made record.token with
        | none => simp [Admissible, signature, made]
        | some signed =>
          obtain ⟨leaves, genuine⟩ := signed
          simp [Admissible, signature, made])
  | .reading _, .done | .ended _, .entry _ | .ended _, .done => .isTrue trivial

section Untrusted
variable {service : Service} {s : Reading}

def Trusted (service : Service) : Node → Prop
  | .reading s => s.InStep ∧ (s.lastRecoveredSignedIdx ≠ 0 → service.Genuine (s.store.take s.lastRecoveredSignedIdx))
  | .ended o => o.version = o.ledgerEnd ∧ o.store.length = o.ledgerEnd ∧ (o.ledgerEnd ≠ 0 → service.Genuine o.store)

theorem trusted_finish (numbered : Numbered s.store) (version : s.version = s.store.length)
    (kept : s.compacted ≤ s.lastRecoveredSignedIdx) (within : s.lastRecoveredSignedIdx ≤ s.store.length)
    (genuine : s.lastRecoveredSignedIdx ≠ 0 → service.Genuine (s.store.take s.lastRecoveredSignedIdx))
    (ended : s.finish.map Node.ended = some n) : Trusted service n := by
  obtain ⟨o, finished, rfl⟩ := map_eq_some_iff.mp ended
  obtain ⟨store, reached, truncated⟩ := Reading.finish_spec numbered version kept within finished
  refine ⟨reached.trans truncated.symm, ?_, fun signed => ?_⟩
  · rw [store, truncated, length_take, Nat.min_eq_left within]
  · rw [store]
    exact genuine (truncated ▸ signed)

theorem genuine_of_verified (verified : service.verify record.token tree = true) (signature : e.signature = some record)
    (unaltered : ∀ record ∈ e.signature, ∀ leaves genuine, service.made record.token = some (leaves, genuine) → e = genuine) :
    service.Genuine (tree ++ [e]) := by
  cases made : service.made record.token with
  | none => simp [Service.verify, made] at verified
  | some signed =>
    have leaves : signed.1 = tree := by simpa [Service.verify, made] using verified
    exact ⟨record.token, signed.1, signed.2, made, by rw [leaves, ← unaltered record signature _ _ made]⟩

theorem trusted_step (moved : n.step service.verify action = some m) (admissible : Admissible service n action)
    (trusted : Trusted service n) : Trusted service m := by
  cases n with
  | ended o => exact absurd moved (by cases action <;> simp [Node.step])
  | reading s =>
    obtain ⟨inStep, genuine⟩ := trusted
    cases action with
    | done => exact trusted_finish inStep.numbered inStep.version inStep.compacted.le inStep.signed genuine moved
    | entry e =>
      obtain ⟨next, unaltered⟩ := admissible
      have same : (s.store ++ [e]).take s.lastRecoveredSignedIdx = s.store.take s.lastRecoveredSignedIdx :=
        take_append_of_le_length inStep.signed
      rw [Reading.step_next inStep next] at moved
      cases signature : e.signature with
      | none =>
        simp only [signature] at moved
        obtain rfl := some.inj moved
        exact ⟨inStep.accept next, fun signed => same.symm ▸ genuine signed⟩
      | some record =>
        simp only [signature] at moved
        split_ifs at moved with verified
        · obtain rfl := some.inj moved
          have passed := inStep.accept next
          refine ⟨passed.recordSignature record, fun _ => ?_⟩
          rw [passed.recordSignature_eq record]
          have whole : (s.store ++ [e]).take (s.lastRecoveredIdx + 1) = s.store ++ [e] :=
            take_of_length_le (by simp [inStep.idx])
          have signed := genuine_of_verified (Bool.and_eq_true_iff.mp verified).2 signature unaltered
          exact whole.symm ▸ signed
        have pushed := inStep.push next
        refine trusted_finish pushed.1 pushed.2 inStep.compacted.le (inStep.signed.trans ?_) (fun signed => ?_) moved
        · simp [Reading.push]
        · exact same.symm ▸ genuine signed

end Untrusted

/-- While each supplied entry is the next one, with its signature record as the service wrote
it, the counter is the version of the store; and when the recovery ends, the store is a
ledger that the service has signed, up to the seqno of its signature. -/
theorem recovers_genuine_prefix (service : Service) (run : Lib.Run (Node.step service.verify) (.reading {}) trace n)
    (admissible : ∀ t ∈ trace, Admissible service t.pre t.action) :
    match n with
    | .reading s => s.lastRecoveredIdx = s.version
    | .ended o => o.version = o.ledgerEnd ∧ (o.ledgerEnd = 0 ∧ o.store = [] ∨ service.Genuine o.store ∧
        ∃ record, (o.store.filterMap (·.signature)).getLast? = some record ∧ record.seqno = o.ledgerEnd) := by
  have trusted : Trusted service n := run.invariant_of admissible (Trusted service)
    ⟨⟨fun _ bound => (nomatch bound), rfl, rfl, rfl, le_rfl, rfl⟩, fun signed => absurd rfl signed⟩
    fun _ _ _ earlier moved good => trusted_step moved good earlier
  cases n with
  | reading s => exact trusted.1.idx.trans trusted.1.version.symm
  | ended o =>
    obtain ⟨version, length, genuine⟩ := trusted
    refine ⟨version, ?_⟩
    by_cases unsigned : o.ledgerEnd = 0
    · exact .inl ⟨unsigned, length_eq_zero_iff.mp (length.trans unsigned)⟩
    obtain ⟨token, leaves, e, made, store⟩ := genuine unsigned
    obtain ⟨record, signature, -, seqno⟩ := service.carries token leaves e made
    refine .inr ⟨genuine unsigned, record, ?_, ?_⟩
    · simp [store, signature]
    · rw [seqno, ← length, store, length_append, length_singleton]

def oneSignature : Service where
  made token := if token = 7 then some ([⟨1, 2, none, true, 0⟩], ⟨2, 2, some ⟨2, 2, 7⟩, true, 0⟩) else none
  carries token leaves e made := by
    obtain ⟨rfl, same⟩ := Option.ite_none_right_eq_some.mp made
    obtain ⟨rfl, rfl⟩ := Prod.mk.inj (Option.some.inj same)
    exact ⟨⟨2, 2, 7⟩, rfl, rfl, rfl⟩
  numbered token leaves e made := by
    obtain ⟨rfl, same⟩ := Option.ite_none_right_eq_some.mp made
    obtain ⟨rfl, rfl⟩ := Prod.mk.inj (Option.some.inj same)
    intro i bound
    match i, bound with
    | 0, _ | 1, _ => rfl

def Node.endsWith (check : Ended → Bool) : Node → Bool
  | .reading _ => false
  | .ended o => check o

theorem Node.exists_of_endsWith {n : Node} (ends : n.endsWith check = true) : ∃ o, n = .ended o ∧ check o = true := by
  cases n with
  | reading s => exact absurd ends (by simp [Node.endsWith])
  | ended o => exact ⟨o, rfl, ends⟩

/-- Both entries in order. -/
theorem recovers_genuine_prefix_in_order : ∃ trace o,
    Lib.Run (Node.step oneSignature.verify) (.reading {}) trace (.ended o) ∧ o.ledgerEnd = 2 ∧ o.version = o.ledgerEnd := by
  obtain ⟨trace, n, run, admissible, ends⟩ :
      ∃ trace n, Lib.Run (Node.step oneSignature.verify) (.reading {}) trace n ∧
        (∀ t ∈ trace, Admissible oneSignature t.pre t.action) ∧ n.endsWith (fun o => o.ledgerEnd = 2) = true :=
    Lib.exists_run [.entry ⟨1, 2, none, true, 0⟩, .entry ⟨2, 2, some ⟨2, 2, 7⟩, true, 0⟩, .done] (by decide +kernel)
  obtain ⟨o, rfl, truncated⟩ := Node.exists_of_endsWith ends
  exact ⟨trace, o, run, of_decide_eq_true truncated, ( recovers_genuine_prefix oneSignature run admissible).1⟩

/-- The host repeats the entry before the signature: the counter runs ahead of the store,
and the ledger is truncated at 3 where the signature is at 2. -/
theorem repeated_entry_miscounted : ∃ trace o,
    Lib.Run (Node.step oneSignature.verify) (.reading {}) trace (.ended o) ∧ o.ledgerEnd = 3 ∧ o.version = 2 ∧
    o.store = [⟨1, 2, none, true, 0⟩, ⟨2, 2, some ⟨2, 2, 7⟩, true, 0⟩] := by
  obtain ⟨trace, n, run, ends⟩ :
      ∃ trace n, Lib.Run (Node.step oneSignature.verify) (.reading {}) trace n ∧
        n.endsWith (fun o => o.ledgerEnd = 3 ∧ o.version = 2 ∧
          o.store = [⟨1, 2, none, true, 0⟩, ⟨2, 2, some ⟨2, 2, 7⟩, true, 0⟩]) = true :=
    Lib.exists_run [.entry ⟨1, 2, none, true, 0⟩, .entry ⟨1, 2, none, true, 0⟩, .entry ⟨2, 2, some ⟨2, 2, 7⟩, true, 0⟩,
      .done] (by decide +kernel)
  obtain ⟨o, rfl, passed⟩ := Node.exists_of_endsWith ends
  exact ⟨trace, o, run, of_decide_eq_true passed⟩

/-! A ledger as the consensus writes it. -/

/-- Up to its last signature. -/
def signedPrefix (ledger : List Entry) : List Entry := ledger.rdropWhile fun e => e.signature.isNone

def unsigned (ledger : List Entry) : List Entry := ledger.rtakeWhile fun e => e.signature.isNone

theorem signedPrefix_append_unsigned (ledger : List Entry) : signedPrefix ledger ++ unsigned ledger = ledger :=
  rdropWhile_append_rtakeWhile

/-- Entries are numbered, views start at 1 and do not go back, a new one starts only after a
signature, and signatures have their own seqno and view and verify. -/
structure Honest (verify : Verifier) (ledger : List Entry) : Prop where
  numbered : Numbered ledger
  positive : ∀ e ∈ ledger, 0 < e.term
  views : ledger.IsChain fun a b => a.term ≤ b.term ∧ (a.term ≠ b.term → a.signature.isSome)
  signatures : ∀ before e after, ledger = before ++ e :: after → ∀ record, e.signature = some record →
    record.seqno = e.version ∧ record.view = e.term ∧ e.wellFormed = true ∧ verify record.token before = true

namespace Honest
variable {verify : Verifier} {ledger : List Entry} {e : Entry}

theorem of_append (honest : Honest verify (ledger ++ rest)) : Honest verify ledger where
  numbered := honest.numbered.of_append
  positive e member := honest.positive e (mem_append_left _ member)
  views := honest.views.left_of_append
  signatures before e after split := honest.signatures before e (after ++ rest) (by rw [split]; simp)

theorem nil : Honest verify [] := ⟨fun _ bound => (nomatch bound), by simp, .nil, by simp⟩

theorem append (honest : Honest verify ledger) (version : e.version = ledger.length + 1) (positive : 0 < e.term)
    (follows : ∀ last ∈ ledger.getLast?, last.term ≤ e.term ∧ (last.term ≠ e.term → last.signature.isSome))
    (signed : ∀ record ∈ e.signature, record.seqno = e.version ∧ record.view = e.term ∧ e.wellFormed = true ∧
      verify record.token ledger = true) : Honest verify (ledger ++ [e]) where
  numbered := honest.numbered.append version
  positive x member := by
    obtain old | rfl : x ∈ ledger ∨ x = e := by simpa using member
    · exact honest.positive x old
    · exact positive
  views := isChain_append.mpr ⟨honest.views, .singleton _, fun last there x first => by
    obtain rfl : e = x := by simpa using first
    exact follows last there⟩
  signatures before x after split record signature := by
    cases after using reverseRecOn with
    | nil =>
      obtain ⟨rfl, rfl⟩ := append_singleton_inj.mp split
      exact signed record signature
    | append_singleton after last _ =>
      rw [← cons_append, ← append_assoc] at split
      obtain ⟨rfl, rfl⟩ := append_singleton_inj.mp split
      exact honest.signatures before x after rfl record signature

/-- Entries after the last signature are all of the last view. -/
theorem unsigned_term (honest : Honest verify (ledger ++ [e])) : ∀ x ∈ unsigned ledger, x.term = e.term := by
  induction ledger using reverseRecOn generalizing e with
  | nil => exact fun _ member => (nomatch member)
  | append_singleton ledger last ih =>
    intro x member
    obtain ⟨-, -, link⟩ := isChain_append.mp honest.views
    have follows := link last (by simp) e (by simp)
    cases signature : last.signature with
    | some record => simp [unsigned, signature] at member
    | none =>
      have same : last.term = e.term := by_contra fun differs => by simpa [signature] using follows.2 differs
      have split : x ∈ unsigned ledger ∨ x = last := by
        simpa [unsigned, rtakeWhile_concat, signature] using member
      obtain earlier | rfl := split
      · exact (ih honest.of_append x earlier).trans same
      · exact same

theorem term_le (honest : Honest verify (ledger ++ [e])) : ∀ x ∈ ledger, x.term ≤ e.term := by
  have ordered : (ledger ++ [e]).Pairwise fun a b => a.term ≤ b.term :=
    isChain_iff_pairwise.mp (honest.views.imp fun _ _ follows => follows.1)
  obtain ⟨-, -, below⟩ := pairwise_append.mp ordered
  exact fun x member => below x member e (by simp)

end Honest

structure After (ledger : List Entry) (s : Reading) : Prop where
  inStep : s.InStep
  store : s.store = ledger
  signed : s.lastRecoveredSignedIdx = (signedPrefix ledger).length
  views : ∃ h : ViewHistory, h.views = s.viewHistory ∧ h.Tracks ((signedPrefix ledger).map (·.term)) ∧
    h.views.length = ((signedPrefix ledger).getLast?.map (·.term)).getD 0

section Replay
variable {verify : Verifier} {ledger : List Entry} {s : Reading} {e : Entry}

theorem After.next (after : After ledger s) (honest : Honest verify (ledger ++ [e])) : e.version = s.lastRecoveredIdx + 1 := by
  have version := honest.numbered ledger.length (by simp)
  rw [after.inStep.idx, after.store]
  simpa using version

theorem After.signature (after : After ledger s) (honest : Honest verify (ledger ++ [e])) (record : SignatureRecord)
    (signature : e.signature = some record) : After (ledger ++ [e]) ((s.accept e).recordSignature record) := by
  have accepted := after.inStep.accept (after.next honest)
  have whole : signedPrefix (ledger ++ [e]) = ledger ++ [e] := rdropWhile_concat_neg _ _ _ (by simp [signature])
  obtain ⟨-, view, -, -⟩ := honest.signatures ledger e [] rfl record signature
  obtain ⟨h, same, tracks, length⟩ := after.views
  have start : (if s.viewHistory.isEmpty then 1 else s.lastRecoveredSignedIdx + 1) = (signedPrefix ledger).length + 1 := by
    rw [after.signed]
    split
    case isFalse => rfl
    case isTrue empty =>
      -- the history is empty only before the first signature
      cases last : (signedPrefix ledger).getLast? with
      | none => rw [getLast?_eq_none_iff.mp last]; rfl
      | some x =>
        have member : x ∈ ledger := ( rdropWhile_prefix _ _).subset (mem_of_getLast? last)
        have positive := honest.positive x (mem_append_left _ member)
        rw [last, same, List.isEmpty_iff.mp empty] at length
        exact absurd length (by simpa using positive.ne)
  have bounded : h.views.length ≤ e.term := by
    rw [length]
    cases last : (signedPrefix ledger).getLast? with
    | none => exact Nat.zero_le _
    | some x => exact honest.term_le x (( rdropWhile_prefix _ _).subset (mem_of_getLast? last))
  obtain ⟨h', updated, tracks', length'⟩ := tracks.update
    (Nat.le_add_left 1 (signedPrefix ledger).length) (by simp) bounded
    (fun i bound late => by rw [length_map] at bound; omega)
    (fun t (member : t ∈ (unsigned ledger ++ [e]).map (·.term)) => by
      obtain ⟨x, there, rfl⟩ := List.mem_map.mp member
      obtain earlier | rfl : x ∈ unsigned ledger ∨ x = e := by simpa using there
      · exact honest.unsigned_term x earlier
      · rfl)
    (by simp)
  rw [← map_append, ← append_assoc, signedPrefix_append_unsigned] at tracks'
  refine ⟨accepted.recordSignature record, ?_, ?_, h', ?_, whole.symm ▸ tracks', ?_⟩
  · rw [accepted.recordSignature_eq]
    exact congrArg (· ++ [e]) after.store
  · rw [accepted.recordSignature_eq, whole, ← after.store]
    exact accepted.idx
  · rw [accepted.recordSignature_eq, ViewHistory.views_update updated, same, ← start, ← view]
    rfl
  · rw [whole, length']
    simp

theorem After.entry (after : After ledger s) (honest : Honest verify (ledger ++ [e])) :
    ∃ t, (Node.reading s).step verify (.entry e) = some (.reading t) ∧ After (ledger ++ [e]) t := by
  rw [Reading.step_next after.inStep (after.next honest)]
  cases signature : e.signature with
  | none =>
    have same : signedPrefix (ledger ++ [e]) = signedPrefix ledger := rdropWhile_concat_pos _ _ _ (by simp [signature])
    refine ⟨_, rfl, after.inStep.accept (after.next honest), congrArg (· ++ [e]) after.store, ?_, ?_⟩
    · rw [same]
      exact after.signed
    · rw [same]
      exact after.views
  | some record =>
    obtain ⟨-, -, formed, verified⟩ := honest.signatures ledger e [] rfl record signature
    refine ⟨_, if_pos ?_, after.signature honest record signature⟩
    rw [formed, after.store, verified]
    rfl

end Replay

namespace Node

/-- The entries of a batch. The rest of a batch in which the recovery ends is dropped. -/
def recoverEntries (verify : Verifier) : Node → List Entry → Option Node
  | n, [] => some n
  | .reading s, e :: rest => ((Node.reading s).step verify (.entry e)).bind fun n => n.recoverEntries verify rest
  | .ended o, _ :: _ => some (.ended o)

/-- An empty batch is the end of the ledger. -/
def recoverPublicLedgerEntries (verify : Verifier) : Node → List Entry → Option Node
  | .reading s, [] => s.finish.map .ended
  | .reading s, e :: rest => (Node.reading s).recoverEntries verify (e :: rest)
  | .ended o, _ => some (.ended o)

end Node

/-- The ledger in batches, as the host reads it. -/
def recoverPublicLedger (verify : Verifier) (batches : List (List Entry)) : Option Node :=
  (batches ++ [[]]).foldlM (Node.recoverPublicLedgerEntries verify) (.reading {})

section Replay
variable {verify : Verifier} {ledger : List Entry} {s : Reading}

theorem After.entries {entries : List Entry} (after : After ledger s) (honest : Honest verify (ledger ++ entries)) :
    ∃ t, (Node.reading s).recoverEntries verify entries = some (.reading t) ∧ After (ledger ++ entries) t := by
  induction entries generalizing ledger s with
  | nil => exact ⟨s, rfl, by rwa [append_nil]⟩
  | cons e rest ih =>
    rw [append_cons] at honest
    obtain ⟨t, moved, first⟩ := after.entry honest.of_append
    obtain ⟨u, rest_moved, last⟩ := ih first honest
    refine ⟨u, ?_, by rwa [append_cons]⟩
    rw [Node.recoverEntries, moved, bind_some, rest_moved]

theorem After.batches {batches : List (List Entry)} (after : After ledger s) (honest : Honest verify (ledger ++ batches.flatten))
    (nonempty : ∀ batch ∈ batches, batch ≠ []) :
    ∃ t, batches.foldlM (Node.recoverPublicLedgerEntries verify) (Node.reading s) = some (.reading t) ∧
      After (ledger ++ batches.flatten) t := by
  induction batches generalizing ledger s with
  | nil => exact ⟨s, rfl, by simpa using after⟩
  | cons batch rest ih =>
    rw [flatten_cons, ← append_assoc] at honest ⊢
    obtain ⟨t, moved, first⟩ := after.entries honest.of_append
    obtain ⟨u, rest_moved, last⟩ := ih first honest fun b member => nonempty b (mem_cons_of_mem _ member)
    refine ⟨u, ?_, last⟩
    rw [foldlM_cons]
    obtain ⟨e, entries, rfl⟩ := exists_cons_of_ne_nil (nonempty batch mem_cons_self)
    rw [Node.recoverPublicLedgerEntries, moved]
    exact rest_moved

theorem signedPrefix_cases (ledger : List Entry) : signedPrefix ledger = [] ∨
    ∃ before e record, signedPrefix ledger = before ++ [e] ∧ e.signature = some record := by
  by_cases empty : signedPrefix ledger = []
  · exact .inl empty
  have last := rdropWhile_last_not (fun e : Entry => e.signature.isNone) ledger empty
  obtain ⟨record, signature⟩ := ne_none_iff_exists'.mp (by simpa using last)
  exact .inr ⟨_, _, record, (dropLast_append_getLast empty).symm, signature⟩

theorem signature_table (honest : Honest verify (signedPrefix ledger)) :
    (((signedPrefix ledger).filterMap (·.signature)).getLast?.map (·.seqno)).getD 0 = (signedPrefix ledger).length ∧
      (((signedPrefix ledger).filterMap (·.signature)).getLast?.map (·.view)).getD 0 =
        ((signedPrefix ledger).getLast?.map (·.term)).getD 0 := by
  obtain empty | ⟨before, e, record, ends, signature⟩ := signedPrefix_cases ledger
  · rw [empty]
    exact ⟨rfl, rfl⟩
  rw [ends] at honest ⊢
  obtain ⟨seqno, view, -, -⟩ := honest.signatures before e [] rfl record signature
  have version : e.version = before.length + 1 := by simpa using honest.numbered before.length (by simp)
  simp [signature, seqno, view, version]

structure Recovered (prefixed : List Entry) (o : Ended) : Prop where
  store : o.store = prefixed
  version : o.version = prefixed.length
  truncated : o.ledgerEnd = prefixed.length
  lastIdx : o.lastIdx = prefixed.length
  views : ∀ i, (bound : i < prefixed.length) → o.viewHistory.viewAt (i + 1) = prefixed[i].term
  higher : ∀ e ∈ prefixed, e.term < o.currentView
  term : o.termOfNextVersion = o.currentView

theorem After.finish (after : After ledger s) (honest : Honest verify ledger) :
    ∃ o, s.finish = some o ∧ Recovered (signedPrefix ledger) o := by
  have inStep := after.inStep
  obtain ⟨r, rolled, store, version⟩ := Reading.rollback_spec inStep.numbered inStep.version inStep.compacted.le inStep.signed
  have kept : r.store = signedPrefix ledger := by
    rw [store, after.store, after.signed]
    exact prefix_iff_eq_take.mp ( rdropWhile_prefix _ _) |>.symm
  obtain ⟨h, same, tracks, length⟩ := after.views
  have initialised : ViewHistory.initialise s.viewHistory = some h := same ▸ h.initialise_views
  rw [← signedPrefix_append_unsigned ledger] at honest
  have signed := honest.of_append
  have views (i : Nat) (bound : i < (signedPrefix ledger).length) : h.viewAt (i + 1) = (signedPrefix ledger)[i].term := by
    rw [tracks.viewAt_eq i (by rwa [length_map]), getElem_map]
  have higher : ∀ e ∈ signedPrefix ledger, e.term ≤ h.views.length := by
    rw [length]
    obtain empty | ⟨before, last, record, ends, signature⟩ := signedPrefix_cases ledger
    · simp [empty]
    rw [ends] at signed ⊢
    intro e member
    rw [getLast?_concat]
    obtain earlier | rfl : e ∈ before ∨ e = last := by simpa using member
    · exact signed.term_le e earlier
    · exact le_rfl
  have reached : ∀ v ∈ h.views, v ≤ (signedPrefix ledger).length := by
    intro v member
    have start := tracks.starts_le v member
    cases nonempty : signedPrefix ledger with
    | nil =>
      rw [nonempty] at length
      exact absurd member (by simp [length_eq_zero_iff.mp length])
    | cons e rest =>
      rw [nonempty] at start
      simpa using start
  obtain ⟨index, view⟩ := signature_table signed
  rw [Reading.finish, rolled, bind_some, initialised, bind_some, kept, index, view, ← length,
    ViewHistory.update_eq_self le_rfl reached]
  refine ⟨_, rfl, rfl, version.trans after.signed, after.signed, rfl, views, fun e member => ?_, ?_⟩
  · exact Nat.lt_add_right 1 (Nat.lt_succ_of_le (higher e member))
  · exact congrArg (·.length + 2) same.symm

end Replay

end CCF.Recovery
