import ShardedCCF.Kv.Replication
import ShardedCCF.Lib.Run

/-! Transactions take versions in order and submit in any order. What consensus
is handed has no gap and no repetition, whoever closes a gap. -/
namespace CCF.Kv
open List
open Std (ExtTreeMap)

variable {D : Type}

namespace Replication

/-- The batch is the pending versions from `next` on up to the first gap; the
others stay pending. -/
structure Takes (next : Nat) (pending : ExtTreeMap Nat (D × Bool)) (batch : List (BatchEntry D))
    (rest : ExtTreeMap Nat (D × Bool)) : Prop where
  versions : batch.map Prod.fst = List.range' next batch.length
  taken : ∀ entry ∈ batch, pending[entry.1]? = some entry.2
  left : ∀ v, rest[v]? = if next ≤ v ∧ v < next + batch.length then none else pending[v]?
  gap : rest[next + batch.length]? = none

theorem takeBatch_takes (fuel next : Nat) (pending : ExtTreeMap Nat (D × Bool))
    (enough : pending.size ≤ fuel) :
    Takes next pending (takeBatch fuel next pending).1 (takeBatch fuel next pending).2 := by
  induction fuel generalizing next pending with
  | zero =>
    have empty : pending = ∅ := by
      rw [ExtTreeMap.eq_empty_iff_size_eq_zero]
      omega
    subst empty
    constructor <;> simp [takeBatch]
  | succ fuel ih =>
    simp only [takeBatch]
    cases found : pending[next]? with
    | none => constructor <;> simp [found]
    | some item =>
      obtain ⟨data, committable⟩ := item
      have member : next ∈ pending := Lib.mem_of_eq_some found
      have smaller : (pending.erase next).size ≤ fuel := by
        rw [ExtTreeMap.size_erase, if_pos (ExtTreeMap.contains_iff_mem.mpr member)]
        omega
      have rest := ih (next + 1) (pending.erase next) smaller
      generalize takeBatch fuel (next + 1) (pending.erase next) = result at rest
      obtain ⟨batch, left⟩ := result
      constructor
      · simp only [map_cons, length_cons, range'_succ, rest.versions]
      · intro entry member
        rcases mem_cons.mp member with rfl | later
        · exact found
        · exact (Lib.erase_eq_some (rest.taken entry later)).2
      · intro v
        rw [rest.left v, ExtTreeMap.getElem?_erase]
        simp only [compare_eq_iff_eq, length_cons]
        split_ifs <;> first | rfl | omega
      · have gap := rest.gap
        rwa [length_cons, show next + (batch.length + 1) = next + 1 + batch.length by omega]

theorem commit_of_replicates {c : Consensus D} (replicates : ∀ batch view, c.replicate batch view = true)
    (s : Replication D) (sameTerm : txid.term = s.termOfNextVersion) (data : D) (committable : Bool) :
    ∃ batch rest lastCommittable,
      Takes (s.lastReplicated + 1) (s.pendingTxs.insertIfNew txid.version (data, committable)) batch rest ∧
      (s.commit c txid data committable).2.1.elim [] Prod.fst = batch ∧
      (s.commit c txid data committable).2.2 =
        { s with
          lastCommittable
          pendingTxs := rest
          leaves := s.leaves ++ batch.map fun entry => entry.2.1
          lastReplicated := s.lastReplicated + batch.length } := by
  have takes := takeBatch_takes _ (s.lastReplicated + 1)
    (s.pendingTxs.insertIfNew txid.version (data, committable)) (Nat.le_refl _)
  unfold commit
  rw [if_neg (fun refused => refused.1 sameTerm)]
  refine ⟨_, _, if committable ∧ txid.version > s.lastCommittable then txid.version
    else s.lastCommittable, takes, ?_, ?_⟩
  · dsimp only
    split <;> simp_all
  · dsimp only
    split <;> simp_all

theorem prepare_of_term (s : Replication D) (sameTerm : txid.term = s.termOfNextVersion) (isPrimary : Bool)
    (data : D) (committable : Bool) :
    ∃ batch rest lastCommittable,
      Takes (s.lastReplicated + 1) (s.pendingTxs.insertIfNew txid.version (data, committable)) batch rest ∧
      (s.prepare isPrimary txid data committable).2.1 =
        (if batch = [] then none
          else some ⟨batch, s.termOfNextVersion, s.lastReplicated, s.rollbackCount⟩) ∧
      (s.prepare isPrimary txid data committable).2.2 =
        { s with
          lastCommittable
          pendingTxs := rest
          leaves := s.leaves ++ batch.map fun entry => entry.2.1 } := by
  have takes := takeBatch_takes _ (s.lastReplicated + 1)
    (s.pendingTxs.insertIfNew txid.version (data, committable)) (Nat.le_refl _)
  unfold prepare
  rw [if_neg (fun refused => refused.1 sameTerm)]
  refine ⟨_, _, if committable ∧ txid.version > s.lastCommittable then txid.version
    else s.lastCommittable, takes, ?_, ?_⟩
  · dsimp only
    split <;> rfl
  · dsimp only
    split <;> rfl

end Replication

/-- Transactions of one term: those that hold a version, those that have
submitted, and what consensus was handed. -/
structure Submissions (D : Type) where
  store : Replication D
  held : List TxID := []
  submitted : List (BatchEntry D) := []
  handed : List (BatchEntry D) := []

inductive Submission (D : Type) where
  | take
  | submit (txid : TxID) (data : D) (globallyCommittable : Bool)

namespace Submissions

def step (c : Consensus D) (s : Submissions D) : Submission D → Option (Submissions D)
  | .take => some { s with store := s.store.nextTxid.2, held := s.held ++ [s.store.nextTxid.1] }
  | .submit txid data committable =>
    if txid ∈ s.held then
      let (_, batch, store) := s.store.commit c txid data committable
      some
        { store
          held := s.held.erase txid
          submitted := s.submitted ++ [(txid.version, data, committable)]
          handed := s.handed ++ batch.elim [] Prod.fst }
    else none

/-- The versions handed on are the longest run of submitted versions after `first`. -/
structure Ordered (first : Nat) (leaves : List D) (s : Submissions D) : Prop where
  versions : s.handed.map Prod.fst = List.range' (first + 1) s.handed.length
  from_submitted : ∀ entry ∈ s.handed, entry ∈ s.submitted
  maximal : first + s.handed.length + 1 ∉ s.submitted.map Prod.fst
  leaves_eq : s.store.leaves = leaves ++ s.handed.map fun entry => entry.2.1

structure Consistent (first : Nat) (leaves : List D) (s : Submissions D) : Prop extends
    Ordered first leaves s where
  replicated : s.store.lastReplicated = first + s.handed.length
  distinct : (s.submitted.map Prod.fst).Nodup
  pending : ∀ v item, s.store.pendingTxs[v]? = some item ↔
    (v, item) ∈ s.submitted ∧ first + s.handed.length < v
  start : first ≤ s.store.version
  after : ∀ v ∈ s.submitted.map Prod.fst, first < v ∧ v ≤ s.store.version
  held_distinct : (s.held.map TxID.version).Nodup
  held_fresh : ∀ txid ∈ s.held, txid.version ∉ s.submitted.map Prod.fst ∧ first < txid.version ∧
    txid.version ≤ s.store.version ∧ txid.term = s.store.termOfNextVersion

variable {first : Nat} {leaves : List D} {s : Submissions D}

section
variable (consistent : Consistent first leaves s)
include consistent

theorem Consistent.take : Consistent first leaves
      { s with store := s.store.nextTxid.2, held := s.held ++ [s.store.nextTxid.1] } := by
  constructor
  · exact ⟨consistent.versions, consistent.from_submitted, consistent.maximal, consistent.leaves_eq⟩
  · exact consistent.replicated
  · exact consistent.distinct
  · exact consistent.pending
  · exact Nat.le_succ_of_le consistent.start
  · intro v member
    exact ⟨(consistent.after v member).1, Nat.le_succ_of_le (consistent.after v member).2⟩
  · -- The new version is above every version that is held.
    simp only [map_append, map_cons, map_nil]
    refine nodup_append.mpr ⟨consistent.held_distinct, by simp, ?_⟩
    intro v held w isNew same
    obtain ⟨txid, member, rfl⟩ := List.mem_map.mp held
    have bounded := (consistent.held_fresh txid member).2.2.1
    simp only [mem_singleton, Replication.nextTxid] at isNew
    omega
  · intro txid member
    rcases mem_append.mp member with old | isNew
    · obtain ⟨fresh, above, below, term⟩ := consistent.held_fresh txid old
      exact ⟨fresh, above, Nat.le_succ_of_le below, term⟩
    obtain rfl := mem_singleton.mp isNew
    refine ⟨fun submitted => ?_, Nat.lt_succ_of_le consistent.start, Nat.le_refl _, rfl⟩
    exact Nat.not_succ_le_self _ (consistent.after _ submitted).2

theorem Consistent.lt_of_fresh (above : first < v) (fresh : v ∉ s.submitted.map Prod.fst) :
    first + s.handed.length < v := by
  by_contra reached
  have handed : v ∈ s.handed.map Prod.fst := by
    rw [consistent.versions, mem_range'_1]
    omega
  obtain ⟨entry, member, rfl⟩ := List.mem_map.mp handed
  exact fresh (List.mem_map_of_mem (consistent.from_submitted entry member))

/-- With the submitted transaction added, the pending ones still are those that
were not handed on. -/
theorem Consistent.pending_insert (above : first < v) (fresh : v ∉ s.submitted.map Prod.fst) (item : D × Bool)
    (w : Nat) (found : D × Bool) : (s.store.pendingTxs.insertIfNew v item)[w]? = some found ↔
      (w, found) ∈ s.submitted ++ [(v, item)] ∧ first + s.handed.length < w := by
  have beyond := consistent.lt_of_fresh above fresh
  have absent : v ∉ s.store.pendingTxs := by
    intro member
    obtain ⟨known, is⟩ := Lib.exists_of_mem member
    exact fresh (List.mem_map_of_mem ((consistent.pending v known).mp is).1)
  rw [ExtTreeMap.getElem?_insertIfNew]
  simp only [compare_eq_iff_eq, absent, not_false_eq_true, and_true, mem_append,
    mem_singleton, Prod.mk.injEq]
  split
  case isTrue same =>
    subst same
    have unknown : (v, found) ∉ s.submitted := fun known => fresh (List.mem_map_of_mem known)
    simp only [Option.some.injEq, unknown, false_or, true_and, beyond, and_true, eq_comm]
  case isFalse other =>
    simp only [consistent.pending w found, Ne.symm other, false_and, or_false]

end

theorem Consistent.submit {c : Consensus D} (replicates : ∀ batch view, c.replicate batch view = true)
    (consistent : Consistent first leaves s) (member : txid ∈ s.held)
    (moved : step c s (.submit txid data committable) = some t) : Consistent first leaves t := by
  obtain ⟨fresh, above, below, term⟩ := consistent.held_fresh txid member
  obtain ⟨batch, rest, lastCommittable, takes, handedOn, after⟩ :=
    s.store.commit_of_replicates replicates term data committable
  simp only [step, if_pos member, handedOn, after] at moved
  obtain rfl := Option.some.inj moved
  rw [consistent.replicated] at takes
  have pending := consistent.pending_insert above fresh (data, committable)
  constructor
  · constructor
    · simp only [map_append, length_append, consistent.versions, takes.versions]
      rw [show first + s.handed.length + 1 = first + 1 + s.handed.length by omega]
      exact range'_append_1 ..
    · intro entry handed
      rcases mem_append.mp handed with before | now
      · exact mem_append_left _ (consistent.from_submitted entry before)
      · exact ((pending entry.1 entry.2).mp (takes.taken entry now)).1
    · -- The version after the batch would have been taken too.
      intro submitted
      obtain ⟨⟨v, found⟩, known, is⟩ := List.mem_map.mp submitted
      simp only [length_append] at is
      have waiting := (pending v found).mpr ⟨known, by omega⟩
      have gap := takes.gap
      rw [takes.left, if_neg (by omega), show first + s.handed.length + 1 + batch.length = v by omega,
        waiting] at gap
      cases gap
    · simp only [consistent.leaves_eq, map_append, append_assoc]
  · simp only [consistent.replicated, length_append]
    omega
  · simp only [map_append, map_cons, map_nil]
    refine nodup_append.mpr ⟨consistent.distinct, by simp, ?_⟩
    rintro v known w isNew rfl
    exact fresh (mem_singleton.mp isNew ▸ known)
  · intro v found
    rw [takes.left, length_append]
    split
    case isTrue taken => simp; omega
    case isFalse kept =>
      rw [pending]
      constructor
      · rintro ⟨known, beyond⟩
        exact ⟨known, by omega⟩
      · rintro ⟨known, beyond⟩
        exact ⟨known, by omega⟩
  · exact consistent.start
  · intro v known
    simp only [map_append, mem_append, map_cons, map_nil, mem_singleton] at known
    rcases known with before | rfl
    · exact consistent.after v before
    · exact ⟨above, below⟩
  · exact consistent.held_distinct.sublist (erase_sublist.map _)
  · intro other held
    have old := mem_of_mem_erase held
    obtain ⟨otherFresh, rest⟩ := consistent.held_fresh other old
    refine ⟨?_, rest⟩
    simp only [map_append, mem_append, map_cons, map_nil, mem_singleton]
    rintro (known | same)
    · exact otherFresh known
    · -- Two transactions with one version would be the same one, which is gone.
      have nodup : s.held.Nodup := consistent.held_distinct.of_map _
      exact (Nodup.mem_erase_iff nodup).mp held |>.1
        (inj_on_of_nodup_map consistent.held_distinct old member same)

theorem Consistent.step {c : Consensus D} (replicates : ∀ batch view, c.replicate batch view = true)
    (consistent : Consistent first leaves s) (moved : step c s a = some t) :
    Consistent first leaves t := by
  cases a with
  | take =>
    cases moved
    exact consistent.take
  | submit txid data committable =>
    by_cases member : txid ∈ s.held
    · exact consistent.submit replicates member moved
    · simp [Submissions.step, member] at moved

/-- Whatever the order of the submissions, consensus has been handed the
longest gap-free run of submitted versions, and the history has their leaves. -/
theorem handed_in_order {c : Consensus D} (replicates : ∀ batch view, c.replicate batch view = true)
    {store : Replication D} (nonePending : store.pendingTxs = ∅)
    (replicated : store.lastReplicated ≤ store.version)
    (run : Lib.Run (step c) { store } trace s) : Ordered store.lastReplicated store.leaves s := by
  have start : Consistent store.lastReplicated store.leaves { store } := by
    constructor
    · constructor <;> simp
    all_goals simp [nonePending, replicated]
  exact (run.invariant _ start fun _ _ _ consistent => consistent.step replicates).toOrdered

/-- The second of two transactions submits first. -/
theorem handed_in_order_swapped :
    ∃ trace s, Lib.Run (step ⟨true, fun _ _ => true⟩) { store := ({} : Replication Nat) } trace s ∧
      s.handed = [(1, 10, false), (2, 20, true)] ∧ Ordered 0 [] s := by
  refine Lib.exists_run_of (P := fun _ s => s.handed = [(1, 10, false), (2, 20, true)])
    [.take, .take, .submit ⟨0, 2⟩ 20 true, .submit ⟨0, 1⟩ 10 false] (by decide +kernel) ?_
  exact fun trace s run handed => ⟨handed, handed_in_order (fun _ _ => rfl) rfl (Nat.le_refl _) run⟩

end Submissions
end CCF.Kv
