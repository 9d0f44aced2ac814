import ShardedCCF.Lib.Run

/-! `SeqnosByKey_Bucketed`: the index from keys to the transactions that wrote them, in
buckets of which one per key is in memory and the others are files, and the `Indexer` that
feeds it. -/
namespace CCF.Indexing
open List hiding range count
open Option Function

structure Config where
  seqnosPerBucket : Nat
  maxBuckets : Nat
  positive : 0 < seqnosPerBucket

/-- Inclusive begin, exclusive end. -/
abbrev Range := Nat × Nat

def Config.getRangeFor (cfg : Config) (seqno : Nat) : Range :=
  let begin := seqno / cfg.seqnosPerBucket * cfg.seqnosPerBucket
  (begin, begin + cfg.seqnosPerBucket)

def serialise (seqnos : Finset Nat) : List Nat := seqnos.card :: seqnos.sort

/-- `none` is a corrupt file. -/
def deserialise : List Nat → Option (Finset Nat)
  | [] => none
  | count :: seqnos => if seqnos.length = count then some seqnos.toFinset else none

theorem deserialise_serialise (seqnos : Finset Nat) : deserialise (serialise seqnos) = some seqnos := by
  rw [serialise, deserialise, if_pos (Finset.length_sort _), Finset.sort_toFinset]

variable {K : Type} [DecidableEq K]

/-- The keys of the map that each committed transaction wrote. -/
abbrev Transactions (K : Type) := Nat → { keys : List K // keys.Nodup }

/-- A bucket that was asked for: being fetched, as the host has answered, or parsed. -/
inductive BucketValue where
  | fetching
  | loaded (contents : List Nat)
  | notFound
  | corrupt
  | parsed (seqnos : Finset Nat)

/-- The strategy, with the last contents that it stored under each name. Seqno 0 stands for
the empty watermark. -/
structure Index (K : Type) where
  currentSeqno : Nat := 0
  currentResults : K → Option (Range × Finset Nat) := fun _ => none
  /-- The most recent first. -/
  oldResults : List ((K × Range) × BucketValue) := []
  disk : K × Range → Option (List Nat) := fun _ => none

namespace Index

def storeToDisk (ix : Index K) (k : K) (range : Range) (seqnos : Finset Nat) : Index K :=
  { ix with disk := Function.update ix.disk (k, range) (some (serialise seqnos)) }

/-- The loop runs over the buckets before the end, which are counted here. -/
def storeEmptyBuckets (cfg : Config) (ix : Index K) (k : K) (begin : Range) : Nat → Index K
  | 0 => ix
  | count + 1 => storeEmptyBuckets cfg (ix.storeToDisk k begin ∅) k (cfg.getRangeFor begin.2) count

def bucketsBetween (cfg : Config) (begin last : Range) : Nat := (last.1 - begin.1) / cfg.seqnosPerBucket

def putCurrent (ix : Index K) (k : K) (range : Range) (seqnos : Finset Nat) : Index K :=
  { ix with currentResults := Function.update ix.currentResults k (some (range, seqnos)) }

def visitEntry (cfg : Config) (seqno : Nat) (ix : Index K) (k : K) : Index K :=
  let range := cfg.getRangeFor seqno
  match ix.currentResults k with
  | some (currentRange, seqnos) =>
    if range ≠ currentRange then
      let nextRange := cfg.getRangeFor currentRange.2
      ((ix.storeToDisk k currentRange seqnos).storeEmptyBuckets cfg k nextRange (bucketsBetween cfg nextRange range)).putCurrent
        k range {seqno}
    else ix.putCurrent k range (insert seqno seqnos)
  | none =>
    let first := cfg.getRangeFor 0
    (ix.storeEmptyBuckets cfg k first (bucketsBetween cfg first range)).putCurrent k range {seqno}

def handleCommittedTransaction (cfg : Config) (txs : Transactions K) (ix : Index K) (seqno : Nat) : Index K :=
  { (txs seqno).1.foldl (visitEntry cfg seqno) ix with currentSeqno := seqno }

def nextRequested (ix : Index K) : Nat := ix.currentSeqno + 1

/-- A missing or corrupt file makes the strategy index everything again. -/
def reset (ix : Index K) : Index K := { ix with currentSeqno := 0, oldResults := [], currentResults := fun _ => none }

def find (ix : Index K) (bucket : K × Range) : Option BucketValue := (ix.oldResults.find? (·.1 = bucket)).map (·.2)

/-- A new entry is the most recent, and the least recent one may have to go. -/
def insert (cfg : Config) (ix : Index K) (bucket : K × Range) (value : BucketValue) : Index K :=
  { ix with oldResults := ((bucket, value) :: ix.oldResults).take cfg.maxBuckets }

def setParsed (ix : Index K) (bucket : K × Range) (seqnos : Finset Nat) : Index K :=
  { ix with oldResults := ix.oldResults.map fun e => if e.1 = bucket then (bucket, .parsed seqnos) else e }

inductive Visit (K : Type) where
  | found (seqnos : Finset Nat) (ix : Index K)
  | pending (ix : Index K)
  /-- There is nothing of this key in this bucket or later ones. -/
  | beyond
  | damaged

def visitBucket (cfg : Config) (ix : Index K) (k : K) (range : Range) : Visit K :=
  match ix.find (k, range) with
  | some .fetching => .pending ix
  | some (.loaded contents) =>
    match deserialise contents with
    | some seqnos => .found seqnos (ix.setParsed (k, range) seqnos)
    | none => .damaged
  | some .notFound | some .corrupt => .damaged
  | some (.parsed seqnos) => .found seqnos ix
  | none =>
    match ix.currentResults k with
    | none => .beyond
    | some (currentRange, seqnos) =>
      if currentRange = range then .found seqnos ix
      else if currentRange.1 < range.1 then .beyond
      else .pending (ix.insert cfg (k, range) .fetching)

/-- The loop over the buckets of the range, of which `remaining` follow this one. A result
is only built while it is complete. -/
def scan (cfg : Config) (k : K) (first last : Nat) : Nat → Range → Bool → Finset Nat → Index K → Option (Finset Nat) × Index K
  | remaining, range, complete, result, ix =>
    let advance (complete : Bool) (result : Finset Nat) (ix : Index K) : Option (Finset Nat) × Index K :=
      match remaining with
      | 0 => (if complete then some result else none, ix)
      | remaining + 1 =>
        scan cfg k first last remaining (range.1 + cfg.seqnosPerBucket, range.2 + cfg.seqnosPerBucket) complete result ix
    match ix.visitBucket cfg k range with
    | .found seqnos ix =>
      advance complete (if complete then result ∪ seqnos.filter (fun n => first ≤ n ∧ n ≤ last) else result) ix
    | .pending ix => advance false result ix
    | .beyond => (if complete then some result else none, ix)
    | .damaged => (none, ix.reset)

inductive QueryError where
  | rangeGoesBackwards
  | rangeTooLarge
  deriving DecidableEq, Repr

/-- Computed on 64 bits: without any bucket, the range is hardly limited. -/
def maxRequestableRange (cfg : Config) : Nat := (cfg.maxBuckets + 2 ^ 64 - 1) * cfg.seqnosPerBucket % 2 ^ 64

def getWriteTxs (cfg : Config) (ix : Index K) (k : K) (first last : Nat) :
    Except QueryError (Option (Finset Nat)) × Index K :=
  if last < first then (.error .rangeGoesBackwards, ix)
  else if ix.currentSeqno < last then (.ok none, ix)
  else if maxRequestableRange cfg < last - first then (.error .rangeTooLarge, ix)
  else
    let begin := cfg.getRangeFor first
    let (result, after) := scan cfg k first last (bucketsBetween cfg begin (cfg.getRangeFor last)) begin true ∅ ix
    (.ok result, after)

end Index

structure Indexer (K : Type) where
  index : Index K := {}
  committed : Nat × Nat := (0, 0)

def maxRequestable : Nat := 500

def txIdLess (a b : Nat × Nat) : Bool := a.1 < b.1 || a.2 < b.2

namespace Indexer

/-- `none` where the commit point goes back. The other strategies have asked for
`otherRequests`; the fetcher has all the stores in order, or none yet. -/
def updateStrategies (cfg : Config) (txs : Transactions K) (s : Indexer K) (newlyCommitted : Nat × Nat)
    (otherRequests : List Nat) (available : Bool) : Option (Indexer K) :=
  if txIdLess newlyCommitted s.committed then none
  else
    let firstRequested := otherRequests.foldl min s.index.nextRequested
    if firstRequested ≤ newlyCommitted.2 then
      let additional := min maxRequestable (newlyCommitted.2 - firstRequested)
      let stores := if available then List.range' firstRequested (additional + 1) else []
      let feed (ix : Index K) (seqno : Nat) := if seqno = ix.nextRequested then ix.handleCommittedTransaction cfg txs seqno else ix
      some { index := stores.foldl feed s.index, committed := newlyCommitted }
    else some { s with committed := newlyCommitted }

inductive Answer where
  | loaded
  | notFound
  | corrupt
  deriving DecidableEq, Repr

/-- A file that is loaded is what was last stored under its name. -/
def answer (s : Indexer K) (bucket : K × Range) (reply : Answer) : Option (Indexer K) :=
  let value : Option BucketValue := match reply with
    | .loaded => (s.index.disk bucket).map .loaded
    | .notFound => some .notFound
    | .corrupt => some .corrupt
  value.map fun value =>
    { s with index := { s.index with oldResults := s.index.oldResults.map fun e =>
        match e.2 with
        | .fetching => if e.1 = bucket then (bucket, value) else e
        | _ => e } }

end Indexer

inductive Action (K : Type) where
  | updateStrategies (newlyCommitted : Nat × Nat) (otherRequests : List Nat) (available : Bool)
  | query (k : K) (first last : Nat)
  | answer (bucket : K × Range) (reply : Indexer.Answer)

def Indexer.step (cfg : Config) (txs : Transactions K) (s : Indexer K) : Action K → Option (Indexer K)
  | .updateStrategies newlyCommitted otherRequests available => s.updateStrategies cfg txs newlyCommitted otherRequests available
  | .query k first last => some { s with index := (s.index.getWriteTxs cfg k first last).2 }
  | .answer bucket reply => s.answer bucket reply

/-! Buckets. -/

namespace Config
variable {cfg : Config}

theorem getRangeFor_le (cfg : Config) (n : Nat) : (cfg.getRangeFor n).1 ≤ n := Nat.div_mul_le_self _ _

theorem lt_getRangeFor (cfg : Config) (n : Nat) : n < (cfg.getRangeFor n).2 := by
  have rest := Nat.mod_lt n cfg.positive
  have split := Nat.div_add_mod' n cfg.seqnosPerBucket
  simp only [getRangeFor]
  omega

/-- A range starts at a multiple of the size. -/
def bucket (cfg : Config) (b : Nat) : Range := (b * cfg.seqnosPerBucket, b * cfg.seqnosPerBucket + cfg.seqnosPerBucket)

theorem getRangeFor_eq (cfg : Config) (n : Nat) : cfg.getRangeFor n = cfg.bucket (n / cfg.seqnosPerBucket) := rfl

theorem getRangeFor_bucket_end (cfg : Config) (b : Nat) : cfg.getRangeFor (cfg.bucket b).2 = cfg.bucket (b + 1) := by
  have multiple : (cfg.bucket b).2 = (b + 1) * cfg.seqnosPerBucket := (Nat.succ_mul _ _).symm
  rw [getRangeFor_eq, multiple, Nat.mul_div_cancel _ cfg.positive]

theorem bucketsBetween_eq (cfg : Config) (a b : Nat) : Index.bucketsBetween cfg (cfg.bucket a) (cfg.bucket b) = b - a := by
  rw [Index.bucketsBetween, bucket, bucket, ← Nat.sub_mul, Nat.mul_div_cancel _ cfg.positive]

end Config

/-! What the index has to say. -/

def Wrote (txs : Transactions K) (n : Nat) (k : K) : Prop := 0 < n ∧ k ∈ (txs n).1

instance (txs : Transactions K) (n : Nat) (k : K) : Decidable (Wrote txs n k) := inferInstanceAs (Decidable (_ ∧ _))

def writesIn (txs : Transactions K) (k : K) (range : Range) : Finset Nat :=
  (Finset.Ico range.1 range.2).filter fun n => Wrote txs n k

namespace Index
variable {cfg : Config} {txs : Transactions K} {ix iy : Index K}

def Current (cfg : Config) (txs : Transactions K) (ix : Index K) (k : K) (w : Nat) : Prop :=
  match ix.currentResults k with
  | none => ∀ n ≤ w, ¬Wrote txs n k
  | some (range, seqnos) => (∃ m ≤ w, range = cfg.getRangeFor m) ∧
      (∀ n, n ∈ seqnos ↔ n ∈ writesIn txs k range ∧ n ≤ w) ∧ ∀ n ≤ w, Wrote txs n k → n < range.2

def Stored (txs : Transactions K) (ix : Index K) : Prop :=
  ∀ k range contents, ix.disk (k, range) = some contents → deserialise contents = some (writesIn txs k range)

def Cached (txs : Transactions K) (ix : Index K) : Prop :=
  ∀ e ∈ ix.oldResults, match e.2 with
    | .loaded contents => deserialise contents = some (writesIn txs e.1.1 e.1.2)
    | .parsed seqnos => seqnos = writesIn txs e.1.1 e.1.2
    | _ => True

structure Exact (cfg : Config) (txs : Transactions K) (ix : Index K) : Prop where
  current : ∀ k, ix.Current cfg txs k ix.currentSeqno
  stored : ix.Stored txs
  cached : ix.Cached txs

/-! Visiting the entries of a transaction. -/

theorem stored_storeToDisk (stored : ix.Stored txs) (complete : seqnos = writesIn txs k range) :
    (ix.storeToDisk k range seqnos).Stored txs := by
  intro other q contents there
  by_cases same : (other, q) = (k, range)
  · obtain ⟨rfl, rfl⟩ := Prod.mk.inj same
    simp only [storeToDisk, update_self] at there
    rw [← some.inj there, deserialise_serialise, complete]
  · simp only [storeToDisk, update_of_ne same] at there
    exact stored other q contents there

theorem storeEmptyBuckets_frame (cfg : Config) (ix : Index K) (k : K) (begin : Range) (count : Nat) :
    (storeEmptyBuckets cfg ix k begin count).currentResults = ix.currentResults ∧
      (storeEmptyBuckets cfg ix k begin count).oldResults = ix.oldResults ∧
      (storeEmptyBuckets cfg ix k begin count).currentSeqno = ix.currentSeqno := by
  induction count generalizing ix begin with
  | zero => exact ⟨rfl, rfl, rfl⟩
  | succ count ih => exact ih (ix.storeToDisk k begin ∅) (cfg.getRangeFor begin.2)

theorem stored_storeEmptyBuckets (stored : ix.Stored txs)
    (empty : ∀ n, (cfg.bucket b).1 ≤ n → n < (cfg.bucket (b + count)).1 → ¬Wrote txs n k) :
    (storeEmptyBuckets cfg ix k (cfg.bucket b) count).Stored txs := by
  induction count generalizing ix b with
  | zero => exact stored
  | succ count ih =>
    have monotone : (cfg.bucket (b + 1)).1 ≤ (cfg.bucket (b + (count + 1))).1 := Nat.mul_le_mul_right _ (by omega)
    have next : (cfg.bucket b).2 = (cfg.bucket (b + 1)).1 := (Nat.succ_mul _ _).symm
    rw [storeEmptyBuckets, cfg.getRangeFor_bucket_end]
    refine ih (stored_storeToDisk stored ?_) fun n low high => ?_
    · refine (Finset.filter_eq_empty_iff.mpr fun n inside => ?_).symm
      obtain ⟨low, high⟩ := Finset.mem_Ico.mp inside
      exact empty n low (by omega)
    · refine empty n (le_trans ?_ low) (by rwa [show b + (count + 1) = b + 1 + count by omega])
      exact Nat.mul_le_mul_right _ (by omega)

theorem current_putCurrent_self (cfg : Config) (ix : Index K) (n : Nat)
    (exact : ∀ m, m ∈ seqnos ↔ m ∈ writesIn txs k (cfg.getRangeFor n) ∧ m ≤ n) :
    (ix.putCurrent k (cfg.getRangeFor n) seqnos).Current cfg txs k n := by
  simp only [Current, putCurrent, update_self]
  exact ⟨⟨n, le_rfl, rfl⟩, exact, fun m below _ => below.trans_lt (cfg.lt_getRangeFor n)⟩

theorem current_of_eq (same : ix.currentResults k = iy.currentResults k) (current : ix.Current cfg txs k w) :
    iy.Current cfg txs k w := by
  rwa [Current, ← same]

theorem current_succ (current : ix.Current cfg txs k w) (other : ¬Wrote txs (w + 1) k) : ix.Current cfg txs k (w + 1) := by
  have earlier (n : Nat) (below : n ≤ w + 1) (wrote : Wrote txs n k) : n ≤ w :=
    Nat.le_of_lt_succ (lt_of_le_of_ne below fun same => other (by rwa [same] at wrote))
  unfold Current at current ⊢
  cases there : ix.currentResults k with
  | none =>
    rw [there] at current
    exact fun n below wrote => current n (earlier n below wrote) wrote
  | some result =>
    rw [there] at current
    obtain ⟨⟨m, visited, range⟩, exact, last⟩ := current
    refine ⟨⟨m, visited.trans (Nat.le_succ w), range⟩, fun n => ?_, fun n below wrote => last n (earlier n below wrote) wrote⟩
    refine (exact n).trans (and_congr_right fun inside => ⟨fun below => below.trans (Nat.le_succ w), fun below => ?_⟩)
    exact earlier n below (Finset.mem_filter.mp inside).2

theorem bucket_lt (cfg : Config) (less : a < b) : (cfg.bucket a).2 ≤ (cfg.bucket b).1 := by
  have bound := Nat.mul_le_mul_right cfg.seqnosPerBucket (Nat.succ_le_of_lt less)
  rwa [Nat.succ_mul] at bound

theorem singleton_exact (cfg : Config) (wrote : Wrote txs n k)
    (earlier : ∀ m < n, (cfg.getRangeFor n).1 ≤ m → ¬Wrote txs m k) (m : Nat) :
    m ∈ ({n} : Finset Nat) ↔ m ∈ writesIn txs k (cfg.getRangeFor n) ∧ m ≤ n := by
  rw [Finset.mem_singleton, writesIn, Finset.mem_filter, Finset.mem_Ico]
  constructor
  · rintro rfl
    exact ⟨⟨⟨cfg.getRangeFor_le m, cfg.lt_getRangeFor m⟩, wrote⟩, le_rfl⟩
  · rintro ⟨⟨⟨low, -⟩, written⟩, below⟩
    exact le_antisymm below (not_lt.mp fun less => earlier m less low written)

structure Visited (cfg : Config) (txs : Transactions K) (k : K) (n : Nat) (ix iy : Index K) : Prop where
  stored : iy.Stored txs
  current : iy.Current cfg txs k n
  others : ∀ other ≠ k, iy.currentResults other = ix.currentResults other
  oldResults : iy.oldResults = ix.oldResults

theorem visited_putCurrent (stored : iy.Stored txs) (results : iy.currentResults = ix.currentResults)
    (old : iy.oldResults = ix.oldResults)
    (exact : ∀ m, m ∈ seqnos ↔ m ∈ writesIn txs k (cfg.getRangeFor n) ∧ m ≤ n) :
    Visited cfg txs k n ix (iy.putCurrent k (cfg.getRangeFor n) seqnos) where
  stored := stored
  current := current_putCurrent_self cfg iy n exact
  others other differs := (update_of_ne differs _ _).trans (congrFun results other)
  oldResults := old

theorem visited_visitEntry (stored : ix.Stored txs) (current : ix.Current cfg txs k w) (wrote : Wrote txs (w + 1) k) :
    Visited cfg txs k (w + 1) ix (visitEntry cfg (w + 1) ix k) := by
  have start : (cfg.getRangeFor (w + 1)).1 ≤ w + 1 := cfg.getRangeFor_le _
  unfold Current at current
  cases there : ix.currentResults k with
  | none =>
    simp only [there] at current
    have none_before (m : Nat) (below : m < w + 1) : ¬Wrote txs m k := current m (Nat.le_of_lt_succ below)
    simp only [visitEntry, there]
    obtain ⟨results, old, -⟩ := storeEmptyBuckets_frame cfg ix k (cfg.getRangeFor 0)
      (bucketsBetween cfg (cfg.getRangeFor 0) (cfg.getRangeFor (w + 1)))
    refine visited_putCurrent ?_ results old (singleton_exact cfg wrote fun m below _ => none_before m below)
    refine stored_storeEmptyBuckets stored fun n _ high => none_before n ?_
    rw [cfg.getRangeFor_eq, cfg.getRangeFor_eq (w + 1), cfg.bucketsBetween_eq, Nat.zero_div, Nat.sub_zero, Nat.zero_add] at high
    exact high.trans_le start
  | some result =>
    obtain ⟨range, seqnos⟩ := result
    simp only [there] at current
    obtain ⟨⟨m, visited, rfl⟩, exact, last⟩ := current
    simp only [visitEntry, there]
    split
    case isFalse same =>
      rw [not_not] at same
      refine visited_putCurrent stored rfl rfl fun n => ?_
      rw [Finset.mem_insert, exact, ← same]
      constructor
      · rintro (rfl | ⟨inside, below⟩)
        · exact ⟨Finset.mem_filter.mpr ⟨Finset.mem_Ico.mpr ⟨start, cfg.lt_getRangeFor _⟩, wrote⟩, le_rfl⟩
        · exact ⟨inside, below.trans (Nat.le_succ w)⟩
      · rintro ⟨inside, below⟩
        obtain rfl | less := below.eq_or_lt
        · exact .inl rfl
        · exact .inr ⟨inside, Nat.le_of_lt_succ less⟩
    case isTrue differs =>
      -- the old bucket lies before the new one, so all of it was visited
      have buckets : m / cfg.seqnosPerBucket < (w + 1) / cfg.seqnosPerBucket := by
        refine lt_of_le_of_ne (Nat.div_le_div_right (visited.trans (Nat.le_succ w))) fun same => differs ?_
        rw [cfg.getRangeFor_eq, cfg.getRangeFor_eq m, same]
      have before : (cfg.getRangeFor m).2 ≤ (cfg.getRangeFor (w + 1)).1 := bucket_lt cfg buckets
      have complete : seqnos = writesIn txs k (cfg.getRangeFor m) := by
        ext n
        refine (exact n).trans ⟨And.left, fun inside => ⟨inside, ?_⟩⟩
        have high := (Finset.mem_Ico.mp (Finset.mem_filter.mp inside).1).2
        omega
      obtain ⟨results, old, -⟩ := storeEmptyBuckets_frame cfg (ix.storeToDisk k (cfg.getRangeFor m) seqnos) k
        (cfg.getRangeFor (cfg.getRangeFor m).2)
        (bucketsBetween cfg (cfg.getRangeFor (cfg.getRangeFor m).2) (cfg.getRangeFor (w + 1)))
      refine visited_putCurrent ?_ results old (singleton_exact cfg wrote fun n below low written => ?_)
      · rw [cfg.getRangeFor_eq m, cfg.getRangeFor_bucket_end, cfg.getRangeFor_eq (w + 1), cfg.bucketsBetween_eq]
        refine stored_storeEmptyBuckets (stored_storeToDisk stored complete) fun n low high written => ?_
        rw [Nat.add_sub_cancel' (Nat.succ_le_of_lt buckets)] at high
        have late := last n (Nat.le_of_lt_succ (high.trans_le start)) written
        have next : (cfg.bucket (m / cfg.seqnosPerBucket + 1)).1 = (cfg.getRangeFor m).2 := Nat.succ_mul _ _
        omega
      · have late := last n (Nat.le_of_lt_succ below) written
        omega

theorem visited_keys (keys : List K) (distinct : keys.Nodup) (wrote : ∀ k ∈ keys, Wrote txs (w + 1) k) (stored : ix.Stored txs)
    (current : ∀ k, ix.Current cfg txs k w) :
    let iy := keys.foldl (visitEntry cfg (w + 1)) ix
    iy.Stored txs ∧ iy.oldResults = ix.oldResults ∧ (∀ k ∈ keys, iy.Current cfg txs k (w + 1)) ∧
      ∀ k ∉ keys, iy.currentResults k = ix.currentResults k := by
  induction keys using reverseRecOn with
  | nil => exact ⟨stored, rfl, fun _ member => (nomatch member), fun _ _ => rfl⟩
  | append_singleton keys k ih =>
    obtain ⟨first, -, apart⟩ := nodup_append.mp distinct
    have fresh : k ∉ keys := fun member => apart k member k (by simp) rfl
    obtain ⟨stored', old, done, others⟩ := ih first fun k member => wrote k (mem_append_left _ member)
    have visited := visited_visitEntry stored' (current_of_eq (others k fresh).symm (current k)) (wrote k (by simp))
    rw [foldl_append]
    refine ⟨visited.stored, visited.oldResults.trans old, fun other member => ?_, fun other absent => ?_⟩
    · by_cases same : other = k
      · exact same ▸ visited.current
      · have earlier : other ∈ keys := by simpa [same] using member
        exact current_of_eq (visited.others other same).symm (done other earlier)
    · have differs : other ≠ k := fun same => absent (by simp [same])
      exact (visited.others other differs).trans (others other fun member => absent (mem_append_left _ member))

theorem exact_handleCommittedTransaction (exact : ix.Exact cfg txs) :
    (ix.handleCommittedTransaction cfg txs ix.nextRequested).Exact cfg txs := by
  obtain ⟨stored, old, written, others⟩ := visited_keys (txs ix.nextRequested).1 (txs ix.nextRequested).2
    (fun k member => ⟨Nat.succ_pos _, member⟩) exact.stored exact.current
  refine ⟨fun k => ?_, stored, fun e member => exact.cached e (old ▸ member)⟩
  by_cases member : k ∈ (txs ix.nextRequested).1
  · exact written k member
  · exact current_succ (current_of_eq (others k member).symm (exact.current k)) fun wrote => member wrote.2

theorem exact_feed (exact : ix.Exact cfg txs) (stores : List Nat) :
    (stores.foldl (fun ix seqno => if seqno = ix.nextRequested then ix.handleCommittedTransaction cfg txs seqno else ix) ix).Exact
      cfg txs := by
  induction stores generalizing ix with
  | nil => exact exact
  | cons seqno rest ih =>
    rw [foldl_cons]
    split
    case isTrue next => exact ih (next ▸ exact_handleCommittedTransaction exact)
    case isFalse => exact ih exact

theorem exact_reset (exact : ix.Exact cfg txs) : ix.reset.Exact cfg txs where
  current k := by
    intro n below wrote
    exact absurd wrote.1 (Nat.le_zero.mp below).le.not_gt
  stored := exact.stored
  cached _ member := (nomatch member)

/-! Queries. -/

theorem mem_of_find (found : ix.find bucket = some value) : (bucket, value) ∈ ix.oldResults := by
  obtain ⟨e, there, rfl⟩ := map_eq_some_iff.mp found
  have same : e.1 = bucket := by simpa using find?_some there
  exact same ▸ mem_of_find?_eq_some there

theorem exact_setParsed (exact : ix.Exact cfg txs) (complete : seqnos = writesIn txs k range) :
    (ix.setParsed (k, range) seqnos).Exact cfg txs := by
  refine ⟨exact.current, exact.stored, fun e member => ?_⟩
  obtain ⟨before, there, rfl⟩ := List.mem_map.mp member
  split_ifs with same
  · exact complete
  · exact exact.cached before there

theorem exact_insert (exact : ix.Exact cfg txs) : (ix.insert cfg bucket .fetching).Exact cfg txs := by
  refine ⟨exact.current, exact.stored, fun e member => ?_⟩
  obtain rfl | older := mem_cons.mp (mem_of_mem_take member)
  · trivial
  · exact exact.cached e older

/-- What each outcome for a bucket means for the writes up to the watermark. -/
theorem visitBucket_spec (exact : ix.Exact cfg txs) (k : K) (b : Nat) :
    match ix.visitBucket cfg k (cfg.bucket b) with
    | .found seqnos iy => iy.Exact cfg txs ∧ iy.currentSeqno = ix.currentSeqno ∧
        ∀ n ≤ ix.currentSeqno, n ∈ seqnos ↔ n ∈ writesIn txs k (cfg.bucket b)
    | .pending iy => iy.Exact cfg txs ∧ iy.currentSeqno = ix.currentSeqno
    | .beyond => ∀ n ≤ ix.currentSeqno, (cfg.bucket b).1 ≤ n → ¬Wrote txs n k
    | .damaged => True := by
  have fetched (value : BucketValue) (found : ix.find (k, cfg.bucket b) = some value) := exact.cached _ (mem_of_find found)
  unfold visitBucket
  cases found : ix.find (k, cfg.bucket b) with
  | some value =>
    have cached := fetched value found
    cases value with
    | fetching => exact ⟨exact, rfl⟩
    | notFound | corrupt => trivial
    | loaded contents =>
      simp only at cached ⊢
      rw [cached]
      exact ⟨exact_setParsed exact rfl, rfl, fun _ _ => Iff.rfl⟩
    | parsed seqnos => exact ⟨exact, rfl, fun n _ => by rw [show seqnos = _ from cached]⟩
  | none =>
    have current := exact.current k
    unfold Current at current
    cases there : ix.currentResults k with
    | none =>
      simp only [there] at current ⊢
      exact fun n below _ => current n below
    | some result =>
      obtain ⟨range, seqnos⟩ := result
      simp only [there] at current ⊢
      obtain ⟨⟨m, -, rfl⟩, inMemory, last⟩ := current
      split_ifs with same earlier
      · refine ⟨exact, rfl, fun n below => ?_⟩
        rw [inMemory, same]
        exact and_iff_left below
      · intro n below low wrote
        have order : m / cfg.seqnosPerBucket < b := Nat.lt_of_mul_lt_mul_right earlier
        have bound : (cfg.getRangeFor m).2 ≤ (cfg.bucket b).1 := bucket_lt cfg order
        exact absurd (last n below wrote) (bound.trans low).not_gt
      · exact ⟨exact_insert exact, rfl⟩

def Answers (txs : Transactions K) (k : K) (first last : Nat) (result : Finset Nat) : Prop :=
  ∀ n, n ∈ result ↔ first ≤ n ∧ n ≤ last ∧ Wrote txs n k

def Built (cfg : Config) (txs : Transactions K) (k : K) (first last b : Nat) (complete : Bool) (result : Finset Nat) : Prop :=
  complete = true → ∀ n, n ∈ result ↔ first ≤ n ∧ n ≤ last ∧ n < (cfg.bucket b).1 ∧ Wrote txs n k

def Sound (cfg : Config) (txs : Transactions K) (k : K) (first last : Nat) (out : Option (Finset Nat) × Index K) : Prop :=
  out.2.Exact cfg txs ∧ ∀ result, out.1 = some result → Answers txs k first last result

theorem sound_finish (exact : ix.Exact cfg txs) (all : complete = true → Answers txs k first last result) :
    Sound cfg txs k first last (if complete then some result else none, ix) := by
  refine ⟨exact, fun answer answered => ?_⟩
  obtain ⟨done, same⟩ := ite_none_right_eq_some.mp answered
  exact some.inj same ▸ all done

theorem bucket_end (cfg : Config) (b : Nat) : (cfg.bucket b).2 = (cfg.bucket (b + 1)).1 := (Nat.succ_mul _ _).symm

theorem sound_visit (exact : ix.Exact cfg txs) (indexed : last ≤ ix.currentSeqno) (built : Built cfg txs k first last b complete result)
    (advance : Bool → Finset Nat → Index K → Option (Finset Nat) × Index K)
    (onward : ∀ complete result iy, iy.Exact cfg txs → iy.currentSeqno = ix.currentSeqno →
      Built cfg txs k first last (b + 1) complete result → Sound cfg txs k first last (advance complete result iy)) :
    Sound cfg txs k first last (match ix.visitBucket cfg k (cfg.bucket b) with
      | .found seqnos ix =>
        advance complete (if complete then result ∪ seqnos.filter (fun n => first ≤ n ∧ n ≤ last) else result) ix
      | .pending ix => advance false result ix
      | .beyond => (if complete then some result else none, ix)
      | .damaged => (none, ix.reset)) := by
  have spec := visitBucket_spec exact k b
  cases visited : ix.visitBucket cfg k (cfg.bucket b) with
  | found seqnos iy =>
    simp only [visited] at spec ⊢
    obtain ⟨exact', same, inBucket⟩ := spec
    refine onward _ _ _ exact' same fun done n => ?_
    have before := built done n
    rw [if_pos done, Finset.mem_union, Finset.mem_filter, before, ← bucket_end]
    constructor
    · rintro (⟨low, high, early, wrote⟩ | ⟨member, low, high⟩)
      · exact ⟨low, high, early.trans_le (Nat.le_add_right _ _), wrote⟩
      · obtain ⟨inside, wrote⟩ := Finset.mem_filter.mp ((inBucket n (high.trans indexed)).mp member)
        exact ⟨low, high, (Finset.mem_Ico.mp inside).2, wrote⟩
    · rintro ⟨low, high, early, wrote⟩
      by_cases here : (cfg.bucket b).1 ≤ n
      · have member : n ∈ writesIn txs k (cfg.bucket b) := Finset.mem_filter.mpr ⟨Finset.mem_Ico.mpr ⟨here, early⟩, wrote⟩
        exact .inr ⟨(inBucket n (high.trans indexed)).mpr member, low, high⟩
      · exact .inl ⟨low, high, not_le.mp here, wrote⟩
  | pending iy =>
    simp only [visited] at spec ⊢
    exact onward _ _ _ spec.1 spec.2 fun done => (nomatch done)
  | beyond =>
    simp only [visited] at spec ⊢
    refine sound_finish exact fun done n => (built done n).trans ?_
    refine and_congr_right fun _ => and_congr_right fun high => and_iff_right_of_imp fun wrote => ?_
    exact not_le.mp fun low => spec n (high.trans indexed) low wrote
  | damaged => exact ⟨exact_reset exact, fun _ answered => (nomatch answered)⟩

theorem sound_scan (exact : ix.Exact cfg txs) (indexed : last ≤ ix.currentSeqno) (remaining : Nat)
    (ends : b + remaining = last / cfg.seqnosPerBucket) (built : Built cfg txs k first last b complete result) :
    Sound cfg txs k first last (scan cfg k first last remaining (cfg.bucket b) complete result ix) := by
  induction remaining generalizing b complete result ix with
  | zero =>
    refine sound_visit exact indexed built (fun complete result ix => (if complete then some result else none, ix))
      fun complete result iy exact' same built' => ?_
    refine sound_finish exact' fun done n => (built' done n).trans ?_
    -- this bucket is the one of the end of the range
    have inside : last < (cfg.bucket (b + 1)).1 := by
      rw [← bucket_end, show b = last / cfg.seqnosPerBucket from ends]
      exact cfg.lt_getRangeFor last
    refine and_congr_right fun _ => and_congr_right fun high => and_iff_right_of_imp fun _ => high.trans_lt inside
  | succ remaining ih =>
    unfold scan
    have shifted : ((cfg.bucket b).1 + cfg.seqnosPerBucket, (cfg.bucket b).2 + cfg.seqnosPerBucket) = cfg.bucket (b + 1) := by
      simp only [Config.bucket, Nat.succ_mul]
    simp only [shifted]
    refine sound_visit exact indexed built (scan cfg k first last remaining (cfg.bucket (b + 1)))
      fun complete result iy exact' same built' => ?_
    exact ih exact' (same ▸ indexed) (by omega) built'

theorem sound_getWriteTxs (exact : ix.Exact cfg txs) (k : K) (first last : Nat) :
    (ix.getWriteTxs cfg k first last).2.Exact cfg txs ∧
      ∀ result, (ix.getWriteTxs cfg k first last).1 = .ok (some result) → Answers txs k first last result := by
  unfold getWriteTxs
  split_ifs with backwards ahead large
  · exact ⟨exact, fun _ answered => (nomatch answered)⟩
  · exact ⟨exact, fun _ answered => (nomatch Except.ok.inj answered)⟩
  · exact ⟨exact, fun _ answered => (nomatch answered)⟩
  have ordered : first / cfg.seqnosPerBucket ≤ last / cfg.seqnosPerBucket := Nat.div_le_div_right (not_lt.mp backwards)
  have start : Built cfg txs k first last (first / cfg.seqnosPerBucket) true ∅ := by
    intro _ n
    refine ⟨fun member => (nomatch member), fun ⟨low, _, early, _⟩ => ?_⟩
    exact absurd (low.trans_lt early) (cfg.getRangeFor_le first).not_gt
  have scanned := sound_scan exact (not_lt.mp ahead) (last / cfg.seqnosPerBucket - first / cfg.seqnosPerBucket)
    (Nat.add_sub_cancel' ordered) start
  simp only [cfg.getRangeFor_eq, cfg.bucketsBetween_eq]
  exact ⟨scanned.1, fun result answered => scanned.2 result (Except.ok.inj answered)⟩

end Index

namespace Indexer
variable {cfg : Config} {txs : Transactions K} {s t : Indexer K}

theorem exact_answer (answered : s.answer bucket reply = some t) (exact : s.index.Exact cfg txs) : t.index.Exact cfg txs := by
  obtain ⟨value, given, rfl⟩ := map_eq_some_iff.mp answered
  refine ⟨exact.current, exact.stored, fun e member => ?_⟩
  obtain ⟨before, there, rfl⟩ := List.mem_map.mp member
  have cached := exact.cached before there
  obtain ⟨key, old⟩ := before
  cases old with
  | fetching =>
    split_ifs with same
    · cases reply with
      | loaded =>
        obtain ⟨contents, stored, rfl⟩ := map_eq_some_iff.mp given
        exact exact.stored _ _ contents stored
      | notFound | corrupt =>
        obtain rfl := some.inj given
        trivial
    · trivial
  | loaded | parsed | notFound | corrupt => exact cached

theorem exact_step (moved : s.step cfg txs action = some t) (exact : s.index.Exact cfg txs) : t.index.Exact cfg txs := by
  cases action with
  | updateStrategies newlyCommitted otherRequests available =>
    obtain ⟨-, moved⟩ := ite_none_left_eq_some.mp moved
    split at moved
    · obtain rfl := some.inj moved
      exact Index.exact_feed exact _
    · obtain rfl := some.inj moved
      exact exact
  | query k first last =>
    obtain rfl := some.inj moved
    exact (Index.sound_getWriteTxs exact k first last).1
  | answer bucket reply => exact exact_answer moved exact

end Indexer

/-- In every run, a query that returns a value returns exactly the seqnos of its range
whose transaction wrote the key. -/
theorem query_exact (cfg : Config) (txs : Transactions K) (run : Lib.Run (Indexer.step cfg txs) {} trace s)
    (k : K) (first last : Nat) (returned : (s.index.getWriteTxs cfg k first last).1 = .ok (some result)) :
    ∀ n, n ∈ result ↔ first ≤ n ∧ n ≤ last ∧ Wrote txs n k := by
  have exact := run.invariant (fun s => s.index.Exact cfg txs)
    ⟨fun _ n below wrote => absurd wrote.1 (Nat.le_zero.mp below).le.not_gt, fun _ _ _ there => (nomatch there),
      fun _ member => (nomatch member)⟩
    fun _ _ _ exact moved => Indexer.exact_step moved exact
  exact (Index.sound_getWriteTxs exact k first last).2 result returned

def everyThird : Transactions Nat := fun n => if n % 3 = 0 then ⟨[0], by simp⟩ else ⟨[], by simp⟩

/-- Buckets of two seqnos: the first three are fetched from their files, two of them empty,
and the last one is in memory. -/
theorem query_exact_fetched : ∃ trace s, Lib.Run (Indexer.step ⟨2, 4, by decide⟩ everyThird) {} trace s ∧
    ∃ result, (s.index.getWriteTxs ⟨2, 4, by decide⟩ 0 1 6).1 = .ok (some result) ∧
      ∀ n, n ∈ result ↔ 1 ≤ n ∧ n ≤ 6 ∧ Wrote everyThird n 0 := by
  refine Lib.exists_run_of (P := fun _ s =>
    (s.index.getWriteTxs ⟨2, 4, Nat.two_pos⟩ 0 1 6).1.toOption.join.isSome = true)
    [.updateStrategies (2, 6) [] true, .query 0 1 6, .answer (0, (0, 2)) .loaded, .answer (0, (2, 4)) .loaded, .query 0 1 6,
      .answer (0, (4, 6)) .loaded] (by decide +kernel) ?_
  intro trace s run passed
  cases answered : (s.index.getWriteTxs ⟨2, 4, Nat.two_pos⟩ 0 1 6).1 with
  | error e => simp [answered, Except.toOption] at passed
  | ok result =>
    cases result with
    | none => simp [answered, Except.toOption] at passed
    | some result => exact ⟨result, rfl, query_exact ⟨2, 4, by decide⟩ everyThird run 0 1 6 answered⟩

end CCF.Indexing
