import ShardedCCF.Kv.Contents

/-! The roll of a map keeps the states that the map had at the versions that
can still be read or rolled back to. -/
namespace CCF.Kv
open List
open Std (ExtTreeMap)

variable {Name K V : Type} [LinearOrder K]

def Roll.stamps (roll : Roll K V) : List (Nat × State K V) := roll.commits.map fun c => (c.version, c.state)

/-- The stamps give the contents of the map at every version from the first one on. -/
structure Follows [Inhabited V] (stamps : List (Nat × State K V)) (history : List (Write K V)) : Prop where
  increasing : stamps.Pairwise fun p q => p.1 < q.1
  bounded : ∀ p ∈ stamps, p.1 ≤ history.length
  states : ∀ p ∈ stamps, p.2 = contents (history.take p.1)
  still : ∀ v, (∃ p ∈ stamps, p.1 < v) → v ≤ history.length → (∀ p ∈ stamps, p.1 ≠ v) →
    contents (history.take v) = contents (history.take (v - 1))

namespace Follows
variable [Inhabited V] {stamps : List (Nat × State K V)} {history : List (Write K V)}

theorem initial : Follows (Roll.initial : Roll K V).stamps [] := by
  constructor <;> simp [Roll.initial, Roll.stamps, Roll.commits]

/-- The last stamp up to a version has the contents at that version. -/
theorem state_eq (follows : Follows stamps history) (member : p ∈ stamps) (below : p.1 ≤ v)
    (inside : v ≤ history.length) (last : ∀ q ∈ stamps, q.1 ≤ v → q.1 ≤ p.1) :
    p.2 = contents (history.take v) := by
  rw [follows.states p member]
  -- Nothing is committed between the stamp and the version.
  obtain ⟨n, rfl⟩ := Nat.exists_eq_add_of_le below
  clear below
  induction n with
  | zero => rfl
  | succ n ih =>
    have earlier := ih (by omega) (fun q known bound => last q known (by omega))
    have apart : ∀ q ∈ stamps, q.1 ≠ p.1 + (n + 1) := by
      intro q known same
      have := last q known (by omega)
      omega
    rw [earlier, follows.still (p.1 + (n + 1)) ⟨p, member, by omega⟩ inside apart]
    rfl

theorem suffix (follows : Follows (dropped ++ kept) history) : Follows kept history := by
  obtain ⟨_, increasing, apart⟩ := pairwise_append.mp follows.increasing
  constructor
  · exact increasing
  · exact fun p member => follows.bounded p (mem_append_right _ member)
  · exact fun p member => follows.states p (mem_append_right _ member)
  · rintro v ⟨p, member, below⟩ inside free
    refine follows.still v ⟨p, mem_append_right _ member, below⟩ inside fun q known => ?_
    rcases mem_append.mp known with before | after
    · have := apart q before p member
      omega
    · exact free q after

theorem rollback (follows : Follows stamps history) (inside : v ≤ history.length) :
    Follows (stamps.filter fun p => p.1 ≤ v) (history.take v) := by
  constructor
  · exact follows.increasing.filter _
  · intro p member
    simp only [mem_filter, decide_eq_true_eq] at member
    simp only [length_take]
    omega
  · intro p member
    simp only [mem_filter, decide_eq_true_eq] at member
    rw [follows.states p member.1, take_take, Nat.min_eq_left member.2]
  · rintro w ⟨p, member, below⟩ bounded free
    simp only [mem_filter, decide_eq_true_eq] at member
    rw [length_take] at bounded
    rw [take_take, take_take, Nat.min_eq_left (by omega), Nat.min_eq_left (by omega)]
    refine follows.still w ⟨p, member.1, below⟩ (by omega) fun q known same => ?_
    exact free q (mem_filter.mpr ⟨known, by simp; omega⟩) same

theorem idle (follows : Follows stamps history) (same : contents (history ++ [writes]) = contents history) :
    Follows stamps (history ++ [writes]) := by
  have kept : ∀ v ≤ history.length, (history ++ [writes]).take v = history.take v :=
    fun v => take_append_of_le_length
  constructor
  · exact follows.increasing
  · intro p member
    exact Nat.le_trans (follows.bounded p member) (by simp)
  · intro p member
    rw [kept _ (follows.bounded p member), follows.states p member]
  · intro v later inside free
    rw [length_append, length_singleton] at inside
    rcases Nat.lt_or_ge history.length v with new | old
    · obtain rfl : v = history.length + 1 := by omega
      rw [take_of_length_le (by simp), Nat.add_sub_cancel, kept _ (Nat.le_refl _), take_length, same]
    · rw [kept v old, kept (v - 1) (by omega)]
      exact follows.still v later old free

theorem snoc (follows : Follows stamps history) :
    Follows (stamps ++ [(history.length + 1, contents (history ++ [writes]))]) (history ++ [writes]) := by
  have kept : ∀ v ≤ history.length, (history ++ [writes]).take v = history.take v :=
    fun v => take_append_of_le_length
  constructor
  · refine pairwise_append.mpr ⟨follows.increasing, pairwise_singleton _ _, ?_⟩
    intro p member q new
    obtain rfl := mem_singleton.mp new
    exact Nat.lt_succ_of_le (follows.bounded p member)
  · intro p member
    rcases mem_append.mp member with old | new
    · exact Nat.le_trans (follows.bounded p old) (by simp)
    · obtain rfl := mem_singleton.mp new
      simp
  · intro p member
    rcases mem_append.mp member with old | new
    · rw [kept _ (follows.bounded p old), follows.states p old]
    · obtain rfl := mem_singleton.mp new
      rw [take_of_length_le (by simp)]
  · rintro v ⟨p, member, below⟩ inside free
    have notNew : v ≠ history.length + 1 := fun same =>
      free _ (mem_append_right _ (mem_singleton_self _)) same.symm
    rw [length_append, length_singleton] at inside
    rw [kept v (by omega), kept (v - 1) (by omega)]
    refine follows.still v ⟨p, ?_, below⟩ (by omega) fun q known => free q (mem_append_left _ known)
    rcases mem_append.mp member with old | new
    · exact old
    · obtain rfl := mem_singleton.mp new
      omega

end Follows

namespace Roll

section
variable (roll : Roll K V)

theorem stamps_push (c : LocalCommit K V) : (roll.push c).stamps = roll.stamps ++ [(c.version, c.state)] := by
  simp [stamps, push, commits]

theorem commits_eq_snoc : roll.commits = roll.commits.dropLast ++ [roll.tail] := by
  have nonempty : roll.commits ≠ [] := by simp [commits]
  have last : roll.commits.getLast nonempty = roll.tail := by
    obtain ⟨head, rest, counter⟩ := roll
    cases rest with
    | nil => rfl
    | cons c cs => simp [commits, tail, getLastD_eq_getLast?, getLast?_eq_some_getLast]
  rw [← last, dropLast_append_getLast]

theorem getLast?_stamps : roll.stamps.getLast? = some (roll.tail.version, roll.tail.state) := by
  rw [stamps, commits_eq_snoc]
  simp

theorem tail_mem : (roll.tail.version, roll.tail.state) ∈ roll.stamps :=
  mem_of_getLast? roll.getLast?_stamps

theorem head_mem : (roll.head.version, roll.head.state) ∈ roll.stamps := by
  simp [stamps, commits]

end

theorem le_tail {roll : Roll K V} (increasing : roll.stamps.Pairwise fun p q => p.1 < q.1)
    (member : p ∈ roll.stamps) : p.1 ≤ roll.tail.version := by
  rw [stamps, commits_eq_snoc, map_append] at increasing member
  rcases mem_append.mp member with before | last
  · exact Nat.le_of_lt ((pairwise_append.mp increasing).2.2 p before
      (roll.tail.version, roll.tail.state) (by simp))
  · obtain rfl := mem_singleton.mp last
    exact Nat.le_refl _

theorem head_le {roll : Roll K V} (increasing : roll.stamps.Pairwise fun p q => p.1 < q.1)
    (member : p ∈ roll.stamps) : roll.head.version ≤ p.1 := by
  rcases mem_cons.mp member with rfl | later
  · exact Nat.le_refl _
  · exact Nat.le_of_lt (rel_of_pairwise_cons increasing later)

theorem lastAt_spec {roll : Roll K V} (increasing : roll.stamps.Pairwise fun p q => p.1 < q.1)
    (found : roll.lastAt v = some c) :
    (c.version, c.state) ∈ roll.stamps ∧ c.version ≤ v ∧ ∀ p ∈ roll.stamps, p.1 ≤ v → p.1 ≤ c.version := by
  rw [lastAt, find?_eq_some_iff_append] at found
  obtain ⟨below, later, earlier, split, above⟩ := found
  have order : roll.commits = earlier.reverse ++ c :: later.reverse := by
    rw [← reverse_reverse roll.commits, split]
    simp
  rw [stamps, order, map_append, map_cons] at increasing ⊢
  refine ⟨by simp, by simpa using below, fun p member bounded => ?_⟩
  rcases mem_append.mp member with before | rest
  · exact Nat.le_of_lt ((pairwise_append.mp increasing).2.2 p before _ mem_cons_self)
  rcases mem_cons.mp rest with rfl | after
  · exact Nat.le_refl _
  obtain ⟨d, known, rfl⟩ := List.mem_map.mp after
  have := above d (mem_reverse.mp known)
  simp only [Bool.not_eq_true', decide_eq_false_iff_not] at this
  exact absurd bounded this

end Roll

theorem rdropWhile_eq_filter {commits : List (LocalCommit K V)}
    (increasing : (commits.map fun c => c.version).Pairwise (· < ·)) :
    (commits.rdropWhile fun c => v < c.version) = commits.filter fun c => c.version ≤ v := by
  induction commits using reverseRecOn with
  | nil => simp
  | append_singleton commits c ih =>
    rw [map_append, pairwise_append] at increasing
    by_cases above : v < c.version
    · rw [rdropWhile_concat_pos _ _ _ (by simpa using above), ih increasing.1, filter_append]
      simp [above]
    rw [rdropWhile_concat_neg _ _ _ (by simpa using above), eq_comm, filter_eq_self]
    intro d member
    rcases mem_append.mp member with before | last
    · have := increasing.2.2 d.version (List.mem_map_of_mem before) c.version (by simp)
      simp only [decide_eq_true_eq]
      omega
    · obtain rfl := mem_singleton.mp last
      simpa using above

theorem KvMap.stamps_rollback {m : KvMap Name K V}
    (increasing : m.roll.stamps.Pairwise fun p q => p.1 < q.1)
    (kept : m.roll.head.version ≤ v) :
    (m.rollback v).roll.stamps = m.roll.stamps.filter fun p => p.1 ≤ v := by
  have versions : (m.roll.rest.map fun c => c.version).Pairwise (· < ·) := by
    simp only [Roll.stamps, Roll.commits, map_cons, pairwise_cons, pairwise_map] at increasing
    exact pairwise_map.mpr increasing.2
  simp only [rollback, Roll.stamps, Roll.commits, rdropWhile_eq_filter versions, map_cons,
    filter_cons, kept, decide_true, if_true, List.filter_map]
  rfl

/-- If a rollback removes nothing, the roll is unchanged; else its counter moves. -/
theorem KvMap.rollback_cases (m : KvMap Name K V) (v : Nat) :
    m.rollback v = m ∨ (m.rollback v).roll.rollbackCounter = m.roll.rollbackCounter + 1 := by
  unfold rollback
  dsimp only
  split
  case isTrue => exact .inr rfl
  case isFalse same =>
    have whole : (m.roll.rest.rdropWhile fun c => v < c.version) = m.roll.rest :=
      ( rdropWhile_prefix _ _).eq_of_length_le (Nat.le_of_not_lt same)
    left
    rw [whole]
    rfl

section Compaction
variable (hook : Bool) (v : Nat)

@[simp] theorem KvMap.moveWrites_version (c : LocalCommit K V) : (moveWrites hook c).1.version = c.version := by
  cases hook <;> rfl

@[simp] theorem KvMap.moveWrites_state (c : LocalCommit K V) : (moveWrites hook c).1.state = c.state := by
  cases hook <;> rfl

theorem KvMap.compactRoll_stamps (head : LocalCommit K V) (rest : List (LocalCommit K V)) :
    ∃ dropped, ((head :: rest).map fun c => (c.version, c.state)) =
      dropped ++ (((compactRoll hook v head rest).1 :: (compactRoll hook v head rest).2.1).map
        fun c => (c.version, c.state)) := by
  induction rest generalizing head with
  | nil => exact ⟨[], by simp [compactRoll]⟩
  | cons next rest ih =>
    unfold compactRoll
    split
    case isTrue => exact ⟨[], by simp⟩
    case isFalse =>
      dsimp only
      split
      case isTrue => exact ⟨[], by simp⟩
      case isFalse =>
        obtain ⟨dropped, split⟩ := ih next
        exact ⟨(head.version, head.state) :: dropped, by rw [map_cons, split]; rfl⟩

theorem KvMap.compactRoll_head (head : LocalCommit K V) (rest : List (LocalCommit K V))
    (increasing : ((head :: rest).map fun c => c.version).Pairwise (· < ·)) (reached : head.version ≤ v) :
    (compactRoll hook v head rest).1.version ≤ v ∧
      ∀ c ∈ (compactRoll hook v head rest).2.1, v < c.version := by
  induction rest generalizing head with
  | nil => simpa [compactRoll] using reached
  | cons next rest ih =>
    rw [map_cons, pairwise_cons] at increasing
    unfold compactRoll
    split
    case isTrue same =>
      simp only [moveWrites_version]
      exact ⟨reached, fun c member => same ▸ increasing.1 _ (List.mem_map_of_mem member)⟩
    case isFalse =>
      dsimp only
      split
      case isTrue above =>
        simp only [moveWrites_version]
        refine ⟨reached, fun c member => ?_⟩
        rcases mem_cons.mp member with rfl | later
        · exact above
        · exact Nat.lt_trans above (rel_of_pairwise_cons increasing.2 (List.mem_map_of_mem later))
      case isFalse notAbove => exact ih next increasing.2 (Nat.le_of_not_lt notAbove)

theorem KvMap.compact_tail (m : KvMap Name K V) :
    (m.compact v).roll.tail.version = m.roll.tail.version ∧
      (m.compact v).roll.tail.state = m.roll.tail.state := by
  obtain ⟨dropped, split⟩ := compactRoll_stamps m.globalHook v m.roll.head m.roll.rest
  have stamps : m.roll.stamps = dropped ++ (m.compact v).roll.stamps := split
  have last := congrArg List.getLast? stamps
  rw [getLast?_append, Roll.getLast?_stamps, Roll.getLast?_stamps, Option.some_or, Option.some.injEq,
    Prod.mk.injEq] at last
  exact ⟨last.1.symm, last.2.symm⟩

end Compaction

section Frame
variable [Inhabited V] (m : KvMap Name K V) (cs : ChangeSet K V) (v : Nat)

theorem KvMap.commit_cases : m.commit cs v = m ∨
    m.commit cs v =
      { m with roll := m.roll.push ⟨v, applyWrites v m.roll.tail.state cs.writes, cs.writes⟩ } := by
  unfold commit
  split
  · exact .inl rfl
  split
  · exact .inr rfl
  · exact .inl rfl

@[simp] theorem KvMap.commit_name : (m.commit cs v).name = m.name := by
  rcases m.commit_cases cs v with same | pushed <;> simp [*]

@[simp] theorem KvMap.commit_globalHook : (m.commit cs v).globalHook = m.globalHook := by
  rcases m.commit_cases cs v with same | pushed <;> simp [*]

@[simp] theorem KvMap.commit_head : (m.commit cs v).roll.head = m.roll.head := by
  rcases m.commit_cases cs v with same | pushed <;> simp [*, Roll.push]

@[simp] theorem KvMap.commit_rollbackCounter :
    (m.commit cs v).roll.rollbackCounter = m.roll.rollbackCounter := by
  rcases m.commit_cases cs v with same | pushed <;> simp [*, Roll.push]

theorem KvMap.commit_rest (member : c ∈ (m.commit cs v).roll.rest) : c ∈ m.roll.rest ∨ c.version = v := by
  rcases m.commit_cases cs v with same | pushed
  · rw [same] at member
    exact .inl member
  · simp only [pushed, Roll.push, mem_append, mem_singleton] at member
    exact member.imp_right fun new => by rw [new]

theorem KvMap.stamps_commit (member : p ∈ m.roll.stamps) : p ∈ (m.commit cs v).roll.stamps := by
  rcases m.commit_cases cs v with same | pushed
  · rwa [same]
  · rw [pushed, Roll.stamps_push]
    exact mem_append_left _ member

theorem KvMap.commit_keys (member : k ∈ m.roll.tail.state) : k ∈ (m.commit cs v).roll.tail.state := by
  rcases m.commit_cases cs v with same | pushed
  · rwa [same]
  · rw [pushed]
    simpa [Roll.push, Roll.tail] using mem_applyWrites v cs.writes member

end Frame

section Operations
variable [Inhabited V] {m : KvMap Name K V} {history : List (Write K V)}

section
variable (follows : Follows m.roll.stamps history)
include follows

theorem Follows.tail_state : m.roll.tail.state = contents history := by
  have last := follows.state_eq m.roll.tail_mem (follows.bounded _ m.roll.tail_mem) (Nat.le_refl _)
    (fun q known _ => Roll.le_tail follows.increasing known)
  rwa [take_length] at last

theorem Follows.lastAt_state (found : m.roll.lastAt v = some c) (inside : v ≤ history.length) :
    c.state = contents (history.take v) := by
  obtain ⟨member, below, last⟩ := Roll.lastAt_spec follows.increasing found
  exact follows.state_eq member below inside last

/-- A commit extends the history by its writes, also if they change nothing. -/
theorem Follows.commit (cs : ChangeSet K V) :
    Follows (m.commit cs (history.length + 1)).roll.stamps (history ++ [cs.writes]) := by
  unfold KvMap.commit
  split
  case isTrue empty =>
    rw [ExtTreeMap.isEmpty_iff.mp empty]
    exact follows.idle (contents_snoc_empty history)
  case isFalse =>
    split
    case isTrue =>
      rw [Roll.stamps_push, follows.tail_state]
      rw [← contents_snoc]
      exact follows.snoc
    case isFalse unchanged =>
      rw [Bool.not_eq_true, follows.tail_state] at unchanged
      exact follows.idle (by rw [contents_snoc, applyWrites_of_unchanged _ unchanged])

theorem Follows.rollback_map (kept : m.roll.head.version ≤ v) (inside : v ≤ history.length) :
    Follows (m.rollback v).roll.stamps (history.take v) := by
  rw [m.stamps_rollback follows.increasing kept]
  exact follows.rollback inside

theorem Follows.compact (v : Nat) : Follows (m.compact v).roll.stamps history := by
  obtain ⟨dropped, split⟩ := KvMap.compactRoll_stamps m.globalHook v m.roll.head m.roll.rest
  rw [Roll.stamps, Roll.commits, split] at follows
  exact follows.suffix

/-- After a compaction the first state of the roll is the one at its version. -/
theorem Follows.compact_head (reached : m.roll.head.version ≤ v) (inside : v ≤ history.length) :
    (m.compact v).roll.head.version ≤ v ∧ (m.compact v).roll.head.state = contents (history.take v) := by
  have increasing : ((m.roll.head :: m.roll.rest).map fun c => c.version).Pairwise (· < ·) := by
    have := follows.increasing
    rw [Roll.stamps, pairwise_map] at this
    exact pairwise_map.mpr this
  obtain ⟨below, above⟩ := KvMap.compactRoll_head m.globalHook v _ _ increasing reached
  refine ⟨below, (follows.compact v).state_eq (m.compact v).roll.head_mem below inside fun p member bounded => ?_⟩
  rcases mem_cons.mp member with rfl | later
  · exact Nat.le_refl _
  · obtain ⟨c, known, rfl⟩ := List.mem_map.mp later
    exact absurd (above c known) (Nat.not_lt.mpr bounded)

end

end Operations
end CCF.Kv
