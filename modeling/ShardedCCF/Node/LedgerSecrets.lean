import ShardedCCF.Lib.Run
import ShardedCCF.Lib.Versioned

/-! `LedgerSecrets` of one node: the secrets by the version they apply from, the
iterator on the last used one, and what the store does to them. A rekey adds a secret
for the version after it; a rollback of the store drops secrets. -/
namespace CCF
open List
open Lib (Increasing atOrBelow emplace)

variable {Key : Type}

structure LedgerSecrets (Key : Type) where
  ledgerSecrets : List (Nat × Key)
  initialLatestLedgerSecretVersion : Nat
  lastUsedSecret : Option Nat := none

namespace LedgerSecrets

/-- On the fast path the iterator moves by one secret at most. -/
def getSecretForVersion (l : LedgerSecrets Key) (version : Nat) : Option Key × LedgerSecrets Key :=
  match l.lastUsedSecret with
  | some used =>
    let used :=
      match l.ledgerSecrets.find? fun secret => used < secret.1 with
      | some next => if next.1 ≤ version then next.1 else used
      | none => used
    ((l.ledgerSecrets.find? fun secret => secret.1 = used).map (·.2), { l with lastUsedSecret := some used })
  | none =>
    match atOrBelow l.ledgerSecrets version with
    | none => (none, l)
    | some secret => (some secret.2, { l with lastUsedSecret := some secret.1 })

/-- A secret that is there already stays. -/
def setSecret (l : LedgerSecrets Key) (version : Nat) (secret : Key) : LedgerSecrets Key :=
  { l with ledgerSecrets := emplace l.ledgerSecrets version secret }

/-- The loop of a rollback, on the secrets from the latest to the first. -/
def eraseLatest (version initialLatest : Nat) : List (Nat × Key) → List (Nat × Key)
  | latest :: previous :: rest =>
    if latest.1 ≤ version ∨ latest.1 ≤ initialLatest then latest :: previous :: rest
    else eraseLatest version initialLatest (previous :: rest)
  | secrets => secrets

def rollback (l : LedgerSecrets Key) (version : Nat) : LedgerSecrets Key :=
  match l.ledgerSecrets with
  | [] => l
  | first :: _ =>
    if version < first.1 then l
    else
      { l with
        ledgerSecrets :=
          (eraseLatest version l.initialLatestLedgerSecretVersion l.ledgerSecrets.reverse).reverse
        lastUsedSecret := none }

/-- The iterator stands on the secret of the version, if it stands anywhere. -/
def UsedAt (l : LedgerSecrets Key) (version : Nat) : Prop :=
  ∀ used, l.lastUsedSecret = some used → ∃ key, atOrBelow l.ledgerSecrets version = some (used, key)

/-- When versions are used in order, the iterator always finds the right secret. -/
theorem getSecretForVersion_spec {l : LedgerSecrets Key} (increasing : Increasing l.ledgerSecrets)
    (usedAt : l.UsedAt version) :
    (l.getSecretForVersion (version + 1)).1 = (atOrBelow l.ledgerSecrets (version + 1)).map (·.2) ∧
      ∃ used, (l.getSecretForVersion (version + 1)).2 = { l with lastUsedSecret := used } ∧
        (l.getSecretForVersion (version + 1)).2.UsedAt (version + 1) := by
  unfold getSecretForVersion
  cases iterator : l.lastUsedSecret with
  | none =>
    dsimp only
    cases found : atOrBelow l.ledgerSecrets (version + 1) with
    | none => exact ⟨rfl, none, by rw [← iterator], fun used same => by simp [iterator] at same⟩
    | some secret => exact ⟨rfl, some secret.1, rfl, fun used same => by cases same; exact ⟨secret.2, found⟩⟩
  | some used =>
    obtain ⟨key, current⟩ := usedAt used iterator
    obtain ⟨member, below, highest⟩ := increasing.atOrBelow_eq_some.mp current
    -- The secret of the next version is the one after the iterator or the same.
    obtain ⟨secret, chosen, there, next⟩ : ∃ secret : Nat × Key,
        (match l.ledgerSecrets.find? fun secret => used < secret.1 with
          | some next => if next.1 ≤ version + 1 then next.1 else used
          | none => used) = secret.1 ∧ secret ∈ l.ledgerSecrets ∧
        atOrBelow l.ledgerSecrets (version + 1) = some secret := by
      cases found : l.ledgerSecrets.find? fun secret => used < secret.1 with
      | none =>
        refine ⟨(used, key), rfl, member, increasing.atOrBelow_eq_some.mpr ⟨member, by simp at below ⊢; omega, fun other there _ => ?_⟩⟩
        simpa using find?_eq_none.mp found other there
      | some next =>
        have there := mem_of_find?_eq_some found
        have above : used < next.1 := by simpa using find?_some found
        by_cases reached : next.1 ≤ version + 1
        · refine ⟨next, if_pos reached, there, increasing.atOrBelow_eq_some.mpr ⟨there, reached, fun other inside low => ?_⟩⟩
          by_contra higher
          have := highest next there
          omega
        refine ⟨(used, key), if_neg reached, member,
          increasing.atOrBelow_eq_some.mpr ⟨member, by simp at below ⊢; omega, fun other inside low => ?_⟩⟩
        by_contra higher
        have := increasing.find?_above_le found inside (by simpa using higher)
        omega
    dsimp only
    rw [chosen, increasing.find?_key there, next]
    exact ⟨rfl, some secret.1, rfl, fun used same => by cases same; exact ⟨secret.2, next⟩⟩

theorem eraseLatest_of_le {secrets : List (Nat × Key)}
    (kept : ∀ latest ∈ secrets.head?, latest.1 ≤ version ∨ latest.1 ≤ initialLatest) :
    eraseLatest version initialLatest secrets = secrets := by
  match secrets, kept with
  | [], _ | [_], _ => rfl
  | latest :: previous :: rest, kept => rw [eraseLatest, if_pos (kept latest rfl)]

theorem eraseLatest_append {initial later : List (Nat × Key)} (nonempty : initial ≠ [])
    (initial_le : ∀ secret ∈ initial, secret.1 ≤ initialLatest) (above : ∀ secret ∈ later, initialLatest < secret.1)
    (increasing : Increasing later) :
    (eraseLatest version initialLatest (initial ++ later).reverse).reverse =
      initial ++ later.filter fun secret => secret.1 ≤ version := by
  induction later using reverseRecOn with
  | nil =>
    rw [append_nil, eraseLatest_of_le]
    · simp
    · intro latest first
      exact .inr (initial_le latest (mem_reverse.mp (mem_of_mem_head? first)))
  | append_singleton later latest ih =>
    obtain ⟨earlier, -, below⟩ := Increasing.append_iff.mp increasing
    have ih := ih (fun secret member => above secret (mem_append_left _ member)) earlier
    have late := above latest (by simp)
    obtain ⟨previous, rest, shape⟩ : ∃ previous rest, (initial ++ later).reverse = previous :: rest :=
      exists_cons_of_ne_nil (by simp [nonempty])
    rw [← append_assoc, reverse_append, reverse_singleton, singleton_append]
    by_cases inside : latest.1 ≤ version
    · have all : (later ++ [latest]).filter (fun secret => secret.1 ≤ version) = later ++ [latest] := by
        refine filter_eq_self.mpr fun secret member => ?_
        obtain old | rfl : secret ∈ later ∨ secret = latest := by simpa using member
        · exact decide_eq_true ((below secret old latest (by simp)).le.trans inside)
        · exact decide_eq_true inside
      rw [eraseLatest_of_le fun first same => ?_]
      · simp [all]
      · cases same
        exact .inl inside
    · rw [shape, eraseLatest, if_neg (by omega), ← shape, ih]
      simp [filter_append, inside]

end LedgerSecrets

/-- The store and the secrets of a node. Of the transactions in the store, those that
rekeyed the ledger are kept, with their secrets. -/
structure KeyedStore (Key : Type) where
  secrets : LedgerSecrets Key
  version : Nat
  compacted : Nat := 0
  rekeys : List (Nat × Key) := []

namespace KeyedStore

inductive Action (Key : Type) where
  | commit
  /-- The hook of the secrets table runs before the entry is encrypted on a primary,
  and after it was decrypted on a backup. -/
  | rekey (secret : Key) (primary : Bool)
  | compact (version : Nat)
  | rollback (version : Nat)

def useSecret (s : KeyedStore Key) (version : Nat) : KeyedStore Key :=
  { s with secrets := (s.secrets.getSecretForVersion version).2 }

def runHook (s : KeyedStore Key) (version : Nat) (secret : Key) : KeyedStore Key :=
  { s with secrets := s.secrets.setSecret (version + 1) secret, rekeys := s.rekeys ++ [(version, secret)] }

/-- The secrets of the service at the time it joined are those that a node starts
with, so a rekey that has a secret for it comes after them. -/
def step (s : KeyedStore Key) : Action Key → Option (KeyedStore Key)
  | .commit => some { s.useSecret (s.version + 1) with version := s.version + 1 }
  | .rekey secret primary =>
    if s.secrets.initialLatestLedgerSecretVersion ≤ s.version + 1 then
      let s' :=
        if primary then (s.runHook (s.version + 1) secret).useSecret (s.version + 1)
        else (s.useSecret (s.version + 1)).runHook (s.version + 1) secret
      some { s' with version := s.version + 1 }
    else none
  | .compact version => if s.compacted ≤ version ∧ version ≤ s.version then some { s with compacted := version } else none
  | .rollback version =>
    if version < s.compacted then none
    else if s.version ≤ version then some s
    else
      some { s with
        version
        secrets := s.secrets.rollback version
        rekeys := s.rekeys.filter fun rekey => rekey.1 ≤ version }

def secretOf (rekey : Nat × Key) : Nat × Key := (rekey.1 + 1, rekey.2)

structure Start (initial : List (Nat × Key)) (s : KeyedStore Key) : Prop where
  secrets : s.secrets.ledgerSecrets = initial
  increasing : Increasing initial
  latest : initial.getLast?.map (·.1) = some s.secrets.initialLatestLedgerSecretVersion
  unused : s.secrets.lastUsedSecret = none
  rekeys : s.rekeys = []

/-- A rollback leaves the first secret alone and does not end right after a rekey. -/
def KeepsBoundary (s : KeyedStore Key) : Action Key → Prop
  | .rollback version => s.version ≤ version ∨
      (∀ first ∈ s.secrets.ledgerSecrets.head?, first.1 ≤ version) ∧ ∀ rekey ∈ s.rekeys, rekey.1 ≠ version
  | _ => True

instance (s : KeyedStore Key) : (a : Action Key) → Decidable (s.KeepsBoundary a)
  | .rollback _ => inferInstanceAs (Decidable (_ ∨ _))
  | .commit | .rekey _ _ | .compact _ => isTrue trivial

structure Follows (initial : List (Nat × Key)) (s : KeyedStore Key) : Prop where
  secrets : s.secrets.ledgerSecrets = initial ++ s.rekeys.map secretOf
  nonempty : initial ≠ []
  increasing : Increasing s.secrets.ledgerSecrets
  initial_le : ∀ secret ∈ initial, secret.1 ≤ s.secrets.initialLatestLedgerSecretVersion
  later : ∀ rekey ∈ s.rekeys, s.secrets.initialLatestLedgerSecretVersion ≤ rekey.1 ∧ rekey.1 ≤ s.version
  usedAt : s.secrets.UsedAt s.version

namespace Follows
variable {initial : List (Nat × Key)} {s t : KeyedStore Key}

theorem start (start : Start initial s) : Follows initial s where
  secrets := by simp [start.secrets, start.rekeys]
  nonempty := by
    rintro rfl
    simpa using start.latest
  increasing := start.secrets ▸ start.increasing
  initial_le secret member := by
    obtain ⟨last, found, same⟩ := Option.map_eq_some_iff.mp start.latest
    exact same ▸ start.increasing.le_getLast? found member
  later := by simp [start.rekeys]
  usedAt used same := by simp [start.unused] at same

section
variable (follows : Follows initial s)
include follows

theorem use : Follows initial { s.useSecret (s.version + 1) with version := s.version + 1 } := by
  obtain ⟨-, used, same, usedAt⟩ := LedgerSecrets.getSecretForVersion_spec follows.increasing follows.usedAt
  have moved : s.useSecret (s.version + 1) = { s with secrets := { s.secrets with lastUsedSecret := used } } := by
    rw [useSecret, same]
  rw [moved]
  exact ⟨follows.secrets, follows.nonempty, follows.increasing, follows.initial_le,
    fun rekey member => ⟨(follows.later rekey member).1, (follows.later rekey member).2.trans (Nat.le_succ _)⟩,
    by simpa [same] using usedAt⟩

theorem hook (joined : s.secrets.initialLatestLedgerSecretVersion ≤ v) (version : s.version = v ∨ s.version + 1 = v)
    (secret : Key) (fresh : ∀ rekey ∈ s.rekeys, rekey.1 < v) : let s' := s.runHook v secret
    s'.secrets.ledgerSecrets = initial ++ s'.rekeys.map secretOf ∧ Increasing s'.secrets.ledgerSecrets ∧
      s'.secrets.UsedAt s.version := by
  have below (known : Nat × Key) (member : known ∈ s.secrets.ledgerSecrets) : known.1 < v + 1 := by
    rw [follows.secrets] at member
    obtain old | new := mem_append.mp member
    · exact Nat.lt_succ_of_le ((follows.initial_le known old).trans joined)
    · obtain ⟨rekey, there, rfl⟩ := List.mem_map.mp new
      exact Nat.succ_lt_succ (fresh rekey there)
  have added : (s.runHook v secret).secrets.ledgerSecrets = s.secrets.ledgerSecrets ++ [(v + 1, secret)] :=
    Lib.emplace_of_lt below secret
  refine ⟨?_, ?_, fun used same => ?_⟩
  · rw [added, follows.secrets]
    simp [runHook, secretOf]
  · rw [added]
    exact Increasing.append_iff.mpr ⟨follows.increasing, pairwise_singleton _ _, by simpa using fun n k => below (n, k)⟩
  · rw [added, Lib.atOrBelow_append_above (by simp; omega)]
    exact follows.usedAt used same

section
variable (joined : s.secrets.initialLatestLedgerSecretVersion ≤ s.version + 1)
include joined

theorem later_hook (secret : Key) (member : rekey ∈ s.rekeys ++ [(s.version + 1, secret)]) :
    s.secrets.initialLatestLedgerSecretVersion ≤ rekey.1 ∧ rekey.1 ≤ s.version + 1 := by
  obtain old | rfl : rekey ∈ s.rekeys ∨ rekey = (s.version + 1, secret) := by simpa using member
  · exact ⟨(follows.later rekey old).1, (follows.later rekey old).2.trans (Nat.le_succ _)⟩
  · exact ⟨joined, le_rfl⟩

theorem rekey_primary (secret : Key) :
    Follows initial { (s.runHook (s.version + 1) secret).useSecret (s.version + 1) with version := s.version + 1 } := by
  obtain ⟨secrets, increasing, usedAt⟩ := follows.hook joined (.inr rfl) secret
    fun rekey member => Nat.lt_succ_of_le (follows.later rekey member).2
  obtain ⟨-, used, same, usedAt⟩ := LedgerSecrets.getSecretForVersion_spec increasing usedAt
  have moved : (s.runHook (s.version + 1) secret).useSecret (s.version + 1) =
      { s.runHook (s.version + 1) secret with
        secrets := { (s.runHook (s.version + 1) secret).secrets with lastUsedSecret := used } } := by
    rw [useSecret, same]
  rw [moved]
  exact ⟨secrets, follows.nonempty, increasing, follows.initial_le, fun rekey => follows.later_hook joined secret,
    by simpa [same] using usedAt⟩

theorem rekey_backup (secret : Key) :
    Follows initial { (s.useSecret (s.version + 1)).runHook (s.version + 1) secret with version := s.version + 1 } := by
  obtain ⟨-, used, same, -⟩ := LedgerSecrets.getSecretForVersion_spec follows.increasing follows.usedAt
  have moved : s.useSecret (s.version + 1) = { s with secrets := { s.secrets with lastUsedSecret := used } } := by
    rw [useSecret, same]
  have decrypted := follows.use
  rw [moved] at decrypted ⊢
  obtain ⟨secrets, increasing, usedAt⟩ := decrypted.hook joined (.inl rfl) secret
    fun rekey member => Nat.lt_succ_of_le (follows.later rekey member).2
  exact ⟨secrets, follows.nonempty, increasing, follows.initial_le, fun rekey => follows.later_hook joined secret, usedAt⟩

end

end

theorem rollback {version : Nat} (follows : Follows initial s)
    (first : ∀ secret ∈ s.secrets.ledgerSecrets.head?, secret.1 ≤ version)
    (boundary : ∀ rekey ∈ s.rekeys, rekey.1 ≠ version) :
    Follows initial { s with
      version
      secrets := s.secrets.rollback version
      rekeys := s.rekeys.filter fun rekey => rekey.1 ≤ version } := by
  have split := follows.increasing
  rw [follows.secrets] at split
  obtain ⟨-, laterIncreasing, -⟩ := Increasing.append_iff.mp split
  have kept : (s.rekeys.map secretOf).filter (fun secret => secret.1 ≤ version) =
      (s.rekeys.filter fun rekey => rekey.1 ≤ version).map secretOf := by
    rw [List.filter_map]
    refine congrArg (List.map secretOf) (filter_congr fun rekey member => ?_)
    have other := boundary rekey member
    have same : rekey.1 + 1 ≤ version ↔ rekey.1 ≤ version := by omega
    exact decide_eq_decide.mpr same
  have above (secret : Nat × Key) (member : secret ∈ s.rekeys.map secretOf) :
      s.secrets.initialLatestLedgerSecretVersion < secret.1 := by
    obtain ⟨rekey, there, rfl⟩ := List.mem_map.mp member
    exact Nat.lt_succ_of_le (follows.later rekey there).1
  have dropped : s.secrets.rollback version =
      { s.secrets with
        ledgerSecrets := initial ++ (s.rekeys.filter fun rekey => rekey.1 ≤ version).map secretOf
        lastUsedSecret := none } := by
    obtain ⟨earliest, rest, shape⟩ := exists_cons_of_ne_nil (l := s.secrets.ledgerSecrets)
      (by rw [follows.secrets]; simp [follows.nonempty])
    have low : ¬ version < earliest.1 := Nat.not_lt.mpr (first earliest (by simp [shape]))
    unfold LedgerSecrets.rollback
    rw [shape]
    simp only [low, if_false]
    rw [← shape, follows.secrets, LedgerSecrets.eraseLatest_append follows.nonempty follows.initial_le above laterIncreasing, kept]
  rw [dropped]
  refine ⟨rfl, follows.nonempty, ?_, follows.initial_le, fun rekey member => ?_, fun used same => (nomatch same)⟩
  · exact split.sublist (Sublist.append_left (filter_sublist.map secretOf) initial)
  · obtain ⟨there, below⟩ := mem_filter.mp member
    exact ⟨(follows.later rekey there).1, by simpa using below⟩

theorem step (follows : Follows initial s) (moved : s.step a = some t) (kept : s.KeepsBoundary a) : Follows initial t := by
  cases a with
  | commit =>
    cases moved
    exact follows.use
  | rekey secret primary =>
    simp only [KeyedStore.step] at moved
    split at moved
    · rename_i joined
      cases moved
      cases primary with
      | true => exact follows.rekey_primary joined secret
      | false => exact follows.rekey_backup joined secret
    · cases moved
  | compact version =>
    simp only [KeyedStore.step] at moved
    split at moved
    · cases moved
      exact ⟨follows.secrets, follows.nonempty, follows.increasing, follows.initial_le, follows.later, follows.usedAt⟩
    · cases moved
  | rollback version =>
    simp only [KeyedStore.step] at moved
    split at moved
    · cases moved
    split at moved
    · cases moved
      exact follows
    rename_i back
    cases moved
    obtain idle | ⟨first, boundary⟩ := kept
    · exact absurd idle back
    · exact follows.rollback first boundary

end Follows

def opened : KeyedStore Nat := { secrets := { ledgerSecrets := [(1, 0)], initialLatestLedgerSecretVersion := 1 }, version := 0 }

theorem opened_start : Start [(1, 0)] opened := ⟨rfl, pairwise_singleton _ _, rfl, rfl, rfl⟩

end KeyedStore
end CCF
