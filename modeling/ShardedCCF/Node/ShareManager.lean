import ShardedCCF.Lib.Run
import ShardedCCF.Lib.Versioned

/-! `ShareManager`: how ledger secrets are recorded in the ledger, each encrypted under
the next one, and how they are restored from recovery shares and from the list that the
recovery hook collects. Encryption and secret sharing are ideal. -/
namespace CCF.Shares
open List Option
open Lib (Increasing atOrBelow emplace)

/-- Ledger secrets and wrapping keys are drawn at random and stand for themselves. -/
abbrev Key := Nat

/-- What is encrypted under a key with a tag that only that key verifies. -/
structure Sealed where
  key : Key
  plain : Key
  deriving DecidableEq, Repr

def Sealed.decrypt (c : Sealed) (key : Key) : Option Key := if c.key = key then some c.plain else none

/-- The library that splits a secret: any `k` distinct shares give it back. -/
structure SecretSharing (Share : Type) where
  split : Key → Nat → Nat → List Share
  combine : List Share → Nat → Key
  combine_split : ∀ key n k shares, 0 < k → shares.Nodup → shares ⊆ split key n k → k ≤ shares.length →
    combine shares shares.length = key

variable {Share : Type} (sharing : SecretSharing Share)

/-- The shares of one wrapping key, each encrypted for its member, and the recovery
threshold of the service when they were made. -/
structure RecoverySharesInfo (Share : Type) where
  wrappedLatestLedgerSecret : Sealed
  encryptedShares : List Share
  recoveryThreshold : Nat

structure PreviousLedgerSecretInfo where
  encryptedData : Sealed
  version : Nat
  deriving DecidableEq, Repr

structure EncryptedLedgerSecretInfo where
  previousLedgerSecret : Option PreviousLedgerSecretInfo
  nextVersion : Option Nat
  deriving DecidableEq, Repr

/-- What a transaction writes to the tables of shares and of encrypted ledger secrets. -/
inductive Entry (Share : Type) where
  | other
  | signature
  | shares (info : RecoverySharesInfo Share)
  | secrets (info : RecoverySharesInfo Share) (encrypted : EncryptedLedgerSecretInfo)

namespace Entry

def isSignature : Entry Share → Bool
  | .signature => true
  | _ => false

def isSecrets : Entry Share → Bool
  | .secrets _ _ => true
  | _ => false

def sharesInfo : Entry Share → Option (RecoverySharesInfo Share)
  | .shares info | .secrets info _ => some info
  | _ => none

/-- The recovery hook. A version that is not set is deduced from that of the hook. -/
def recoveryHook (version : Nat) : Entry Share → Option EncryptedLedgerSecretInfo
  | .secrets _ encrypted =>
    some { encrypted with nextVersion := encrypted.nextVersion <|> some (version + 1) }
  | _ => none

end Entry

/-- Versions count the entries from 1. -/
abbrev Ledger (Share : Type) := List (Entry Share)

namespace Ledger

def recoveredEncryptedLedgerSecrets (ledger : Ledger Share) : List EncryptedLedgerSecretInfo :=
  (ledger.zipIdx 1).filterMap fun (e, version) => e.recoveryHook version

def currentShares (ledger : Ledger Share) : Option (RecoverySharesInfo Share) :=
  (ledger.filterMap Entry.sharesInfo).getLast?

/-- Public recovery truncates the ledger after the last signature. -/
def signedPrefix (ledger : Ledger Share) : Ledger Share := ledger.rdropWhile fun e => !e.isSignature

def unsigned (ledger : Ledger Share) : Ledger Share := ledger.rtakeWhile fun e => !e.isSignature

theorem signedPrefix_append_unsigned (ledger : Ledger Share) : ledger.signedPrefix ++ ledger.unsigned = ledger :=
  rdropWhile_append_rtakeWhile

end Ledger

/-- The wrapping key from the submitted shares, and the secret that it wraps. -/
def unwrapLatest (store : Ledger Share) (submitted : List Share) : Option Key :=
  store.currentShares.bind fun info =>
    if submitted.length < info.recoveryThreshold then none
    else info.wrappedLatestLedgerSecret.decrypt (sharing.combine submitted submitted.length)

/-- The walk over the collected list from its end, with the last restored secret. -/
def walk : List EncryptedLedgerSecretInfo → Key → List (Nat × Key) → Option (List (Nat × Key))
  | [], _, restored => some restored
  | info :: rest, latest, restored =>
    match info.previousLedgerSecret with
    | none => some restored
    | some previous => (previous.encryptedData.decrypt latest).bind fun key => walk rest key (emplace restored previous.version key)

/-- The result is `none` where the code throws. -/
def restoreRecoverySharesInfo (store : Ledger Share) (submitted : List Share)
    (recovered : List EncryptedLedgerSecretInfo) : Option (List (Nat × Key)) :=
  recovered.getLast?.bind fun last =>
    (unwrapLatest sharing store submitted).bind fun latest =>
      last.nextVersion.bind fun version => walk recovered.reverse latest (emplace [] version latest)

inductive Status where
  | opening
  | opened
  /-- The public ledger is recovered; shares are awaited. -/
  | waitingForRecoveryShares
  deriving DecidableEq, Repr

/-- The service, with the secrets of its nodes and all that were ever used. -/
structure Service (Share : Type) where
  ledger : Ledger Share := []
  secrets : List (Nat × Key) := [(1, 0)]
  used : List (Nat × Key) := [(1, 0)]
  status : Status := .opening
  recovered : List EncryptedLedgerSecretInfo := []
  fresh : Key := 1

namespace Service

def append (s : Service Share) (e : Entry Share) : Service Share := { s with ledger := s.ledger ++ [e] }

def wrap (latest wrapping : Key) (members threshold : Nat) : RecoverySharesInfo Share where
  wrappedLatestLedgerSecret := ⟨wrapping, latest⟩
  encryptedShares := sharing.split wrapping members threshold
  recoveryThreshold := threshold

/-- The previous secret is encrypted with the latest. -/
def encryptPrevious (latest : Key) (previous : Option (Nat × Key)) (nextVersion : Option Nat) : EncryptedLedgerSecretInfo where
  previousLedgerSecret := previous.map fun p => ⟨⟨latest, p.2⟩, p.1⟩
  nextVersion := nextVersion

/-- `issue_recovery_shares` for the secrets of the node. -/
def issueRecoveryShares (s : Service Share) (members threshold : Nat) : Option (Service Share) :=
  s.secrets.getLast?.map fun latest =>
    { s.append (.secrets (wrap sharing latest.2 s.fresh members threshold)
        (encryptPrevious latest.2 s.secrets.dropLast.getLast? (some latest.1))) with
      fresh := s.fresh + 1
      status := .opened }

/-- The secret of a rekey applies from the version after it. -/
def rekey (s : Service Share) (members threshold : Nat) : Option (Service Share) :=
  s.secrets.getLast?.map fun latest =>
    let version := s.ledger.length + 1
    { s.append (.secrets (wrap sharing s.fresh (s.fresh + 1) members threshold)
        (encryptPrevious s.fresh (some latest) none)) with
      secrets := s.secrets ++ [(version + 1, s.fresh)]
      used := s.used ++ [(version + 1, s.fresh)]
      fresh := s.fresh + 2 }

def shuffleRecoveryShares (s : Service Share) (members threshold : Nat) : Option (Service Share) :=
  s.secrets.getLast?.map fun latest =>
    { s.append (.shares (wrap sharing latest.2 s.fresh members threshold)) with fresh := s.fresh + 1 }

/-- A new node reads the public ledger and takes a new secret for what follows. -/
def recoverPublic (s : Service Share) : Service Share :=
  let ledger := s.ledger.signedPrefix
  { s with
    ledger
    secrets := [(ledger.length + 1, s.fresh)]
    used := (s.used.filter fun secret => secret.1 ≤ ledger.length) ++ [(ledger.length + 1, s.fresh)]
    status := .waitingForRecoveryShares
    recovered := s.ledger.recoveredEncryptedLedgerSecrets
    fresh := s.fresh + 1 }

/-- The old secrets are restored below the new one, whose shares are then issued. -/
def completeRecovery (s : Service Share) (submitted : List Share) (members threshold : Nat) : Option (Service Share) :=
  (restoreRecoverySharesInfo sharing s.ledger submitted s.recovered).bind fun restored =>
    if restored.getLast?.any fun last => s.secrets.head?.any fun first => first.1 ≤ last.1 then none
    else { s with secrets := restored ++ s.secrets }.issueRecoveryShares sharing members threshold

end Service

inductive Action (Share : Type) where
  | other
  | sign
  | openService (members threshold : Nat)
  | rekey (members threshold : Nat)
  | shuffle (members threshold : Nat)
  | recoverPublic
  | completeRecovery (submitted : List Share) (members threshold : Nat)

/-- Shares need a threshold and members. -/
def Service.step (s : Service Share) : Action Share → Option (Service Share)
  | .other => some (s.append .other)
  | .sign => some (s.append .signature)
  | .openService members threshold =>
    if s.status = .opening ∧ 0 < threshold ∧ 0 < members then s.issueRecoveryShares sharing members threshold else none
  | .rekey members threshold =>
    if s.status = .opened ∧ 0 < threshold ∧ 0 < members then s.rekey sharing members threshold else none
  | .shuffle members threshold =>
    if s.status = .opened ∧ 0 < threshold ∧ 0 < members then s.shuffleRecoveryShares sharing members threshold else none
  | .recoverPublic => if s.status = .opened then some s.recoverPublic else none
  | .completeRecovery submitted members threshold =>
    if s.status = .waitingForRecoveryShares ∧ 0 < threshold ∧ 0 < members then
      s.completeRecovery sharing submitted members threshold
    else none

/-! What the ledger records. -/

def link (previous : Option (Nat × Key)) (secret : Nat × Key) : EncryptedLedgerSecretInfo :=
  Service.encryptPrevious secret.2 previous (some secret.1)

/-- The list that the walk expects: each secret with the one before it. -/
def links : Option (Nat × Key) → List (Nat × Key) → List EncryptedLedgerSecretInfo
  | _, [] => []
  | previous, secret :: rest => link previous secret :: links (some secret) rest

theorem links_append (secrets : List (Nat × Key)) :
    links previous (secrets ++ [secret]) = links previous secrets ++ [link (secrets.getLast?.or previous) secret] := by
  induction secrets generalizing previous with
  | nil => rfl
  | cons first rest ih =>
    rw [cons_append, links, ih, links, cons_append]
    cases rest <;> simp [getLast?_cons]

structure Wraps (info : RecoverySharesInfo Share) (secret : Key) : Prop where
  plain : info.wrappedLatestLedgerSecret.plain = secret
  positive : 0 < info.recoveryThreshold
  shares : ∃ members, info.encryptedShares = sharing.split info.wrappedLatestLedgerSecret.key members info.recoveryThreshold

theorem wraps_wrap (positive : 0 < threshold) : Wraps sharing (Service.wrap sharing latest wrapping members threshold) latest :=
  ⟨rfl, positive, members, rfl⟩

inductive Recorded : Ledger Share → List (Nat × Key) → Prop where
  | nil : Recorded [] []
  | other : Recorded ledger secrets → Recorded (ledger ++ [.other]) secrets
  | signature : Recorded ledger secrets → Recorded (ledger ++ [.signature]) secrets
  | shuffle : Recorded ledger secrets → secrets.getLast? = some latest → Wraps sharing info latest.2 →
      Recorded (ledger ++ [.shares info]) secrets
  | issue : Recorded ledger secrets → Wraps sharing info secret.2 → secret.1 ≤ ledger.length + 2 →
      (∀ older ∈ secrets, older.1 < secret.1 ∧ older.2 ≠ secret.2) →
      (encrypted.recoveryHook (ledger.length + 1)) = some (link secrets.getLast? secret) →
      encrypted.sharesInfo = some info →
      Recorded (ledger ++ [encrypted]) (secrets ++ [secret])

namespace Recorded
variable {sharing} {ledger : Ledger Share}

theorem isSecrets_of_recoveryHook {e : Entry Share} (hooked : e.recoveryHook version = some info) : e.isSecrets = true := by
  cases e <;> simp_all [Entry.recoveryHook, Entry.isSecrets]

theorem recovered_append (ledger : Ledger Share) (e : Entry Share) :
    (ledger ++ [e]).recoveredEncryptedLedgerSecrets =
      ledger.recoveredEncryptedLedgerSecrets ++ (e.recoveryHook (ledger.length + 1)).toList := by
  rw [Ledger.recoveredEncryptedLedgerSecrets, zipIdx_append, filterMap_append, Ledger.recoveredEncryptedLedgerSecrets,
    Nat.add_comm]
  cases hooked : e.recoveryHook (ledger.length + 1) <;> simp [hooked]

theorem currentShares_append (ledger : Ledger Share) (e : Entry Share) :
    (ledger ++ [e]).currentShares = e.sharesInfo.or ledger.currentShares := by
  cases written : e.sharesInfo <;> simp [Ledger.currentShares, written]

section
variable (recorded : Recorded sharing ledger secrets)
include recorded

theorem recovered_eq : ledger.recoveredEncryptedLedgerSecrets = links none secrets := by
  induction recorded with
  | nil => rfl
  | other _ ih | signature _ ih | shuffle _ _ _ ih => rw [recovered_append, ih]; exact append_nil _
  | issue _ _ _ _ hooked _ ih =>
    rw [recovered_append, ih, hooked, links_append, or_none]
    rfl

theorem currentShares_spec : match secrets.getLast? with
    | none => ledger.currentShares = none
    | some latest => ∃ info, ledger.currentShares = some info ∧ Wraps sharing info latest.2 := by
  induction recorded with
  | nil => rfl
  | other _ ih | signature _ ih => rw [currentShares_append]; exact ih
  | shuffle _ last wraps _ =>
    rw [last, currentShares_append]
    exact ⟨_, rfl, wraps⟩
  | issue _ wraps _ _ _ written _ =>
    rw [getLast?_concat, currentShares_append, written]
    exact ⟨_, rfl, wraps⟩

theorem increasing : Increasing secrets := by
  induction recorded with
  | nil => exact List.Pairwise.nil
  | other _ ih | signature _ ih | shuffle _ _ _ ih => exact ih
  | issue _ _ _ newer _ _ ih =>
    refine Increasing.append_iff.mpr ⟨ih, pairwise_singleton _ _, fun older member secret latest => ?_⟩
    rw [mem_singleton.mp latest]
    exact (newer older member).1

theorem distinct : secrets.Pairwise fun a b => a.2 ≠ b.2 := by
  induction recorded with
  | nil => exact List.Pairwise.nil
  | other _ ih | signature _ ih | shuffle _ _ _ ih => exact ih
  | issue _ _ _ newer _ _ ih =>
    refine pairwise_append.mpr ⟨ih, pairwise_singleton _ _, fun older member secret latest => ?_⟩
    rw [mem_singleton.mp latest]
    exact (newer older member).2

/-- A secret applies at the latest from the version after the one that records it. -/
theorem start_le : ∀ secret ∈ secrets, secret.1 ≤ ledger.length + 1 := by
  induction recorded with
  | nil => exact fun _ member => (nomatch member)
  | other _ ih | signature _ ih | shuffle _ _ _ ih =>
    intro secret member
    have bound := ih secret member
    exact bound.trans (by simp)
  | issue _ _ bound _ _ _ ih =>
    intro secret member
    rw [length_append, length_singleton]
    obtain older | rfl : secret ∈ _ ∨ secret = _ := by simpa using member
    · exact (ih secret older).trans (by omega)
    · exact bound

end

/-- A prefix of the ledger records a prefix of the secrets, all of them when it has all
the entries that record one. -/
theorem of_append (recorded : Recorded sharing (ledger ++ rest) secrets) :
    ∃ older, Recorded sharing ledger older ∧ older <+: secrets ∧ (older = secrets ↔ ∀ e ∈ rest, e.isSecrets = false) := by
  induction rest using reverseRecOn generalizing secrets with
  | nil => exact ⟨secrets, by simpa using recorded, prefix_rfl, by simp⟩
  | append_singleton rest e ih =>
    generalize whole : ledger ++ (rest ++ [e]) = all at recorded
    have split (before : Ledger Share) (last : Entry Share) (parts : ledger ++ (rest ++ [e]) = before ++ [last]) :
        ledger ++ rest = before ∧ e = last := by
      rw [← append_assoc] at parts
      exact append_singleton_inj.mp parts
    cases recorded with
    | nil => simp at whole
    | other earlier | signature earlier | shuffle earlier =>
      obtain ⟨rfl, rfl⟩ := split _ _ whole
      obtain ⟨older, records, before, same⟩ := ih earlier
      refine ⟨older, records, before, ?_⟩
      rw [same, forall_mem_append]
      exact ⟨fun none => ⟨none, forall_mem_singleton.mpr rfl⟩, And.left⟩
    | @issue _ earlierSecrets _ secret _ earlier _ _ newer hooked =>
      obtain ⟨rfl, rfl⟩ := split _ _ whole
      obtain ⟨older, records, before, -⟩ := ih earlier
      refine ⟨older, records, before.trans (prefix_append _ _), ?_⟩
      have shorter := before.length_le
      have differs : older ≠ earlierSecrets ++ [secret] := fun same => by simp [same] at shorter
      simp [differs, isSecrets_of_recoveryHook hooked]

end Recorded

/-! Restoring the secrets. -/

theorem walk_links (before : List (Nat × Key)) (secret : Nat × Key) (restored : List (Nat × Key))
    (increasing : Increasing (before ++ secret :: restored)) :
    walk (links none (before ++ [secret])).reverse secret.2 (secret :: restored) = some (before ++ secret :: restored) := by
  induction before using reverseRecOn generalizing secret restored with
  | nil => rfl
  | append_singleton before previous ih =>
    rw [append_assoc] at increasing
    have below : ∀ e ∈ secret :: restored, previous.1 < e.1 := by
      obtain ⟨-, sorted, -⟩ := Increasing.append_iff.mp increasing
      exact fun e member => (pairwise_cons.mp sorted).1 e member
    rw [links_append, reverse_append, getLast?_concat]
    simp only [reverse_singleton, singleton_append, walk, link, Service.encryptPrevious, Option.or, Option.map,
      Sealed.decrypt, if_true, bind_some]
    rw [Lib.emplace_of_gt below, ih previous (secret :: restored) increasing, append_assoc]
    rfl

section Restore
variable {sharing} {ledger store : Ledger Share}

theorem restore_eq (recorded : Recorded sharing ledger (before ++ [secret])) :
    restoreRecoverySharesInfo sharing store submitted ledger.recoveredEncryptedLedgerSecrets =
      (unwrapLatest sharing store submitted).bind fun latest =>
        walk (links none (before ++ [secret])).reverse latest [(secret.1, latest)] := by
  rw [recorded.recovered_eq, restoreRecoverySharesInfo, links_append, getLast?_concat]
  rfl

theorem unwrapLatest_eq (recorded : Recorded sharing store (before ++ [secret]))
    (unwrapped : unwrapLatest sharing store submitted = some latest) : latest = secret.2 := by
  have spec := recorded.currentShares_spec
  rw [getLast?_concat] at spec
  obtain ⟨info, current, wraps⟩ := spec
  rw [unwrapLatest, current, bind_some] at unwrapped
  split at unwrapped
  · exact absurd unwrapped (by simp)
  rw [Sealed.decrypt] at unwrapped
  split at unwrapped
  · rw [← wraps.plain]
    exact (some.inj unwrapped).symm
  · exact absurd unwrapped (by simp)

theorem unwrapLatest_nil (recorded : Recorded sharing store []) : unwrapLatest sharing store submitted = none := by
  have spec := recorded.currentShares_spec
  rw [unwrapLatest, spec]
  rfl

def Correct (store : Ledger Share) (submitted : List Share) : Prop :=
  submitted.Nodup ∧ ∀ info, store.currentShares = some info →
    submitted ⊆ info.encryptedShares ∧ info.recoveryThreshold ≤ submitted.length

instance [DecidableEq Share] : Decidable (Correct store submitted) :=
  decidable_of_iff (submitted.Nodup ∧ (store.currentShares.all fun info =>
      submitted ⊆ info.encryptedShares ∧ info.recoveryThreshold ≤ submitted.length) = true) (by
    cases current : store.currentShares <;> simp [Correct, current])

theorem unwrapLatest_of_correct (recorded : Recorded sharing store (before ++ [secret])) (correct : Correct store submitted) :
    unwrapLatest sharing store submitted = some secret.2 := by
  have spec := recorded.currentShares_spec
  rw [getLast?_concat] at spec
  obtain ⟨info, current, wraps⟩ := spec
  obtain ⟨members, shares⟩ := wraps.shares
  obtain ⟨current_shares, enough⟩ := correct.2 info current
  have combined := sharing.combine_split _ members _ submitted wraps.positive correct.1 (shares ▸ current_shares) enough
  rw [unwrapLatest, current, bind_some, if_neg enough.not_gt, combined, Sealed.decrypt, if_pos rfl, wraps.plain]

theorem restore_of_unwrapped (recorded : Recorded sharing ledger (before ++ [secret]))
    (unwrapped : unwrapLatest sharing store submitted = some secret.2) :
    restoreRecoverySharesInfo sharing store submitted ledger.recoveredEncryptedLedgerSecrets = some (before ++ [secret]) := by
  rw [restore_eq recorded, unwrapped]
  exact walk_links before secret [] recorded.increasing

/-- When the list has more secrets than the store, the walk starts with the wrong one. -/
theorem restore_of_proper (recorded : Recorded sharing ledger secrets) (current : Recorded sharing store older)
    (before : older <+: secrets) (proper : older ≠ secrets) :
    restoreRecoverySharesInfo sharing store submitted ledger.recoveredEncryptedLedgerSecrets = none := by
  obtain ⟨rest, rfl⟩ := before
  obtain ⟨rest, latest, rfl⟩ : ∃ init latest, rest = init ++ [latest] := by
    refine ⟨_, _, (dropLast_append_getLast (l := rest) fun empty => ?_).symm⟩
    exact proper (by simp [empty])
  rw [← append_assoc] at recorded
  rw [restore_eq recorded]
  cases older using reverseRecOn with
  | nil => rw [unwrapLatest_nil current]; rfl
  | append_singleton older secret _ =>
    cases unwrapped : unwrapLatest sharing store submitted with
    | none => rfl
    | some key =>
      have other : latest.2 ≠ secret.2 := by
        obtain ⟨-, -, apart⟩ := pairwise_append.mp recorded.distinct
        exact (apart secret (by simp) latest (by simp)).symm
      obtain ⟨previous, last⟩ : ∃ previous, (older ++ [secret] ++ rest).getLast? = some previous :=
        ⟨_, getLast?_eq_some_getLast (by simp)⟩
      rw [bind_some, links_append, last, unwrapLatest_eq current unwrapped]
      simp [walk, link, Service.encryptPrevious, Sealed.decrypt, other]

end Restore

/-! Runs of the service. -/

namespace Service
variable {sharing} {s t : Service Share}

def FreshKeys (s : Service Share) : Prop := ∀ secret ∈ s.used, secret.2 < s.fresh

/-- What holds in each state of the service. Before the recovery is complete the list may
have secrets of entries after the last signature; it then cannot complete. -/
structure Sound (sharing : SecretSharing Share) (s : Service Share) : Prop where
  opening : s.status = .opening → Recorded sharing s.ledger [] ∧ s.secrets = [(1, 0)] ∧ s.used = [(1, 0)]
  opened : s.status = .opened → Recorded sharing s.ledger s.used ∧ s.secrets = s.used ∧ s.used ≠ []
  waiting : s.status = .waitingForRecoveryShares → ∃ ledger secrets older first, Recorded sharing ledger secrets ∧
      s.recovered = ledger.recoveredEncryptedLedgerSecrets ∧ Recorded sharing s.ledger older ∧ older <+: secrets ∧
      (∀ secret ∈ older, secret.1 < first.1 ∧ secret.2 < first.2) ∧ first.1 ≤ s.ledger.length + 1 ∧
      s.secrets = [first] ∧ (older = secrets → s.used = secrets ++ [first])

theorem sound_of_opened (opened : s.status = .opened) (recorded : Recorded sharing s.ledger s.used)
    (same : s.secrets = s.used) (nonempty : s.used ≠ []) : s.Sound sharing where
  opening status := by simp [opened] at status
  opened _ := ⟨recorded, same, nonempty⟩
  waiting status := by simp [opened] at status

theorem Sound.append (sound : s.Sound sharing)
    (kept : ∀ ledger secrets, Recorded sharing ledger secrets → Recorded sharing (ledger ++ [e]) secrets) :
    (s.append e).Sound sharing where
  opening status := (sound.opening status).imp_left (kept _ _)
  opened status := (sound.opened status).imp_left (kept _ _)
  waiting status := by
    obtain ⟨ledger, secrets, older, first, recorded, collected, current, before, newer, bound, same, used⟩ := sound.waiting status
    refine ⟨ledger, secrets, older, first, recorded, collected, kept _ _ current, before, newer, ?_, same, used⟩
    rw [Service.append, length_append]
    exact bound.trans (by simp)

/-- The shares that are issued for the latest of the node's secrets record it. -/
theorem sound_issueRecoveryShares (issued : s.issueRecoveryShares sharing members threshold = some t)
    (positive : 0 < threshold) (recorded : Recorded sharing s.ledger older) (secrets : s.secrets = older ++ [secret])
    (used : s.used = older ++ [secret]) (bound : secret.1 ≤ s.ledger.length + 1)
    (newer : ∀ other ∈ older, other.1 < secret.1 ∧ other.2 < secret.2) : t.Sound sharing := by
  rw [issueRecoveryShares, secrets, getLast?_concat, dropLast_concat] at issued
  obtain rfl := some.inj issued
  refine sound_of_opened rfl ?_ (secrets.trans used.symm) fun empty => by simp [append, used] at empty
  simp only [append, used]
  exact recorded.issue (wraps_wrap sharing positive) (bound.trans (Nat.le_succ _))
    (fun other member => ⟨(newer other member).1, (newer other member).2.ne⟩) rfl rfl

theorem sound_rekey (rekeyed : s.rekey sharing members threshold = some t) (positive : 0 < threshold)
    (recorded : Recorded sharing s.ledger s.used) (same : s.secrets = s.used) (opened : s.status = .opened)
    (fresh : s.FreshKeys) : t.Sound sharing := by
  obtain ⟨latest, last, rfl⟩ := map_eq_some_iff.mp rekeyed
  refine sound_of_opened opened ?_ (by simp only [same]) (by simp)
  refine recorded.issue (wraps_wrap sharing positive) le_rfl (fun other member => ⟨?_, (fresh other member).ne⟩) ?_ rfl
  · exact (recorded.start_le other member).trans_lt (Nat.lt_succ_self _)
  · rw [← same, last]
    rfl

theorem sound_shuffle (shuffled : s.shuffleRecoveryShares sharing members threshold = some t) (positive : 0 < threshold)
    (recorded : Recorded sharing s.ledger s.used) (same : s.secrets = s.used) (opened : s.status = .opened) :
    t.Sound sharing := by
  obtain ⟨latest, last, rfl⟩ := map_eq_some_iff.mp shuffled
  rw [same] at last
  refine sound_of_opened opened (recorded.shuffle last (wraps_wrap sharing positive)) same fun empty => ?_
  simp [show s.used = [] from empty] at last

/-- No secret starts after a signature that ends the ledger. -/
theorem start_le_signedPrefix {ledger : Ledger Share} {secrets : List (Nat × Key)} (recorded : Recorded sharing (Ledger.signedPrefix ledger) secrets) :
    ∀ secret ∈ secrets, secret.1 ≤ (Ledger.signedPrefix ledger).length := by
  have last := rdropWhile_last_not (fun e => !Entry.isSignature e) ledger
  change ∀ nonempty : Ledger.signedPrefix ledger ≠ [], ¬(!Entry.isSignature ((Ledger.signedPrefix ledger).getLast nonempty)) = true at last
  generalize Ledger.signedPrefix ledger = signed at recorded last
  cases recorded with
  | nil => exact fun _ member => (nomatch member)
  | signature earlier =>
    intro secret member
    rw [length_append]
    exact earlier.start_le secret member
  | other | shuffle => simp [Entry.isSignature] at last
  | @issue _ _ _ _ encrypted _ _ _ _ hooked =>
    have signature := last (by simp)
    rw [getLast_concat] at signature
    cases encrypted with
    | secrets | shares | other => exact absurd rfl signature
    | signature => exact absurd hooked (by simp [Entry.recoveryHook])

theorem sound_recoverPublic (recorded : Recorded sharing s.ledger s.used) (fresh : s.FreshKeys) :
    s.recoverPublic.Sound sharing := by
  have whole := recorded
  rw [← s.ledger.signedPrefix_append_unsigned] at recorded
  obtain ⟨older, current, before, -⟩ := recorded.of_append
  have starts := start_le_signedPrefix current
  refine ⟨fun status => (nomatch status), fun status => (nomatch status), fun _ => ?_⟩
  refine ⟨s.ledger, s.used, older, (s.ledger.signedPrefix.length + 1, s.fresh), whole, rfl, current, before, ?_, le_rfl, rfl, ?_⟩
  · exact fun secret member => ⟨Nat.lt_succ_of_le (starts secret member), fresh secret (before.subset member)⟩
  · rintro rfl
    have all : s.used.filter (fun secret => secret.1 ≤ s.ledger.signedPrefix.length) = s.used :=
      filter_eq_self.mpr fun secret member => by simpa using starts secret member
    rw [recoverPublic, all]

/-- Only a list that agrees with the store lets the recovery complete. -/
theorem sound_completeRecovery (completed : s.completeRecovery sharing submitted members threshold = some t)
    (positive : 0 < threshold) (waiting : s.status = .waitingForRecoveryShares) (sound : s.Sound sharing) : t.Sound sharing := by
  obtain ⟨ledger, secrets, older, first, recorded, collected, current, before, newer, bound, node, used⟩ := sound.waiting waiting
  obtain ⟨restored, restoring, rest⟩ := bind_eq_some_iff.mp completed
  rw [collected] at restoring
  obtain rfl : older = secrets := by
    by_contra proper
    rw [restore_of_proper recorded current before proper] at restoring
    exact absurd restoring (by simp)
  obtain rfl : restored = older := by
    cases older using reverseRecOn with
    | nil =>
      rw [recorded.recovered_eq] at restoring
      exact absurd restoring (by simp [restoreRecoverySharesInfo, links])
    | append_singleton earlier secret _ =>
      cases unwrapped : unwrapLatest sharing s.ledger submitted with
      | none => rw [restore_eq recorded, unwrapped] at restoring; exact absurd restoring (by simp)
      | some latest =>
        rw [unwrapLatest_eq current unwrapped] at unwrapped
        rw [restore_of_unwrapped recorded unwrapped] at restoring
        exact (some.inj restoring).symm
  split at rest
  · exact absurd rest (by simp)
  · exact sound_issueRecoveryShares rest positive current (by simp [node]) (used rfl) bound newer

theorem sound_step (moved : s.step sharing action = some t) (sound : s.Sound sharing) (fresh : s.FreshKeys) :
    t.Sound sharing := by
  cases action with
  | other => exact some.inj moved ▸ sound.append fun _ _ => .other
  | sign => exact some.inj moved ▸ sound.append fun _ _ => .signature
  | openService members threshold =>
    obtain ⟨⟨status, positive, -⟩, issued⟩ := ite_none_right_eq_some.mp moved
    obtain ⟨recorded, secrets, used⟩ := sound.opening status
    have first : s.secrets = [] ++ [_] := secrets
    exact sound_issueRecoveryShares issued positive recorded first used (by simp) (by simp)
  | rekey members threshold =>
    obtain ⟨⟨status, positive, -⟩, rekeyed⟩ := ite_none_right_eq_some.mp moved
    exact sound_rekey rekeyed positive (sound.opened status).1 (sound.opened status).2.1 status fresh
  | shuffle members threshold =>
    obtain ⟨⟨status, positive, -⟩, shuffled⟩ := ite_none_right_eq_some.mp moved
    exact sound_shuffle shuffled positive (sound.opened status).1 (sound.opened status).2.1 status
  | recoverPublic =>
    obtain ⟨status, recovered⟩ := ite_none_right_eq_some.mp moved
    exact some.inj recovered ▸ sound_recoverPublic (sound.opened status).1 fresh
  | completeRecovery submitted members threshold =>
    obtain ⟨⟨status, positive, -⟩, completed⟩ := ite_none_right_eq_some.mp moved
    exact sound_completeRecovery completed positive status sound

theorem freshKeys_step (moved : s.step sharing action = some t) (fresh : s.FreshKeys) : t.FreshKeys := by
  have later (more : Nat) (secret : Nat × Key) (member : secret ∈ s.used) : secret.2 < s.fresh + more :=
    (fresh secret member).trans_le (Nat.le_add_right _ _)
  have issue {u : Service Share} {members threshold} (used : u.used = s.used) (same : u.fresh = s.fresh)
      (issued : u.issueRecoveryShares sharing members threshold = some t) : t.FreshKeys := by
    obtain ⟨latest, -, rfl⟩ := map_eq_some_iff.mp issued
    intro secret member
    simp only [append, used, same] at member ⊢
    exact later 1 secret member
  cases action with
  | other | sign => exact some.inj moved ▸ fresh
  | openService members threshold => exact issue rfl rfl (ite_none_right_eq_some.mp moved).2
  | rekey members threshold =>
    obtain ⟨latest, -, rfl⟩ := map_eq_some_iff.mp (ite_none_right_eq_some.mp moved).2
    intro secret member
    obtain older | rfl : secret ∈ s.used ∨ secret = (s.ledger.length + 1 + 1, s.fresh) := by simpa [append] using member
    · exact later 2 secret older
    · exact Nat.lt_add_of_pos_right (by decide)
  | shuffle members threshold =>
    obtain ⟨latest, -, rfl⟩ := map_eq_some_iff.mp (ite_none_right_eq_some.mp moved).2
    exact later 1
  | recoverPublic =>
    obtain rfl := some.inj (ite_none_right_eq_some.mp moved).2
    intro secret member
    obtain older | latest := mem_append.mp member
    · exact later 1 secret (mem_of_mem_filter older)
    · rw [mem_singleton.mp latest]
      exact Nat.lt_succ_self _
  | completeRecovery submitted members threshold =>
    obtain ⟨restored, -, rest⟩ := bind_eq_some_iff.mp (ite_none_right_eq_some.mp moved).2
    have issued := (ite_none_left_eq_some.mp rest).2
    exact issue (u := { s with secrets := restored ++ s.secrets }) rfl rfl issued

theorem sound_of_run (run : Lib.Run (Service.step sharing) {} trace s) : s.Sound sharing := by
  have both := run.invariant (fun s => s.Sound sharing ∧ s.FreshKeys) ⟨⟨fun _ => ⟨.nil, rfl, rfl⟩, fun status => (nomatch status), fun status => (nomatch status)⟩, by simp [FreshKeys]⟩
    fun _ _ _ held moved => ⟨sound_step moved held.1 held.2, freshKeys_step moved held.2⟩
  exact both.1

end Service

def numberedCopies : SecretSharing (Key × Nat) where
  split key members _ := (List.range members).map fun n => (key, n)
  combine shares _ := (shares.head?.map (·.1)).getD 0
  combine_split key members threshold shares positive _ current enough := by
    cases shares with
    | nil => exact absurd enough positive.not_ge
    | cons share rest =>
      obtain ⟨n, -, rfl⟩ := List.mem_map.mp (current List.mem_cons_self)
      rfl

end CCF.Shares
