import ShardedCCF.Aft.Types
import ShardedCCF.Gov.Proposals
import ShardedCCF.Lib.Slots

/-! The consortium and the recovery threshold: the actions of the default
constitution that change the members or the configuration of the service, the
acknowledgement that activates a member, and what opens the service. The result is
`none` where the code throws, which undoes the transaction. -/
namespace CCF.Gov
open Lib
open List hiding next
open Option
open Std (ExtTreeMap)
open Aft (ReconfigurationType)

inductive ServiceStatus where
  | opening
  | opened
  | waitingForRecoveryShares
  | recovering
  deriving DecidableEq, Repr

inductive NodeStartupState where
  | partOfNetwork
  | partOfPublicNetwork
  | other
  deriving DecidableEq, Repr

structure ServiceInfo where
  cert : Nat
  status : ServiceStatus
  deriving DecidableEq

structure ServiceConfiguration where
  recoveryThreshold : Nat
  reconfigurationType : Option ReconfigurationType
  deriving DecidableEq

structure Consortium (Pem : Type) where
  memberInfo : ExtTreeMap MemberId MemberStatus := ∅
  encryptionPublicKeys : ExtTreeMap MemberId Pem := ∅
  /-- The digest that a member has to sign; it is empty before the first signature. -/
  memberAcks : ExtTreeMap MemberId (Option Nat) := ∅
  config : Option ServiceConfiguration
  service : Option ServiceInfo
  previousServiceIdentity : Option Nat := none

structure ConfigurationArgs where
  recoveryThreshold : Option Nat
  reconfigurationType : Option ReconfigurationType := none

def ConfigurationArgs.update (args : ConfigurationArgs) (config : ServiceConfiguration) :
    ServiceConfiguration where
  recoveryThreshold := args.recoveryThreshold.getD config.recoveryThreshold
  reconfigurationType := args.reconfigurationType <|> config.reconfigurationType

abbrev maxActiveRecoveryMembers : Nat := 255

abbrev maxNumberShares : Nat := 255

namespace Consortium
variable {Pem : Type} (c : Consortium Pem)

def statusOf (id : MemberId) : Option MemberStatus := c.memberInfo[id]?

def countActive (n : Nat) (entry : MemberId × Pem) : Option Nat :=
  (c.statusOf entry.1).map fun status => if status = .active then n + 1 else n

/-- The count of the constitution, which throws for a key without a member. -/
def getActiveRecoveryMembersCount : Option Nat := c.encryptionPublicKeys.toList.foldlM c.countActive 0

def collectActive (found : ExtTreeMap MemberId Pem) (entry : MemberId × Pem) :
    Option (ExtTreeMap MemberId Pem) :=
  (c.statusOf entry.1).map fun status => if status = .active then found.insert entry.1 entry.2 else found

/-- The members that the node finds; this throws as well. -/
def getActiveRecoveryMembers : Option (ExtTreeMap MemberId Pem) :=
  c.encryptionPublicKeys.toList.foldlM c.collectActive ∅

/-- Whether shares can be issued to the active recovery members. -/
def computeEncryptedShares : Option Unit := do
  let members ← c.getActiveRecoveryMembers
  let config ← c.config
  if members.size = 0 then none
  else if config.recoveryThreshold = 0 then none
  -- the checks of the library that splits the secret
  else if members.size > maxNumberShares then none
  else if config.recoveryThreshold > members.size then none
  else some ()

/-- `root` is that of the last signature; without one the script passes too few
arguments to the table of acknowledgements. -/
def setMember (root : Option Nat) (id : MemberId) (encryptionPubKey : Option Pem) :
    Option (Consortium Pem) :=
  root.map fun root =>
    { c with
      encryptionPublicKeys := match encryptionPubKey with
        | none => c.encryptionPublicKeys.erase id
        | some pem => c.encryptionPublicKeys.insert id pem
      memberInfo := c.memberInfo.insert id .accepted
      memberAcks := c.memberAcks.insert id (some root) }

/-- The ledger is not rekeyed unless the service is open. -/
def triggerLedgerRekey (node : NodeStartupState) : Option (Consortium Pem) :=
  if node ≠ .partOfNetwork then none
  else if c.service.map (·.status) ≠ some .opened then none
  else c.computeEncryptedShares.map fun _ => c

def dropMember (id : MemberId) : Consortium Pem :=
  { c with
    memberInfo := c.memberInfo.erase id
    encryptionPublicKeys := c.encryptionPublicKeys.erase id
    memberAcks := c.memberAcks.erase id }

/-- An active recovery member is not removed if too few would be left. -/
def removeMember (node : NodeStartupState) (id : MemberId) : Option (Consortium Pem) :=
  match c.statusOf id with
  | none => some c
  | some status =>
    if status = .active ∧ c.encryptionPublicKeys.contains id then do
      let config ← c.config
      let count ← c.getActiveRecoveryMembersCount
      if (count : Int) - 1 < config.recoveryThreshold then none
      else (c.dropMember id).triggerLedgerRekey node
    else some (c.dropMember id)

def checkBounds (value : Nat) : Bool := 1 ≤ value && value ≤ 254

/-- The type can only change from one-transaction to two-transaction. -/
def checkReconfigurationType (before after : Option ReconfigurationType) : Bool :=
  if before ≠ after ∧ after ≠ none then
    (before = none || before = some .oneTransaction) && after = some .twoTransaction
  else true

def checkRecoveryThreshold (config : ServiceConfiguration) (args : ConfigurationArgs) : Option Unit :=
  match args.recoveryThreshold with
  | none => some ()
  | some threshold =>
    if config.recoveryThreshold = threshold then some ()
    else do
      let service ← c.service
      match service.status with
      | .waitingForRecoveryShares => none
      | .opened =>
        let count ← c.getActiveRecoveryMembersCount
        if threshold > count then none else some ()
      | _ => some ()

/-- New shares are issued if the threshold changes. -/
def updateServiceConfig (args : ConfigurationArgs) : Option (Consortium Pem) := do
  let config ← c.config
  if !checkReconfigurationType config.reconfigurationType args.reconfigurationType then none
  else
    c.checkRecoveryThreshold config args
    let updated := { c with config := some (args.update config) }
    if args.recoveryThreshold.any (· ≠ config.recoveryThreshold) then
      updated.computeEncryptedShares.map fun _ => updated
    else some updated

def setRecoveryThreshold (args : ConfigurationArgs) : Option (Consortium Pem) :=
  if args.recoveryThreshold.any checkBounds then c.updateServiceConfig args else none

def setServiceConfiguration (args : ConfigurationArgs) : Option (Consortium Pem) :=
  if args.recoveryThreshold.all checkBounds then c.updateServiceConfig args else none

def openService : Option (Bool × Consortium Pem) := do
  let members ← c.getActiveRecoveryMembers
  let config ← c.config
  if members.size < config.recoveryThreshold then return (false, c)
  else
    match c.service with
    | none => return (false, c)
    | some service =>
      if service.status = .opened then return (true, c)
      else if service.status ≠ .opening ∧ service.status ≠ .waitingForRecoveryShares then return (false, c)
      else return (true, { c with service := some { service with status := .opened } })

/-- The action and `transition_service_to_open` of the node. Whether the service
could be opened is not looked at. -/
def transitionServiceToOpen (node : NodeStartupState) (previous : Option Nat) (next : Nat) :
    Option (Consortium Pem) := do
  let service ← c.service
  if service.status = .recovering ∧ previous = none then none
  else if service.status = .waitingForRecoveryShares ∨ service.status = .opened then return c
  else if service.status = .recovering ∧
      (c.previousServiceIdentity = none ∨ c.previousServiceIdentity ≠ previous) then none
  else if next ≠ service.cert then none
  else
    match node with
    | .partOfPublicNetwork =>
      return { c with service := some { service with status := .waitingForRecoveryShares } }
    | .partOfNetwork =>
      c.computeEncryptedShares
      let (_, opened) ← c.openService
      return opened
    | .other => none

def endRecovery : Option (Consortium Pem) := do
  c.computeEncryptedShares
  let (isOpen, opened) ← c.openService
  if isOpen then return opened else none

def activateMember (id : MemberId) : Option (Consortium Pem) := do
  let _ ← c.statusOf id
  let activated := { c with memberInfo := c.memberInfo.insert id .active }
  if c.encryptionPublicKeys.contains id then
    let members ← c.getActiveRecoveryMembers
    if members.size ≥ maxActiveRecoveryMembers then none else return activated
  else return activated

/-- A member becomes active when it signs the digest it is asked for. -/
def ack (root : Option Nat) (id : MemberId) (digest : Option Nat) : Option (Consortium Pem) := do
  let asked ← c.memberAcks[id]?
  if asked ≠ digest then none
  else
    let activated ← { c with memberAcks := c.memberAcks.insert id root }.activateMember id
    let service ← activated.service
    if service.status = .opened ∧ activated.encryptionPublicKeys.contains id then
      activated.computeEncryptedShares.map fun _ => activated
    else return activated

end Consortium

inductive ConsortiumRequest (Pem : Type) where
  | setMember (root : Option Nat) (id : MemberId) (encryptionPubKey : Option Pem)
  | removeMember (node : NodeStartupState) (id : MemberId)
  | setRecoveryThreshold (args : ConfigurationArgs)
  | setServiceConfiguration (args : ConfigurationArgs)
  | transitionServiceToOpen (node : NodeStartupState) (previous : Option Nat) (next : Nat)
  | endRecovery
  | ack (root : Option Nat) (id : MemberId) (digest : Option Nat)

namespace Consortium
variable {Pem : Type}

def step (c : Consortium Pem) : ConsortiumRequest Pem → Option (Consortium Pem)
  | .setMember root id encryptionPubKey => c.setMember root id encryptionPubKey
  | .removeMember node id => c.removeMember node id
  | .setRecoveryThreshold args => c.setRecoveryThreshold args
  | .setServiceConfiguration args => c.setServiceConfiguration args
  | .transitionServiceToOpen node previous next => c.transitionServiceToOpen node previous next
  | .endRecovery => c.endRecovery
  | .ack root id digest => c.ack root id digest

def activeRecoveryMembers (c : Consortium Pem) : Finset MemberId :=
  c.encryptionPublicKeys.keys.toFinset.filter fun id => c.statusOf id = some .active

def isOpen (c : Consortium Pem) : Bool := c.service.map (·.status) = some .opened

/-- While the service is open, its active recovery members can recover it. -/
def Recoverable (c : Consortium Pem) : Prop :=
  c.isOpen = true → ∀ config, c.config = some config → config.recoveryThreshold ≤ c.activeRecoveryMembers.card

variable {c c' : Consortium Pem} {id : MemberId}

theorem mem_activeRecoveryMembers :
    id ∈ c.activeRecoveryMembers ↔ id ∈ c.encryptionPublicKeys ∧ c.statusOf id = some .active := by
  rw [activeRecoveryMembers, Finset.mem_filter, List.mem_toFinset, ExtTreeMap.mem_keys]

theorem foldlM_count (keys : List (MemberId × Pem))
    (counted : keys.foldlM c.countActive start = some n) :
    n = start + keys.countP fun entry => c.statusOf entry.1 = some .active := by
  induction keys generalizing start with
  | nil =>
    cases counted
    rfl
  | cons entry keys ih =>
    obtain ⟨next, first, rest⟩ := bind_eq_some_iff.mp counted
    obtain ⟨status, there, rfl⟩ := map_eq_some_iff.mp first
    rw [ih rest, countP_cons, there]
    by_cases active : status = .active
    · simp only [active, if_true, decide_true]
      omega
    · simp [active]

theorem foldlM_members (keys : List (MemberId × Pem))
    (collected : keys.foldlM c.collectActive start = some members) (id : MemberId) :
    id ∈ members ↔ id ∈ start ∨ id ∈ keys.map Prod.fst ∧ c.statusOf id = some .active := by
  induction keys generalizing start with
  | nil =>
    cases collected
    simp
  | cons entry keys ih =>
    obtain ⟨next, first, rest⟩ := bind_eq_some_iff.mp collected
    obtain ⟨status, there, rfl⟩ := map_eq_some_iff.mp first
    rw [ih rest, map_cons, mem_cons]
    by_cases active : status = .active
    · rw [if_pos active, ExtTreeMap.mem_insert, compare_eq_iff_eq]
      by_cases same : entry.1 = id
      · simp [same ▸ there, active, same]
      · simp [same, Ne.symm same]
    rw [if_neg active]
    by_cases same : entry.1 = id
    · simp [same ▸ there, active]
    · simp [Ne.symm same]

/-- The count of the constitution is the number of active recovery members. -/
theorem getActiveRecoveryMembersCount_eq (counted : c.getActiveRecoveryMembersCount = some n) :
    n = c.activeRecoveryMembers.card := by
  rw [foldlM_count _ counted, Nat.zero_add, countP_eq_length_filter]
  have listed : c.activeRecoveryMembers =
      ((c.encryptionPublicKeys.toList.filter fun entry => c.statusOf entry.1 = some .active).map
        Prod.fst).toFinset := by
    ext id
    simp only [mem_activeRecoveryMembers, ← mem_keys_toList, List.mem_toFinset, List.mem_map, mem_filter,
      decide_eq_true_eq]
    constructor
    · rintro ⟨⟨entry, member, rfl⟩, active⟩
      exact ⟨entry, ⟨member, active⟩, rfl⟩
    · rintro ⟨entry, ⟨member, active⟩, rfl⟩
      exact ⟨⟨entry, member, rfl⟩, active⟩
  have distinct := (nodup_keys_toList c.encryptionPublicKeys).sublist
    ((filter_sublist (p := fun entry => decide (c.statusOf entry.1 = some .active))).map Prod.fst)
  rw [listed, toFinset_card_of_nodup distinct, length_map]

theorem getActiveRecoveryMembers_size (collected : c.getActiveRecoveryMembers = some members) :
    members.size = c.activeRecoveryMembers.card := by
  have same : members.keys.toFinset = c.activeRecoveryMembers := by
    ext id
    rw [List.mem_toFinset, ExtTreeMap.mem_keys, foldlM_members _ collected, mem_keys_toList,
      mem_activeRecoveryMembers]
    simp
  have distinct : members.keys.Nodup := by
    rw [← ExtTreeMap.map_fst_toList_eq_keys]
    exact nodup_keys_toList members
  rw [← same, toFinset_card_of_nodup distinct, ExtTreeMap.length_keys]

structure SameButFor (id : MemberId) (c c' : Consortium Pem) : Prop where
  service : c'.service = c.service
  config : c'.config = c.config
  keys : ∀ other ≠ id, other ∈ c'.encryptionPublicKeys ↔ other ∈ c.encryptionPublicKeys
  statuses : ∀ other ≠ id, c'.statusOf other = c.statusOf other

theorem SameButFor.erase_eq (same : SameButFor id c c') :
    c'.activeRecoveryMembers.erase id = c.activeRecoveryMembers.erase id := by
  ext other
  simp only [Finset.mem_erase, mem_activeRecoveryMembers]
  refine and_congr_right fun different => ?_
  rw [same.keys other different, same.statuses other different]

theorem SameButFor.isOpen_eq (same : SameButFor id c c') : c'.isOpen = c.isOpen := by
  rw [isOpen, same.service, isOpen]

/-- A change of one member keeps the service recoverable if that member can be spared. -/
theorem SameButFor.recoverable (same : SameButFor id c c') (recoverable : c.Recoverable)
    (spare : c.isOpen = true → id ∈ c.activeRecoveryMembers → ∀ config, c.config = some config →
      config.recoveryThreshold < c.activeRecoveryMembers.card) : c'.Recoverable := by
  intro opened config set
  rw [same.isOpen_eq] at opened
  rw [same.config] at set
  have left : (c.activeRecoveryMembers.erase id).card ≤ c'.activeRecoveryMembers.card := by
    rw [← same.erase_eq]
    exact Finset.card_le_card (Finset.erase_subset ..)
  by_cases member : id ∈ c.activeRecoveryMembers
  · have more := spare opened member config set
    rw [Finset.card_erase_of_mem member] at left
    omega
  · rw [Finset.erase_eq_of_notMem member] at left
    exact (recoverable opened config set).trans left

theorem setMember_sameButFor (set : c.setMember root id encryptionPubKey = some c') : SameButFor id c c' := by
  obtain ⟨digest, -, rfl⟩ := map_eq_some_iff.mp set
  refine ⟨rfl, rfl, fun other different => ?_, fun other different => ?_⟩
  · cases encryptionPubKey with
    | none => simp [ExtTreeMap.mem_erase, Ne.symm different]
    | some pem => simp [ExtTreeMap.mem_insert, Ne.symm different]
  · simp [statusOf, ExtTreeMap.getElem?_insert, Ne.symm different]

theorem setMember_notMem (set : c.setMember root id encryptionPubKey = some c') :
    id ∉ c'.activeRecoveryMembers := by
  obtain ⟨digest, -, rfl⟩ := map_eq_some_iff.mp set
  simp [mem_activeRecoveryMembers, statusOf]

/-- A member that is set again is no longer active. Nothing checks that enough
active recovery members are left, as it is when one is removed. -/
theorem setMember_recoverable_iff (recoverable : c.Recoverable)
    (set : c.setMember root id encryptionPubKey = some c') :
    c'.Recoverable ↔ (c.isOpen = true → id ∈ c.activeRecoveryMembers → ∀ config, c.config = some config →
      config.recoveryThreshold < c.activeRecoveryMembers.card) := by
  have same := setMember_sameButFor set
  refine ⟨fun after opened member config found => ?_, same.recoverable recoverable⟩
  have enough := after (same.isOpen_eq.trans opened) config (same.config.trans found)
  have lost := same.erase_eq
  rw [Finset.erase_eq_of_notMem (setMember_notMem set)] at lost
  rw [lost, Finset.card_erase_of_mem member] at enough
  have positive := Finset.card_pos.mpr ⟨id, member⟩
  omega

theorem dropMember_sameButFor (id : MemberId) : SameButFor id c (c.dropMember id) := by
  refine ⟨rfl, rfl, fun other different => ?_, fun other different => ?_⟩
  · simp [dropMember, ExtTreeMap.mem_erase, Ne.symm different]
  · simp [dropMember, statusOf, ExtTreeMap.getElem?_erase, Ne.symm different]

theorem triggerLedgerRekey_eq (rekeyed : c.triggerLedgerRekey node = some c') : c' = c := by
  rw [triggerLedgerRekey] at rekeyed
  split_ifs at rekeyed
  obtain ⟨_, -, rfl⟩ := map_eq_some_iff.mp rekeyed
  rfl

theorem removeMember_recoverable (recoverable : c.Recoverable)
    (removed : c.removeMember node id = some c') : c'.Recoverable := by
  rw [removeMember] at removed
  cases there : c.statusOf id with
  | none =>
    rw [there] at removed
    cases removed
    exact recoverable
  | some status =>
    simp only [there] at removed
    split_ifs at removed with active
    · obtain ⟨config, configured, removed⟩ := bind_eq_some_iff.mp removed
      obtain ⟨count, counted, removed⟩ := bind_eq_some_iff.mp removed
      split_ifs at removed with few
      rw [triggerLedgerRekey_eq removed]
      refine (dropMember_sameButFor id).recoverable recoverable fun _ _ config' configured' => ?_
      cases configured.symm.trans configured'
      have := getActiveRecoveryMembersCount_eq counted
      omega
    cases removed
    refine (dropMember_sameButFor id).recoverable recoverable fun _ member => ?_
    obtain ⟨key, isActive⟩ := mem_activeRecoveryMembers.mp member
    rw [there, some.injEq] at isActive
    exact absurd ⟨isActive, ExtTreeMap.contains_iff_mem.mpr key⟩ active

/-- The members are the same, and there is no more to recover the service with
than their number. -/
theorem Recoverable.reconfigure (recoverable : c.Recoverable) (config config' : ServiceConfiguration)
    (before : c.config = some config)
    (bounded : c.isOpen = true → config'.recoveryThreshold = config.recoveryThreshold ∨
      config'.recoveryThreshold ≤ c.activeRecoveryMembers.card) :
    ({ c with config := some config' } : Consortium Pem).Recoverable := by
  intro opened other found
  obtain rfl : config' = other := some.inj found
  rcases bounded opened with same | enough
  · rw [same]
    exact recoverable opened config before
  · exact enough

theorem checkRecoveryThreshold_bounds {config : ServiceConfiguration} {args : ConfigurationArgs}
    (checked : c.checkRecoveryThreshold config args = some ()) (opened : c.isOpen = true) :
    (args.update config).recoveryThreshold = config.recoveryThreshold ∨
      (args.update config).recoveryThreshold ≤ c.activeRecoveryMembers.card := by
  rw [checkRecoveryThreshold] at checked
  rw [ConfigurationArgs.update]
  cases asked : args.recoveryThreshold with
  | none => exact .inl rfl
  | some threshold =>
    simp only [asked] at checked
    split at checked
    · rename_i same
      exact .inl same.symm
    obtain ⟨service, found, checked⟩ := bind_eq_some_iff.mp checked
    have status : service.status = .opened := by
      rw [isOpen, found] at opened
      simpa using opened
    simp only [status] at checked
    obtain ⟨count, counted, checked⟩ := bind_eq_some_iff.mp checked
    split at checked
    · cases checked
    rename_i within
    rw [getActiveRecoveryMembersCount_eq counted] at within
    exact .inr (not_lt.mp within)

section
variable (recoverable : c.Recoverable)
include recoverable

theorem updateServiceConfig_recoverable (updated : c.updateServiceConfig args = some c') : c'.Recoverable := by
  obtain ⟨config, configured, updated⟩ := bind_eq_some_iff.mp updated
  split at updated
  · cases updated
  obtain ⟨_, checked, updated⟩ := bind_eq_some_iff.mp updated
  have kept := recoverable.reconfigure config (args.update config) configured
    fun opened => checkRecoveryThreshold_bounds checked opened
  split at updated
  · obtain ⟨_, -, rfl⟩ := map_eq_some_iff.mp updated
    exact kept
  · cases updated
    exact kept

theorem openService_recoverable (opened : c.openService = some (flag, c')) : c'.Recoverable := by
  obtain ⟨members, found, opened⟩ := bind_eq_some_iff.mp opened
  obtain ⟨config, configured, opened⟩ := bind_eq_some_iff.mp opened
  split at opened
  · cases opened
    exact recoverable
  rename_i enough
  rw [getActiveRecoveryMembers_size found] at enough
  split at opened
  · cases opened
    exact recoverable
  split at opened
  · cases opened
    exact recoverable
  split at opened
  · cases opened
    exact recoverable
  cases opened
  intro _ config' configured'
  cases configured.symm.trans configured'
  exact not_lt.mp enough

theorem transitionServiceToOpen_recoverable (moved : c.transitionServiceToOpen node previous next = some c') :
    c'.Recoverable := by
  obtain ⟨service, found, moved⟩ := bind_eq_some_iff.mp moved
  split_ifs at moved
  · cases moved
    exact recoverable
  cases node with
  | partOfPublicNetwork =>
    cases moved
    intro opened
    simp [isOpen] at opened
  | partOfNetwork =>
    obtain ⟨_, -, moved⟩ := bind_eq_some_iff.mp moved
    obtain ⟨⟨flag, opened⟩, result, moved⟩ := bind_eq_some_iff.mp moved
    cases moved
    exact openService_recoverable recoverable result
  | other => cases moved

theorem endRecovery_recoverable (ended : c.endRecovery = some c') : c'.Recoverable := by
  obtain ⟨_, -, ended⟩ := bind_eq_some_iff.mp ended
  obtain ⟨⟨flag, opened⟩, result, ended⟩ := bind_eq_some_iff.mp ended
  dsimp only at ended
  split at ended
  · cases ended
    exact openService_recoverable recoverable result
  · cases ended

end

theorem ack_eq (acked : c.ack root id digest = some c') :
    c' = { c with
      memberAcks := c.memberAcks.insert id root
      memberInfo := c.memberInfo.insert id .active } := by
  obtain ⟨asked, -, acked⟩ := bind_eq_some_iff.mp acked
  split at acked
  · cases acked
  obtain ⟨activated, result, acked⟩ := bind_eq_some_iff.mp acked
  obtain ⟨service, -, acked⟩ := bind_eq_some_iff.mp acked
  have final : c' = activated := by
    split at acked
    · obtain ⟨_, -, rfl⟩ := map_eq_some_iff.mp acked
      rfl
    · cases acked
      rfl
  rw [final]
  obtain ⟨_, -, result⟩ := bind_eq_some_iff.mp result
  split at result
  · obtain ⟨members, -, result⟩ := bind_eq_some_iff.mp result
    split at result
    · cases result
    · cases result
      rfl
  · cases result
    rfl

theorem ack_recoverable (recoverable : c.Recoverable) (acked : c.ack root id digest = some c') :
    c'.Recoverable := by
  rw [ack_eq acked]
  intro opened config configured
  refine (recoverable opened config configured).trans (Finset.card_le_card fun other member => ?_)
  obtain ⟨key, active⟩ := mem_activeRecoveryMembers.mp member
  refine mem_activeRecoveryMembers.mpr ⟨key, ?_⟩
  simp only [statusOf, ExtTreeMap.getElem?_insert]
  split
  · rfl
  · exact active

/-- A `set_member` of an active recovery member leaves as many as the threshold. -/
def SparesRecovery (c : Consortium Pem) : ConsortiumRequest Pem → Prop
  | .setMember _ id _ => c.isOpen = true → id ∈ c.activeRecoveryMembers → ∀ config, c.config = some config →
      config.recoveryThreshold < c.activeRecoveryMembers.card
  | _ => True

theorem step_recoverable (recoverable : c.Recoverable) (spares : c.SparesRecovery request)
    (moved : c.step request = some c') : c'.Recoverable := by
  cases request with
  | setMember root id encryptionPubKey => exact (setMember_recoverable_iff recoverable moved).mpr spares
  | removeMember node id => exact removeMember_recoverable recoverable moved
  | setRecoveryThreshold args | setServiceConfiguration args =>
    exact updateServiceConfig_recoverable recoverable (ite_none_right_eq_some.mp moved).2
  | transitionServiceToOpen node previous next => exact transitionServiceToOpen_recoverable recoverable moved
  | endRecovery => exact endRecovery_recoverable recoverable moved
  | ack root id digest => exact ack_recoverable recoverable moved

/-- A service that is created and then governed stays recoverable while it is
open, if no `set_member` takes an active recovery member that is needed. -/
theorem open_service_recoverable {init : Consortium Pem} (run : Lib.Run step init trace c)
    (created : init.isOpen = false) (spares : ∀ t ∈ trace, t.pre.SparesRecovery t.action) :
    ∀ s, Lib.Visited init trace s → s.Recoverable := by
  have initial : init.Recoverable := fun opened => by simp [created] at opened
  have all : c.Recoverable ∧ ∀ s, Visited init trace s → s.Recoverable := by
    induction run with
    | start =>
      refine ⟨initial, fun s visited => ?_⟩
      rcases visited with rfl | ⟨t, member, -⟩
      · exact initial
      · cases member
    | next _ moved ih =>
      obtain ⟨before, visitedBefore⟩ := ih fun t member => spares t (mem_cons_of_mem _ member)
      have after := step_recoverable before (spares _ mem_cons_self) moved
      refine ⟨after, fun s visited => ?_⟩
      rcases visited with rfl | ⟨t, member, rfl⟩
      · exact initial
      rcases mem_cons.mp member with rfl | older
      · exact after
      · exact visitedBefore t.post (.inr ⟨t, older, rfl⟩)
  exact all.2

/-- A new service with recovery members that have not acknowledged it yet. -/
def genesis (members : List MemberId) : Consortium Nat where
  memberInfo := members.foldl (fun info id => info.insert id .accepted) ∅
  encryptionPublicKeys := members.foldl (fun keys id => keys.insert id id) ∅
  memberAcks := members.foldl (fun acks id => acks.insert id none) ∅
  config := some ⟨1, none⟩
  service := some ⟨0, .opening⟩

/-- One of two recovery members is set again. -/
theorem open_service_recoverable_spared : ∃ trace c,
    Lib.Run step (genesis [1, 2]) trace c ∧ c.isOpen = true ∧ c.activeRecoveryMembers = {2} ∧ c.Recoverable := by
  refine exists_run_of (P := fun trace c => c.isOpen = true ∧ c.activeRecoveryMembers = {2} ∧ ∀ t ∈ trace,
    t.pre.isOpen = true → ∀ config ∈ t.pre.config, config.recoveryThreshold < t.pre.activeRecoveryMembers.card)
    [.ack none 1 none, .ack none 2 none, .transitionServiceToOpen .partOfNetwork none 0, .setMember (some 5) 1 (some 1)]
    (by decide +kernel) ?_
  intro trace c run ⟨opened, left, spared⟩
  refine ⟨opened, left, open_service_recoverable run (by decide +kernel) (fun t member => ?_) c run.visited⟩
  cases t.action with
  | setMember root id encryptionPubKey => exact fun opened _ => spared t member opened
  | _ => trivial

/-- The only recovery member of an open service is set again. -/
theorem set_member_leaves_unrecoverable : ∃ trace c,
    Lib.Run step (genesis [1]) trace c ∧ c.isOpen = true ∧ ¬ c.Recoverable := by
  refine exists_run_of (P := fun _ c => c.isOpen = true ∧ c.config = some ⟨1, none⟩ ∧
    c.activeRecoveryMembers.card = 0)
    [.ack none 1 none, .transitionServiceToOpen .partOfNetwork none 0, .setMember (some 5) 1 (some 1)]
    (by decide +kernel) ?_
  intro trace c run ⟨opened, configured, nobody⟩
  refine ⟨opened, fun recoverable => ?_⟩
  have enough := recoverable opened _ configured
  rw [nobody] at enough
  exact absurd enough (by decide)

end Consortium
end CCF.Gov
