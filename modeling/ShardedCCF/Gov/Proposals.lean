import ShardedCCF.Lib.Run

/-! Proposals under the default constitution: `post_proposals_js`, `vote_js`,
`withdraw_js` and `resolve_proposal`, each as one committed transaction. -/
namespace CCF.Gov
open List hiding after
open Option

abbrev MemberId := Nat

inductive MemberStatus where
  | accepted
  | active
  deriving DecidableEq, Repr

inductive ProposalState where
  | opened
  | accepted
  | withdrawn
  | rejected
  | failed
  | dropped
  deriving DecidableEq, Repr

/-- The digest of the root at the read version and of the request. Different versions have
different roots, and digests do not collide. -/
structure ProposalId where
  readVersion : Nat
  requestDigest : Nat
  deriving DecidableEq, Repr

variable {P B : Type}

structure ProposalInfo (B : Type) where
  proposerId : MemberId
  state : ProposalState
  ballots : List (MemberId × B)
  finalVotes : Option (List (MemberId × Bool)) := none
  voteFailures : List MemberId := []

/-- A key of a map with the version of its last write. A removed key keeps a version, so
that a transaction that read it as absent still conflicts. -/
structure Cell (P : Type) where
  version : Nat := 0
  value : Option P := none

/-- The tables of governance that matter to proposals, and the proposals applied so far. -/
structure Tables (P B : Type) where
  version : Nat
  members : List (MemberId × MemberStatus)
  proposals : ProposalId → Cell P := fun _ => {}
  info : ProposalId → Option (ProposalInfo B) := fun _ => none
  defaultConstitution : Bool := true
  applied : List ProposalId := []

inductive GovAction where
  | setConstitution (isDefault : Bool)
  | addNodeCode
  /-- All others: they may change the members, or throw. -/
  | other (effect : List (MemberId × MemberStatus) → Option (List (MemberId × MemberStatus)))

/-- The scripts of proposals and ballots. A ballot is a function that reads the tables and
may throw. -/
structure Scripts (P B : Type) where
  validate : P → Bool
  actions : P → List GovAction
  compiles : B → Bool
  vote : Tables P B → B → P → MemberId → Option Bool

namespace Tables

def isActive (g : Tables P B) (member : MemberId) : Bool := (member, MemberStatus.active) ∈ g.members

def removeAllOtherNonOpenProposals (g : Tables P B) (id : ProposalId) : Tables P B :=
  let closed (pid : ProposalId) := pid ≠ id ∧ (g.info pid).any fun i => i.state ≠ .opened
  { g with
    proposals := fun pid => if closed pid then ⟨g.version + 1, none⟩ else g.proposals pid
    info := fun pid => if closed pid then none else g.info pid }

def invalidateOtherOpenProposals (g : Tables P B) (id : ProposalId) : Tables P B :=
  { g with info := fun pid =>
      (g.info pid).map fun i => if pid ≠ id ∧ i.state = .opened then { i with state := .dropped } else i }

def applyAction (g : Tables P B) (id : ProposalId) : GovAction → Option (Tables P B)
  | .setConstitution isDefault => some ({ g with defaultConstitution := isDefault }.invalidateOtherOpenProposals id)
  | .addNodeCode => some (g.invalidateOtherOpenProposals id)
  | .other effect => (effect g.members).map fun members => { g with members }

/-- `apply` of the constitution, which stops at an action that throws. -/
def applyActions (g : Tables P B) (id : ProposalId) (actions : List GovAction) : Option (Tables P B) :=
  actions.foldlM (fun g action => g.applyAction id action) g

/-- `resolve` of the constitution: a majority of the active members accepts. -/
def resolve (g : Tables P B) (votes : List (MemberId × Bool)) : ProposalState :=
  if (votes.filter (·.2)).length > (g.members.filter (·.2 = .active)).length / 2 then .accepted else .opened

end Tables

structure ProposalInfoSummary where
  state : ProposalState
  votes : Option (List (MemberId × Bool))
  voteFailures : List MemberId

inductive Error where
  | authorizationFailed
  | proposalNotFound
  | proposalNotOpen
  | proposalFailedToValidate
  | voteAlreadyExists
  | idCollision
  | invalidBallot
  | failedToApply
  /-- The transaction has read what another wrote meanwhile. -/
  | conflict
  deriving DecidableEq, Repr

namespace Tables
variable (scripts : Scripts P B)

/-- Ballots are run on the tables of the transaction. If the proposal is then accepted, its
actions are applied after all closed proposals but itself are removed. -/
def resolveProposal (g : Tables P B) (id : ProposalId) (proposal : P) (i : ProposalInfo B) :
    Except Error (ProposalInfoSummary × Tables P B) :=
  let results := i.ballots.map fun ballot => (ballot.1, scripts.vote g ballot.2 proposal i.proposerId)
  let votes := results.filterMap fun result => result.2.map (result.1, ·)
  let failures := (results.filter (·.2.isNone)).map (·.1)
  match g.resolve votes with
  | .opened => .ok (⟨.opened, none, failures⟩, g)
  | .accepted =>
    match (g.removeAllOtherNonOpenProposals id).applyActions id (scripts.actions proposal) with
    | none => .error .failedToApply
    | some applied => .ok (⟨.accepted, some votes, failures⟩, { applied with applied := id :: applied.applied })
  | state => .ok (⟨state, some votes, failures⟩, g.removeAllOtherNonOpenProposals id)

def putInfo (g : Tables P B) (id : ProposalId) (i : ProposalInfo B) : Tables P B :=
  { g with info := Function.update g.info id (some i) }

def putProposal (g : Tables P B) (id : ProposalId) (proposal : P) : Tables P B :=
  { g with proposals := Function.update g.proposals id ⟨g.version + 1, some proposal⟩ }

theorem putInfo_info_self {id : ProposalId} (g : Tables P B) (i : ProposalInfo B) : (g.putInfo id i).info id = some i :=
  Function.update_self ..

theorem putInfo_info_of_ne {id pid : ProposalId} (g : Tables P B) (i : ProposalInfo B) (other : pid ≠ id) : (g.putInfo id i).info pid = g.info pid :=
  Function.update_of_ne other ..

theorem putProposal_version_self (g : Tables P B) (id : ProposalId) (proposal : P) :
    ((g.putProposal id proposal).proposals id).version = g.version + 1 := by
  simp [putProposal]

def committed (g : Tables P B) : Tables P B := { g with version := g.version + 1 }

/-- The transaction has read its key in the table of proposals at its read version. -/
def postProposals (g : Tables P B) (member : MemberId) (readVersion requestDigest : Nat) (body : P) :
    Except Error (Tables P B) :=
  let id : ProposalId := ⟨readVersion, requestDigest⟩
  if !g.isActive member then .error .authorizationFailed
  else if !scripts.validate body then .error .proposalFailedToValidate
  else if readVersion < (g.proposals id).version then .error .conflict
  else if (g.proposals id).value.isSome then .error .idCollision
  else
    let i : ProposalInfo B := { proposerId := member, state := .opened, ballots := [] }
    (resolveProposal scripts ((g.putProposal id body).putInfo id i) id body i).map fun (rv, after) =>
      (after.putInfo id { i with state := rv.state }).committed

def withdraw (g : Tables P B) (member : MemberId) (id : ProposalId) : Except Error (Tables P B) :=
  if !g.isActive member then .error .authorizationFailed
  else match g.info id with
    | none => .error .proposalNotFound
    | some i =>
      if member ≠ i.proposerId then .error .authorizationFailed
      else if i.state ≠ .opened then .error .proposalNotOpen
      else .ok ((g.putInfo id { i with state := .withdrawn }).removeAllOtherNonOpenProposals id).committed

/-- The record that is written back at the end is the copy from before `apply`. -/
def vote (g : Tables P B) (member : MemberId) (id : ProposalId) (ballot : B) : Except Error (Tables P B) :=
  if !g.isActive member then .error .authorizationFailed
  else match g.info id with
    | none => .error .proposalNotFound
    | some i =>
      if i.state ≠ .opened then .error .proposalNotOpen
      else match (g.proposals id).value with
        | none => .error .proposalNotFound
        | some proposal =>
          if i.ballots.any (·.1 = member) then .error .voteAlreadyExists
          else if !scripts.compiles ballot then .error .invalidBallot
          else
            let i := { i with ballots := i.ballots ++ [(member, ballot)] }
            (resolveProposal scripts (g.putInfo id i) id proposal i).map fun (rv, after) =>
              (after.putInfo id
                { i with state := rv.state, finalVotes := rv.votes, voteFailures := rv.voteFailures }).committed

end Tables

inductive Request (P B : Type) where
  | postProposals (member : MemberId) (readVersion requestDigest : Nat) (body : P)
  | withdraw (member : MemberId) (id : ProposalId)
  | vote (member : MemberId) (id : ProposalId) (ballot : B)
  /-- A transaction that leaves proposals alone; it may change the members. -/
  | other (members : List (MemberId × MemberStatus))

/-- The committed transaction of a request, under the default constitution. A transaction
with an error response is not committed. -/
def Tables.step (scripts : Scripts P B) (g : Tables P B) (request : Request P B) : Option (Tables P B) :=
  if g.defaultConstitution then
    match request with
    | .postProposals member readVersion requestDigest body =>
      if readVersion ≤ g.version then (g.postProposals scripts member readVersion requestDigest body).toOption else none
    | .withdraw member id => (g.withdraw member id).toOption
    | .vote member id ballot => (g.vote scripts member id ballot).toOption
    | .other members => some { g with members }.committed
  else none

/-! What one transaction does to a proposal. -/

/-- How the record of a proposal changes when another one is closed: a closed one may be
removed, an open one may be dropped. -/
inductive Cleared : Option (ProposalInfo B) → Option (ProposalInfo B) → Prop where
  | same : Cleared i i
  | removed : i.state ≠ .opened → Cleared (some i) none
  | dropped : i.state = .opened → Cleared (some i) (some { i with state := .dropped })

theorem Cleared.of_none {after : Option (ProposalInfo B)} (cleared : Cleared none after) : after = none := by
  cases cleared
  rfl

namespace Tables
variable {scripts : Scripts P B} {g h : Tables P B} {id pid : ProposalId}

theorem exists_of_any {o : Option α} (holds : o.any p = true) : ∃ a, o = some a ∧ p a = true := by
  cases o with
  | none => exact absurd holds (by simp)
  | some a => exact ⟨a, rfl, holds⟩

theorem removeAllOther_info_self : (g.removeAllOtherNonOpenProposals id).info id = g.info id := by
  simp [removeAllOtherNonOpenProposals]

theorem removeAllOther_info (g : Tables P B) (id pid : ProposalId) :
    Cleared (g.info pid) ((g.removeAllOtherNonOpenProposals id).info pid) := by
  by_cases closed : pid ≠ id ∧ (g.info pid).any fun i => i.state ≠ .opened
  · obtain ⟨i, there, state⟩ := exists_of_any closed.2
    rw [show (g.removeAllOtherNonOpenProposals id).info pid = none from if_pos closed, there]
    exact .removed (by simpa using state)
  · rw [show (g.removeAllOtherNonOpenProposals id).info pid = g.info pid from if_neg closed]
    exact .same

theorem removeAllOther_proposals (g : Tables P B) (id pid : ProposalId) :
    (g.removeAllOtherNonOpenProposals id).proposals pid = g.proposals pid ∨
      ((g.removeAllOtherNonOpenProposals id).proposals pid).version = g.version + 1 ∧ g.info pid ≠ none := by
  by_cases closed : pid ≠ id ∧ (g.info pid).any fun i => i.state ≠ .opened
  · obtain ⟨i, there, -⟩ := exists_of_any closed.2
    rw [show (g.removeAllOtherNonOpenProposals id).proposals pid = ⟨g.version + 1, none⟩ from if_pos closed, there]
    exact .inr ⟨rfl, by simp⟩
  · exact .inl (if_neg closed)

structure Spares (id : ProposalId) (g h : Tables P B) : Prop where
  version : h.version = g.version
  proposals : h.proposals = g.proposals
  applied : h.applied = g.applied
  self : h.info id = g.info id
  others : ∀ pid before, Cleared before (g.info pid) → Cleared before (h.info pid)

theorem spares_invalidate (g : Tables P B) (id : ProposalId) : Spares id g (g.invalidateOtherOpenProposals id) where
  version := rfl
  proposals := rfl
  applied := rfl
  self := by simp [invalidateOtherOpenProposals]
  others pid before cleared := by
    cases now : g.info pid with
    | none =>
      simpa [invalidateOtherOpenProposals, now] using cleared
    | some i =>
      rw [now] at cleared
      by_cases invalid : pid ≠ id ∧ i.state = .opened
      · rw [show (g.invalidateOtherOpenProposals id).info pid = some { i with state := .dropped } by
          simp [invalidateOtherOpenProposals, now, invalid]]
        -- a record that is open now was open before, and nothing was done to it
        cases cleared with
        | same => exact .dropped invalid.2
        | dropped => exact absurd invalid.2 (by simp)
      · rw [show (g.invalidateOtherOpenProposals id).info pid = some i by simp [invalidateOtherOpenProposals, now, invalid]]
        exact cleared

theorem spares_applyAction (applied : g.applyAction id action = some h) : Spares id g h := by
  cases action with
  | setConstitution isDefault =>
    obtain rfl := some.inj applied
    obtain ⟨version, proposals, log, self, others⟩ :=
      spares_invalidate { g with defaultConstitution := isDefault } id
    exact ⟨version, proposals, log, self, others⟩
  | addNodeCode =>
    obtain rfl := some.inj applied
    exact spares_invalidate g id
  | other effect =>
    obtain ⟨members, -, rfl⟩ := map_eq_some_iff.mp applied
    exact ⟨rfl, rfl, rfl, rfl, fun _ _ cleared => cleared⟩

theorem spares_applyActions (applied : g.applyActions id actions = some h) : Spares id g h := by
  induction actions generalizing g with
  | nil =>
    obtain rfl := some.inj applied
    exact ⟨rfl, rfl, rfl, rfl, fun _ _ cleared => cleared⟩
  | cons action rest ih =>
    obtain ⟨middle, first, later⟩ := bind_eq_some_iff.mp applied
    have one := spares_applyAction first
    have more := ih later
    exact ⟨more.version.trans one.version, more.proposals.trans one.proposals, more.applied.trans one.applied,
      more.self.trans one.self, fun pid before cleared => more.others pid before (one.others pid before cleared)⟩

theorem resolve_cases (g : Tables P B) (votes : List (MemberId × Bool)) :
    g.resolve votes = .accepted ∨ g.resolve votes = .opened := by
  rw [resolve]
  split
  · exact .inl rfl
  · exact .inr rfl

structure Resolves (id : ProposalId) (g : Tables P B) (rv : ProposalInfoSummary) (h : Tables P B) : Prop where
  version : h.version = g.version
  self : h.info id = g.info id
  others : ∀ pid, Cleared (g.info pid) (h.info pid)
  proposals : ∀ pid, h.proposals pid = g.proposals pid ∨ (h.proposals pid).version = g.version + 1 ∧ g.info pid ≠ none
  applied : rv.state = .opened ∧ h.applied = g.applied ∨ rv.state = .accepted ∧ h.applied = id :: g.applied

theorem resolves (resolved : resolveProposal scripts g id proposal i = .ok (rv, h)) : Resolves id g rv h := by
  rw [resolveProposal] at resolved
  obtain accepted | opened := resolve_cases g ((i.ballots.map fun ballot =>
      (ballot.1, scripts.vote g ballot.2 proposal i.proposerId)).filterMap fun result => result.2.map (result.1, ·))
  · simp only [accepted] at resolved
    cases done : (g.removeAllOtherNonOpenProposals id).applyActions id (scripts.actions proposal) with
    | none => simp [done] at resolved
    | some after =>
      simp only [done, Except.ok.injEq, Prod.mk.injEq] at resolved
      obtain ⟨rfl, rfl⟩ := resolved
      have spared := spares_applyActions done
      refine ⟨spared.version, spared.self.trans removeAllOther_info_self, ?_, ?_, .inr ⟨rfl, ?_⟩⟩
      · exact fun pid => spared.others pid _ (removeAllOther_info _ _ pid)
      · intro pid
        rw [show ({ after with applied := id :: after.applied } : Tables P B).proposals = after.proposals from rfl, spared.proposals]
        exact removeAllOther_proposals _ _ pid
      · exact congrArg (id :: ·) spared.applied
  · simp only [opened, Except.ok.injEq, Prod.mk.injEq] at resolved
    obtain ⟨rfl, rfl⟩ := resolved
    exact ⟨rfl, rfl, fun _ => .same, fun _ => .inl rfl, .inl ⟨rfl, rfl⟩⟩

theorem resolves_of_no_ballots (resolved : resolveProposal scripts g id proposal i = .ok (rv, h)) (none_yet : i.ballots = []) :
    rv.state = .opened ∧ h = g := by
  have opened : g.resolve [] = .opened := by simp [resolve]
  rw [resolveProposal, none_yet] at resolved
  simp only [map_nil, filterMap_nil, opened, Except.ok.injEq, Prod.mk.injEq] at resolved
  exact ⟨congrArg (·.state) resolved.1.symm, resolved.2.symm⟩

end Tables

inductive Progress (g : Tables P B) (request : Request P B) (id : ProposalId) : Option (ProposalInfo B) → Prop where
  | cleared : Cleared (g.info id) after → Progress g request id after
  | created : (g.proposals id).version ≤ id.readVersion → i.state = .opened → i.ballots = [] → Progress g request id (some i)
  | withdrawn : g.info id = some i → i.state = .opened → request = .withdraw i.proposerId id →
      Progress g request id (some { i with state := .withdrawn })
  | voted : g.info id = some i → i.state = .opened → request = .vote member id ballot →
      after.ballots = i.ballots ++ [(member, ballot)] → after.state ≠ .withdrawn → Progress g request id (some after)

structure Advances (g : Tables P B) (request : Request P B) (h : Tables P B) : Prop where
  version : h.version = g.version + 1
  progress : ∀ id, Progress g request id (h.info id)
  /-- A key of the proposals table is written for a record, or by a transaction that has
  read an earlier version. -/
  proposals : ∀ id, h.proposals id = g.proposals id ∨
    (h.proposals id).version = g.version + 1 ∧ (g.info id ≠ none ∨ id.readVersion ≤ g.version)
  written : ∀ id, g.info id = none → h.info id ≠ none → (h.proposals id).version = g.version + 1
  applied : h.applied = g.applied ∨ ∃ id i j, h.applied = id :: g.applied ∧ g.info id = some i ∧ i.state = .opened ∧
    h.info id = some j ∧ j.state ≠ .opened

namespace Tables
variable {scripts : Scripts P B} {g h : Tables P B} {id : ProposalId}

theorem map_eq_ok {result : Except Error α} {f : α → β} (mapped : result.map f = .ok after) : ∃ v, result = .ok v ∧ f v = after := by
  cases result with
  | error e => exact absurd mapped (by simp [Except.map])
  | ok v => exact ⟨v, rfl, Except.ok.inj mapped⟩

theorem advances_postProposals (posted : g.postProposals scripts member readVersion requestDigest body = .ok h)
    (reads : readVersion ≤ g.version) : Advances g (.postProposals member readVersion requestDigest body) h := by
  unfold postProposals at posted
  simp only [] at posted
  split_ifs at posted with active valid conflict collision
  obtain ⟨⟨rv, after⟩, resolved, rfl⟩ := map_eq_ok posted
  obtain ⟨opened, rfl⟩ := resolves_of_no_ballots resolved rfl
  refine ⟨rfl, fun pid => ?_, fun pid => ?_, fun pid absent present => ?_, .inl rfl⟩
  · by_cases same : pid = ⟨readVersion, requestDigest⟩
    · rw [committed, same, putInfo_info_self]
      exact .created (not_lt.mp conflict) opened rfl
    · rw [committed, putInfo_info_of_ne _ _ same, putInfo_info_of_ne _ _ same]
      exact .cleared .same
  · by_cases same : pid = ⟨readVersion, requestDigest⟩
    · subst same
      exact .inr ⟨putProposal_version_self .., .inr reads⟩
    · exact .inl (Function.update_of_ne same _ _)
  · by_cases same : pid = ⟨readVersion, requestDigest⟩
    · subst same
      exact putProposal_version_self ..
    · rw [committed, putInfo_info_of_ne _ _ same, putInfo_info_of_ne _ _ same] at present
      exact absurd absent present

theorem advances_withdraw (withdrawn : g.withdraw member id = .ok h) : Advances g (.withdraw member id) h := by
  unfold withdraw at withdrawn
  cases there : g.info id with
  | none =>
    simp only [there] at withdrawn
    split_ifs at withdrawn
  | some i =>
    simp only [there] at withdrawn
    split_ifs at withdrawn with active proposer opened
    obtain rfl := Except.ok.inj withdrawn
    rw [not_not] at proposer opened
    have others (pid : ProposalId) (other : pid ≠ id) :
        (g.putInfo id { i with state := .withdrawn }).info pid = g.info pid := putInfo_info_of_ne _ _ other
    refine ⟨rfl, fun pid => ?_, fun pid => ?_, fun pid absent present => ?_, .inl rfl⟩
    · by_cases same : pid = id
      · rw [same, committed, removeAllOther_info_self, putInfo_info_self]
        exact .withdrawn there opened (by rw [proposer])
      have cleared := removeAllOther_info (g.putInfo id { i with state := .withdrawn }) id pid
      rw [others pid same] at cleared
      exact .cleared cleared
    · obtain kept | ⟨version, record⟩ :=
        removeAllOther_proposals (g.putInfo id { i with state := .withdrawn }) id pid
      · exact .inl kept
      by_cases same : pid = id
      · exact .inr ⟨version, .inl (by rw [same, there]; simp)⟩
      · rw [others pid same] at record
        exact .inr ⟨version, .inl record⟩
    · have cleared := removeAllOther_info (g.putInfo id { i with state := .withdrawn }) id pid
      have other : pid ≠ id := fun same => by rw [same, there] at absent; simp at absent
      rw [others pid other, absent] at cleared
      exact absurd cleared.of_none present

/-- What a vote that is accepted has checked, and what it resolves. -/
theorem vote_inv (voted : g.vote scripts member id ballot = .ok h) :
    ∃ i proposal rv after, g.isActive member = true ∧ g.info id = some i ∧ i.state = .opened ∧
      (g.proposals id).value = some proposal ∧ member ∉ i.ballots.map Prod.fst ∧
      resolveProposal scripts (g.putInfo id { i with ballots := i.ballots ++ [(member, ballot)] }) id proposal
        { i with ballots := i.ballots ++ [(member, ballot)] } = .ok (rv, after) ∧
      h = (after.putInfo id { i with
        ballots := i.ballots ++ [(member, ballot)], state := rv.state, finalVotes := rv.votes
        voteFailures := rv.voteFailures }).committed := by
  unfold vote at voted
  cases there : g.info id with
  | none =>
    simp only [there] at voted
    split_ifs at voted
  | some i =>
    cases body : (g.proposals id).value with
    | none =>
      simp only [there, body] at voted
      split_ifs at voted
    | some proposal =>
      simp only [there, body] at voted
      split_ifs at voted with active opened again compiles
      obtain ⟨⟨rv, after⟩, resolved, rfl⟩ := map_eq_ok voted
      refine ⟨i, proposal, rv, after, by simpa using active, rfl, not_not.mp opened, rfl, fun listed => again ?_,
        resolved, rfl⟩
      obtain ⟨cast, present, same⟩ := List.mem_map.mp listed
      exact List.any_eq_true.mpr ⟨cast, present, by simpa using same⟩

theorem advances_vote (voted : g.vote scripts member id ballot = .ok h) : Advances g (.vote member id ballot) h := by
  obtain ⟨i, proposal, rv, after, -, there, opened, -, -, resolved, rfl⟩ := vote_inv voted
  have spec := resolves resolved
  have others (pid : ProposalId) (other : pid ≠ id) :
      (g.putInfo id { i with ballots := i.ballots ++ [(member, ballot)] }).info pid = g.info pid :=
    putInfo_info_of_ne _ _ other
  have cleared (pid : ProposalId) (other : pid ≠ id) : Cleared (g.info pid) (after.info pid) := by
    have spared := spec.others pid
    rwa [others pid other] at spared
  refine ⟨congrArg (· + 1) spec.version, fun pid => ?_, fun pid => ?_, fun pid absent present => ?_, ?_⟩
  · by_cases same : pid = id
    · rw [same, committed, putInfo_info_self]
      refine .voted there opened rfl rfl ?_
      obtain ⟨state, -⟩ | ⟨state, -⟩ := spec.applied <;> simp [state]
    · rw [committed, putInfo_info_of_ne _ _ same]
      exact .cleared (cleared pid same)
  · obtain kept | ⟨version, record⟩ := spec.proposals pid
    · exact .inl kept
    by_cases same : pid = id
    · exact .inr ⟨version, .inl (by rw [same, there]; simp)⟩
    · rw [others pid same] at record
      exact .inr ⟨version, .inl record⟩
  · have other : pid ≠ id := fun same => by rw [same, there] at absent; simp at absent
    have spared := cleared pid other
    rw [absent] at spared
    rw [committed, putInfo_info_of_ne _ _ other] at present
    exact absurd spared.of_none present
  · obtain ⟨-, applied⟩ | ⟨state, applied⟩ := spec.applied
    · exact .inl applied
    · exact .inr ⟨id, i, _, applied, there, opened, putInfo_info_self _ _, by simp [state]⟩

theorem advances_step (moved : g.step scripts request = some h) : Advances g request h := by
  obtain ⟨-, moved⟩ := ite_none_right_eq_some.mp moved
  have ok {result : Except Error (Tables P B)} (there : result.toOption = some h) : result = .ok h := by
    cases result with
    | error e => exact absurd there (by simp [Except.toOption])
    | ok v => exact congrArg Except.ok (some.inj there)
  cases request with
  | postProposals member readVersion requestDigest body =>
    obtain ⟨reads, posted⟩ := ite_none_right_eq_some.mp moved
    exact advances_postProposals (ok posted) reads
  | withdraw member id => exact advances_withdraw (ok moved)
  | vote member id ballot => exact advances_vote (ok moved)
  | other members =>
    obtain rfl := some.inj moved
    exact ⟨rfl, fun _ => .cleared .same, fun _ => .inl rfl, fun _ absent present => absurd absent present, .inl rfl⟩

end Tables

/-- An identifier is used at most once: the transaction that made it had read a version
before the one that it wrote. -/
structure Tracked (g : Tables P B) : Prop where
  version : ∀ id, (g.proposals id).version ≤ g.version
  unused : ∀ id, (g.proposals id).version = 0 → g.info id = none ∧ id ∉ g.applied
  newer : ∀ id, (g.proposals id).version ≠ 0 → id.readVersion < (g.proposals id).version
  once : g.applied.Nodup
  closed : ∀ id ∈ g.applied, ∀ i, g.info id = some i → i.state ≠ .opened

namespace Tracked
variable {g h : Tables P B} {request : Request P B} {id : ProposalId} {after : Option (ProposalInfo B)}

section
variable (tracked : Tracked g)
include tracked

/-- A transaction that may create a proposal finds its identifier unused. -/
theorem fresh (reads : (g.proposals id).version ≤ id.readVersion) : g.info id = none ∧ id ∉ g.applied := by
  by_contra used
  have written : (g.proposals id).version ≠ 0 := fun zero => used (tracked.unused id zero)
  exact absurd reads (tracked.newer id written).not_ge

theorem closed_progress (progress : Progress g request id after) (there : g.info id = some i)
    (closed : i.state ≠ .opened) : after = none ∨ after = some i := by
  cases progress with
  | cleared cleared =>
    rw [there] at cleared
    cases cleared with
    | same => exact .inr rfl
    | removed => exact .inl rfl
    | dropped opened => exact absurd opened closed
  | created reads => exact absurd (there.symm.trans (tracked.fresh reads).1) (by simp)
  | withdrawn record opened | voted record opened =>
    obtain rfl := some.inj (record.symm.trans there)
    exact absurd opened closed

theorem opened_progress (progress : Progress g request id after) (there : g.info id = some i)
    (opened : i.state = .opened) : ∃ j, after = some j ∧ i.ballots <+: j.ballots := by
  cases progress with
  | cleared cleared =>
    rw [there] at cleared
    cases cleared with
    | same => exact ⟨i, rfl, prefix_rfl⟩
    | removed closed => exact absurd opened closed
    | dropped => exact ⟨_, rfl, prefix_rfl⟩
  | created reads => exact absurd (there.symm.trans (tracked.fresh reads).1) (by simp)
  | withdrawn record =>
    obtain rfl := some.inj (record.symm.trans there)
    exact ⟨_, rfl, prefix_rfl⟩
  | voted record _ _ ballots =>
    obtain rfl := some.inj (record.symm.trans there)
    exact ⟨_, rfl, ballots ▸ prefix_append _ _⟩

theorem withdrawn_progress (progress : Progress g request id (some j)) (there : g.info id = some i)
    (before : i.state ≠ .withdrawn) (after : j.state = .withdrawn) : request = .withdraw i.proposerId id := by
  cases progress with
  | cleared cleared =>
    rw [there] at cleared
    cases cleared with
    | same => exact absurd after before
    | dropped => exact absurd after (by simp)
  | created reads => exact absurd (there.symm.trans (tracked.fresh reads).1) (by simp)
  | withdrawn record _ withdrawn =>
    obtain rfl := some.inj (record.symm.trans there)
    exact withdrawn
  | voted _ _ _ _ kept => exact absurd after kept

theorem step (moved : Advances g request h) : Tracked h where
  version id := by
    rw [moved.version]
    obtain kept | ⟨version, -⟩ := moved.proposals id
    · rw [kept]
      exact (tracked.version id).trans (Nat.le_succ _)
    · exact version.le
  unused id zero := by
    obtain kept | ⟨version, -⟩ := moved.proposals id
    · rw [kept] at zero
      obtain ⟨absent, never⟩ := tracked.unused id zero
      refine ⟨by_contra fun present => ?_, fun member => ?_⟩
      · have written := moved.written id absent present
        rw [kept, zero] at written
        exact absurd written (by simp)
      · obtain same | ⟨other, i, j, applied, there, -⟩ := moved.applied
        · exact never (same ▸ member)
        rw [applied] at member
        obtain rfl | older := mem_cons.mp member
        · exact absurd (there.symm.trans absent) (by simp)
        · exact never older
    · exact absurd (zero.symm.trans version) (by simp)
  newer id written := by
    obtain kept | ⟨version, reason⟩ := moved.proposals id
    · rw [kept] at written ⊢
      exact tracked.newer id written
    rw [version]
    obtain record | reads := reason
    · have used : (g.proposals id).version ≠ 0 := fun zero => record (tracked.unused id zero).1
      exact ((tracked.newer id used).trans_le (tracked.version id)).trans (Nat.lt_succ_self _)
    · exact Nat.lt_succ_of_le reads
  once := by
    obtain same | ⟨id, i, j, applied, there, opened, -⟩ := moved.applied
    · exact same ▸ tracked.once
    · rw [applied]
      exact nodup_cons.mpr ⟨fun member => tracked.closed id member i there opened, tracked.once⟩
  closed id member i there := by
    have older (before : id ∈ g.applied) : i.state ≠ .opened := by
      have progress := there ▸ moved.progress id
      cases record : g.info id with
      | none =>
        cases progress with
        | cleared cleared => rw [record] at cleared; cases cleared
        | created reads => exact absurd before (tracked.fresh reads).2
        | withdrawn known | voted known => exact absurd (record.symm.trans known) (by simp)
      | some k =>
        obtain gone | same := tracked.closed_progress progress record (tracked.closed id before k record)
        · exact absurd gone (by simp)
        · obtain rfl := some.inj same
          exact tracked.closed id before _ record
    obtain same | ⟨other, k, j, applied, -, -, record, closed⟩ := moved.applied
    · exact older (same ▸ member)
    rw [applied] at member
    obtain rfl | before := mem_cons.mp member
    · obtain rfl := some.inj (record.symm.trans there)
      exact closed
    · exact older before

end

end Tracked

/-- Every proposal is applied at most once; a closed one does not change while it is in the
table; an open one keeps its ballots; and only its proposer withdraws it. -/
theorem proposal_life_cycle (scripts : Scripts P B)
    (run : Lib.Run (Tables.step scripts) { version := start, members := members } trace g) :
    (∀ id, g.applied.count id ≤ 1) ∧
    ∀ t ∈ trace, ∀ id i, t.pre.info id = some i →
      (i.state ≠ .opened → t.post.info id = none ∨ t.post.info id = some i) ∧
      (i.state = .opened → ∃ j, t.post.info id = some j ∧ i.ballots <+: j.ballots) ∧
      ∀ j, t.post.info id = some j → i.state ≠ .withdrawn → j.state = .withdrawn →
        t.action = .withdraw i.proposerId id := by
  have tracked : Tracked g ∧ ∀ t ∈ trace, Tracked t.pre ∧ Advances t.pre t.action t.post := by
    induction run with
    | start => exact ⟨⟨fun _ => Nat.zero_le _, fun _ _ => ⟨rfl, by simp⟩, fun _ written => absurd rfl written, .nil, by simp⟩, by simp⟩
    | next _ moved ih =>
      have advances := Tables.advances_step moved
      refine ⟨ih.1.step advances, fun t member => ?_⟩
      obtain rfl | older := mem_cons.mp member
      · exact ⟨ih.1, advances⟩
      · exact ih.2 t older
  refine ⟨fun id => nodup_iff_count_le_one.mp tracked.1.once id, fun t member id i there => ?_⟩
  obtain ⟨before, advances⟩ := tracked.2 t member
  have progress := advances.progress id
  refine ⟨before.closed_progress progress there, before.opened_progress progress there, fun j record open_or_closed withdrawn => ?_⟩
  exact before.withdrawn_progress (record ▸ progress) there open_or_closed withdrawn

/-- Ballots are their own votes; proposal 1 changes the allowed code, others do nothing. -/
def plainScripts : Scripts Nat Bool where
  validate _ := true
  actions proposal := if proposal = 1 then [.addNodeCode] else []
  compiles _ := true
  vote _ ballot _ _ := some ballot

/-- Two active members accept proposal 1, which drops the other open one; its ballots and
its state stay when a third one is then withdrawn, which removes them. -/
theorem proposal_life_cycle_accepted : ∃ trace g,
    Lib.Run (Tables.step plainScripts) { version := 5, members := [(1, .active), (2, .active)] } trace g ∧
    g.applied = [⟨5, 0⟩] ∧ ∀ id, g.applied.count id ≤ 1 := by
  refine Lib.exists_run_of (P := fun _ g => g.applied = [⟨5, 0⟩])
    [.postProposals 1 5 0 1, .postProposals 2 5 1 0, .vote 1 ⟨5, 0⟩ true, .vote 2 ⟨5, 1⟩ false, .vote 2 ⟨5, 0⟩ true,
      .postProposals 2 6 2 0, .withdraw 2 ⟨6, 2⟩] (by decide +kernel) ?_
  exact fun trace g run applied => ⟨applied, (proposal_life_cycle plainScripts run).1⟩

end CCF.Gov
