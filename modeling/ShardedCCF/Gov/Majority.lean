import ShardedCCF.Gov.Proposals

/-! Which members accept a proposal. The constitution counts the ballots that vote
for it against the members that are active, but not whether the members whose
ballots it counts still are. -/
namespace CCF.Gov
open List

variable {P B : Type}

def ProposalInfo.withBallot (i : ProposalInfo B) (member : MemberId) (ballot : B) : ProposalInfo B :=
  { i with ballots := i.ballots ++ [(member, ballot)] }

namespace Tables

def activeMembers (g : Tables P B) : Finset MemberId :=
  ((g.members.filter (·.2 = .active)).map (·.1)).toFinset

variable (scripts : Scripts P B)

def votesFor (g : Tables P B) (proposal : P) (i : ProposalInfo B) (cast : MemberId × B) : Bool :=
  scripts.vote g cast.2 proposal i.proposerId = some true

def supporters (g : Tables P B) (proposal : P) (i : ProposalInfo B) : Finset MemberId :=
  g.activeMembers.filter fun member =>
    i.ballots.any fun cast => cast.1 = member && g.votesFor scripts proposal i cast

variable {scripts} {g h : Tables P B} {id : ProposalId}

theorem mem_activeMembers {member : MemberId} : member ∈ g.activeMembers ↔ g.isActive member = true := by
  simp [activeMembers, isActive]

theorem card_activeMembers_le (g : Tables P B) :
    g.activeMembers.card ≤ (g.members.filter (·.2 = .active)).length := by
  refine (toFinset_card_le _).trans ?_
  rw [length_map]

theorem length_votes (ballots : List (MemberId × B)) (vote : B → Option Bool) :
    (((ballots.map fun ballot => (ballot.1, vote ballot.2)).filterMap fun result =>
        result.2.map (result.1, ·)).filter (·.2)).length =
      (ballots.filter fun cast => vote cast.2 = some true).length := by
  induction ballots with
  | nil => rfl
  | cons cast ballots ih =>
    cases result : vote cast.2 with
    | none => simpa [result] using ih
    | some voted => cases voted <;> simpa [result] using ih

/-- The members of the counted ballots support the proposal if they all are active. -/
theorem length_votesFor_le {proposal : P} {i : ProposalInfo B} (distinct : (i.ballots.map Prod.fst).Nodup)
    (active : ∀ cast ∈ i.ballots, g.votesFor scripts proposal i cast = true → g.isActive cast.1 = true) :
    (i.ballots.filter (g.votesFor scripts proposal i)).length ≤ (g.supporters scripts proposal i).card := by
  have distinct : ((i.ballots.filter (g.votesFor scripts proposal i)).map Prod.fst).Nodup :=
    distinct.sublist (filter_sublist.map Prod.fst)
  rw [← length_map (f := Prod.fst), ← toFinset_card_of_nodup distinct]
  refine Finset.card_le_card fun member listed => ?_
  obtain ⟨cast, counted, rfl⟩ := List.mem_map.mp (List.mem_toFinset.mp listed)
  obtain ⟨present, voted⟩ := mem_filter.mp counted
  refine Finset.mem_filter.mpr ⟨mem_activeMembers.mpr (active cast present voted), ?_⟩
  exact List.any_eq_true.mpr ⟨cast, present, by simpa using voted⟩

/-- A proposal that is accepted has more such ballots than half of the active members. -/
theorem resolved_accepted {proposal : P} {i : ProposalInfo B}
    (resolved : resolveProposal scripts g id proposal i = .ok (rv, h)) (accepted : rv.state = .accepted) :
    g.activeMembers.card < 2 * (i.ballots.filter (g.votesFor scripts proposal i)).length := by
  have counted := length_votes i.ballots fun ballot => scripts.vote g ballot proposal i.proposerId
  have few := g.card_activeMembers_le
  rw [resolveProposal] at resolved
  generalize (i.ballots.map fun ballot => (ballot.1, scripts.vote g ballot.2 proposal i.proposerId)).filterMap
    (fun result => result.2.map (result.1, ·)) = votes at resolved counted
  have more : (g.members.filter (·.2 = .active)).length / 2 < (votes.filter (·.2)).length := by
    by_contra fewer
    have opened : g.resolve votes = .opened := if_neg fewer
    rw [opened] at resolved
    cases resolved
    cases accepted
  change g.activeMembers.card < 2 * (i.ballots.filter fun cast =>
    scripts.vote g cast.2 proposal i.proposerId = some true).length
  omega

theorem step_vote (moved : g.step scripts (.vote member id ballot) = some h) :
    g.vote scripts member id ballot = .ok h := by
  have moved : (g.vote scripts member id ballot).toOption = some h :=
    (Option.ite_none_right_eq_some.mp moved).2
  generalize g.vote scripts member id ballot = result at moved
  cases result with
  | error e => cases moved
  | ok h' =>
    cases moved
    rfl

def OneBallotEach (g : Tables P B) : Prop :=
  ∀ id i, g.info id = some i → (i.ballots.map Prod.fst).Nodup

theorem nodup_withBallot {ballots : List (MemberId × B)} (distinct : (ballots.map Prod.fst).Nodup)
    (unlisted : member ∉ ballots.map Prod.fst) : ((ballots ++ [(member, ballot)]).map Prod.fst).Nodup := by
  rw [map_append]
  refine nodup_append.mpr ⟨distinct, nodup_singleton _, ?_⟩
  intro a listed b last same
  rw [map_singleton, mem_singleton] at last
  have equal : a = member := same.trans last
  exact unlisted (equal ▸ listed)

theorem OneBallotEach.step (single : g.OneBallotEach) (moved : g.step scripts request = some h) :
    h.OneBallotEach := by
  intro id j there
  have progress := (advances_step moved).progress id
  rw [there] at progress
  cases progress with
  | cleared cleared =>
    generalize before : g.info id = record at cleared
    cases cleared with
    | same => exact single id j before
    | dropped =>
      have distinct := single id _ before
      exact distinct
  | created _ _ none_yet => simp [none_yet]
  | withdrawn before =>
    have distinct := single id _ before
    exact distinct
  | voted before _ request_eq ballots =>
    subst request_eq
    obtain ⟨i, -, -, -, -, there', -, -, unlisted, -⟩ := vote_inv (step_vote moved)
    obtain rfl := Option.some.inj (before.symm.trans there')
    rw [ballots]
    exact nodup_withBallot (single id _ before) unlisted

variable (scripts) in
/-- The ballots that vote for the proposal when it is resolved, but for the new one,
are of members that are still active. -/
def BallotsOfActive (g : Tables P B) : Request P B → Prop
  | .vote member id ballot => ∀ i proposal, g.info id = some i → (g.proposals id).value = some proposal →
      ∀ cast ∈ i.ballots,
        (g.putInfo id (i.withBallot member ballot)).votesFor scripts proposal i cast = true → g.isActive cast.1 = true
  | _ => True

variable (scripts) in
/-- A vote accepts the proposal with the ballots of more than half of the members
that are active when it is resolved. -/
def AcceptedByMajority (g : Tables P B) (request : Request P B) (id : ProposalId) : Prop :=
  ∃ member ballot i proposal, request = .vote member id ballot ∧ g.info id = some i ∧
    (g.proposals id).value = some proposal ∧
    (g.putInfo id (i.withBallot member ballot)).activeMembers.card <
      2 * ((g.putInfo id (i.withBallot member ballot)).supporters scripts proposal (i.withBallot member ballot)).card

theorem OneBallotEach.accepted (single : g.OneBallotEach) (moved : g.step scripts request = some h)
    (active : g.BallotsOfActive scripts request) (there : h.info id = some j) (accepted : j.state = .accepted)
    (fresh : ∀ i, g.info id = some i → i.state ≠ .accepted) : g.AcceptedByMajority scripts request id := by
  have progress := (advances_step moved).progress id
  rw [there] at progress
  cases progress with
  | cleared cleared =>
    generalize before : g.info id = record at cleared
    cases cleared with
    | same => exact absurd accepted (fresh j before)
    | dropped => cases accepted
  | created _ opened =>
    rw [opened] at accepted
    cases accepted
  | withdrawn => cases accepted
  | @voted _ member ballot _ _ _ request_eq _ _ =>
    subst request_eq
    obtain ⟨i, proposal, rv, after, voter, before, -, body, unlisted, resolved, rfl⟩ := vote_inv (step_vote moved)
    obtain rfl := Option.some.inj (there.symm.trans (putInfo_info_self _ _))
    have majority := resolved_accepted resolved accepted
    refine ⟨member, ballot, i, proposal, rfl, before, body, majority.trans_le (Nat.mul_le_mul_left 2 ?_)⟩
    refine length_votesFor_le ?_ fun cast listed votes => ?_
    · exact nodup_withBallot (single id i before) unlisted
    · rcases mem_append.mp listed with older | newest
      · exact active i proposal before body cast older votes
      · rw [mem_singleton.mp newest]
        exact voter

end Tables

/-- In a run in which proposals are only resolved while the members whose ballots
vote for them are active, a majority of the active members has accepted every
accepted proposal. -/
theorem accepted_by_majority (scripts : Scripts P B)
    (run : Lib.Run (Tables.step scripts) { version := start, members := members } trace g)
    (active : ∀ t ∈ trace, t.pre.BallotsOfActive scripts t.action) :
    ∀ t ∈ trace, ∀ id j, t.post.info id = some j → j.state = .accepted →
      (∀ i, t.pre.info id = some i → i.state ≠ .accepted) → t.pre.AcceptedByMajority scripts t.action id := by
  have all : g.OneBallotEach ∧ ∀ t ∈ trace, t.pre.OneBallotEach ∧ t.pre.step scripts t.action = some t.post := by
    induction run with
    | start => exact ⟨fun id i there => by simp at there, by simp⟩
    | next _ moved ih =>
      obtain ⟨single, older⟩ := ih fun t member => active t (mem_cons_of_mem _ member)
      refine ⟨single.step moved, fun t member => ?_⟩
      rcases mem_cons.mp member with rfl | before
      · exact ⟨single, moved⟩
      · exact older t before
  intro t member id j there accepted fresh
  obtain ⟨single, moved⟩ := all.2 t member
  exact single.accepted moved (active t member) there accepted fresh

/-- Ballots are their own votes; proposal 1 removes member 1, others do nothing. -/
def removalScripts : Scripts Nat Bool where
  validate _ := true
  actions proposal :=
    if proposal = 1 then [.other fun members => some (members.filter (·.1 ≠ 1))] else []
  compiles _ := true
  vote _ ballot _ _ := some ballot

def threeMembers : Tables Nat Bool :=
  { version := 5, members := [(1, .active), (2, .active), (3, .active)] }

theorem accepted_by_majority_of_three : ∃ trace g, Lib.Run (Tables.step removalScripts) threeMembers trace g ∧
    ∃ t ∈ trace, t.pre.AcceptedByMajority removalScripts t.action ⟨5, 0⟩ := by
  refine Lib.exists_run_of (P := fun trace _ =>
    (∃ t ∈ trace, (∃ j ∈ t.post.info ⟨5, 0⟩, j.state = .accepted) ∧ ∀ i ∈ t.pre.info ⟨5, 0⟩, i.state ≠ .accepted) ∧
    ∀ t ∈ trace, (match t.action with
      | .vote _ id _ => (t.pre.info id).all fun i => i.ballots.all fun cast => t.pre.isActive cast.1
      | _ => true) = true)
    [.postProposals 1 5 0 0, .vote 1 ⟨5, 0⟩ true, .vote 2 ⟨5, 0⟩ true] (by decide +kernel) ?_
  intro trace g run ⟨⟨t, member, ⟨j, there, accepted⟩, fresh⟩, active⟩
  refine ⟨t, member, accepted_by_majority removalScripts run (fun u listed => ?_) t member ⟨5, 0⟩ j there accepted fresh⟩
  have still := active u listed
  generalize u.action = request at still
  cases request with
  | vote voter id ballot =>
    intro i proposal before _ cast present _
    dsimp only at still
    rw [before] at still
    exact List.all_eq_true.mp still cast present
  | _ => trivial

/-- Member 1 votes for a proposal and is removed by another one. With the ballot of
member 2 the proposal is accepted, though only one of two active members is for it. -/
theorem accepted_with_removed_member : ∃ trace g h,
    Lib.Run (Tables.step removalScripts) threeMembers trace g ∧
    g.step removalScripts (.vote 2 ⟨5, 0⟩ true) = some h ∧
    (g.info ⟨5, 0⟩).map (·.state) = some .opened ∧ (h.info ⟨5, 0⟩).map (·.state) = some .accepted ∧
    ¬ g.AcceptedByMajority removalScripts (.vote 2 ⟨5, 0⟩ true) ⟨5, 0⟩ := by
  obtain ⟨trace, g, run, ⟨h, moved, accepted⟩, i, before, opened, minority⟩ :
      ∃ trace g, Lib.Run (Tables.step removalScripts) threeMembers trace g ∧
        (∃ h ∈ g.step removalScripts (.vote 2 ⟨5, 0⟩ true), (h.info ⟨5, 0⟩).map (·.state) = some .accepted) ∧
        ∃ i ∈ g.info ⟨5, 0⟩, i.state = .opened ∧ ¬ (g.putInfo ⟨5, 0⟩ (i.withBallot 2 true)).activeMembers.card <
          2 * ((g.putInfo ⟨5, 0⟩ (i.withBallot 2 true)).supporters removalScripts 0 (i.withBallot 2 true)).card :=
    Lib.exists_run [.postProposals 1 5 0 0, .vote 1 ⟨5, 0⟩ true, .postProposals 2 5 1 1, .vote 2 ⟨5, 1⟩ true,
      .vote 3 ⟨5, 1⟩ true] (by decide +kernel)
  refine ⟨trace, g, h, run, moved, by rw [before]; exact congrArg some opened, accepted, ?_⟩
  rintro ⟨member, ballot, i', proposal, request, there, -, majority⟩
  cases request
  obtain rfl := Option.some.inj (before.symm.trans there)
  -- the ballots do not look at the proposal
  exact minority majority

end CCF.Gov
