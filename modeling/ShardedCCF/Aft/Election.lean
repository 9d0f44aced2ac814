import ShardedCCF.Aft.StepDown

/-! At most one node ever leads a view of a service with fixed membership. A candidate that
hears of a primary of its view forgets its own vote and may vote again, so a node can vote
twice in a view: the vote that counts is the last one. -/
namespace CCF.Aft
open List Function

variable {NodeId : Type} [LinearOrder NodeId] {everyone : Finset NodeId} {primary n : NodeId}
  {ballot : NodeId → Nat → Option NodeId} {won : Set (NodeId × Nat)} {sys : System NodeId} {r s : Replica NodeId}

/-- The primary that starts the service is not elected; any other one is, by a quorum. -/
def Won (everyone : Finset NodeId) (primary : NodeId) (ballot : NodeId → Nat → Option NodeId) (w : NodeId) (v : Nat) : Prop :=
  v = startingViewChange ∧ w = primary ∨ startingViewChange < v ∧
    ∃ voters : Finset NodeId, getQuorum everyone.card ≤ voters.card ∧ ∀ u ∈ voters, ballot u v = some w

omit [LinearOrder NodeId] in
theorem Won.start_le (wins : Won everyone primary ballot w v) : startingViewChange ≤ v :=
  wins.elim (fun start => start.1.ge) fun later => later.1.le

theorem Won.unique (full : ∀ id, id ∈ everyone) (first : Won everyone primary ballot x v)
    (second : Won everyone primary ballot y v) : x = y := by
  rcases first with ⟨start, rfl⟩ | ⟨later, voters, many, backed⟩
  · rcases second with ⟨-, rfl⟩ | ⟨later, -⟩
    · rfl
    · exact absurd start later.ne'
  · obtain ⟨-, others, most, backed'⟩ := second.resolve_left fun start => later.ne' start.1
    have overlap : everyone.card < voters.card + others.card := by
      unfold getQuorum at many most
      omega
    obtain ⟨u, member⟩ := Finset.inter_nonempty_of_card_lt_card_add_card (fun u _ => full u) (fun u _ => full u) overlap
    obtain ⟨left, right⟩ := Finset.mem_inter.mp member
    exact Option.some.inj ((backed u left).symm.trans (backed' u right))

structure Replica.Polled (everyone : Finset NodeId) (ballot : NodeId → Nat → Option NodeId) (won : Set (NodeId × Nat))
    (n : NodeId) (r : Replica NodeId) : Prop where
  members : insert n r.known = everyone
  ticks : r.ticking = true → startingViewChange ≤ r.currentView
  now : ballot n r.currentView = r.votedFor
  future : ∀ v, r.currentView < v → ballot n v = none
  stood : r.leadershipState = some .candidate → startingViewChange < r.currentView ∧ r.votedFor = some n ∧
    ∀ u ∈ r.votesForMe, ballot u r.currentView = some n
  leads : r.leadershipState = some .leader → (n, r.currentView) ∈ won

/-- The votes of all nodes once node `n` is in the state `r`. -/
def revote (ballot : NodeId → Nat → Option NodeId) (n : NodeId) (r : Replica NodeId) : NodeId → Nat → Option NodeId :=
  update ballot n (update (ballot n) r.currentView r.votedFor)

theorem revote_of_ne (other : u ≠ n) : revote ballot n r u = ballot u := update_of_ne other ..

theorem revote_now : revote ballot n r n r.currentView = r.votedFor := by
  rw [revote, update_self, update_self]

theorem revote_past (other : v ≠ r.currentView) : revote ballot n r n v = ballot n v := by
  rw [revote, update_self, update_of_ne other]

/-- A vote is lost only if the node forgets it. -/
theorem Replica.Polled.kept (node : s.Polled everyone ballot won n) (view : s.currentView ≤ r.currentView)
    (keeps : r.currentView = s.currentView → s.votedFor = some m → v = r.currentView → r.votedFor = some m)
    (voted : ballot n v = some m) : revote ballot n r n v = some m := by
  by_cases current : v = r.currentView
  · subst current
    rcases view.eq_or_lt with stays | later
    · rw [← stays, node.now] at voted
      exact revote_now.trans (keeps stays.symm voted rfl)
    · rw [node.future _ later] at voted
      cases voted
  · rwa [revote_past current]

def Envelope.Polled (ballot : NodeId → Nat → Option NodeId) (won : Set (NodeId × Nat)) (m : Envelope NodeId) : Prop :=
  match m.message with
  | .requestVoteResponse ⟨v, true⟩ => m.dest ≠ m.source → ballot m.source v = some m.dest
  | .appendEntries ae _ => m.source ≠ m.dest ∧ (m.source, ae.term) ∈ won
  | _ => True

namespace System

structure Polled (everyone : Finset NodeId) (primary : NodeId) (ballot : NodeId → Nat → Option NodeId)
    (won : Set (NodeId × Nat)) (sys : System NodeId) : Prop where
  full : ∀ id, id ∈ everyone
  replicas : ∀ n, (sys.replica n).Polled everyone ballot won n
  sent : ∀ m ∈ sys.sent, m.Polled ballot won
  won : ∀ w v, (w, v) ∈ won → Won everyone primary ballot w v

/-- The leaders of the past are among the winners, and its messages have been sent. -/
def Elects (primary : NodeId) (past : Set (NodeId × Nat)) (mail : Set (Envelope NodeId)) (sys : System NodeId) : Prop :=
  ∃ everyone ballot won, past ⊆ won ∧ mail ⊆ sys.sent ∧ sys.Polled everyone primary ballot won

theorem Polled.unique (polled : sys.Polled everyone primary ballot won) (first : (x, v) ∈ won) (second : (y, v) ∈ won) :
    x = y :=
  (polled.won x v first).unique polled.full (polled.won y v second)

variable {msgs : Sent NodeId}

/-- One node moves, and only its vote of the view it is then in may change. -/
theorem Polled.move (polled : sys.Polled everyone primary ballot won) (grows : won ⊆ more)
    (known : r.known = (sys.replica n).known) (ticks : r.ticking = true → startingViewChange ≤ r.currentView)
    (view : (sys.replica n).currentView ≤ r.currentView)
    (keeps : ∀ m, r.currentView = (sys.replica n).currentView → (sys.replica n).votedFor = some m →
      m ≠ n ∨ (n, r.currentView) ∈ more → r.votedFor = some m)
    (stood : r.leadershipState = some .candidate → startingViewChange < r.currentView ∧ r.votedFor = some n ∧
      ∀ u ∈ r.votesForMe, u = n ∨ ballot u r.currentView = some n)
    (leads : r.leadershipState = some .leader → (n, r.currentView) ∈ more)
    (sends : ∀ b, b n r.currentView = r.votedFor → ∀ m ∈ msgs, Envelope.Polled b more ⟨n, m.1, m.2⟩)
    (wins : ∀ w v, (w, v) ∈ more → Won everyone primary ballot w v) :
    (sys.move n r msgs).Elects primary won sys.sent := by
  have node := polled.replicas n
  have kept {u m : NodeId} {v : Nat} (voted : ballot u v = some m) (counts : u = n → m ≠ n ∨ (n, v) ∈ more) :
      revote ballot n r u v = some m := by
    by_cases same : u = n
    · subst same
      exact node.kept view (fun stays before now => keeps m stays before (now ▸ counts rfl)) voted
    · rwa [revote_of_ne same]
  refine ⟨everyone, revote ballot n r, more, grows, fun _ old => .inl old, polled.full, fun k => ?_, ?_, fun w v winner => ?_⟩
  · by_cases same : k = n
    · simp only [same, System.move, update_self]
      refine ⟨by rw [known, node.members], ticks, revote_now, fun v later => ?_, fun candidate => ?_, leads⟩
      · exact (revote_past later.ne').trans (node.future v (view.trans_lt later))
      · obtain ⟨later, voted, backed⟩ := stood candidate
        refine ⟨later, voted, fun u member => ?_⟩
        by_cases same : u = n
        · rw [same, revote_now, voted]
        · rw [revote_of_ne same]
          exact (backed u member).resolve_left same
    · simp only [System.move, update_of_ne same]
      obtain ⟨members, ticks, now, future, stood, leads⟩ := polled.replicas k
      refine ⟨members, ticks, by rwa [revote_of_ne same], by rwa [revote_of_ne same], fun candidate => ?_,
        fun leader => grows (leads leader)⟩
      exact (stood candidate).imp_right (.imp_right fun backed u member => kept (backed u member) fun _ => .inl same)
  · rintro m (old | ⟨rfl, new⟩)
    · have before := polled.sent m old
      unfold Envelope.Polled at before ⊢
      split at before
      · exact fun other => kept (before other) fun same => .inl (same ▸ other)
      · exact before.imp_right fun winner => grows winner
      · trivial
    · exact sends _ revote_now _ new
  · rcases wins w v winner with start | ⟨later, voters, many, backed⟩
    · exact .inl start
    refine .inr ⟨later, voters, many, fun u member => kept (backed u member) fun _ => ?_⟩
    by_cases same : w = n
    · exact .inr (same ▸ winner)
    · exact .inl same

/-- The ballot stays as it is, unless the node steps down. -/
theorem Polled.quiet (polled : sys.Polled everyone primary ballot won)
    (known : r.known = (sys.replica n).known) (view : r.currentView = (sys.replica n).currentView)
    (voted : r.votedFor = (sys.replica n).votedFor) (votes : r.votesForMe = (sys.replica n).votesForMe)
    (role : r.leadershipState = (sys.replica n).leadershipState ∨ r.leadershipState = some .follower)
    (ticks : r.ticking = true → startingViewChange ≤ (sys.replica n).currentView)
    (sends : ∀ b, ∀ m ∈ msgs, Envelope.Polled b won ⟨n, m.1, m.2⟩) : (sys.move n r msgs).Elects primary won sys.sent := by
  have node := polled.replicas n
  have stays {state : LeadershipState} (holds : r.leadershipState = some state) (other : state ≠ .follower) :
      (sys.replica n).leadershipState = some state := by
    rcases role with same | follower
    · rwa [← same]
    · exact absurd (Option.some.inj (holds.symm.trans follower)) other
  refine polled.move subset_rfl known (view ▸ ticks) view.ge (fun m _ before _ => voted.trans before) (fun candidate => ?_)
    (fun leader => ?_) (fun b _ => sends b) polled.won
  · obtain ⟨later, own, backed⟩ := node.stood (stays candidate (by rintro ⟨⟩))
    rw [view, voted, votes]
    exact ⟨later, own, fun u member => .inr (backed u member)⟩
  · rw [view]
    exact node.leads (stays leader (by rintro ⟨⟩))

theorem Polled.lead (polled : sys.Polled everyone primary ballot won) (named : (sys.replica n).id = n) {log : Log NodeId}
    (candidate : (sys.replica n).leadershipState = some .candidate) (elected : (sys.replica n).Elected) :
    (sys.move n ((sys.replica n).lead log (sys.replica n).known) []).Elects primary won sys.sent := by
  have node := polled.replicas n
  obtain ⟨later, -, backed⟩ := node.stood candidate
  have quorum : getQuorum everyone.card ≤ (sys.replica n).votesForMe.card := by
    have absent := elected.1
    rw [named] at absent
    rw [← node.members, Finset.card_insert_of_notMem absent]
    exact elected.2
  refine polled.move (Set.subset_insert (n, (sys.replica n).currentView) won) rfl node.ticks le_rfl (fun _ _ voted _ => voted)
    (by rintro ⟨⟩) (fun _ => Set.mem_insert ..) (by simp) ?_
  rintro w v (⟨⟨⟩⟩ | old)
  · exact .inr ⟨later, _, quorum, backed⟩
  · exact polled.won w v old

theorem Polled.micro (polled : sys.Polled everyone primary ballot won) (named : (sys.replica n).id = n)
    (heard : sys.Heard n received) (micro : Micro (Mode.rules .fixedMembership) received (sys.replica n) msgs r) :
    (sys.move n r msgs).Elects primary won sys.sent := by
  have node := polled.replicas n
  have told {source : NodeId} {m : Message NodeId} (equal : received = some (source, m)) :
      Envelope.Polled ballot won ⟨source, n, m⟩ := polled.sent _ (heard source m equal)
  cases micro with
  | @refuse _ m dest refuses =>
    refine polled.quiet rfl rfl rfl rfl (.inl rfl) node.ticks fun _ => ?_
    rw [forall_mem_singleton]
    rcases m with _ | _ | _ | ⟨_, _ | _⟩ <;> trivial
  | sendEntries empowered other able =>
    have leader := empowered.resolve_right (by rintro ⟨⟨⟩, -⟩)
    obtain ⟨ae, payload, rfl, term⟩ := able.isAppend
    refine polled.quiet rfl rfl rfl rfl (.inl rfl) node.ticks fun _ => ?_
    rw [forall_mem_singleton]
    exact ⟨fun same => other (same.symm.trans named.symm), term ▸ node.leads leader⟩
  | stray unrestricted => cases unrestricted
  | askVote dest =>
    exact polled.quiet rfl rfl rfl rfl (.inl rfl) node.ticks (by simp [Envelope.Polled, Log.requestVoteMessage])
  | adopt hears _ may _ keeps =>
    obtain ⟨rfl, rfl⟩ := keeps rfl
    obtain rfl := may.resolve_right fun other => other.1 rfl
    have view := hears.elim le_of_lt fun same => same.1.ge
    refine polled.move subset_rfl rfl (fun runs => (node.ticks runs).trans view) view ?_ (by rintro ⟨⟩) (by rintro ⟨⟩) (by simp)
      polled.won
    intro m stays voted counts
    -- a candidate of the view itself: another node has won it
    obtain ⟨same, candidate, source, ae, payload, equal, rfl⟩ := hears.resolve_left (stays : _ = _).not_gt
    obtain rfl : n = m := Option.some.inj ((node.stood candidate).2.1.symm.trans voted)
    obtain ⟨other, winner⟩ := told equal
    exact absurd (polled.unique winner (counts.resolve_left (not_not.mpr rfl))) other
  | stepDown leader _ may keeps =>
    obtain ⟨rfl, rfl⟩ := keeps rfl
    obtain rfl := may.resolve_right fun other => other.1 rfl
    exact polled.quiet rfl rfl rfl rfl (.inr rfl) node.ticks (by simp)
  | stand runs backup =>
    have start := node.ticks runs
    refine polled.move subset_rfl rfl (fun _ => start.trans (Nat.le_succ _)) (Nat.le_succ _) ?_
      (fun _ => ⟨Nat.lt_succ_of_le start, congrArg some named, by simp [Replica.stand]⟩) (by rintro ⟨⟩) (by simp) polled.won
    exact fun m stays => absurd stays (Nat.succ_ne_self _)
  | vote candidate votes =>
    obtain ⟨later, own, backed⟩ := node.stood candidate
    refine polled.move subset_rfl rfl node.ticks le_rfl (fun m _ voted _ => voted)
      (fun _ => ⟨later, own, fun u member => ?_⟩) node.leads (by simp) polled.won
    rcases Finset.mem_insert.mp member with rfl | old
    · rcases votes with same | ⟨-, ⟨_, _⟩, equal, rfl, rfl⟩
      · exact .inl (same.trans named)
      · exact or_iff_not_imp_left.mpr fun other => told equal (Ne.symm other)
    · exact .inr (backed u old)
  | lead candidate elected _ same =>
    obtain rfl := same rfl
    exact polled.lead named candidate (elected (by rintro ⟨⟩))
  | leadFresh candidate elected => exact polled.lead named candidate (elected (by rintro ⟨⟩))
  | @grant source _ _ _ _ _ _ unvoted _ answers =>
    have keeps (m : NodeId) (voted : (sys.replica n).votedFor = some m) : some source = some m :=
      unvoted.elim (fun none => by rw [none] at voted; cases voted) fun same => same.symm.trans voted
    refine polled.move subset_rfl rfl node.ticks le_rfl (fun m _ voted _ => keeps m voted) (fun candidate => ?_) node.leads
      (fun b voted => ?_) polled.won
    · obtain ⟨later, own, backed⟩ := node.stood candidate
      exact ⟨later, keeps n own, fun u member => .inr (backed u member)⟩
    · rcases answers with rfl | rfl
      · simp
      · rw [forall_mem_singleton]
        exact fun _ => voted
  | accept _ _ _ _ _ _ _ _ _ _ keeps _ answers =>
    obtain ⟨rfl, -⟩ := keeps rfl
    refine polled.quiet rfl rfl rfl rfl (.inl rfl) node.ticks ?_
    rcases answers with rfl | ⟨-, rfl⟩ <;> simp [Envelope.Polled]
  | append _ _ _ _ keeps | commitConfirmed _ _ _ keeps | discard _ _ keeps =>
    obtain ⟨rfl, -⟩ := keeps rfl
    exact polled.quiet rfl rfl rfl rfl (.inl rfl) node.ticks (by simp)
  | leadFail | recognise | ack | nack | requireEvidence =>
    exact polled.quiet rfl rfl rfl rfl (.inl rfl) node.ticks (by simp)
  | demote _ reconfigures => exact absurd rfl reconfigures
  | startTicking runs =>
    refine polled.quiet rfl rfl rfl rfl (.inl rfl) (fun _ => ?_) (by simp)
    rcases runs with (leader | ⟨unrestricted, -⟩) | ⟨source, ae, payload, equal, term⟩
    · exact (polled.won _ _ (node.leads leader)).start_le
    · cases unrestricted
    · exact term ▸ (polled.won _ _ (told equal).2).start_le

theorem preserves_elects (primary : NodeId) (past : Set (NodeId × Nat)) (mail : Set (Envelope NodeId)) :
    Preserves (Mode.rules .fixedMembership) (Elects primary past mail) := by
  rintro sys n received msgs r ⟨everyone, ballot, won, before, had, polled⟩ named heard micro
  obtain ⟨everyone, ballot, more, grows, keeps, moved⟩ := polled.micro named heard micro
  exact ⟨everyone, ballot, more, before.trans grows, had.trans keeps, moved⟩

end System

namespace Cluster
variable {settings : Settings NodeId} {c : Cluster NodeId} {past : Set (NodeId × Nat)}
  {mail : Set (Envelope NodeId)}

/-- The entries that an action adds to a log, unless the node refuses them. -/
def offered (c : Cluster NodeId) : Action NodeId → List (Entry NodeId)
  | .replicate _ _ entries _ => entries
  | .deliver _ k =>
    match c.net[k]? with
    | some ⟨_, _, .appendEntries _ payload⟩ => payload
    | _ => []
  | _ => []

def leaders (c : Cluster NodeId) : Set (NodeId × Nat) :=
  { l | (c.node l.1).leadershipState = some .leader ∧ (c.node l.1).currentView = l.2 }

def Elects (primary : NodeId) (past : Set (NodeId × Nat)) (mail : Set (Envelope NodeId)) (c : Cluster NodeId) : Prop :=
  ∃ sys, c.Reflects sys ∧ c.Regular .fixedMembership ∧ sys.Elects primary past mail

theorem initial_elects (fits : settings.Fits .fixedMembership) (primary : NodeId) :
    (initial settings primary).Elects primary ∅ ∅ := by
  obtain ⟨sys, reflects, regular, starts⟩ := initial_starts primary fits
  have full (n : NodeId) : ∀ id, id ∈ insert n (sys.replica n).known := by
    have members := (starts.members rfl n).1
    rwa [Replica.members, starts.id_eq] at members
  have members (n : NodeId) : insert n (sys.replica n).known = insert primary (sys.replica primary).known := by
    ext id
    exact iff_of_true (full n id) (full primary id)
  have idle {n : NodeId} (runs : (sys.replica n).ticking = true) : startingViewChange ≤ (sys.replica n).currentView := by
    rw [starts.ticking n] at runs
    cases runs
  refine ⟨sys, reflects, regular, _, fun _ _ => none, {(primary, startingViewChange)}, Set.empty_subset _,
    Set.empty_subset _, full primary, fun n => ?_, fun m member => ?_, ?_⟩
  · by_cases same : n = primary
    · subst same
      refine ⟨rfl, idle, ?_, fun _ _ => rfl, ?_, ?_⟩ <;> rw [starts.ballot_primary]
      · rintro ⟨⟩
      · exact fun _ => rfl
    · obtain ⟨role, ballot, settled⟩ := starts.ballot_backup n same
      refine ⟨members n, idle, ?_, fun _ _ => rfl, ?_, ?_⟩ <;> rw [ballot]
      all_goals rcases settled with rfl | rfl <;> rintro ⟨⟩
  · obtain ⟨source, dest, able⟩ := starts.sent m member
    obtain ⟨ae, payload, equal, term⟩ := able.isAppend
    simp only [Envelope.Polled, equal]
    exact ⟨source.trans_ne dest.symm, congrArg₂ Prod.mk source term⟩
  · rintro w v ⟨⟩
    exact .inl ⟨rfl, rfl⟩

theorem allows_fixed (reflects : c.Reflects sys) (regular : c.Regular .fixedMembership)
    (elects : sys.Elects primary past mail) (plain : ∀ e ∈ c.offered a, e.Plain) : c.Allows (Mode.rules .fixedMembership) a := by
  obtain ⟨everyone, ballot, won, -, -, polled⟩ := elects
  cases a with
  | tick env n elapsed => exact ⟨fun _ => trivial, fun _ => trivial⟩
  | replicate env n entries term => exact ⟨by rintro ⟨⟩, fun _ => plain⟩
  | deliver env k =>
    rintro ⟨source, dest, message⟩ found
    have adopts (term : Nat) : (c.node dest).MayAdopt env (Mode.rules .fixedMembership) term := by
      refine ⟨trivial, fun _ => ?_⟩
      obtain ⟨-, -, may, -⟩ := (c.node dest).becomeAwareOfNewTerm_spec env term (regular dest)
      rw [may.resolve_right fun other => other.1 rfl]
      rintro ⟨⟩
    cases message with
    | appendEntries ae payload =>
      refine ⟨fun _ => adopts _, fun _ view leader => ?_, fun _ => trivial, fun _ _ => by rintro ⟨⟩, fun _ => ?_⟩
      -- the sender of the batch has won the view, and is not the receiver
      · obtain ⟨other, winner⟩ := polled.sent _ (reflects.in_flight _ (mem_of_getElem? found))
        have led := (polled.replicas dest).leads (by rw [reflects.replica_eq]; exact leader)
        rw [reflects.replica_eq] at led
        exact other (polled.unique winner (view ▸ led))
      · simpa only [offered, found] using plain
    | appendEntriesResponse aer => exact ⟨fun _ => adopts _, trivial⟩
    | requestVote rv => exact fun _ => adopts _
    | requestVoteResponse a => exact fun _ => adopts _
  | lose k => trivial

theorem step_elects (elects : c.Elects primary past mail) (taken : c.step a = some d)
    (plain : ∀ e ∈ c.offered a, e.Plain) : d.Elects primary past mail := by
  obtain ⟨sys, reflects, regular, elects⟩ := elects
  have allows := allows_fixed reflects regular elects plain
  exact step_inv (System.preserves_elects primary past mail) taken allows reflects regular elects

theorem Elects.seen (elects : c.Elects primary past mail) :
    c.Elects primary (past ∪ c.leaders) (mail ∪ { m | m ∈ c.net }) := by
  obtain ⟨sys, reflects, regular, everyone, ballot, won, before, had, polled⟩ := elects
  refine ⟨sys, reflects, regular, everyone, ballot, won, Set.union_subset before ?_,
    Set.union_subset had reflects.in_flight, polled⟩
  rintro ⟨n, view⟩ ⟨leader, rfl : (c.node n).currentView = view⟩
  have led := (polled.replicas n).leads (by rw [reflects.replica_eq]; exact leader)
  rwa [reflects.replica_eq] at led

/-- Two moments of a run in which no entry changes the membership. -/
structure Moments (settings : Settings NodeId) (primary : NodeId) (c d : Cluster NodeId) : Prop where
  fits : settings.Fits .fixedMembership
  runs : ∃ trace later, Run settings primary trace c ∧ Lib.Run step c later d ∧
    ∀ t ∈ later ++ trace, ∀ e ∈ t.pre.offered t.action, e.Plain

theorem Moments.polled (moments : Moments settings primary c d) :
    ∃ everyone ballot won sys, System.Polled everyone primary ballot won sys ∧
      c.leaders ⊆ won ∧ d.leaders ⊆ won ∧ (∀ m ∈ c.net, m ∈ sys.sent) ∧ ∀ m ∈ d.net, m ∈ sys.sent := by
  obtain ⟨fits, trace, later, run, rest, plain⟩ := moments
  have before : c.Elects primary ∅ ∅ := run.invariant_of (fun t member => plain t (mem_append_right _ member)) _
    (initial_elects fits primary) fun _ _ _ elects => step_elects elects
  have after := rest.invariant_of (fun t member => plain t (mem_append_left _ member)) _ before.seen
    fun _ _ _ elects => step_elects elects
  obtain ⟨sys, -, -, everyone, ballot, won, leaders, mail, polled⟩ := after.seen
  exact ⟨everyone, ballot, won, sys, polled, fun l member => leaders (.inl (.inr member)),
    fun l member => leaders (.inr member), fun m member => mail (.inl (.inr member)), fun m member => mail (.inr member)⟩

theorem exists_moments {P : Cluster (Fin 3) → Prop} [DecidablePred P] (actions : List (Action (Fin 3)))
    (checked : (Lib.execute step [] (initial threeNodes 0) actions).any (fun reached => decide ((∀ t ∈ reached.1,
      ∀ e ∈ t.pre.offered t.action, ∀ change ∈ e.hooks, change.cfgDelta = []) ∧ P reached.2)) = true) :
    ∃ c, Moments threeNodes 0 c c ∧ P c := by
  obtain ⟨trace, c, run, plain, holds⟩ := Lib.exists_run (P := fun trace c => (∀ t ∈ trace,
    ∀ e ∈ t.pre.offered t.action, ∀ change ∈ e.hooks, change.cfgDelta = []) ∧ P c) actions checked
  have fits : threeNodes.Fits .fixedMembership :=
    ⟨fun _ => ⟨rfl, fun _ => rfl⟩, fun _ => ⟨_, rfl, by decide +kernel⟩⟩
  exact ⟨c, ⟨fits, trace, [], run, .start, plain⟩, holds⟩

/-- A view has one leader, then and later. -/
theorem one_leader_per_view (moments : Moments settings primary c d) {m n : NodeId}
    (first : (c.node m).leadershipState = some .leader) (second : (d.node n).leadershipState = some .leader)
    (same : (c.node m).currentView = (d.node n).currentView) : m = n := by
  obtain ⟨everyone, ballot, won, sys, polled, left, right, -⟩ := moments.polled
  exact polled.unique (left ⟨first, same⟩) (right ⟨second, rfl⟩)

theorem one_leader_per_view_elected :
    ∃ c, Moments threeNodes 0 c c ∧ (c.node 1).leadershipState = some .leader ∧ (c.node 1).currentView = 3 ∧
      ∀ n, (c.node n).leadershipState = some .leader → (c.node n).currentView = 3 → n = 1 := by
  obtain ⟨c, moments, leader, view⟩ := exists_moments (P := fun c => (c.node 1).leadershipState = some .leader ∧
    (c.node 1).currentView = 3) electedWithSignature (by decide +kernel)
  refine ⟨c, moments, leader, view, fun n leads same => ?_⟩
  exact (one_leader_per_view moments leader leads (view.trans same.symm)).symm

/-- A node votes for one other node in a view. -/
theorem one_vote_per_view (moments : Moments settings primary c d) {u m n : NodeId} {view : Nat}
    (first : ⟨u, m, .requestVoteResponse ⟨view, true⟩⟩ ∈ c.net)
    (second : ⟨u, n, .requestVoteResponse ⟨view, true⟩⟩ ∈ d.net) (left : m ≠ u) (right : n ≠ u) : m = n := by
  obtain ⟨everyone, ballot, won, sys, polled, -, -, before, after⟩ := moments.polled
  have voted : ballot u view = some m := polled.sent _ (before _ first) left
  have again : ballot u view = some n := polled.sent _ (after _ second) right
  exact Option.some.inj (voted.symm.trans again)

theorem one_vote_per_view_granted :
    ∃ c, Moments threeNodes 0 c c ∧ ⟨2, 1, .requestVoteResponse ⟨3, true⟩⟩ ∈ c.net ∧
      ∀ n, n ≠ 2 → ⟨2, n, .requestVoteResponse ⟨3, true⟩⟩ ∈ c.net → n = 1 := by
  obtain ⟨c, moments, granted⟩ := exists_moments (P := fun c => ⟨2, 1, .requestVoteResponse ⟨3, true⟩⟩ ∈ c.net)
    electedWithSignature.dropLast (by decide +kernel)
  exact ⟨c, moments, granted, fun n other again => one_vote_per_view moments again granted other (by decide)⟩

/-- The entries of a view come from one node. -/
theorem one_sender_per_view (moments : Moments settings primary c d) {m n p q : NodeId} {ae ae' : AppendEntries}
    {payload payload' : List (Entry NodeId)} (first : ⟨m, p, .appendEntries ae payload⟩ ∈ c.net)
    (second : ⟨n, q, .appendEntries ae' payload'⟩ ∈ d.net) (same : ae.term = ae'.term) : m = n := by
  obtain ⟨everyone, ballot, won, sys, polled, -, -, before, after⟩ := moments.polled
  obtain ⟨-, left⟩ := polled.sent _ (before _ first)
  obtain ⟨-, right⟩ := polled.sent _ (after _ second)
  exact polled.unique left (same ▸ right)

theorem one_sender_per_view_elected :
    ∃ c, Moments threeNodes 0 c c ∧ ⟨1, 2, .appendEntries ⟨2, 2, 3, 2, 1, 2⟩ []⟩ ∈ c.net ∧
      ∀ n q ae payload, ⟨n, q, .appendEntries ae payload⟩ ∈ c.net → ae.term = 3 → n = 1 := by
  obtain ⟨c, moments, sent⟩ := exists_moments (P := fun c => ⟨1, 2, .appendEntries ⟨2, 2, 3, 2, 1, 2⟩ []⟩ ∈ c.net)
    electedWithSignature (by decide +kernel)
  exact ⟨c, moments, sent, fun n q ae payload other view => one_sender_per_view moments other sent view⟩

end Cluster
end CCF.Aft
