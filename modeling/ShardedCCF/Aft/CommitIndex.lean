import ShardedCCF.Aft.NodeTable
import ShardedCCF.Aft.Start
import ShardedCCF.Aft.WellFormed

/-! The commit index of a node, whatever it receives and whoever calls it: it
never goes back, it lands on signatures, and nothing at or below it changes. -/
namespace CCF.Aft
open Std (ExtTreeMap)

variable {NodeId : Type}

/-- Messages of primaries belong to a view, and views start above 0. -/
def Message.InView : Message NodeId → Prop
  | .appendEntries ae _ => 1 ≤ ae.term
  | _ => True

theorem Message.Refuses.inView {m : Message NodeId} (refuses : m.Refuses) : m.InView := by
  cases m with
  | appendEntries ae payload => exact refuses.elim
  | _ => trivial

namespace Replica

/-- A replica whose log is well formed; the store knows a term before the first
entry. -/
structure Grounded (r : Replica NodeId) : Prop where
  formed : r.toLog.WellFormed
  viewed : r.leadershipState = some .leader ∨ r.leadershipState = some .candidate → 1 ≤ r.currentView
  versioned : r.leadershipState ≠ some .candidate → 1 ≤ r.currentView → r.termOfNextVersion ≠ 0
  unversioned : r.termOfNextVersion = 0 → r.ledger = []
  unviewed : r.currentView = 0 → r.ledger = []

variable {r t : Replica NodeId} {rules : Rules NodeId} {received : Option (NodeId × Message NodeId)}
  {msgs : Sent NodeId}

theorem Grounded.empowered (grounded : r.Grounded) (empowered : r.Empowered rules) :
    1 ≤ r.currentView ∧ r.termOfNextVersion ≠ 0 := by
  rcases empowered with leader | ⟨-, -, view, version⟩
  · have view := grounded.viewed (.inl leader)
    exact ⟨view, grounded.versioned (by simp [leader]) view⟩
  · exact ⟨view, version⟩

theorem Grounded.initialised (grounded : r.Grounded) (initialised : r.Initialised)
    (view : 1 ≤ r.currentView) : r.termOfNextVersion ≠ 0 := by
  by_cases candidate : r.leadershipState = some .candidate
  · exact initialised candidate
  · exact grounded.versioned candidate view

theorem Grounded.of_log (formed : t.toLog.WellFormed) (view : 1 ≤ t.currentView)
    (version : t.termOfNextVersion ≠ 0) : t.Grounded :=
  ⟨formed, fun _ => view, fun _ _ => version, fun none => absurd none version,
    fun none => by omega⟩

theorem follow_grounded (view : Nat) (role : Option LeadershipState) (known : Finset NodeId)
    (matchOf : NodeId → Nat) (grounded : r.Grounded) (viewed : 1 ≤ view) :
    (r.follow view role known matchOf).Grounded ∧
      Log.Advances r.toLog (r.follow view role known matchOf).toLog := by
  have committed := grounded.formed.le_lastCommittable
  obtain ⟨formed, advances⟩ :=
    Log.rollback_sustains view grounded.formed.lastCommittable_le grounded.formed
  have version := Log.rollback_termOfNextVersion view committed
  exact ⟨.of_log formed viewed (by simp only [follow, version]; omega), advances⟩

theorem Grounded.rolled_back (grounded : r.Grounded) (within : idx ≤ r.lastIdx)
    (ballot : t.toBallot = r.toBallot) (log : t.toLog = r.toLog.rollback r.currentView idx) :
    t.Grounded ∧ Log.Advances r.toLog t.toLog := by
  obtain ⟨formed, advances⟩ := Log.rollback_sustains r.currentView within grounded.formed
  have emptied : r.ledger = [] → t.ledger = [] := by
    intro empty
    rw [log, Log.rollback]
    split <;> simp [Log.truncate, empty]
  have version : t.termOfNextVersion = r.termOfNextVersion ∨ t.termOfNextVersion = r.currentView := by
    rw [log, Log.rollback]
    split <;> simp
  rw [← log] at formed advances
  refine ⟨⟨formed, by rw [ballot]; exact grounded.viewed, ?_, ?_, ?_⟩, advances⟩
  · rw [ballot]
    intro settled view
    have versioned := grounded.versioned settled view
    omega
  · intro none
    rcases version with same | viewed
    · exact emptied (grounded.unversioned (same ▸ none))
    · exact emptied (grounded.unviewed (viewed ▸ none))
  · rw [ballot]
    exact fun unviewed => emptied (grounded.unviewed unviewed)

end Replica

variable [LinearOrder NodeId]

open Replica in
theorem Micro.grounded {rules : Rules NodeId} {received : Option (NodeId × Message NodeId)}
    {r t : Replica NodeId} {msgs : Sent NodeId} (micro : Micro rules received r msgs t)
    (grounded : r.Grounded) (heard : ∀ source m, received = some (source, m) → m.InView) :
    t.Grounded ∧ Log.Advances r.toLog t.toLog ∧ ∀ m ∈ msgs, m.2.InView := by
  have silent : ∀ m ∈ ([] : Sent NodeId), m.2.InView := by simp
  have formed := grounded.formed
  have committed := formed.le_lastCommittable
  cases micro with
  | refuse dest refuses => exact ⟨grounded, .refl _, by simpa using refuses.inView⟩
  | sendEntries empowered other able =>
    obtain ⟨ae, payload, rfl, term⟩ := able.isAppend
    have view := (grounded.empowered empowered).1
    exact ⟨grounded, .refl _, by simpa [Message.InView, term] using view⟩
  | stray free leader other heard' term hollow =>
    have view := grounded.viewed (.inl leader)
    exact ⟨grounded, .refl _, by simpa [Message.InView, term] using view⟩
  | askVote dest role => exact ⟨grounded, .refl _, by simp [Message.InView, Log.requestVoteMessage]⟩
  | adopt newer allowed may limited keeps =>
    rename_i view role known matchOf
    have viewed : 1 ≤ view := by
      rcases newer with above | ⟨rfl, candidate, -⟩
      · omega
      · exact grounded.viewed (.inr candidate)
    obtain ⟨follows, advances⟩ := follow_grounded view role known matchOf grounded viewed
    have flags : Log.Sustains (r.follow view role known matchOf).toLog
        (r.adopt view role known matchOf).toLog := .of_same rfl rfl rfl rfl rfl
    obtain ⟨flagged, same⟩ := flags follows.formed
    exact ⟨⟨flagged, follows.viewed, follows.versioned, follows.unversioned, follows.unviewed⟩,
      advances.trans same, silent⟩
  | stepDown leader allowed may keeps =>
    obtain ⟨follows, advances⟩ :=
      follow_grounded r.currentView _ _ _ grounded (grounded.viewed (.inl leader))
    exact ⟨follows, advances, silent⟩
  | stand ticks backup allowed =>
    refine ⟨⟨formed, fun _ => ?_, fun settled => ?_, grounded.unversioned, fun zero => ?_⟩, .refl _, silent⟩
    · simp [Replica.stand]
    · simp [Replica.stand] at settled
    · simp [Replica.stand] at zero
  | vote candidate voter | recognise heard' term backup | ack leader received' peer success term higher
  | nack leader received' peer success term allowed | requireEvidence leader received' success | startTicking may =>
    exact ⟨⟨formed, grounded.viewed, grounded.versioned, grounded.unversioned, grounded.unviewed⟩,
      .refl _, silent⟩
  | lead candidate elected started fixed launches =>
    have view := grounded.viewed (.inr candidate)
    obtain ⟨formed', advances⟩ := Log.lead_sustains r.currentView launches formed
    refine ⟨.of_log formed' view ?_, advances, silent⟩
    simp only [Replica.lead, Log.lead_termOfNextVersion r.currentView formed launches]
    omega
  | leadFresh candidate elected unstarted unversioned launches =>
    have view := grounded.viewed (.inr candidate)
    have empty := grounded.unversioned unversioned
    obtain ⟨formed', advances⟩ := Log.leadFresh_sustains r.currentView empty launches formed
    refine ⟨.of_log formed' view ?_, advances, silent⟩
    simp only [Replica.lead, (Log.launches_settles launches).termOfNextVersion_eq]
    omega
  | leadFail candidate unstarted versioned =>
    obtain ⟨cleared, advances⟩ := Log.clearCommittable_sustains formed
    exact ⟨⟨cleared, grounded.viewed, grounded.versioned, grounded.unversioned, grounded.unviewed⟩,
      advances, silent⟩
  | grant heard' term free voted current answered =>
    refine ⟨⟨formed, grounded.viewed, grounded.versioned, grounded.unversioned, grounded.unviewed⟩,
      .refl _, ?_⟩
    rcases answered with rfl | rfl <;> simp [Message.InView]
  | accept env received' term matching above within backup leader initialised allowed keeps accepted answered =>
    rename_i ae payload log done known matchOf
    have view : 1 ≤ r.currentView := term ▸ heard _ _ received'
    have version := grounded.initialised initialised view
    have sustained : Log.Sustains r.toLog _ := Log.accept_sustains env r.currentView ae payload within
    have versions := r.toLog.accept_termOfNextVersion env r.currentView ae payload
    rw [accepted] at sustained versions
    obtain ⟨formed', advances⟩ := sustained formed
    dsimp only at versions
    refine ⟨.of_log formed' view ?_, advances, ?_⟩
    · rcases versions with same | learned
      · simpa only [Replica.setLog, same] using version
      · simp only [Replica.setLog, learned]
        omega
    · rcases answered with rfl | ⟨-, rfl⟩ <;> simp [Message.InView]
  | append empowered term next plain keeps =>
    obtain ⟨view, version⟩ := grounded.empowered empowered
    obtain ⟨formed', advances⟩ := Log.append_sustains r.currentView next formed
    refine ⟨.of_log formed' view ?_, advances, silent⟩
    simpa [Replica.setLog, Log.append_termOfNextVersion] using version
  | commitConfirmed empowered confirmed within keeps =>
    rename_i idx known matchOf
    obtain ⟨view, version⟩ := grounded.empowered empowered
    obtain ⟨formed', advances⟩ := Log.commitIfPossible_sustains _ _ formed
    refine ⟨.of_log formed' view ?_, advances, silent⟩
    have same := (r.toLog.commitIfPossible_settles r.currentView idx).termOfNextVersion_eq
    simpa only [Replica.setLog, same] using version
  | discard backup candidate keeps =>
    obtain ⟨grounded, advances⟩ := grounded.rolled_back (t := r.setLog
      (r.toLog.rollback r.currentView r.lastIdx) _ _) le_rfl rfl rfl
    exact ⟨grounded, advances, silent⟩
  | demote leaderId mode candidate initialised role =>
    refine ⟨⟨formed, fun leads => ?_, fun _ view => grounded.initialised initialised view,
      grounded.unversioned, grounded.unviewed⟩, .refl _, silent⟩
    rcases role with rfl | rfl <;> simp at leads

theorem Path.grounded {rules : Rules NodeId} {received : Option (NodeId × Message NodeId)}
    {r t : Replica NodeId} {msgs : Sent NodeId} (path : Path rules received r msgs t)
    (grounded : r.Grounded) (heard : ∀ source m, received = some (source, m) → m.InView) :
    t.Grounded ∧ Log.Advances r.toLog t.toLog ∧ ∀ m ∈ msgs, m.2.InView := by
  induction path with
  | refl => exact ⟨grounded, .refl _, by simp⟩
  | tail _ micro ih =>
    obtain ⟨grounded, advances, sent⟩ := ih
    obtain ⟨grounded, advances', sent'⟩ := micro.grounded grounded heard
    refine ⟨grounded, advances.trans advances', fun m member => ?_⟩
    exact (List.mem_append.mp member).elim (sent m) (sent' m)

namespace Node
variable {s t : Node NodeId}

structure Sound (s : Node NodeId) : Prop where
  covered : s.roster.Covered
  grounded : s.replica.Grounded
  sent : ∀ m ∈ s.outbox, m.2.InView

/-- What happens to a node once it is initialised. Only messages of a view
arrive, and a rollback goes back. -/
def Serves (s : Node NodeId) : Operation NodeId → Prop
  | .replicate _ entries term => ∀ e ∈ entries, e.term = term
  | .recvMessage _ _ m => m.InView
  | .periodic _ _ => True
  | .rollback _ idx => idx ≤ s.lastIdx
  | _ => False

theorem Regular.of_covered (covered : s.roster.Covered) : s.Regular .unrestricted bound :=
  ⟨covered, fun limited => absurd rfl limited, fun isFixed => by cases isFixed⟩

theorem Sound.refined (sound : s.Sound) (heard : ∀ source m, received = some (source, m) → m.InView)
    (refines : Refines (Mode.rules .unrestricted) received s t) :
    t.Sound ∧ Log.Advances s.toLog t.toLog := by
  obtain ⟨regular, msgs, outbox, path⟩ := refines (.of_covered sound.covered)
  obtain ⟨grounded, advances, sent⟩ := path.grounded sound.grounded heard
  refine ⟨⟨regular.covered, grounded, fun m member => ?_⟩, advances⟩
  rw [outbox] at member
  exact (List.mem_append.mp member).elim (sound.sent m) (sent m)

theorem Sound.facing (sound : s.Sound) (env : Env NodeId) (viewed : 1 ≤ view)
    (reaches : s.currentView ≤ view) (candidate : (s.facing env view).leadershipState = some .candidate) :
    (s.facing env view).termOfNextVersion ≠ 0 ∧ (s.facing env view).currentView ≠ 0 := by
  by_cases adopts : s.Adopts view
  · obtain ⟨-, -, -, known, matchOf, -, equal⟩ :=
      s.becomeAwareOfNewTerm_spec env view (.of_covered sound.covered)
    have version := Log.rollback_termOfNextVersion view sound.grounded.formed.le_lastCommittable
    have log : (s.becomeAwareOfNewTerm env view).termOfNextVersion =
        (s.toLog.rollback view s.lastCommittableIndex).termOfNextVersion :=
      congrArg (·.termOfNextVersion) equal
    have current : (s.becomeAwareOfNewTerm env view).currentView = view :=
      congrArg (·.currentView) equal
    have learned : (s.becomeAwareOfNewTerm env view).termOfNextVersion = view := log.trans version
    simp only [Node.facing, if_pos adopts, learned, current]
    omega
  · simp only [Node.facing, if_neg adopts] at candidate
    have current : s.currentView = view := by
      by_contra differ
      exact adopts (.inr (by omega))
    exact absurd (.inl ⟨current, candidate⟩) adopts

theorem Sound.admits (sound : s.Sound) (env : Env NodeId) (source : NodeId) {m : Message NodeId}
    (inView : m.InView) : s.Admits env (Mode.rules .unrestricted) source m := by
  have adopt : ∀ term, s.MayAdopt env (Mode.rules .unrestricted) term :=
    fun term => ⟨trivial, fun limited => absurd rfl limited⟩
  cases m with
  | appendEntries r payload =>
    refine ⟨fun _ => adopt _, fun limited => absurd rfl limited, fun _ => trivial,
      fun reaches candidate _ => sound.facing env inView reaches candidate, fun isFixed => ?_⟩
    cases isFixed
  | appendEntriesResponse r => exact ⟨fun _ => adopt _, trivial⟩
  | requestVote r => exact fun _ => adopt _
  | requestVoteResponse r => exact fun _ => adopt _

/-- The initial states: the primary of a new service, and a backup that joins
from a snapshot. -/
inductive Started : Node NodeId → Prop where
  | primary (settings : Settings NodeId) (n : NodeId) : Started (initialPrimary settings n)
  | backup (settings : Settings NodeId) (n : NodeId) (env : Env NodeId) (index term : Nat)
      (history : List Nat) (joined : Node NodeId) :
      (initial settings n).initAsBackup env index term history = .ok joined → Started joined

theorem Sound.perform (sound : s.Sound) (serves : s.Serves op) :
    (s.perform op).Sound ∧ Log.Advances s.toLog (s.perform op).toLog := by
  have unheard : ∀ source m, (none : Option (NodeId × Message NodeId)) = some (source, m) → m.InView := by
    simp
  cases op with
  | replicate env entries term =>
    refine sound.refined unheard (s.replicated_refines env entries term (fun _ leader => ?_) serves ?_)
    · have empowered : s.replica.Empowered (Mode.rules .unrestricted) := .inl leader
      exact ⟨trivial, sound.grounded.empowered empowered⟩
    · simp [Mode.rules]
  | recvMessage env source m =>
    have heard : ∀ source' m', some (source, m) = some (source', m') → m'.InView := by
      rintro _ _ ⟨⟩
      exact serves
    exact sound.refined heard (s.recvMessage_refines env source m (sound.admits env source serves))
  | periodic env elapsed =>
    exact sound.refined unheard (s.periodic_refines env elapsed (fun _ => trivial) fun _ => trivial)
  | rollback env idx =>
    have evolves : Evolves (fun _ _ => True) s (s.rollback env idx) := s.rollback_evolves env idx
    have covered : (s.rollback env idx).roster.Covered :=
      Roster.covered_of_reaches evolves sound.covered
    obtain ⟨ballot, ticking, outbox⟩ := s.rollback_ballot env idx sound.covered
    obtain ⟨grounded, advances⟩ := sound.grounded.rolled_back (t := (s.rollback env idx).replica)
      serves ballot (s.rollback_toLog env idx)
    exact ⟨⟨covered, grounded, by rw [Node.perform, outbox]; exact sound.sent⟩, advances⟩
  | _ => exact serves.elim

def snapshotted (s : Node NodeId) (index : Nat) (viewHistory : ViewHistory) : Node NodeId :=
  { s with lastIdx := index, commitIdx := index, viewHistory, ledgerStart := index }

theorem initAsBackup_ok {env : Env NodeId} (ok : s.initAsBackup env index term history = .ok t) :
    ∃ viewHistory, t = (s.snapshotted index viewHistory).becomeAwareOfNewTerm env term := by
  unfold initAsBackup at ok
  dsimp only at ok
  split at ok
  · cases ok
  · cases ok
    exact ⟨_, rfl⟩

theorem Started.sound (started : s.Started) : s.Sound := by
  have fits : ∀ settings : Settings NodeId, settings.Fits .unrestricted := fun settings =>
    ⟨fun limited => absurd rfl limited, fun isFixed => by cases isFixed⟩
  cases started with
  | primary settings n =>
    have fresh := initialPrimary_fresh (n := n) (fits settings)
    have log : (initialPrimary settings n).replica.toLog = { termOfNextVersion := startingViewChange } :=
      fresh.log
    have view : (initialPrimary settings n).currentView = startingViewChange := by
      rw [fresh.ballot]
    refine ⟨fresh.regular.covered, .of_log ?_ ?_ ?_, fun m member => ?_⟩
    · rw [log]
      exact ⟨rfl, le_rfl, le_rfl, .nil, by simp⟩
    · show 1 ≤ (initialPrimary settings n).currentView
      rw [view]
      decide
    · rw [log]
      exact Nat.succ_ne_zero _
    · obtain ⟨ae, payload, append, term⟩ := (fresh.sent m member).2.isAppend
      rw [append, Message.InView, term, view]
      decide
  | backup settings n env index term history joined begins =>
    have pristine := initial_pristine settings n
    generalize initial settings n = s at pristine begins
    have silent : s.outbox = [] := pristine.outbox
    obtain ⟨viewHistory, rfl⟩ := initAsBackup_ok begins
    obtain ⟨regular, outbox, may, known, matchOf, -, equal⟩ :=
      (s.snapshotted index viewHistory).becomeAwareOfNewTerm_spec env term
        (.of_covered (pristine.regular (fits settings)).covered)
    have before : (s.snapshotted index viewHistory).toLog =
        { lastIdx := index, commitIdx := index, viewHistory, ledgerStart := index } := by
      simp only [snapshotted, pristine.log]
    have role : (s.snapshotted index viewHistory).leadershipState = none := by
      simp only [snapshotted, pristine.ballot]
    have outbox : ((s.snapshotted index viewHistory).becomeAwareOfNewTerm env term).outbox = [] :=
      outbox.trans silent
    generalize s.snapshotted index viewHistory = u at *
    have log : (u.becomeAwareOfNewTerm env term).toLog =
        { u.toLog.rollback term u.lastCommittableIndex with isNewFollower := true } :=
      congrArg Replica.toLog equal
    have joined : (u.becomeAwareOfNewTerm env term).toLog =
        { lastIdx := index
          commitIdx := index
          viewHistory := viewHistory.rollback index
          ledgerStart := index
          termOfNextVersion := term
          isNewFollower := true } := by
      rw [log, before]
      simp [Log.rollback, Log.lastCommittableIndex, Log.truncate]
    have view : (u.becomeAwareOfNewTerm env term).currentView = term :=
      congrArg (·.currentView) equal
    generalize u.becomeAwareOfNewTerm env term = t at *
    refine ⟨regular.covered, ⟨?_, fun leads => ?_, fun _ viewed => ?_, fun _ => ?_, fun _ => ?_⟩, ?_⟩
    · show t.toLog.WellFormed
      rw [joined]
      exact ⟨rfl, le_rfl, le_rfl, .nil, by simp⟩
    · have passive : t.leadershipState = some .follower ∨ t.leadershipState = none := by
        rcases may with follower | ⟨-, same, -⟩
        · exact .inl follower
        · exact .inr (same.trans role)
      have leads : t.leadershipState = some .leader ∨ t.leadershipState = some .candidate := leads
      rcases passive with passive | passive <;> simp [passive] at leads
    · have viewed : 1 ≤ t.currentView := viewed
      show t.termOfNextVersion ≠ 0
      rw [joined]
      dsimp only
      omega
    · show t.ledger = []
      rw [joined]
    · show t.ledger = []
      rw [joined]
    · simp [outbox]

end Node
end CCF.Aft
