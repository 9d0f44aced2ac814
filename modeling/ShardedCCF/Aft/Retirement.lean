import ShardedCCF.Aft.Configurations

/-! The retirement of a one-transaction node: ordered by the configuration that
leaves it out, signed by the next signature, completed when that is committed.
The log decides which of these a rollback undoes. As the code notes, this relies
on retirement being final: no entry trusts a node again. -/
namespace CCF.Aft
open List
open Std (ExtTreeMap)

variable {NodeId : Type}

def ConfigurationChange.Retires (change : ConfigurationChange NodeId) (id : NodeId) : Prop :=
  (id, none) ∈ change.cfgDelta

def ConfigurationChange.Trusts (change : ConfigurationChange NodeId) (id : NodeId) : Prop :=
  ∃ info, (id, some info) ∈ change.cfgDelta

def RetirementFinal (id : NodeId) (changes : List (ConfigurationChange NodeId)) : Prop :=
  ∀ earlier change, earlier ++ [change] <+: changes → change.Trusts id →
    ∀ other ∈ earlier ++ [change], ¬ other.Retires id

theorem RetirementFinal.of_prefix {id : NodeId} {changes more : List (ConfigurationChange NodeId)}
    (final : RetirementFinal id more) (within : changes <+: more) : RetirementFinal id changes :=
  fun earlier change inside => final earlier change (inside.trans within)

theorem changesOf_isPrefixOf {ledger longer : List (Entry NodeId)} (within : ledger <+: longer) :
    changesOf ledger <+: changesOf longer := by
  obtain ⟨rest, rfl⟩ := within
  rw [changesOf, changesOf, flatMap_append]
  exact prefix_append ..

variable [LinearOrder NodeId]

theorem mem_applyDelta_imp {delta : List (NodeId × Option NodeInfo)} {conf : Nodes NodeId} {id : NodeId}
    (member : id ∈ applyDelta delta conf) : (∃ info, (id, some info) ∈ delta) ∨ id ∈ conf := by
  induction delta generalizing conf with
  | nil => exact .inr member
  | cons item delta ih =>
    obtain ⟨key, info⟩ := item
    rcases ih member with ⟨info, added⟩ | present
    · exact .inl ⟨info, mem_cons_of_mem _ added⟩
    cases info with
    | some info =>
      rcases ExtTreeMap.mem_insertIfNew.mp present with same | old
      · rw [← compare_eq_iff_eq.mp same]
        exact .inl ⟨info, mem_cons_self⟩
      · exact .inr old
    | none => exact .inr (ExtTreeMap.mem_erase.mp present).2

theorem retires_of_not_mem {change : ConfigurationChange NodeId} {conf : Nodes NodeId} {id : NodeId}
    (present : id ∈ conf) (absent : id ∉ applyDelta change.cfgDelta conf) : change.Retires id := by
  rw [ConfigurationChange.Retires]
  generalize change.cfgDelta = delta at absent
  induction delta generalizing conf with
  | nil => exact absurd present absent
  | cons item delta ih =>
    obtain ⟨key, info⟩ := item
    cases info with
    | some info =>
      exact mem_cons_of_mem _ (ih (ExtTreeMap.mem_insertIfNew.mpr (.inr present)) absent)
    | none =>
      by_cases same : key = id
      · rw [same]
        exact mem_cons_self
      · exact mem_cons_of_mem _
          (ih (ExtTreeMap.mem_erase.mpr ⟨fun equal => same (compare_eq_iff_eq.mp equal), present⟩) absent)

theorem not_mem_of_retires {change : ConfigurationChange NodeId} {id : NodeId}
    (retires : change.Retires id) (distrusts : ¬ change.Trusts id) (conf : Nodes NodeId) :
    id ∉ applyDelta change.cfgDelta conf := by
  rw [ConfigurationChange.Retires] at retires
  rw [ConfigurationChange.Trusts] at distrusts
  generalize change.cfgDelta = delta at retires distrusts
  induction delta generalizing conf with
  | nil => simp at retires
  | cons item delta ih =>
    have later : ¬ ∃ info, (id, some info) ∈ delta :=
      fun ⟨info, member⟩ => distrusts ⟨info, mem_cons_of_mem _ member⟩
    rcases mem_cons.mp retires with rfl | inside
    · intro member
      have member : id ∈ applyDelta delta (conf.erase id) := member
      rcases mem_applyDelta_imp member with added | present
      · exact later added
      · simp at present
    · exact ih _ inside later

theorem not_mem_applyChanges {id : NodeId} {changes : List (ConfigurationChange NodeId)}
    (final : RetirementFinal id changes) (retired : ∃ change ∈ changes, change.Retires id)
    (base : Nodes NodeId) : id ∉ applyChanges changes base := by
  induction changes using reverseRecOn with
  | nil => simp at retired
  | append_singleton changes change ih =>
    obtain ⟨other, member, retires⟩ := retired
    have distrusts : ¬ change.Trusts id :=
      fun trusts => final changes change prefix_rfl trusts other member retires
    rw [applyChanges_append]
    rcases mem_append.mp member with old | new
    · intro present
      rcases mem_applyDelta_imp present with added | present
      · exact distrusts added
      · exact ih (final.of_prefix (prefix_append ..)) ⟨other, old, retires⟩ present
    · obtain rfl := mem_singleton.mp new
      exact not_mem_of_retires retires distrusts _

namespace Registry
variable {r t : Registry NodeId} {evidence : Nat → Prop}

def RetiredAt (r : Registry NodeId) (i : Nat) : Prop :=
  r.ledgerStart < i ∧
    ∃ e, r.ledger[i - r.ledgerStart - 1]? = some e ∧ ∃ change ∈ e.hooks, change.Retires r.self

/-- How far the retirement has come, with `evidence` for the index at which it
was ordered. -/
inductive Stage (evidence : Nat → Prop) (r : Registry NodeId) : Prop where
  | member : r.membershipState ≠ .retired → r.retirementPhase = none → r.retirementIdx = none →
      r.retirementCommittableIdx = none → Stage evidence r
  | ordered (i : Nat) : r.membershipState = .retired → r.retirementPhase = some .ordered →
      r.retirementIdx = some i → r.retirementCommittableIdx = none → evidence i → Stage evidence r
  | signed (i j : Nat) : r.membershipState = .retired → r.retirementPhase = some .signed →
      r.retirementIdx = some i → r.retirementCommittableIdx = some j → evidence i →
      i ≤ j → j ≤ r.lastIdx → Stage evidence r
  | completed (i j : Nat) : r.membershipState = .retired → r.retirementPhase = some .completed →
      r.retirementIdx = some i → r.retirementCommittableIdx = some j → evidence i →
      i ≤ j → j ≤ r.commitIdx → r.leadershipState = none → Stage evidence r

structure Bookkept (evidence : Nat → Prop) (r : Registry NodeId) : Prop where
  stage : r.Stage evidence
  asserted : r.assertionFailed = false

variable {evidence' : Nat → Prop}

/-- The stage does not depend on the configurations, the log may grow, and better
evidence may replace the old one. -/
theorem Stage.mono {last : Nat} {ledger : List (Entry NodeId)} (stage : r.Stage evidence)
    (better : ∀ i, evidence i → evidence' i) (later : r.lastIdx ≤ last) (confs : List (Configuration NodeId)) :
    { r with configurations := confs, lastIdx := last, ledger }.Stage evidence' := by
  cases stage with
  | member active phase since signed => exact .member active phase since signed
  | ordered i retired phase since signed seen =>
    exact .ordered i retired phase since signed (better i seen)
  | signed i j retired phase since signed seen le within =>
    exact .signed i j retired phase since signed (better i seen) le (within.trans later)
  | completed i j retired phase since signed seen le within role =>
    exact .completed i j retired phase since signed (better i seen) le within role

theorem Stage.evidence_of_since (stage : r.Stage evidence) (since : r.retirementIdx = some i) :
    evidence i := by
  cases stage with
  | member _ _ none => simp [none] at since
  | ordered j _ _ known _ seen | signed j _ _ _ known _ seen
  | completed j _ _ _ known _ seen => rwa [← Option.some.inj (known.symm.trans since)]

theorem Bookkept.order (kept : r.Bookkept evidence) (unset : r.retirementIdx = none)
    (seen : evidence' idx) : (r.order idx).Bookkept evidence' := by
  have asserted : (r.order idx).assertionFailed = false := by
    simp [Registry.order, kept.asserted, unset]
  refine ⟨?_, asserted⟩
  cases kept.stage with
  | member _ _ _ signed => exact .ordered idx rfl rfl rfl signed seen
  | ordered i _ _ since => simp [unset] at since
  | signed i j _ _ since => simp [unset] at since
  | completed i j _ _ since => simp [unset] at since

theorem configurationChange_eq (r : Registry NodeId) (idx : Nat) (change : ConfigurationChange NodeId) :
    ∃ confs, r.configurationChange idx change =
      { r.observe idx (applyDelta change.cfgDelta r.latest) with configurations := confs } := by
  rw [configurationChange]
  split
  · rename_i unchanged
    have same : applyDelta change.cfgDelta r.latest = r.latest := by
      rw [List.isEmpty_iff.mp unchanged]
      rfl
    rw [observe, if_neg (by rw [same]; tauto)]
    exact ⟨_, rfl⟩
  · rw [addConfiguration]
    split <;> exact ⟨_, rfl⟩

/-- One change of the configuration, of a node that no configuration holds once
its retirement is ordered. -/
theorem Bookkept.configurationChange (kept : r.Bookkept evidence)
    (absent : r.retirementIdx ≠ none → r.self ∉ r.latest) {change : ConfigurationChange NodeId}
    (trusts : change.Trusts r.self → r.retirementIdx = none)
    (better : ∀ i, evidence i → evidence' i) (seen : change.Retires r.self → evidence' idx) :
    (r.configurationChange idx change).Bookkept evidence' ∧
      ((r.configurationChange idx change).retirementIdx ≠ none →
        r.self ∉ (r.configurationChange idx change).latest) := by
  obtain ⟨latest, -⟩ := r.configurationChange_latest idx change
  obtain ⟨confs, equal⟩ := r.configurationChange_eq idx change
  rw [latest, equal]
  by_cases removed : r.self ∈ r.latest ∧ r.self ∉ applyDelta change.cfgDelta r.latest
  · have unset : r.retirementIdx = none := by
      by_contra set
      exact absent set removed.1
    obtain ⟨stage, asserted⟩ := kept.order unset (seen (retires_of_not_mem removed.1 removed.2))
    rw [observe, if_pos removed]
    exact ⟨⟨stage.mono (fun _ seen => seen) le_rfl confs, asserted⟩, fun _ => removed.2⟩
  rw [observe, if_neg removed]
  refine ⟨⟨kept.stage.mono better le_rfl confs, kept.asserted⟩, fun set present => ?_⟩
  rcases mem_applyDelta_imp present with added | old
  · exact set (trusts added)
  · exact absent set old

/-- The evidence while the hooks of the entry at `idx` run: the log, and the
changes that have been made already. -/
def Evidence (r : Registry NodeId) (idx : Nat) (done : List (ConfigurationChange NodeId)) (i : Nat) :
    Prop :=
  r.RetiredAt i ∨ i = idx ∧ ∃ change ∈ done, change.Retires r.self

theorem RetiredAt.changes (retired : r.RetiredAt i) : ∃ change ∈ changesOf r.ledger, change.Retires r.self := by
  obtain ⟨-, e, found, change, member, retires⟩ := retired
  exact ⟨change, mem_flatMap.mpr ⟨e, mem_of_getElem? found, member⟩, retires⟩

theorem configurationChange_self (r : Registry NodeId) (idx : Nat) (change : ConfigurationChange NodeId) :
    (r.configurationChange idx change).self = r.self := by
  obtain ⟨confs, equal⟩ := r.configurationChange_eq idx change
  rw [equal, observe]
  split <;> rfl

theorem Bookkept.foldl_configurationChange {idx : Nat} {u : Registry NodeId}
    {done todo : List (ConfigurationChange NodeId)} (self : u.self = r.self)
    (kept : u.Bookkept (r.Evidence idx done))
    (absent : u.retirementIdx ≠ none → u.self ∉ u.latest)
    (final : RetirementFinal r.self (changesOf r.ledger ++ (done ++ todo))) :
    (todo.foldl (fun u change => u.configurationChange idx change) u).Bookkept
      (r.Evidence idx (done ++ todo)) := by
  induction todo generalizing u done with
  | nil => rwa [append_nil]
  | cons change todo ih =>
    have trusts : change.Trusts u.self → u.retirementIdx = none := by
      intro trusts
      by_contra set
      obtain ⟨i, since⟩ := Option.ne_none_iff_exists'.mp set
      have before : ∃ other ∈ changesOf r.ledger ++ done, other.Retires r.self := by
        rcases kept.stage.evidence_of_since since with retired | ⟨-, other, member, retires⟩
        · obtain ⟨other, member, retires⟩ := retired.changes
          exact ⟨other, mem_append_left _ member, retires⟩
        · exact ⟨other, mem_append_right _ member, retires⟩
      obtain ⟨other, member, retires⟩ := before
      rw [self] at trusts
      refine final (changesOf r.ledger ++ done) change ?_ trusts other
        (mem_append_left _ member) retires
      exact ⟨todo, by simp⟩
    have better : ∀ i, r.Evidence idx done i → r.Evidence idx (done ++ [change]) i := by
      rintro i (retired | ⟨rfl, other, member, retires⟩)
      · exact .inl retired
      · exact .inr ⟨rfl, other, mem_append_left _ member, retires⟩
    have seen : change.Retires u.self → r.Evidence idx (done ++ [change]) idx := by
      intro retires
      exact .inr ⟨rfl, change, by simp, self ▸ retires⟩
    obtain ⟨kept, absent⟩ := kept.configurationChange absent trusts better seen
    have same := u.configurationChange_self idx change
    rw [← same] at absent
    have rest := ih (same.trans self) kept absent (by simpa using final)
    simpa using rest

theorem Bookkept.callHooks {e : Entry NodeId} (kept : r.Bookkept r.RetiredAt)
    (absent : r.retirementIdx ≠ none → r.self ∉ r.latest)
    (final : RetirementFinal r.self (changesOf (r.ledger ++ [e]))) :
    (r.callHooks e).Bookkept (r.Evidence e.index e.hooks) := by
  rw [changesOf_append] at final
  have start : r.Bookkept (r.Evidence e.index []) :=
    ⟨kept.stage.mono (fun i retired => .inl retired) le_rfl r.configurations, kept.asserted⟩
  have folded : (r.callHooks e).Bookkept (r.Evidence e.index ([] ++ e.hooks)) :=
    Bookkept.foldl_configurationChange rfl start absent final
  exact folded

theorem RetiredAt.le (retired : r.RetiredAt i) : i ≤ r.ledgerStart + r.ledger.length := by
  obtain ⟨pos, e, found, -⟩ := retired
  have := (List.getElem?_eq_some_iff.mp found).1
  omega

theorem Bookkept.sign (kept : r.Bookkept evidence) (bounded : ∀ i, evidence i → i ≤ idx)
    (within : idx ≤ r.lastIdx) : (r.sign idx).Bookkept evidence := by
  rw [Registry.sign]
  split
  · rename_i ordered
    obtain ⟨retired, phase⟩ := isRetiredIn_iff.mp ordered
    cases kept.stage with
    | member active => exact absurd retired active
    | ordered i _ _ since _ seen =>
      have before := bounded i seen
      exact ⟨.signed i idx rfl rfl since rfl seen before within, by simp [kept.asserted, since, before]⟩
    | signed i j _ other => simp [phase] at other
    | completed i j _ other => simp [phase] at other
  · exact kept

theorem append_eq (r : Registry NodeId) (e : Entry NodeId) :
    r.append e = ((r.callHooks e).withLog e.index (r.ledger ++ [e])).signIf e := by
  have distributes := apply_ite (fun u => withLog u e.index (r.ledger ++ [e])) (e.isSignature = true)
    ((r.callHooks e).sign e.index) (r.callHooks e)
  rw [append, signIf, signIf, sign_withLog]
  exact distributes

theorem Bookkept.append {e : Entry NodeId} (kept : r.Bookkept r.RetiredAt)
    (length : r.ledgerStart + r.ledger.length = r.lastIdx) (next : e.index = r.lastIdx + 1)
    (absent : r.retirementIdx ≠ none → r.self ∉ r.latest)
    (final : RetirementFinal r.self (changesOf (r.ledger ++ [e]))) :
    (r.append e).Bookkept (r.append e).RetiredAt := by
  obtain ⟨stage, asserted⟩ := kept.callHooks absent final
  obtain ⟨_, _, _, _, _, frame⟩ := r.callHooks_frame e
  have last : (r.callHooks e).lastIdx ≤ e.index := by
    rw [frame]
    show r.lastIdx ≤ e.index
    omega
  obtain ⟨self, start⟩ : (r.append e).self = r.self ∧ (r.append e).ledgerStart = r.ledgerStart := by
    obtain ⟨_, _, _, _, _, _, frame⟩ := r.append_frame e
    rw [frame]
    exact ⟨rfl, rfl⟩
  have ledger : (r.append e).ledger = r.ledger ++ [e] := rfl
  have better : ∀ i, r.Evidence e.index e.hooks i → (r.append e).RetiredAt i := by
    rintro i (retired | ⟨rfl, change, member, retires⟩)
    · have within := retired.le
      obtain ⟨pos, other, found, retires⟩ := retired
      refine ⟨start ▸ pos, other, ?_, self ▸ retires⟩
      rw [ledger, start, getElem?_append_left (by omega)]
      exact found
    · refine ⟨by omega, e, ?_, change, member, self ▸ retires⟩
      rw [ledger, start, next, ← length]
      simp [Nat.add_assoc]
  have logged : ((r.callHooks e).withLog e.index (r.ledger ++ [e])).Bookkept (r.append e).RetiredAt :=
    ⟨stage.mono better last _, asserted⟩
  have bounded : ∀ i, (r.append e).RetiredAt i → i ≤ e.index := by
    intro i retired
    have within := retired.le
    rw [ledger, start, length_append, length_singleton] at within
    omega
  have signed := logged.sign bounded le_rfl
  rw [append_eq] at logged signed ⊢
  rw [signIf] at logged signed ⊢
  split
  · rename_i signature
    rw [if_pos signature] at signed
    exact signed
  rename_i plain
  rw [if_neg plain] at logged
  exact logged

theorem Bookkept.commit (kept : r.Bookkept r.RetiredAt) (fresh : r.commitIdx < idx) :
    (r.commit idx).Bookkept (r.commit idx).RetiredAt := by
  have unsigned : ¬ (r.isRetiredIn .signed ∧ r.retirementCommittableIdx.any (· ≤ idx)) →
      r.commit idx = { r with commitIdx := idx, configurations := superseding idx r.configurations } := by
    intro other
    rw [Registry.commit, complete, if_neg (by simpa [isRetiredIn] using other)]
  cases kept.stage with
  | member active phase since signed =>
    rw [unsigned (by simp [isRetiredIn, active])]
    exact ⟨.member active phase since signed, kept.asserted⟩
  | ordered i retired phase since signed seen =>
    rw [unsigned (by simp [isRetiredIn, phase])]
    exact ⟨.ordered i retired phase since signed seen, kept.asserted⟩
  | signed i j retired phase since signed seen le within =>
    by_cases reached : j ≤ idx
    · rw [Registry.commit, complete, if_pos (by simp [isRetiredIn, retired, phase, signed, reached])]
      exact ⟨.completed i j rfl rfl since signed seen le reached rfl, by simp [kept.asserted]⟩
    · rw [unsigned (by simp [signed, reached])]
      exact ⟨.signed i j retired phase since signed seen le within, kept.asserted⟩
  | completed i j retired phase since signed seen le within role =>
    rw [unsigned (by simp [isRetiredIn, phase])]
    exact ⟨.completed i j retired phase since signed seen le (within.trans fresh.le) role,
      kept.asserted⟩

theorem unsign_eq (kept : r.isRetiredIn .signed → ∃ j, r.retirementCommittableIdx = some j ∧ j ≤ idx) :
    r.unsign idx = r := by
  by_cases signed : r.isRetiredIn .signed = true
  · obtain ⟨j, known, within⟩ := kept signed
    have later : ¬ idx < j := by omega
    simp [unsign, isRetiredIn, known, later]
    rw [← known]
  have unsigned : r.isRetiredIn .signed = false := by simpa using signed
  rw [isRetiredIn] at unsigned
  simp [unsign, isRetiredIn, unsigned]

theorem unsign_of_lt (signed : r.isRetiredIn .signed) (known : r.retirementCommittableIdx = some j)
    (later : idx < j) :
    r.unsign idx = { r with retirementCommittableIdx := none, retirementPhase := some .ordered } := by
  have signed : (decide (r.membershipState = .retired) && decide (r.retirementPhase = some .signed)) =
    true := signed
  simp [unsign, isRetiredIn, known, later, signed]

theorem unorder_eq (kept : r.isRetiredIn .ordered → ∃ i, r.retirementIdx = some i ∧ i ≤ idx) :
    r.unorder idx = r := by
  by_cases ordered : r.isRetiredIn .ordered = true
  · obtain ⟨i, known, within⟩ := kept ordered
    have later : ¬ idx < i := by omega
    simp [unorder, isRetiredIn, known, later]
    rw [← known]
  have unordered : r.isRetiredIn .ordered = false := by simpa using ordered
  rw [isRetiredIn] at unordered
  simp [unorder, isRetiredIn, unordered]

theorem unorder_of_lt (ordered : r.isRetiredIn .ordered) (known : r.retirementIdx = some i)
    (later : idx < i) : ∃ state, state ≠ .retired ∧
      r.unorder idx =
        { r with retirementIdx := none, retirementPhase := none, membershipState := state } := by
  have ordered : (decide (r.membershipState = .retired) && decide (r.retirementPhase = some .ordered)) =
    true := ordered
  cases type : r.reconfigurationType with
  | oneTransaction => exact ⟨.active, by decide, by simp [unorder, isRetiredIn, known, later, ordered, type]⟩
  | twoTransaction =>
    exact ⟨.retirementInitiated, by decide, by simp [unorder, isRetiredIn, known, later, ordered, type]⟩

theorem Bookkept.unorder (asserted : r.assertionFailed = false) (retired : r.membershipState = .retired)
    (phase : r.retirementPhase = some .ordered) (since : r.retirementIdx = some i)
    (signed : r.retirementCommittableIdx = none) (seen : i ≤ idx → evidence i)
    (confs : List (Configuration NodeId)) :
    { r.unorder idx with configurations := confs }.Bookkept evidence := by
  by_cases within : i ≤ idx
  · rw [unorder_eq fun _ => ⟨i, since, within⟩]
    exact ⟨.ordered i retired phase since signed (seen within), asserted⟩
  obtain ⟨state, active, equal⟩ :=
    unorder_of_lt (isRetiredIn_iff.mpr ⟨retired, phase⟩) since (not_le.mp within)
  rw [equal]
  exact ⟨.member active rfl rfl signed, asserted⟩

theorem Bookkept.rollback (kept : r.Bookkept r.RetiredAt)
    (uncommitted : r.commitIdx ≤ idx) : (r.rollback idx).Bookkept (r.rollback idx).RetiredAt := by
  have evidence : ∀ i, i ≤ idx → r.RetiredAt i → (r.rollback idx).RetiredAt i := by
    obtain ⟨_, _, _, _, _, frame⟩ := r.rollback_frame idx
    rw [frame]
    rintro i within ⟨pos, e, found, retires⟩
    refine ⟨pos, e, ?_, retires⟩
    show (r.ledger.take (idx - r.ledgerStart))[i - r.ledgerStart - 1]? = some e
    rw [getElem?_take_of_lt (by omega)]
    exact found
  generalize (r.rollback idx).RetiredAt = proof at evidence
  let u : Registry NodeId := r.truncate idx
  show { (u.unsign idx).unorder idx with configurations := _ }.Bookkept proof
  cases kept.stage with
  | member active phase since signed =>
    have active : u.membershipState ≠ .retired := active
    rw [unsign_eq (by simp [isRetiredIn, active]), unorder_eq (by simp [isRetiredIn, active])]
    exact ⟨.member active phase since signed, kept.asserted⟩
  | ordered i retired phase since signed seen =>
    have phase : u.retirementPhase = some .ordered := phase
    rw [unsign_eq (by simp [isRetiredIn, phase])]
    exact Bookkept.unorder (r := u) kept.asserted retired phase since signed
      (fun within => evidence i within seen) _
  | signed i j retired phase since signed seen le within =>
    have isSigned : u.isRetiredIn .signed := isRetiredIn_iff.mpr ⟨retired, phase⟩
    by_cases reached : j ≤ idx
    · have phase : u.retirementPhase = some .signed := phase
      rw [unsign_eq (r := u) fun _ => ⟨j, signed, reached⟩, unorder_eq (by simp [isRetiredIn, phase])]
      exact ⟨.signed i j retired phase since signed (evidence i (le.trans reached) seen) le reached,
        kept.asserted⟩
    rw [unsign_of_lt isSigned signed (not_le.mp reached)]
    exact Bookkept.unorder
      (r := { u with retirementCommittableIdx := none, retirementPhase := some .ordered })
      kept.asserted retired rfl since rfl (fun within => evidence i within seen) _
  | completed i j retired phase since signed seen le within role =>
    have phase : u.retirementPhase = some .completed := phase
    rw [unsign_eq (by simp [isRetiredIn, phase]), unorder_eq (by simp [isRetiredIn, phase])]
    exact ⟨.completed i j retired phase since signed (evidence i (by omega) seen) le within role,
      kept.asserted⟩

theorem Stage.retired_of_since (stage : r.Stage r.RetiredAt) (since : r.retirementIdx ≠ none) :
    ∃ change ∈ changesOf r.ledger, change.Retires r.self := by
  obtain ⟨i, known⟩ := Option.ne_none_iff_exists'.mp since
  obtain ⟨_, e, found, change, member, retires⟩ := stage.evidence_of_since known
  exact ⟨change, mem_flatMap.mpr ⟨e, mem_of_getElem? found, member⟩, retires⟩

/-- What every step keeps in a log that does not trust the retired node `n` again. -/
structure Consistent (n : NodeId) (base : Nodes NodeId) (r : Registry NodeId) : Prop where
  self_eq : r.self = n
  tracks : r.Tracks base
  final : RetirementFinal n (changesOf r.ledger)
  kept : r.Bookkept r.RetiredAt

theorem Step.consistent {n : NodeId} {base : Nodes NodeId}
    (step : r.Step (fun ledger => RetirementFinal n (changesOf ledger)) t)
    (inv : r.Consistent n base) : t.Consistent n base := by
  have tracks : t.Tracks base := step.tracks inv.tracks
  have self : t.self = r.self := step.identity.1
  obtain ⟨rfl, before, final, kept⟩ := inv
  cases step with
  | rollback uncommitted within =>
    refine ⟨self, tracks, ?_, kept.rollback uncommitted⟩
    obtain ⟨_, _, _, _, _, frame⟩ := r.rollback_frame _
    rw [frame]
    exact final.of_prefix (changesOf_isPrefixOf ( take_prefix ..))
  | append next lawful =>
    have absent : r.retirementIdx ≠ none → r.self ∉ r.latest := by
      intro since
      rw [before.latest_eq]
      exact not_mem_applyChanges final (kept.stage.retired_of_since since) base
    exact ⟨self, tracks, lawful, kept.append before.length next absent lawful⟩
  | commit fresh within =>
    refine ⟨self, tracks, ?_, kept.commit fresh⟩
    obtain ⟨_, _, _, _, frame⟩ := r.commit_frame _
    rw [frame]
    exact final
  | lead role member =>
    refine ⟨self, tracks, final, ?_, kept.asserted⟩
    cases kept.stage with
    | member active phase since signed => exact .member active phase since signed
    | ordered _ retired => exact absurd retired member
    | signed _ _ retired => exact absurd retired member
    | completed _ _ retired => exact absurd retired member

theorem Path.consistent {n : NodeId} {base : Nodes NodeId}
    (path : r.Path (fun ledger => RetirementFinal n (changesOf ledger)) t)
    (inv : r.Consistent n base) : t.Consistent n base := by
  induction path with
  | refl => exact inv
  | tail _ step ih => exact step.consistent ih

theorem initial_consistent (settings : Settings NodeId) (n : NodeId) (index : Nat) :
    (initial settings n index).Consistent n (settings.configuration.getD ∅) := by
  refine ⟨rfl, initial_tracks settings n index, ?_, .member ?_ rfl rfl rfl, rfl⟩
  · intro earlier change within
    simp [initial, changesOf] at within
  · show (if settings.learner n then MembershipState.learner else .active) ≠ .retired
    split <;> decide

end Registry

namespace Node

/-- The fields that describe the retirement of a one-transaction node fit
together. -/
structure RetirementOk (s : Node NodeId) : Prop where
  ordered_iff : s.retirementPhase = some .ordered ↔
    s.retirementIdx.isSome ∧ s.retirementCommittableIdx = none
  signed_iff : s.retirementPhase = some .signed ∨ s.retirementPhase = some .completed ↔
    s.retirementIdx.isSome ∧ s.retirementCommittableIdx.isSome
  retirement_le : ∀ i, s.retirementIdx = some i → i ≤ s.lastIdx ∧
    ∀ j, s.retirementCommittableIdx = some j → i ≤ j
  committable_le : ∀ j, s.retirementCommittableIdx = some j → j ≤ s.lastIdx
  completed_le : s.retirementPhase = some .completed →
    ∀ j, s.retirementCommittableIdx = some j → j ≤ s.commitIdx
  active_unset : s.membershipState = .active →
    s.retirementIdx = none ∧ s.retirementCommittableIdx = none
  asserted : s.assertionFailed = false

theorem RetirementOk.of_consistent {n : NodeId} {base : Nodes NodeId} {s : Node NodeId}
    (inv : s.registry.Consistent n base) : s.RetirementOk := by
  have committed : s.commitIdx ≤ s.lastIdx := inv.tracks.commit_le
  have retired_le : ∀ i, s.registry.RetiredAt i → i ≤ s.lastIdx := by
    intro i retired
    have within : i ≤ s.ledgerStart + s.ledger.length := retired.le
    have length : s.ledgerStart + s.ledger.length = s.lastIdx := inv.tracks.length
    omega
  have asserted : s.assertionFailed = false := inv.kept.asserted
  cases inv.kept.stage with
  | member active phase since signed =>
    simp only [registry] at phase since signed
    constructor <;> simp [phase, since, signed, asserted]
  | ordered i retired phase since signed seen =>
    simp only [registry] at retired phase since signed
    constructor <;> simp [retired, phase, since, signed, asserted, retired_le i seen]
  | signed i j retired phase since signed seen le within =>
    simp only [registry] at retired phase since signed within
    constructor <;> simp [retired, phase, since, signed, asserted, retired_le i seen, le, within]
  | completed i j retired phase since signed seen le within role =>
    simp only [registry] at retired phase since signed within
    constructor <;> simp [retired, phase, since, signed, asserted, retired_le i seen, le, within,
      within.trans committed]

/-- In every run of a one-transaction node whose retirement is final the
bookkeeping of the retirement is in order, and its assertions hold. -/
theorem retirement_bookkeeping {settings : Settings NodeId} {n : NodeId} {index : Nat}
    {first s : Node NodeId} {trace : List (Lib.Transition (Node NodeId) (Operation NodeId))}
    (one : settings.reconfigurationType = .oneTransaction) (begins : Begins settings n index first)
    (run : Lib.Run (fun s op => some (s.perform op)) first trace s)
    (serves : ∀ t ∈ trace, t.pre.Serves t.action)
    (final : ∀ t ∈ trace, RetirementFinal n (changesOf t.post.ledger)) : s.RetirementOk := by
  obtain ⟨-, -, path⟩ := run_path one begins run serves
    (fun _ _ within final => RetirementFinal.of_prefix final (changesOf_isPrefixOf within)) final
  exact .of_consistent (Registry.Path.consistent path (Registry.initial_consistent settings n index))

/-- Both nodes of a service are trusted, then the first one is retired, and a
signature follows. -/
def trustBoth : ConfigurationChange (Fin 2) where
  cfgDelta := [(0, some ⟨"h", "0"⟩), (1, some ⟨"h", "1"⟩)]
  learners := []
  retiredNodes := []

def retireFirst : ConfigurationChange (Fin 2) where
  cfgDelta := [(0, none)]
  learners := []
  retiredNodes := [0]

def retiringEntries : List (Entry (Fin 2)) :=
  [{ term := 2, index := 1, kind := .plain, data := [], hooks := [trustBoth] },
   { term := 2, index := 2, kind := .plain, data := [], hooks := [retireFirst] },
   { term := 2, index := 3, kind := .signature, data := [], hooks := [] }]

theorem retiringEntries_final : RetirementFinal 0 (changesOf retiringEntries) := by
  intro earlier change inside trusts
  have inside : earlier ++ [change] ∈ [trustBoth, retireFirst].inits := (mem_inits _ _).mpr inside
  have shorter : earlier ++ [change] = [trustBoth] ∨ earlier ++ [change] = [trustBoth, retireFirst] := by
    simpa using inside
  rcases shorter with equal | equal
  · simp [equal, trustBoth, ConfigurationChange.Retires]
  have last : change = retireFirst := by
    simpa using congrArg List.getLast? equal
  obtain ⟨info, member⟩ := trusts
  simp [last, retireFirst] at member

theorem retirement_bookkeeping_retiring :
    let signed := (initialPrimary {} (0 : Fin 2)).perform (.replicate {} retiringEntries 2)
    let unsigned := signed.perform (.rollback {} 2)
    signed.retirementPhase = some .signed ∧ unsigned.retirementPhase = some .ordered ∧
      unsigned.RetirementOk := by
  intro signed unsigned
  have written : signed.ledger <+: retiringEntries := by decide +kernel
  have kept : unsigned.ledger <+: retiringEntries := by decide +kernel
  have within : 2 ≤ signed.lastIdx := by decide +kernel
  refine ⟨by decide +kernel, by decide +kernel, ?_⟩
  refine retirement_bookkeeping rfl Begins.primary (.next (.next .start rfl) rfl) ?_ ?_
  · simp [Serves, retiringEntries, signed] at within ⊢
    exact within
  · simp only [mem_cons, not_mem_nil, or_false, forall_eq_or_imp, forall_eq]
    exact ⟨retiringEntries_final.of_prefix (changesOf_isPrefixOf kept),
      retiringEntries_final.of_prefix (changesOf_isPrefixOf written)⟩

end Node
end CCF.Aft
