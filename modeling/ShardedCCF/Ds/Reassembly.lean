import ShardedCCF.Ds.Blocking
import ShardedCCF.Ds.Fragments

/-! The fragments of all writers, as they are read: each writer's stream is put together
from its own frames, whatever comes between them. -/
namespace CCF.Oversized
open Lib List Option Function

open RingBuffer

variable {fragment k w id : Nat} {r r' : FragmentReconstructor} {σ τ : Nat → Stream} {next : Stream} {frame : Frame}

theorem readNumber_append {n : Nat} (width : Nat) (fits : n < 256 ^ width) (rest : Bytes) :
    readNumber width (toBytes width n ++ rest) = some (n, rest) := by
  have length := length_toBytes width n
  rw [readNumber, if_neg (by rw [length_append]; omega), take_append_of_le_length (by omega),
    drop_append_of_le_length (by omega), take_of_length_le (by omega), drop_of_length_le (by omega),
    ofBytes_toBytes width fits]
  rfl

theorem Stream.collect_current {sent : List (Nat × Bytes)} {p p' : PartialMessage} {id' : Nat}
    (collected : collect sent id p = some next) (current : next.current = some (id', p')) : id' = id := by
  unfold collect at collected
  split at collected
  · cases collected
  split at collected
  · cases collected
    cases current
  cases collected
  cases current
  rfl

theorem Stream.feed_current {σ : Stream} {p : PartialMessage} (fed : σ.feed fragment frame = some next)
    (current : next.current = some (id, p)) : frame.introduces = some id ∨ ∃ p', σ.current = some (id, p') := by
  cases frame with
  | small m payload =>
    simp only [feed, ite_none_right_eq_some, some.injEq] at fed
    rw [← fed.2] at current
    cases current
  | first id' m total payload =>
    simp only [feed, ite_none_right_eq_some] at fed
    exact .inl (by rw [Frame.introduces, collect_current fed.2 current])
  | more id' payload =>
    cases before : σ.current with
    | none => simp [feed, before] at fed
    | some named =>
      simp only [feed, before, ite_none_right_eq_some] at fed
      obtain ⟨rfl, collected⟩ := fed
      exact .inr ⟨named.2, by rw [collect_current collected current]⟩

/-- The reader holds what the streams of the writers have come to. -/
structure Tracks (k : Nat) (r : FragmentReconstructor) (σ : Nat → Stream) : Prop where
  partials : ∀ id p, r.partialMessages id = some p ↔ ∃ w, (σ w).current = some (id, p)
  apart : ∀ w w' id p p', (σ w).current = some (id, p) → (σ w').current = some (id, p') → w = w'
  ids : ∀ w id p, (σ w).current = some (id, p) → id < 2 ^ 64
  dispatched : (r.dispatched : Multiset (Nat × Bytes)) = ∑ w ∈ Finset.range k, ((σ w).sent : Multiset (Nat × Bytes))

namespace Tracks

theorem init (k : Nat) : Tracks k {} fun _ => {} :=
  ⟨fun _ _ => ⟨nofun, fun ⟨_, same⟩ => by cases same⟩, nofun, nofun, by simp⟩

theorem sum_sent (dispatched : (r.dispatched : Multiset (Nat × Bytes)) =
      ∑ w ∈ Finset.range k, ((σ w).sent : Multiset (Nat × Bytes))) (inside : w < k)
    (extra : List (Nat × Bytes)) (sent : next.sent = (σ w).sent ++ extra) :
    ((r.dispatched ++ extra : List (Nat × Bytes)) : Multiset (Nat × Bytes)) =
      ∑ w' ∈ Finset.range k, ((Function.update σ w next w').sent : Multiset (Nat × Bytes)) := by
  have member := Finset.mem_range.mpr inside
  rw [← Multiset.coe_add, dispatched, ← Finset.add_sum_erase _ _ member,
    ← Finset.add_sum_erase _ (fun w' => ((Function.update σ w next w').sent : Multiset (Nat × Bytes))) member,
    update_self, sent, ← Multiset.coe_add]
  have others : ∑ w' ∈ (Finset.range k).erase w, ((Function.update σ w next w').sent : Multiset (Nat × Bytes)) =
      ∑ w' ∈ (Finset.range k).erase w, ((σ w').sent : Multiset (Nat × Bytes)) :=
    Finset.sum_congr rfl fun w' other => by rw [update_of_ne (Finset.ne_of_mem_erase other)]
  rw [others]
  abel

theorem replace (tracks : Tracks k r σ) (inside : w < k) (range : id < 2 ^ 64)
    (others : ∀ w' ≠ w, ∀ p, (σ w').current ≠ some (id, p)) (own : ∀ id' p, (σ w).current = some (id', p) → id' = id)
    (kept : Option PartialMessage) (next : Stream) (current : next.current = kept.map (id, ·))
    (extra : List (Nat × Bytes)) (sent : next.sent = (σ w).sent ++ extra) :
    Tracks k ⟨Function.update r.partialMessages id kept, r.dispatched ++ extra⟩ (Function.update σ w next) := by
  have named : ∀ id' p, next.current = some (id', p) → id' = id ∧ kept = some p := by
    intro id' p same
    rw [current] at same
    obtain ⟨_, rfl, same⟩ := map_eq_some_iff.mp same
    cases same
    exact ⟨rfl, rfl⟩
  have cases : ∀ w' id' p, (Function.update σ w next w').current = some (id', p) →
      w' = w ∧ next.current = some (id', p) ∨ w' ≠ w ∧ (σ w').current = some (id', p) := by
    intro w' id' p same
    by_cases here : w' = w
    · rw [here, update_self] at same
      exact .inl ⟨here, same⟩
    · rw [update_of_ne here] at same
      exact .inr ⟨here, same⟩
  refine ⟨fun id' p => ?_, fun w₁ w₂ id' p p' first second => ?_, fun w' id' p same => ?_,
    sum_sent tracks.dispatched inside extra sent⟩
  · dsimp only
    by_cases same : id' = id
    · subst same
      rw [update_self]
      constructor
      · rintro rfl
        exact ⟨w, by rw [update_self, current]; rfl⟩
      · rintro ⟨w', found⟩
        rcases cases w' id' p found with ⟨-, found⟩ | ⟨other, found⟩
        · exact (named id' p found).2
        · exact absurd found (others w' other p)
    · rw [update_of_ne same, tracks.partials]
      constructor
      · rintro ⟨w', found⟩
        refine ⟨w', ?_⟩
        rw [update_of_ne]
        · exact found
        · rintro rfl
          exact same (own id' p found)
      · rintro ⟨w', found⟩
        rcases cases w' id' p found with ⟨-, found⟩ | ⟨-, found⟩
        · exact absurd (named id' p found).1 same
        · exact ⟨w', found⟩
  · rcases cases w₁ id' p first with ⟨here, mine⟩ | ⟨other, theirs⟩
    · rcases cases w₂ id' p' second with ⟨here', -⟩ | ⟨other, theirs⟩
      · rw [here, here']
      · rw [(named id' p mine).1] at theirs
        exact absurd theirs (others w₂ other p')
    rcases cases w₂ id' p' second with ⟨-, mine⟩ | ⟨-, theirs'⟩
    · rw [(named id' p' mine).1] at theirs
      exact absurd theirs (others w₁ other p)
    · exact tracks.apart w₁ w₂ id' p p' theirs theirs'
  · rcases cases w' id' p same with ⟨-, found⟩ | ⟨-, found⟩
    · rw [(named id' p found).1]
      exact range
    · exact tracks.ids w' id' p found

theorem pass (tracks : Tracks k r σ) (inside : w < k) (message : Nat × Bytes) (current : next.current = (σ w).current)
    (sent : next.sent = (σ w).sent ++ [message]) :
    Tracks k { r with dispatched := r.dispatched ++ [message] } (Function.update σ w next) := by
  have same : ∀ w', (Function.update σ w next w').current = (σ w').current := by
    intro w'
    by_cases here : w' = w
    · rw [here, update_self, current]
    · rw [update_of_ne here]
  refine ⟨?_, ?_, ?_, sum_sent tracks.dispatched inside [message] sent⟩
  · simpa only [same] using tracks.partials
  · simpa only [same] using tracks.apart
  · simpa only [same] using tracks.ids

theorem collect (tracks : Tracks k r σ) (inside : w < k) (range : id < 2 ^ 64)
    (others : ∀ w' ≠ w, ∀ p, (σ w').current ≠ some (id, p)) (own : ∀ id' p, (σ w).current = some (id', p) → id' = id)
    (p : PartialMessage) (payload : Bytes) {rest : Bytes} (located : r.locate id rest = some (p, payload))
    (collected : Stream.collect (σ w).sent id { p with data := p.data ++ payload } = some next) :
    ∃ r', r.onFragment (toBytes 8 id ++ rest) = some r' ∧ Tracks k r' (Function.update σ w next) := by
  have read : readNumber 8 (toBytes 8 id ++ rest) = some (id, rest) := readNumber_append 8 range rest
  simp only [FragmentReconstructor.onFragment, read, located, bind_eq_bind, bind_some]
  unfold Stream.collect at collected
  simp only [length_append] at collected
  split at collected
  · cases collected
  rw [if_neg (by omega), length_append]
  split at collected
  · rename_i full
    cases collected
    rw [if_pos full]
    exact ⟨_, rfl, tracks.replace inside range others own none _ rfl [_] rfl⟩
  rename_i short
  cases collected
  rw [if_neg short]
  refine ⟨_, rfl, ?_⟩
  have kept := tracks.replace inside range others own (some { p with data := p.data ++ payload })
    ⟨(σ w).sent, some (id, { p with data := p.data ++ payload })⟩ rfl [] (append_nil (σ w).sent).symm
  simpa using kept

theorem receive (tracks : Tracks k r σ) (inside : w < k) (fed : (σ w).feed fragment frame = some next)
    (fresh : ∀ id, frame.introduces = some id → id < 2 ^ 64 ∧ ∀ w' p, (σ w').current ≠ some (id, p)) :
    ∃ r', r.receive fragment (frame.message fragment) = some r' ∧ Tracks k r' (Function.update σ w next) := by
  cases frame with
  | small m payload =>
    simp only [Stream.feed, ite_none_right_eq_some, some.injEq] at fed
    obtain ⟨⟨none, other⟩, rfl⟩ := fed
    rw [FragmentReconstructor.receive, Frame.message, if_neg other]
    exact ⟨_, rfl, tracks.pass inside (m, payload) none.symm rfl⟩
  | first id m total payload =>
    simp only [Stream.feed, ite_none_right_eq_some] at fed
    obtain ⟨⟨none, type, size⟩, collected⟩ := fed
    obtain ⟨range, unused⟩ := fresh id rfl
    rw [FragmentReconstructor.receive, Frame.message, if_pos rfl, encode, append_assoc]
    refine tracks.collect inside range (fun w' _ => unused w') (fun id' p same => ?_) ⟨m, total, []⟩ payload ?_
      collected
    · rw [none] at same
      cases same
    · have absent : r.partialMessages id = Option.none := by
        rw [eq_none_iff_forall_ne_some]
        intro p found
        obtain ⟨w', found⟩ := (tracks.partials id p).mp found
        exact unused w' p found
      have types := readNumber_append 4 (show m < 256 ^ 4 by omega) (toBytes 8 total ++ payload)
      have sizes := readNumber_append 8 (show total < 256 ^ 8 by omega) payload
      simp only [FragmentReconstructor.locate, absent, append_assoc, types, sizes, bind_eq_bind,
        bind_some]
      rfl
  | more id payload =>
    cases current : (σ w).current with
    | none => simp [Stream.feed, current] at fed
    | some named =>
      obtain ⟨id', p⟩ := named
      simp only [Stream.feed, current, ite_none_right_eq_some] at fed
      obtain ⟨rfl, collected⟩ := fed
      rw [FragmentReconstructor.receive, Frame.message, if_pos rfl, encode]
      refine tracks.collect inside (tracks.ids w id p current) (fun w' other p' found => ?_) (fun id' p' found => ?_)
        p payload ?_ collected
      · exact other (tracks.apart w' w id p' p found current)
      · rw [current] at found
        cases found
        rfl
      · rw [FragmentReconstructor.locate, (tracks.partials id p).mpr ⟨w, current⟩]

end Tracks

structure Carries (fragment : Nat) (e : Entry) (f : Frame) : Prop where
  message : (e.m, e.payload) = f.message fragment
  introduces : ∀ id, f.introduces = some id → id = e.tl

/-- Entries in the order of their reservations are read by frames of the writers'
streams, which are independent of each other. -/
theorem Tracks.receiveAll (tracks : Tracks k r σ) (entries : List Entry) (frames : Nat → List Frame)
    (writers : ∀ w ≥ k, frames w = [])
    (carried : ∀ w, List.Forall₂ (Carries fragment) (entries.filter (·.writer = w)) (frames w))
    (fed : ∀ w, (frames w).foldlM (Stream.feed fragment) (σ w) = some (τ w))
    (distinct : (entries.map (·.tl)).Nodup) (range : ∀ e ∈ entries, e.tl < 2 ^ 64)
    (fresh : ∀ e ∈ entries, ∀ w p, (σ w).current ≠ some (e.tl, p)) :
    ∃ r', r.receiveAll fragment (entries.map fun e => (e.m, e.payload)) = some r' ∧ Tracks k r' τ := by
  induction entries generalizing r σ frames with
  | nil =>
    have same : τ = σ := by
      funext w
      have none := carried w
      rw [filter_nil, forall₂_nil_left_iff] at none
      have last := fed w
      rw [none] at last
      exact (some.inj last).symm
    exact ⟨r, rfl, same ▸ tracks⟩
  | cons e entries ih =>
    have own := carried e.writer
    rw [filter_cons_of_pos (by simp), forall₂_cons_left_iff] at own
    obtain ⟨f, rest, here, later, same⟩ := own
    have inside : e.writer < k := by
      by_contra beyond
      rw [writers _ (not_lt.mp beyond)] at same
      cases same
    have first := fed e.writer
    rw [same, foldlM_cons] at first
    obtain ⟨next, taken, after⟩ := bind_eq_some_iff.mp first
    rw [map_cons, nodup_cons] at distinct
    rw [forall_mem_cons] at range fresh
    obtain ⟨r₁, received, tracks₁⟩ := tracks.receive inside taken fun id introduced => by
      rw [here.introduces id introduced]
      exact ⟨range.1, fresh.1⟩
    have writers₁ : ∀ w ≥ k, Function.update frames e.writer rest w = [] := by
      intro w beyond
      rw [update_of_ne (by omega)]
      exact writers w beyond
    have carried₁ : ∀ w, List.Forall₂ (Carries fragment) (entries.filter (·.writer = w))
        (Function.update frames e.writer rest w) := by
      intro w
      by_cases mine : e.writer = w
      · subst mine
        rwa [update_self]
      rw [update_of_ne (Ne.symm mine)]
      have others := carried w
      rwa [filter_cons_of_neg (by simpa using mine)] at others
    have fed₁ : ∀ w, (Function.update frames e.writer rest w).foldlM (Stream.feed fragment)
        (Function.update σ e.writer next w) = some (τ w) := by
      intro w
      by_cases mine : e.writer = w
      · subst mine
        rwa [update_self, update_self]
      · rw [update_of_ne (Ne.symm mine), update_of_ne (Ne.symm mine)]
        exact fed w
    have fresh₁ : ∀ d ∈ entries, ∀ w p, (Function.update σ e.writer next w).current ≠ some (d.tl, p) := by
      intro d member w p
      by_cases mine : e.writer = w
      · subst mine
        rw [update_self]
        intro current
        rcases Stream.feed_current taken current with introduced | ⟨p', before⟩
        · have other : d.tl ≠ e.tl := fun same => distinct.1 (same ▸ List.mem_map_of_mem member)
          exact other (here.introduces _ introduced)
        · exact fresh.2 d member _ p' before
      · rw [update_of_ne (Ne.symm mine)]
        exact fresh.2 d member w p
    obtain ⟨r₂, others, tracks₂⟩ := ih tracks₁ _ writers₁ carried₁ fed₁ distinct.2 range.2 fresh₁
    refine ⟨r₂, ?_, tracks₂⟩
    rw [FragmentReconstructor.receiveAll, map_cons, foldlM_cons, here.message, received]
    exact others

def pieceOf (e : Entry) : Piece where
  m := e.m
  size := e.size
  tl := e.tl
  written := e.written
  finished := e.phase = .finished

def piecesOf (log : List Entry) (w : Nat) : List Piece := (log.filter (·.writer = w)).map pieceOf

section Pieces

variable {log : List Entry} {e : Entry} {ticket : Nat} {f : Entry → Entry}

theorem piecesOf_append (log : List Entry) (e : Entry) (w : Nat) :
    piecesOf (log ++ [e]) w = piecesOf log w ++ if e.writer = w then [pieceOf e] else [] := by
  rw [piecesOf, filter_append, map_append, piecesOf]
  by_cases own : e.writer = w <;> simp [own]

theorem piecesOf_modify (found : log[ticket]? = some e) (writer : (f e).writer = e.writer)
    (same : e.writer = w → pieceOf (f e) = pieceOf e) : piecesOf (log.modify ticket f) w = piecesOf log w := by
  induction log generalizing ticket with
  | nil => cases found
  | cons d log ih =>
    cases ticket with
    | zero =>
      cases found
      by_cases own : e.writer = w <;> simp [piecesOf, writer, own, same]
    | succ ticket =>
      have rest := ih found
      unfold piecesOf at rest
      by_cases own : d.writer = w <;> simp [piecesOf, own, rest]

def actor : RingBuffer.Action → Option Nat
  | .prepare w _ _ _ | .writer w _ | .writeBytes w _ _ | .finish w _ => some w
  | .read _ | .reader => none

theorem others_unchanged {bufferSize : Nat} {s s' : Ring} {a : RingBuffer.Action} (inv : s.Inv bufferSize)
    (moved : s.step bufferSize a = some s') (other : actor a ≠ some w) :
    s'.pc w = s.pc w ∧ piecesOf s'.log w = piecesOf s.log w := by
  have unseen {w' : Nat} {pc : Pc} (other : some w' ≠ some w) (updated : s'.pc = Function.update s.pc w' pc) :
      s'.pc w = s.pc w := by rw [updated, update_of_ne (fun same : w = w' => other (congrArg some same.symm))]
  have owned {w' ticket : Nat} {padded : Bool} {f : Entry → Entry} (other : some w' ≠ some w)
      (owns : Ring.Owns s.log w' ticket padded) (log : s'.log = s.log.modify ticket f)
      (writer : ∀ e, (f e).writer = e.writer) : piecesOf s'.log w = piecesOf s.log w := by
    obtain ⟨e, found, own, -⟩ := owns
    rw [log, piecesOf_modify found (writer e)]
    rintro rfl
    exact absurd (congrArg some own.symm) other
  cases Ring.step_moves moved with
  | prepare w' m size wait idle log pc
  | retry w' spurious call pc' at' log pc retries => exact ⟨unseen other pc, by rw [log]⟩
  | reserve w' spurious c at' log tl pc =>
    refine ⟨unseen other pc, ?_⟩
    have apart : (Ring.entryOf c w').writer ≠ w := fun same => other (congrArg some same)
    rw [log, piecesOf_append, if_neg apart, append_nil]
  | pad w' spurious ticket at' log pc | head w' spurious ticket at' log pc =>
    have owns := inv.threads w'
    rw [at'] at owns
    exact ⟨unseen other pc, owned other owns log fun _ => rfl⟩
  | write w' ticket bytes e idle found writer pending log pc | finish w' ticket e idle found writer pending log pc =>
    refine ⟨by rw [pc], ?_⟩
    rw [log, piecesOf_modify found rfl]
    rintro rfl
    exact absurd (congrArg some writer.symm) other
  | read limit log pc => exact ⟨by rw [pc], by rw [log]⟩
  | reader log pc => exact ⟨by rw [pc], by rw [log]⟩

end Pieces

namespace System

variable {bufferSize n : Nat} {s s' : System} {action : Action} {all : Nat → List Op}

def desk (s : System) (w : Nat) : Desk where
  pieces := piecesOf s.ring.log w
  identifier := (s.threads w).identifier

/-- The call of `prepare` that has not got its reservation yet. -/
def awaited (pc : Pc) : List Op :=
  match pc.call with
  | none => []
  | some (m, size, _) => [.prepare m size]

structure Follows (all : Nat → List Op) (s : System) : Prop where
  waits : ∀ w m size wait, (s.ring.pc w).call = some (m, size, wait) → wait = true
  made : ∀ w, ∃ done, all w = done ++ (awaited (s.ring.pc w) ++ (s.threads w).ops) ∧ Desk.After {} done (s.desk w)

theorem isOpen_pieceOf (tended : s.ring.Tended) (idle : s.ring.pc w = .idle) :
    ∀ e ∈ s.ring.log.filter (·.writer = w), (pieceOf e).isOpen = decide (e.phase = .pending) := by
  intro e member
  obtain ⟨member, own⟩ := mem_filter.mp member
  obtain ⟨i, found⟩ := getElem?_of_mem member
  rw [Piece.isOpen, pieceOf]
  cases phase : e.phase with
  | reserved =>
    have busy := tended i e found phase
    rw [of_decide_eq_true own, idle] at busy
    rcases busy with busy | busy <;> cases busy
  | pending => rfl
  | finished => rfl

section Marked

variable {f : Entry → Entry} {g : Piece → Piece}

theorem piecesOf_modifyLast (tended : s.ring.Tended) (idle : s.ring.pc w = .idle)
    (writer : ∀ e, (f e).writer = e.writer) (piece : ∀ e, pieceOf (f e) = g (pieceOf e)) :
    piecesOf (modifyLast (mine w) f s.ring.log) w = modifyLast Piece.isOpen g (piecesOf s.ring.log w) := by
  have filtered := filter_modifyLast (l := s.ring.log) (f := f) (q := fun e : Entry => e.writer = w)
    (p := fun e => e.phase = .pending) fun e => by rw [writer]
  rw [piecesOf, piecesOf, ← map_modifyLast (isOpen_pieceOf tended idle) piece, ← filtered]
  rfl

theorem piecesOf_modifyFirst (tended : s.ring.Tended) (idle : s.ring.pc w = .idle)
    (writer : ∀ e, (f e).writer = e.writer) (piece : ∀ e, pieceOf (f e) = g (pieceOf e)) :
    piecesOf (modifyFirst (mine w) f s.ring.log) w = modifyFirst Piece.isOpen g (piecesOf s.ring.log w) := by
  have filtered := filter_modifyFirst (l := s.ring.log) (f := f) (q := fun e : Entry => e.writer = w)
    (p := fun e => e.phase = .pending) fun e => by rw [writer]
  rw [piecesOf, piecesOf, ← map_modifyFirst (isOpen_pieceOf tended idle) piece, ← filtered]
  rfl

end Marked

section Calls

variable {e : Entry} {ticket : Nat} {ops : List Op} {content : Content} {ring : Ring}

theorem naming_eq (tended : s.ring.Tended) (idle : s.ring.pc w = .idle)
    (last : lastIdx? (mine w) s.ring.log = some ticket) (found : s.ring.log[ticket]? = some e) (content : Content) :
    (s.desk w).naming content = (s.threads w).naming e content := by
  cases content with
  | bytes _ | identifier => rfl
  | header m total =>
    obtain ⟨_, got, own⟩ := exists_lastIdx? last
    cases found.symm.trans got
    have piece : last? Piece.isOpen (s.desk w).pieces = some (pieceOf e) := by
      rw [desk, piecesOf, last?_map (isOpen_pieceOf tended idle), last?_filter]
      exact congrArg (Option.map pieceOf) own
    rw [Desk.naming, piece]
    rfl

theorem desk_write (tended : s.ring.Tended) (idle : s.ring.pc w = .idle)
    (last : lastIdx? (mine w) s.ring.log = some ticket) (found : s.ring.log[ticket]? = some e)
    (log : ring.log = s.ring.log.modify ticket fun d =>
      { d with written := d.written ++ encode ((s.threads w).naming e content) content }) :
    (s.advance w { ops, identifier := (s.threads w).naming e content } ring).desk w =
      (s.desk w).act (.write content, 0) := by
  have pieces := piecesOf_modifyLast (f := fun d =>
    { d with written := d.written ++ encode ((s.threads w).naming e content) content })
    (g := fun p => { p with written := p.written ++ encode ((s.threads w).naming e content) content }) tended idle (fun _ => rfl) (fun _ => rfl)
  rw [← modify_lastIdx? last, ← log] at pieces
  rw [Desk.act, naming_eq tended idle last found]
  simp [desk, advance, pieces]

theorem desk_finish (tended : s.ring.Tended) (idle : s.ring.pc w = .idle)
    (first : s.ring.log.findIdx? (mine w) = some ticket)
    (log : ring.log = s.ring.log.modify ticket fun d => { d with phase := .finished }) :
    (s.advance w { s.threads w with ops } ring).desk w = (s.desk w).act (.finish, 0) := by
  have pieces := piecesOf_modifyFirst (f := fun d => { d with phase := .finished })
    (g := fun p => { p with finished := true }) tended idle (fun _ => rfl) (fun _ => rfl)
  rw [← modify_findIdx? first, ← log] at pieces
  rw [Desk.act]
  simp [desk, advance, pieces]

end Calls

namespace Follows

variable (follows : Follows all s) {ring : Ring} {a : RingBuffer.Action}
include follows

theorem of_actor (inv : s.ring.Inv bufferSize) (moved : s.ring.step bufferSize a = some s'.ring)
    (threads : ∀ w', actor a ≠ some w' → s'.threads w' = s.threads w')
    (own : ∀ w, actor a = some w → (∀ m size wait, (s'.ring.pc w).call = some (m, size, wait) → wait = true) ∧
      ∃ done, all w = done ++ (awaited (s'.ring.pc w) ++ (s'.threads w).ops) ∧ Desk.After {} done (s'.desk w)) :
    Follows all s' := by
  constructor
  · intro w m size wait call
    by_cases mine : actor a = some w
    · exact (own w mine).1 m size wait call
    · rw [(others_unchanged inv moved mine).1] at call
      exact follows.waits w m size wait call
  · intro w
    by_cases mine : actor a = some w
    · exact (own w mine).2
    obtain ⟨pc, pieces⟩ := others_unchanged inv moved mine
    rw [pc, desk, pieces, threads w mine]
    exact follows.made w

theorem made_call (idle : s.ring.pc w = .idle) {op : Op} {ops : List Op} (next : (s.threads w).ops = op :: ops)
    {thread : Thread} (same : thread.ops = ops) (pc : ring.pc = s.ring.pc)
    (acted : (s.advance w thread ring).desk w = (s.desk w).act (op, 0)) :
    ∃ done, all w = done ++ (awaited ((s.advance w thread ring).ring.pc w) ++ ((s.advance w thread ring).threads w).ops) ∧
      Desk.After {} done ((s.advance w thread ring).desk w) := by
  obtain ⟨done, split, after⟩ := follows.made w
  refine ⟨done ++ [op], ?_, ?_⟩
  · rw [split, idle, next]
    simp [awaited, advance, pc, idle, Pc.call, same]
  · rw [Desk.after_append]
    exact ⟨_, after, Desk.after_cons.mpr ⟨0, Desk.after_nil.mpr acted⟩⟩

theorem made_writer (inv : s.ring.Inv bufferSize) (taken : s.ring.step bufferSize (.writer w spurious) = some ring) :
    (∀ m size wait, (ring.pc w).call = some (m, size, wait) → wait = true) ∧
      ∃ done, all w = done ++ (awaited (ring.pc w) ++ (s.threads w).ops) ∧
        Desk.After {} done ({ s with ring }.desk w) := by
  obtain ⟨done, split, after⟩ := follows.made w
  have unseen {ticket : Nat} {padded : Bool} {f : Entry → Entry} (owns : Ring.Owns s.ring.log w ticket padded)
      (log : ring.log = s.ring.log.modify ticket f) (writer : ∀ e, (f e).writer = e.writer)
      (same : ∀ e, e.phase = .reserved → pieceOf (f e) = pieceOf e) : { s with ring }.desk w = s.desk w := by
    obtain ⟨e, found, -, reserved, -⟩ := owns
    simp only [desk, log, piecesOf_modify found (writer e) fun _ => same e reserved]
  cases Ring.step_moves taken with
  | retry _ _ call pc' at' log pc retries =>
    have waits : call.2.2 = true := follows.waits w call.1 call.2.1 call.2.2 at'
    rcases retries with kept | ⟨-, gives⟩
    · rw [pc, update_self, awaited, kept, desk, log]
      rw [awaited, at'] at split
      refine ⟨fun m size wait same => ?_, done, split, after⟩
      cases same
      exact waits
    · rw [waits] at gives
      cases gives
  | reserve _ _ c at' log tl pc =>
    have silent : (ring.pc w).call = none := by
      rw [pc, update_self]
      split <;> rfl
    rw [awaited, silent]
    rw [awaited, at'] at split
    refine ⟨by simp, done ++ [.prepare c.m c.size], by simpa [Pc.call] using split, ?_⟩
    rw [Desk.after_append]
    refine ⟨_, after, Desk.after_cons.mpr ⟨c.tl, Desk.after_nil.mpr ?_⟩⟩
    simp [desk, log, piecesOf_append, Ring.entryOf, Desk.act, pieceOf]
  | pad _ _ ticket at' log pc =>
    have owns := inv.threads w
    rw [at'] at owns
    rw [pc, update_self, unseen owns log (fun _ => rfl) (fun _ _ => rfl)]
    rw [at'] at split
    exact ⟨by simp [Pc.call], done, split, after⟩
  | head _ _ ticket at' log pc =>
    have owns := inv.threads w
    rw [at'] at owns
    rw [pc, update_self, unseen owns log (fun _ => rfl) (fun e reserved => by simp [pieceOf, reserved])]
    rw [at'] at split
    exact ⟨by simp [Pc.call], done, split, after⟩

theorem step (inv : s.ring.Inv bufferSize) (tended : s.ring.Tended) (moved : s.step bufferSize action = some s') :
    Follows all s' := by
  cases action with
  | call w =>
    have untouched {thread : Thread} {ring : Ring} (w' : Nat) (other : some w ≠ some w') :
        (s.advance w thread ring).threads w' = s.threads w' :=
      update_of_ne (fun same : w' = w => other (congrArg some same.symm)) _ _
    cases calls moved with
    | prepare m size ops ring next taken =>
      cases Ring.step_moves taken with
      | prepare _ _ _ _ idle log pc =>
        refine follows.of_actor inv taken untouched fun w' own => ?_
        cases own
        obtain ⟨done, split, after⟩ := follows.made w
        refine ⟨fun m size wait call => ?_, done, ?_, ?_⟩
        · simp only [advance, pc, update_self, Pc.call, some.injEq, Prod.mk.injEq] at call
          exact call.2.2.symm
        · rw [split, idle, next]
          simp [awaited, advance, pc, Pc.call]
        · simpa [desk, advance, log] using after
    | write content ops ticket e ring next last found taken =>
      cases Ring.step_moves taken with
      | write _ _ _ _ idle _ _ _ log pc =>
        refine follows.of_actor inv taken untouched fun w' own => ?_
        cases own
        refine ⟨fun m size wait call => ?_, follows.made_call idle next rfl pc (desk_write tended idle last found log)⟩
        simp [advance, pc, idle, Pc.call] at call
    | finish ops ticket ring next first taken =>
      cases Ring.step_moves taken with
      | finish _ _ _ idle _ _ _ log pc =>
        refine follows.of_actor inv taken untouched fun w' own => ?_
        cases own
        refine ⟨fun m size wait call => ?_, follows.made_call idle next rfl pc (desk_finish tended idle first log)⟩
        simp [advance, pc, idle, Pc.call] at call
  | writer w spurious =>
    obtain ⟨ring, taken, rfl⟩ := map_eq_some_iff.mp moved
    have taken : s.ring.step bufferSize (.writer w spurious) = some ring := taken
    refine follows.of_actor inv taken (fun _ _ => rfl) fun w' own => ?_
    cases own
    exact follows.made_writer inv taken
  | read limit =>
    obtain ⟨ring, taken, rfl⟩ := map_eq_some_iff.mp moved
    have taken : s.ring.step bufferSize (.read limit) = some ring := taken
    exact follows.of_actor inv taken (fun _ _ => rfl) (by rintro _ ⟨⟩)
  | reader =>
    obtain ⟨ring, taken, rfl⟩ := map_eq_some_iff.mp moved
    have taken : s.ring.step bufferSize .reader = some ring := taken
    exact follows.of_actor inv taken (fun _ _ => rfl) (by rintro _ ⟨⟩)

end Follows

def start (fragment : Nat) (cfgs : Nat → Option WriterConfig) (jobs : Nat → List Job) : System where
  threads w := { ops := (opsOf fragment (cfgs w) (jobs w)).getD [] }

/-- Every writer is accepted, its messages are within its limit and of another type
than fragments. Types and sizes are machine numbers. -/
structure Sends (fragment : Nat) (cfgs : Nat → Option WriterConfig) (jobs : Nat → List Job) : Prop where
  accepted : ∀ w c, cfgs w = some c → c.accepted ∧ c.maxTotalSize < 2 ^ 64
  sizes : ∀ w c, cfgs w = some c → ∀ job ∈ jobs w, job.bytes.length ≤ c.maxTotalSize
  types : ∀ w, ∀ job ∈ jobs w, job.m ≠ fragment ∧ job.m < 2 ^ 32

variable {cfgs : Nat → Option WriterConfig} {jobs : Nat → List Job}

theorem Sends.opsOf_eq (sends : Sends fragment cfgs jobs) (w : Nat) :
    opsOf fragment (cfgs w) (jobs w) = some ((start fragment cfgs jobs).threads w).ops := by
  have exists_ops : ∃ ops, opsOf fragment (cfgs w) (jobs w) = some ops := by
    cases cfg : cfgs w with
    | none => exact ⟨_, rfl⟩
    | some c =>
      have sizes := sends.sizes w c cfg
      suffices ∃ lists, (jobs w).mapM (Job.ops fragment c) = some lists by
        obtain ⟨lists, each⟩ := this
        exact ⟨_, by rw [opsOf, each]; rfl⟩
      generalize jobs w = jobs at sizes
      induction jobs with
      | nil => exact ⟨[], rfl⟩
      | cons job jobs ih =>
        rw [forall_mem_cons] at sizes
        obtain ⟨ops, one⟩ := Job.ops_of_le fragment sizes.1
        obtain ⟨lists, others⟩ := ih sizes.2
        exact ⟨ops :: lists, by simp [one, others]⟩
  obtain ⟨ops, some⟩ := exists_ops
  rw [some, start]
  simp [some]

theorem run_follows (power : bufferSize = 2 ^ n)
    (run : Run (System.step bufferSize) (start fragment cfgs jobs) trace s) :
    s.ring.Inv bufferSize ∧ Follows (fun w => ((start fragment cfgs jobs).threads w).ops) s := by
  have kept := Run.invariant run (fun s => (s.ring.Inv bufferSize ∧ s.ring.Tended) ∧
    Follows (fun w => ((start fragment cfgs jobs).threads w).ops) s) ?_ ?_
  · exact ⟨kept.1.1, kept.2⟩
  · exact ⟨⟨.init bufferSize, nofun⟩, nofun, fun w => ⟨[], rfl, Desk.after_nil.mpr rfl⟩⟩
  · rintro s action s' ⟨⟨inv, tended⟩, follows⟩ moved
    obtain ⟨a, taken⟩ := step_ring moved
    exact ⟨⟨inv.step power taken, tended.step inv taken⟩, follows.step inv tended moved⟩

theorem carries_of_holds {e : Entry} {f : Frame} (holds : Desk.Holds fragment (pieceOf e) f) : Carries fragment e f := by
  have full : e.written.length = e.size := holds.full
  refine ⟨?_, holds.introduces⟩
  rw [← holds.message, Entry.payload, full, Nat.sub_self, replicate_zero, append_nil]
  rfl

theorem sent_prefix {frames : List Frame} {σ τ : Stream} (fed : frames.foldlM (Stream.feed fragment) σ = some τ) :
    σ.sent <+: τ.sent := by
  induction frames generalizing σ with
  | nil =>
    cases fed
    exact prefix_rfl
  | cons f frames ih =>
    rw [foldlM_cons] at fed
    obtain ⟨next, taken, rest⟩ := bind_eq_some_iff.mp fed
    refine List.IsPrefix.trans ?_ (ih rest)
    have collects {id : Nat} {p : PartialMessage} (collected : Stream.collect σ.sent id p = some next) :
        σ.sent <+: next.sent := by
      unfold Stream.collect at collected
      split at collected
      · cases collected
      split at collected
      · cases collected
        exact prefix_append _ _
      · cases collected
        exact prefix_rfl
    cases f with
    | small m payload =>
      simp only [Stream.feed, ite_none_right_eq_some, some.injEq] at taken
      rw [← taken.2]
      exact prefix_append _ _
    | first id m total payload =>
      simp only [Stream.feed, ite_none_right_eq_some] at taken
      exact collects taken.2
    | more id payload =>
      cases current : σ.current with
      | none => simp [Stream.feed, current] at taken
      | some named =>
        simp only [Stream.feed, current, ite_none_right_eq_some] at taken
        exact collects taken.2

theorem tls_nodup {ring : Ring} (inv : ring.Inv bufferSize) : (ring.log.map (·.tl)).Nodup := by
  rw [nodup_iff_pairwise_ne, pairwise_map, pairwise_iff_getElem]
  intro i j first second less
  have apart := inv.stop_le_tl (getElem?_eq_getElem first) (getElem?_eq_getElem second) less
  have large := entrySize_ge ring.log[i].size
  rw [Entry.stop, Entry.start] at apart
  omega

/-- What has been read of one writer is a beginning of its stream. -/
theorem stream_of (sends : Sends fragment cfgs jobs) (inv : s.ring.Inv bufferSize)
    (follows : Follows (fun w => ((start fragment cfgs jobs).threads w).ops) s) (w : Nat) :
    ∃ frames τ, List.Forall₂ (Carries fragment)
        ((s.ring.log.take s.ring.delivered.length).filter (·.writer = w)) frames ∧
      frames.foldlM (Stream.feed fragment) {} = some τ ∧
      τ.sent <+: (jobs w).map (fun job => (job.m, job.bytes)) ∧ (jobs w = [] → frames = []) ∧
      (¬ s.unfinished w → s.ring.delivered.length = s.ring.log.length →
        τ = ⟨(jobs w).map fun job => (job.m, job.bytes), none⟩) := by
  obtain ⟨done, split, after⟩ := follows.made w
  obtain ⟨last, rest⟩ := Desk.exists_after (s.desk w) (awaited (s.ring.pc w) ++ (s.threads w).ops)
  have whole : Desk.After {} ((start fragment cfgs jobs).threads w).ops last := by
    rw [split, Desk.after_append]
    exact ⟨_, after, rest⟩
  have complete : Desk.Complete fragment {} [] := ⟨[], .nil, rfl⟩
  obtain ⟨frames, held, fed⟩ := complete.messages (sends.accepted w) (sends.types w) (sends.opsOf_eq w) whole
  set entries := (s.ring.log.take s.ring.delivered.length).filter (·.writer = w) with shown
  -- What has been read is finished, so it is what it will be in the end.
  have begins : entries <+: s.ring.log.filter (·.writer = w) := ( take_prefix _ _).filter _
  have same : entries.map pieceOf = last.pieces.take entries.length := by
    apply ext_getElem?
    intro i
    rcases Nat.lt_or_ge i entries.length with inside | beyond
    · have found := getElem?_eq_getElem inside
      generalize entries[i] = e at found
      obtain ⟨j, less, got⟩ : ∃ j < s.ring.delivered.length, s.ring.log[j]? = some e := by
        have member := mem_of_mem_filter (mem_of_getElem? found)
        obtain ⟨j, got⟩ := getElem?_of_mem member
        rw [getElem?_take] at got
        split at got
        · exact ⟨j, ‹_›, got⟩
        · cases got
      have finished : (pieceOf e).finished = true := decide_eq_true (inv.consumed j e less got)
      have piece : (s.desk w).pieces[i]? = some (pieceOf e) := by
        obtain ⟨others, all⟩ := begins
        rw [desk, piecesOf, getElem?_map, ← all, getElem?_append_left inside, found]
        rfl
      rw [getElem?_map, found, getElem?_take_of_lt inside, rest.finished piece finished]
      rfl
    · rw [getElem?_eq_none (by simpa using beyond), getElem?_eq_none]
      rw [length_take]
      omega
  have carried := forall₂_take entries.length held
  rw [← same, forall₂_map_left_iff] at carried
  rw [← take_append_drop entries.length frames, foldlM_append] at fed
  obtain ⟨τ, first, later⟩ := bind_eq_some_iff.mp fed
  refine ⟨frames.take entries.length, τ, carried.imp fun _ _ => carries_of_holds, first, sent_prefix later, ?_, ?_⟩
  · intro none
    have ops := sends.opsOf_eq w
    rw [none] at ops
    have idle : ((start fragment cfgs jobs).threads w).ops = [] := by
      cases cfg : cfgs w with
      | none | some c =>
        rw [cfg] at ops
        exact (some.inj ops).symm
    rw [idle, Desk.after_nil] at whole
    have empty := congrArg List.length same
    rw [whole, length_map, length_take, length_nil, Nat.min_zero] at empty
    rw [empty, take_zero]
  · intro finished all
    simp only [unfinished, not_or, not_not, decide_eq_true_eq, ne_eq] at finished
    rw [finished.1, finished.2.1, awaited, Pc.call, append_nil, Desk.after_nil] at rest
    have count : entries.length = frames.length := by
      rw [← held.length_eq, rest, desk, piecesOf, length_map, shown, all, take_length]
    rw [count, drop_length] at later
    exact some.inj later

/-- In every state of every run the fragments that were read can be put together, and
what is dispatched are the first messages of each writer. When the writers are done and
everything is read, each message was dispatched once and none is left in parts.
Offsets are numbers of 64 bits. -/
theorem fragments_rebuilt (power : bufferSize = 2 ^ n) (sends : Sends fragment cfgs jobs) (few : ∀ w ≥ k, jobs w = [])
    (run : Lib.Run (System.step bufferSize) (start fragment cfgs jobs) trace s) (range : s.ring.tail < 2 ^ 64) :
    ∃ r, ({} : FragmentReconstructor).receiveAll fragment s.ring.delivered = some r ∧
      (∃ count : Nat → Nat, (r.dispatched : Multiset (Nat × Bytes)) =
        ∑ w ∈ Finset.range k, (((jobs w).take (count w)).map (fun job => (job.m, job.bytes)) : Multiset (Nat × Bytes))) ∧
      ((∀ w, ¬ s.unfinished w) → s.ring.delivered.length = s.ring.log.length →
        (∀ id, r.partialMessages id = none) ∧ (r.dispatched : Multiset (Nat × Bytes)) =
          ∑ w ∈ Finset.range k, ((jobs w).map (fun job => (job.m, job.bytes)) : Multiset (Nat × Bytes))) := by
  obtain ⟨inv, follows⟩ := run_follows power run
  choose frames τ carried fed begins none final using stream_of sends inv follows
  have distinct : ((s.ring.log.take s.ring.delivered.length).map (·.tl)).Nodup :=
    (tls_nodup inv).sublist ((take_sublist _ _).map _)
  have small : ∀ e ∈ s.ring.log.take s.ring.delivered.length, e.tl < 2 ^ 64 := by
    intro e member
    obtain ⟨i, found⟩ := getElem?_of_mem (mem_of_mem_take member)
    have before := inv.stop_le_tail found
    rw [Entry.stop, Entry.start] at before
    omega
  obtain ⟨r, received, tracks⟩ := (Tracks.init k).receiveAll _ frames (fun w beyond => none w (few w beyond)) carried
    fed distinct small (by simp)
  rw [← inv.delivered] at received
  refine ⟨r, received, ⟨fun w => (τ w).sent.length, ?_⟩, fun finished all => ⟨fun id => ?_, ?_⟩⟩
  · rw [tracks.dispatched]
    refine Finset.sum_congr rfl fun w _ => ?_
    rw [map_take, ← prefix_iff_eq_take.mp (begins w)]
  · rw [eq_none_iff_forall_ne_some]
    intro p found
    obtain ⟨w, current⟩ := (tracks.partials id p).mp found
    rw [final w (finished w) all] at current
    cases current
  · rw [tracks.dispatched]
    exact Finset.sum_congr rfl fun w _ => by rw [final w (finished w) all]

/-- A plain writer of one message, and an oversized one whose message is written in two
parts and takes three fragments. -/
def twoConfigs (w : Nat) : Option WriterConfig := if w = 1 then some ⟨24, 1000⟩ else none

def twoJobs (w : Nat) : List Job :=
  if w = 0 then [⟨7, [[9]]⟩] else if w = 1 then [⟨8, [[1, 2, 3], List.replicate 22 4]⟩] else []

theorem two_sends : Sends 5 twoConfigs twoJobs := by
  refine ⟨fun w c same => ?_, fun w c same job member => ?_, fun w job member => ?_⟩
  · simp only [twoConfigs, ite_none_right_eq_some, some.injEq] at same
    rw [← same.2]
    decide
  · simp only [twoConfigs, ite_none_right_eq_some, some.injEq] at same
    obtain ⟨rfl, rfl⟩ := same
    simp only [twoJobs, one_ne_zero, if_false, if_true, mem_singleton] at member
    rw [member]
    decide
  · unfold twoJobs at member
    split at member
    · rw [mem_singleton.mp member]
      decide
    split at member
    · rw [mem_singleton.mp member]
      decide
    · cases member

/-- The small message comes between the second and the third fragment. -/
def woven : List Action :=
  let writer : Nat → List Action := fun w => List.replicate 4 (.writer w false)
  let calls : Nat → Nat → List Action := fun w count => List.replicate count (.call w)
  List.flatten [calls 1 1, writer 1, calls 1 4, writer 1, calls 1 3, calls 0 1, writer 0, calls 0 2, calls 1 1,
    writer 1, calls 1 4, [.read 10], List.replicate 11 .reader]

theorem fragments_rebuilt_woven :
    ∃ trace s r, Lib.Run (System.step 256) (start 5 twoConfigs twoJobs) trace s ∧
      ({} : FragmentReconstructor).receiveAll 5 s.ring.delivered = some r ∧ (∀ id, r.partialMessages id = none) ∧
      r.dispatched.Perm [(7, [9]), (8, [1, 2, 3] ++ List.replicate 22 4)] := by
  obtain ⟨trace, s, run, first, second, all, range, writers⟩ :
      ∃ trace s, Run (System.step 256) (start 5 twoConfigs twoJobs) trace s ∧ !s.unfinished 0 ∧ !s.unfinished 1 ∧
        s.ring.delivered.length = s.ring.log.length ∧ s.ring.tail < 2 ^ 64 ∧ ∀ e ∈ s.ring.log, e.writer < 2 :=
    exists_run woven (by decide +kernel)
  have power : 256 = 2 ^ 8 := rfl
  have few : ∀ w ≥ 2, twoJobs w = [] := fun w beyond => by
    rw [twoJobs, if_neg (by omega), if_neg (by omega)]
  obtain ⟨r, received, -, rebuilt⟩ := fragments_rebuilt power two_sends few run range
  have finished : ∀ w, ¬ s.unfinished w := by
    intro w
    match w with
    | 0 => simpa using first
    | 1 => simpa using second
    | w + 2 =>
      refine not_unfinished_of_quiet (fun w beyond => ⟨?_, rfl⟩) run writers (w + 2) (by omega)
      simp only [start, few w beyond]
      cases twoConfigs w <;> rfl
  obtain ⟨none, dispatched⟩ := rebuilt finished all
  refine ⟨trace, s, r, run, received, none, Multiset.coe_eq_coe.mp (dispatched.trans ?_)⟩
  rfl

end System
end CCF.Oversized
