import ShardedCCF.Ds.RingSteps

/-! The reader hands on each finished message once, in the order of the reservations.
Its steps keep the invariant, so it holds in every state of every interleaving. -/
namespace CCF.RingBuffer
open Lib List Option

variable {bufferSize n i j x y : Nat} {s s' : Ring} {e e' : Entry} {r : Scan} {w m size cache : Nat}
  {c : Locals} {log : List Entry} {t : Ring}

inductive Sees (s : Ring) (p : Nat) : Nat → Prop where
  | nothing : (∀ e, s.log[s.delivered.length]? = some e → e.phase = .reserved) → Sees s p 0
  | pending (e : Entry) : s.log[s.delivered.length]? = some e → e.phase = .pending →
      Sees s p (makeHeader e.m e.size true)
  | padding (e : Entry) : s.log[s.delivered.length]? = some e → e.padding ≠ 0 → e.padded → p = e.tl →
      Sees s p (makeHeader msgPad e.padding false)
  | finished (e : Entry) : s.log[s.delivered.length]? = some e → e.phase = .finished → p = e.start →
      Sees s p (makeHeader e.m e.size false)

namespace Ring
namespace Inv

variable (inv : s.Inv bufferSize)
include inv

theorem sees_entry (found : s.log[s.delivered.length]? = some e) (at' : p = e.start) :
    Sees s p (read64 s.mem (e.start % bufferSize)) := by
  have wf := inv.entries _ e found
  have large := entrySize_ge e.size
  have holds := inv.contents _ e le_rfl found
  unfold Entry.bytes at holds
  cases phase : e.phase with
  | reserved =>
    simp only [phase] at holds
    rw [read64_zero fun k inside => Memory.holds_replicate.mp holds k (by omega)]
    refine .nothing fun d got => ?_
    rw [← some.inj (found.symm.trans got)]
    exact phase
  | pending =>
    simp only [phase, Memory.holds_append] at holds
    rw [read64_eq holds.1 (wf.header_small true)]
    exact .pending e found phase
  | finished =>
    simp only [phase, Memory.holds_append] at holds
    rw [read64_eq holds.1 (wf.header_small false)]
    exact .finished e found phase at'

theorem sees (hd : r.hd = s.head) (inside : r.advance < bufferSize - s.head % bufferSize)
    (at' : s.position = r.hd + r.advance) :
    Sees s s.position (read64 s.mem (s.head % bufferSize + r.advance)) := by
  have index : (s.head + r.advance) % bufferSize = s.head % bufferSize + r.advance := add_mod_eq _ (by omega)
  rw [← index, ← hd, ← at']
  rcases inv.position.2 with here | ⟨e, found, -, -, here⟩
  · cases found : s.log[s.delivered.length]? with
    | none =>
      -- Nothing is reserved here, nor beyond the end of the memory.
      have none : s.position = s.tail := here.trans (boundary_of_ge (List.getElem?_eq_none_iff.mp found))
      rw [read64_zero fun k _ => ?_]
      · exact .nothing fun e got => by simp [found] at got
      · rw [at', hd, index]
        rcases Nat.lt_or_ge (s.head % bufferSize + r.advance + k) bufferSize with within | beyond
        · rw [← index, ← add_mod_eq k (by omega)]
          exact inv.free _ (by omega) (by omega)
        · exact inv.outside _ beyond
    | some e =>
      have tl : s.position = e.tl := here.trans (boundary_of_get found)
      by_cases some : e.padding = 0
      · have start : s.position = e.start := by rw [tl, Entry.start, some, Nat.add_zero]
        rw [start]
        exact inv.sees_entry found rfl
      have holds := inv.paddings _ e le_rfl found some tl.le
      unfold Entry.padBytes at holds
      rw [tl]
      split at holds
      · rename_i padded
        rw [read64_eq holds (makeHeader_lt le_rfl)]
        exact .padding e found some padded rfl
      rename_i unpadded
      rw [read64_zero (Memory.holds_replicate.mp holds)]
      refine .nothing fun d got => ?_
      rw [← Option.some.inj (found.symm.trans got)]
      exact (inv.entries _ e found).ordered some (Bool.eq_false_of_not_eq_true unpadded)
  · rw [here]
    exact inv.sees_entry found rfl

theorem setReader (reader : Reader) (same : { s with reader }.position = s.position)
    (ok : { s with reader }.ReaderOk bufferSize) : { s with reader }.Inv bufferSize := by
  obtain ⟨entries, chain, cache, head_le, tail_le, tail_aligned, position, consumed, delivered, free, outside, contents,
    paddings, threads, -⟩ := inv
  refine ⟨entries, chain, cache, same ▸ head_le, tail_le, tail_aligned, ?_, consumed, delivered, free, outside, contents,
    ?_, threads, ok⟩
  · rw [same]
    exact position
  · rw [same]
    exact paddings

theorem endScan (hd : r.hd = s.head) (advance : r.advance ≤ bufferSize - s.head % bufferSize)
    (at' : s.position = r.hd + r.advance) : { s with reader := endScan r }.Inv bufferSize := by
  unfold Ring.endScan
  split
  · exact inv.setReader _ at'.symm ⟨hd, advance⟩
  refine inv.setReader _ ?_ trivial
  rw [at']
  change s.head = r.hd + r.advance
  omega

theorem skipPadding (found : s.log[s.delivered.length]? = some e) (some : e.padding ≠ 0) (padded : e.padded)
    (hd : r.hd = s.head) (inside : r.advance < bufferSize - s.head % bufferSize)
    (at' : s.position = r.hd + r.advance) (tl : s.position = e.tl) :
    { s with reader := .scan { r with advance := r.advance + e.padding } }.Inv bufferSize := by
  have wf := inv.entries _ e found
  have whole := wf.padding some
  have index : (s.head + r.advance) % bufferSize = s.head % bufferSize + r.advance := add_mod_eq _ (by omega)
  have moved : r.hd + (r.advance + e.padding) = e.start := by
    rw [Entry.start]
    omega
  obtain ⟨entries, chain, cache, head_le, tail_le, tail_aligned, position, consumed, delivered, free, outside, contents,
    paddings, threads, -⟩ := inv
  refine ⟨entries, chain, cache, ?_, tail_le, tail_aligned, ⟨position.1, .inr ⟨e, found, some, padded, moved⟩⟩, consumed,
    delivered, free, outside, contents, fun i d unread got some' before => ?_, threads, hd, ?_⟩
  · change s.head ≤ r.hd + (r.advance + e.padding)
    omega
  · refine paddings i d unread got some' (le_trans ?_ before)
    change s.position ≤ r.hd + (r.advance + e.padding)
    omega
  · have tl' : e.tl % bufferSize = s.head % bufferSize + r.advance := by rw [← index, ← tl, at', hd]
    change r.advance + e.padding ≤ bufferSize - s.head % bufferSize
    omega

theorem scan (reader : s.reader = .scan r) (moved : s.readerStep bufferSize = some s') : s'.Inv bufferSize := by
  have ok := inv.reader
  unfold ReaderOk at ok
  rw [reader] at ok
  obtain ⟨hd, advance⟩ := ok
  have at' : s.position = r.hd + r.advance := by simp only [Ring.position, reader]
  unfold Ring.readerStep at moved
  simp only [reader] at moved
  split at moved
  case isFalse =>
    cases moved
    exact inv.endScan hd advance at'
  rename_i within
  have inside : r.advance < bufferSize - s.head % bufferSize := hd ▸ within.1
  have sees := inv.sees hd inside at'
  rw [← hd] at sees
  cases moved
  generalize read64 s.mem (r.hd % bufferSize + r.advance) = header at sees
  cases sees with
  | nothing =>
    exact inv.endScan hd advance at'
  | pending e found phase =>
    rw [length_makeHeader, if_pos]
    · exact inv.endScan hd advance at'
    · simp
  | padding e found some padded tl =>
    have wf := inv.entries _ e found
    have short : ¬ e.padding ≥ pendingWriteFlag := not_le.mpr (wf.short.trans_le (entrySize_le wf.size))
    rw [length_finished, message_makeHeader, wf.padding_lt, if_neg short, if_neg (by decide), if_pos rfl]
    exact inv.skipPadding found some padded hd inside at' tl
  | finished e found phase start =>
    have wf := inv.entries _ e found
    have small : ¬ e.size ≥ pendingWriteFlag := not_le.mpr (lt_of_le_of_lt wf.size (by decide))
    rw [length_finished, message_makeHeader, wf.size_mod, if_neg small, if_neg, if_neg]
    · exact inv.setReader _ at'.symm ⟨hd, e, found, phase, at'.symm.trans start, rfl, rfl, inside⟩
    · exact fun same => absurd wf.message.2 (by rw [same]; decide)
    · exact fun same => absurd wf.message.1 (by rw [same]; decide)

theorem handle (reader : s.reader = .handle r m size) (moved : s.readerStep bufferSize = some s') :
    s'.Inv bufferSize := by
  have ok := inv.reader
  unfold ReaderOk at ok
  rw [reader] at ok
  obtain ⟨hd, e, found, phase, start, rfl, rfl, inside⟩ := ok
  have at' : s.position = r.hd + r.advance := by simp only [Ring.position, reader]
  unfold Ring.readerStep at moved
  simp only [reader, some.injEq] at moved
  subst moved
  have wf := inv.entries _ e found
  have index : (s.head + r.advance) % bufferSize = s.head % bufferSize + r.advance := add_mod_eq _ (by omega)
  have place : e.start % bufferSize = s.head % bufferSize + r.advance := by rw [← index, ← hd, start]
  have payload : s.mem.read (r.hd % bufferSize + r.advance + headerSize) e.size = e.payload := by
    have holds := inv.contents _ e le_rfl found
    simp only [Entry.bytes, phase, Memory.holds_append, length_toBytes] at holds
    have read := holds.2.1.read
    rwa [wf.length_payload, place, ← hd] at read
  have stop : r.hd + (r.advance + entrySize e.size) = e.stop := by
    rw [Entry.stop, ← start]
    omega
  have less := (List.getElem?_eq_some_iff.mp found).1
  have here := (inv.chain _ e found)
  obtain ⟨entries, chain, cache, head_le, tail_le, tail_aligned, position, consumed, delivered, free, outside, contents,
    paddings, threads, -⟩ := inv
  refine ⟨entries, chain, cache, ?_, tail_le, tail_aligned, ⟨?_, .inl ?_⟩, fun i d less' got => ?_, ?_, free, outside,
    fun i d unread got => contents i d ?_ got, fun i d unread got some before => paddings i d ?_ got some ?_, threads, hd, ?_⟩
  · change s.head ≤ r.hd + (r.advance + entrySize e.size)
    omega
  · rw [length_append, length_singleton]
    exact less
  · rw [length_append, length_singleton]
    exact stop.trans here.symm
  · rw [length_append, length_singleton] at less'
    rcases Nat.lt_succ_iff_lt_or_eq.mp less' with earlier | rfl
    · exact consumed i d earlier got
    · rw [← some.inj (found.symm.trans got)]
      exact phase
  · rw [length_append, length_singleton, take_add_one, found, map_append, ← delivered, payload]
    rfl
  · rw [length_append, length_singleton] at unread
    omega
  · rw [length_append, length_singleton] at unread
    omega
  · refine le_trans ?_ before
    change s.position ≤ r.hd + (r.advance + entrySize e.size)
    omega
  · have := wf.contiguous
    change r.advance + entrySize e.size ≤ bufferSize - s.head % bufferSize
    omega

theorem zero (power : bufferSize = 2 ^ n) (reader : s.reader = .zero r) (moved : s.readerStep bufferSize = some s') :
    s'.Inv bufferSize := by
  have positive : 0 < bufferSize := power ▸ Nat.two_pow_pos n
  have ok := inv.reader
  unfold ReaderOk at ok
  rw [reader] at ok
  obtain ⟨hd, advance⟩ := ok
  have at' : s.position = s.head + r.advance := by
    rw [← hd]
    simp only [Ring.position, reader]
  unfold Ring.readerStep at moved
  simp only [reader, some.injEq, hd] at moved
  subst moved
  have inside := Nat.mod_lt s.head positive
  have length : (List.replicate r.advance (0 : Byte)).length = r.advance := length_replicate
  have contiguous : s.head % bufferSize + (List.replicate r.advance (0 : Byte)).length ≤ bufferSize := by omega
  have high : s.head + (List.replicate r.advance (0 : Byte)).length ≤ s.head + bufferSize := by omega
  refine ⟨inv.entries, inv.chain, inv.headCache_le, ?_, inv.tail_le, inv.tail_aligned, ?_, inv.consumed, inv.delivered,
    fun x low upper => ?_, fun j beyond => ?_, fun i d unread got => ?_, fun i d unread got some before => ?_, inv.threads,
    hd, advance, fun k within => ?_⟩
  · change s.head ≤ r.hd + r.advance
    omega
  · have same : s.position = r.hd + r.advance := by rw [at', hd]
    have place := inv.position
    rw [same] at place
    exact place
  · have := inv.position_le_tail
    have low : s.tail ≤ x := low
    exact (write_frame _ le_rfl high contiguous x (by omega) upper (.inr (by omega))).trans (inv.free x low upper)
  · exact (Memory.write_of_ge (contiguous.trans beyond)).trans (inv.outside j beyond)
  · obtain ⟨first, second, third⟩ := inv.entry_range got unread
    refine holds_frame _ le_rfl high contiguous d.start d.bytes first second third ?_ (inv.contents i d unread got)
    have := inv.position_le_start got unread
    exact .inr (by omega)
  · have before : s.position ≤ d.tl := by
      rw [at', ← hd]
      exact before
    obtain ⟨first, second, third, fourth⟩ := inv.pad_range power got some before
    refine holds_frame _ le_rfl high contiguous d.tl d.padBytes first ?_ ?_ ?_ (inv.paddings i d unread got some before)
    all_goals rw [Entry.length_padBytes]
    · omega
    · exact fourth
    · exact .inr (by omega)
  · exact Memory.holds_replicate.mp (Memory.holds_write s.mem _ _) k within

theorem publish (reader : s.reader = .publish r) (moved : s.readerStep bufferSize = some s') :
    s'.Inv bufferSize := by
  have ok := inv.reader
  unfold ReaderOk at ok
  rw [reader] at ok
  obtain ⟨hd, advance, zeroed⟩ := ok
  have at' : s.position = r.hd + r.advance := by simp only [Ring.position, reader]
  unfold Ring.readerStep at moved
  simp only [reader, some.injEq] at moved
  subst moved
  have tail_le := inv.tail_le
  refine ⟨inv.entries, inv.chain, inv.headCache_le.trans (hd ▸ Nat.le_add_right _ _), le_rfl, ?_, inv.tail_aligned, ?_,
    inv.consumed, inv.delivered, fun x low upper => ?_, inv.outside, inv.contents,
    fun i d unread got some before => inv.paddings i d unread got some (at' ▸ before), fun w => ?_, trivial⟩
  · change s.tail ≤ r.hd + r.advance + bufferSize
    omega
  · have place := inv.position
    rw [at'] at place
    exact place
  · have upper : x < r.hd + r.advance + bufferSize := upper
    rcases Nat.lt_or_ge x (s.head + bufferSize) with within | beyond
    · exact inv.free x low within
    -- This place has just been read and zeroed.
    obtain ⟨k, rfl⟩ := Nat.exists_eq_add_of_le beyond
    have index : (s.head + bufferSize + k) % bufferSize = s.head % bufferSize + k := by
      rw [Nat.add_right_comm, Nat.add_mod_right]
      exact add_mod_eq k (by omega)
    rw [index]
    exact zeroed k (by omega)
  · exact (inv.threads w).mono (hd ▸ Nat.le_add_right _ _) le_rfl fun i e found _ => found

theorem step (power : bufferSize = 2 ^ n) (moved : s.step bufferSize action = some s') : s'.Inv bufferSize := by
  cases action with
  | prepare w m size wait => exact inv.prepare moved
  | writer w spurious => exact inv.writerStep power moved
  | writeBytes w ticket bytes =>
    unfold Ring.step Ring.writeBytes at moved
    dsimp only at moved
    split at moved
    · cases moved
    split at moved
    · rename_i found guard
      cases moved
      exact inv.writeBytes power found guard.2.2.1 guard.2.1 guard.1 bytes guard.2.2.2
    · cases moved
  | finish w ticket =>
    unfold Ring.step Ring.finish at moved
    dsimp only at moved
    split at moved
    · cases moved
    split at moved
    · rename_i found guard
      cases moved
      exact inv.finish power found guard.2.2 guard.2.1 guard.1
    · cases moved
  | read limit =>
    unfold Ring.step Ring.read at moved
    dsimp only at moved
    split at moved
    · rename_i idle
      cases moved
      refine inv.setReader _ ?_ ⟨rfl, Nat.zero_le _⟩
      simp only [Ring.position, idle, Nat.add_zero]
    · cases moved
  | reader =>
    have moved : s.readerStep bufferSize = some s' := moved
    cases at' : s.reader with
    | idle => simp [Ring.readerStep, at'] at moved
    | scan r => exact inv.scan at' moved
    | handle r m size => exact inv.handle at' moved
    | zero r => exact inv.zero power at' moved
    | publish r => exact inv.publish at' moved

omit inv in
theorem init (bufferSize : Nat) : ({} : Ring).Inv bufferSize := by
  refine ⟨nofun, nofun, le_rfl, le_rfl, Nat.zero_le _, rfl, ⟨le_rfl, .inl rfl⟩, nofun, rfl, fun _ _ _ => rfl,
    fun _ _ => rfl, ?_, ?_, fun _ => trivial, trivial⟩
  · intro i e _ found
    cases found
  · intro i e _ found
    cases found

omit inv in
theorem run (power : bufferSize = 2 ^ n) (run : Run (Ring.step bufferSize) {} trace s) : s.Inv bufferSize :=
  Run.invariant run (Inv bufferSize) (init bufferSize) fun _ _ _ inv moved => inv.step power moved

/-- No two places of reservations that are not yet read share an index. -/
theorem indices_apart (found : s.log[i]? = some e) (found' : s.log[j]? = some e') (less : i < j)
    (low : s.head ≤ x) (high : x < e.stop) (low' : e'.tl ≤ y) (high' : y < e'.stop) :
    x % bufferSize ≠ y % bufferSize := by
  intro same
  have between := inv.stop_le_tl found found' less
  have last := inv.stop_le_tail found'
  have := inv.tail_le
  have equal := eq_of_mod_eq s.head x y low (by omega) (by omega) (by omega) same
  omega

theorem scan_header (reader : s.reader = .scan r) (inside : r.advance < bufferSize - s.head % bufferSize)
    (place : s.position = p) (header : read64 s.mem (p % bufferSize) = w) :
    r.hd = s.head ∧ read64 s.mem (s.head % bufferSize + r.advance) = w := by
  have ok := inv.reader
  unfold ReaderOk at ok
  rw [reader] at ok
  have index : (s.head + r.advance) % bufferSize = s.head % bufferSize + r.advance := add_mod_eq _ (by omega)
  have at' : s.position = r.hd + r.advance := by simp only [Ring.position, reader]
  refine ⟨ok.1, ?_⟩
  rw [← index, ← ok.1, ← at', place, header]

theorem scan_finished (reader : s.reader = .scan r) (inside : r.advance < bufferSize - s.head % bufferSize)
    (more : r.count < r.limit) (found : s.log[s.delivered.length]? = some e) (phase : e.phase = .finished)
    (start : s.position = e.start) :
    s.readerStep bufferSize = some { s with reader := .handle r e.m e.size } := by
  have wf := inv.entries _ e found
  have holds := inv.contents _ e le_rfl found
  simp only [Entry.bytes, phase, Memory.holds_append] at holds
  obtain ⟨hd, header⟩ := inv.scan_header reader inside start (read64_eq holds.1 (wf.header_small false))
  have small : ¬ e.size ≥ pendingWriteFlag := not_le.mpr (lt_of_le_of_lt wf.size (by decide))
  have some' : e.m ≠ msgNone := fun same => absurd wf.message.1 (by rw [same]; decide)
  have other : e.m ≠ msgPad := fun same => absurd wf.message.2 (by rw [same]; decide)
  unfold Ring.readerStep
  simp only [reader, hd, inside, more, and_self, if_true, header, length_finished, message_makeHeader, wf.size_mod,
    small, if_false, some', other]

theorem scan_padding (reader : s.reader = .scan r) (inside : r.advance < bufferSize - s.head % bufferSize)
    (more : r.count < r.limit) (found : s.log[s.delivered.length]? = some e) (some : e.padding ≠ 0)
    (padded : e.padded) (tl : s.position = e.tl) :
    s.readerStep bufferSize = Option.some { s with reader := .scan { r with advance := r.advance + e.padding } } := by
  have wf := inv.entries _ e found
  have holds := inv.paddings _ e le_rfl found some tl.le
  simp only [Entry.padBytes, padded, if_true] at holds
  obtain ⟨hd, header⟩ := inv.scan_header reader inside tl (read64_eq holds (makeHeader_lt le_rfl))
  have short : ¬ e.padding ≥ pendingWriteFlag := not_le.mpr (wf.short.trans_le (entrySize_le wf.size))
  have apart : msgPad ≠ msgNone := by decide
  unfold Ring.readerStep
  simp only [reader, hd, inside, more, and_self, if_true, header, length_finished, message_makeHeader, wf.padding_lt,
    short, if_false, apart]

end Inv

def Reads (bufferSize : Nat) (s s' : Ring) : Prop :=
  ∃ trace, Run (step bufferSize) s trace s' ∧ ∀ t ∈ trace, t.action = .reader ∨ ∃ limit, t.action = .read limit

theorem Reads.refl (s : Ring) : Reads bufferSize s s := ⟨[], .start, nofun⟩

theorem Reads.trans {t : Ring} (first : Reads bufferSize s s') (second : Reads bufferSize s' t) :
    Reads bufferSize s t := by
  obtain ⟨before, run, only⟩ := first
  obtain ⟨after, run', only'⟩ := second
  refine ⟨after ++ before, run.append run', fun t member => ?_⟩
  rcases mem_append.mp member with late | early
  · exact only' t late
  · exact only t early

theorem Reads.step (moved : s.readerStep bufferSize = some s') : Reads bufferSize s s' :=
  ⟨_, .next .start (show Ring.step bufferSize s .reader = some s' from moved), fun t member => by
    rw [mem_singleton.mp member]
    exact .inl rfl⟩

theorem Reads.read (limit : Nat) (idle : s.reader = .idle) :
    Reads bufferSize s { s with reader := .scan ⟨s.head, 0, 0, limit⟩ } :=
  ⟨_, .next .start (show Ring.step bufferSize s (.read limit) = _ from if_pos idle), fun t member => by
    rw [mem_singleton.mp member]
    exact .inr ⟨limit, rfl⟩⟩

theorem Reads.inv (reads : Reads bufferSize s s') (power : bufferSize = 2 ^ n) (inv : s.Inv bufferSize) :
    s'.Inv bufferSize := by
  obtain ⟨trace, run, -⟩ := reads
  exact run.invariant (Inv bufferSize) inv fun _ _ _ inv moved => inv.step power moved

theorem Reads.release (reader : s.reader = .scan r) (over' : ¬ (r.advance < bufferSize - r.hd % bufferSize ∧ r.count < r.limit))
    (positive : 0 < r.advance) :
    Reads bufferSize s { s with
      mem := s.mem.write (r.hd % bufferSize) (List.replicate r.advance 0), head := r.hd + r.advance, reader := .idle } := by
  have ended : Reads bufferSize s { s with reader := .zero r } := .step (by
    simp only [readerStep, reader, over', if_false, endScan, gt_iff_lt, positive, if_true])
  have zeroed : Reads bufferSize { s with reader := .zero r } { s with
      mem := s.mem.write (r.hd % bufferSize) (List.replicate r.advance 0), reader := .publish r } := .step rfl
  exact (ended.trans zeroed).trans (.step rfl)

theorem Inv.deliver (power : bufferSize = 2 ^ n) (inv : s.Inv bufferSize) (idle : s.reader = .idle)
    (found : s.log[s.delivered.length]? = some e) (phase : e.phase = .finished) (start : s.head = e.start) :
    ∃ s', Reads bufferSize s s' ∧ s'.reader = .idle ∧ s'.log = s.log ∧ s'.delivered.length = s.delivered.length + 1 := by
  have positive : 0 < bufferSize := power ▸ Nat.two_pow_pos n
  have inside := Nat.mod_lt s.head positive
  have large := entrySize_ge e.size
  have began : Reads bufferSize s { s with reader := .scan ⟨s.head, 0, 0, 1⟩ } := .read 1 idle
  have scanned := (began.inv power inv).scan_finished (r := ⟨s.head, 0, 0, 1⟩) rfl (Nat.sub_pos_of_lt inside)
    Nat.one_pos found phase start
  have handled := (began.trans (.step scanned)).trans (.step rfl)
  refine ⟨_, handled.trans (.release rfl ?_ ?_), rfl, rfl, ?_⟩
  · exact fun more => absurd more.2 (lt_irrefl 1)
  · change 0 < 0 + entrySize e.size
    omega
  · simp

theorem Inv.deliverNext (power : bufferSize = 2 ^ n) (inv : s.Inv bufferSize) (idle : s.reader = .idle)
    (found : s.log[s.delivered.length]? = some e) (phase : e.phase = .finished) :
    ∃ s', Reads bufferSize s s' ∧ s'.reader = .idle ∧ s'.log = s.log ∧ s'.delivered.length = s.delivered.length + 1 := by
  have positive : 0 < bufferSize := power ▸ Nat.two_pow_pos n
  have inside := Nat.mod_lt s.head positive
  have at' : s.position = s.head := by simp only [Ring.position, idle]
  rcases inv.position.2 with here | ⟨d, got, -, -, here⟩
  · rw [at', Inv.boundary_of_get found] at here
    by_cases some : e.padding = 0
    · exact inv.deliver power idle found phase (by rw [here, Entry.start, some, Nat.add_zero])
    -- The padding is read first, and the message with the next read.
    have wf := inv.entries _ e found
    have padded : e.padded = true := by
      by_contra unpadded
      have reserved := wf.ordered some (Bool.eq_false_of_not_eq_true unpadded)
      simp [phase] at reserved
    have whole := wf.padding some
    have began : Reads bufferSize s { s with reader := .scan ⟨s.head, 0, 0, 1⟩ } := .read 1 idle
    have skipped := (began.inv power inv).scan_padding (r := ⟨s.head, 0, 0, 1⟩) rfl (Nat.sub_pos_of_lt inside)
      Nat.one_pos found some padded here
    have released := (began.trans (.step skipped)).trans (.release rfl (fun more => by
      have inside : 0 + e.padding < bufferSize - s.head % bufferSize := more.1
      rw [here] at inside
      omega) (by
      change 0 < 0 + e.padding
      omega))
    obtain ⟨s', reads, rest⟩ := Inv.deliver power (released.inv power inv) rfl found phase (by
      rw [here, Entry.start, Nat.zero_add])
    exact ⟨s', released.trans reads, rest⟩
  · obtain rfl : e = d := some.inj (found.symm.trans got)
    exact inv.deliver power idle found phase (at'.symm.trans here)

theorem Inv.deliverAll (power : bufferSize = 2 ^ n) (inv : s.Inv bufferSize) (idle : s.reader = .idle)
    (finished : ∀ (i : Nat) (e : Entry), i < j → s.log[i]? = some e → e.phase = .finished) (le : j ≤ s.log.length) :
    ∃ s', Reads bufferSize s s' ∧ s'.log = s.log ∧ j ≤ s'.delivered.length := by
  induction missing : j - s.delivered.length generalizing s with
  | zero => exact ⟨s, .refl s, rfl, by omega⟩
  | succ missing ih =>
    have less : s.delivered.length < s.log.length := by omega
    have found : s.log[s.delivered.length]? = some (s.log.get ⟨_, less⟩) := getElem?_eq_getElem less
    obtain ⟨t, reads, idle', log, count⟩ := inv.deliverNext power idle found (finished _ _ (by omega) found)
    obtain ⟨s', reads', log', all⟩ := ih (reads.inv power inv) idle' (log ▸ finished) (log ▸ le) (by omega)
    exact ⟨s', reads.trans reads', log'.trans log, all⟩

def Solo (bufferSize w : Nat) (s s' : Ring) : Prop :=
  ∃ trace, Run (step bufferSize) s trace s' ∧ ∀ t ∈ trace, t.action = .writer w false

theorem Solo.step {t : Ring} (first : Solo bufferSize w s s') (moved : s'.writerStep bufferSize w false = some t) :
    Solo bufferSize w s t := by
  obtain ⟨trace, run, only⟩ := first
  refine ⟨_, run.next (show Ring.step bufferSize s' (.writer w false) = some t from moved), fun t member => ?_⟩
  rcases mem_cons.mp member with rfl | earlier
  · rfl
  · exact only t earlier

@[simp] theorem goto_pc (s : Ring) (w : Nat) (pc : Pc) : (s.goto w pc).pc w = pc := Function.update_self ..

@[simp] theorem goto_goto (s : Ring) (w : Nat) (pc pc' : Pc) : (s.goto w pc).goto w pc' = s.goto w pc' := by
  simp [goto]

@[simp] theorem goto_head (s : Ring) (w : Nat) (pc : Pc) : (s.goto w pc).head = s.head := rfl

@[simp] theorem goto_tail (s : Ring) (w : Nat) (pc : Pc) : (s.goto w pc).tail = s.tail := rfl

def Ready (w m size : Nat) (s s' : Ring) : Prop :=
  ∃ (c : Locals) (cache : Nat), s' = { s with headCache := cache }.goto w (.exchange c) ∧
    c.m = m ∧ c.size = size ∧ c.tl = s.tail

theorem solo_fitBlock {t : Ring} (positive : 0 < bufferSize) (empty : s.head = s.tail) (half : c.rsize ≤ bufferSize / 2)
    (tl : c.tl = s.tail) (reached : Solo bufferSize w t ({ s with headCache := cache }.goto w (fitBlock bufferSize c))) :
    ∃ s', Solo bufferSize w t s' ∧ Ready w c.m c.size s s' := by
  unfold fitBlock at reached
  dsimp only at reached
  split at reached
  · split at reached
    · -- Half of the buffer fits before the tail if it does not fit after it.
      have fits : ¬ c.rsize > s.head % bufferSize := by
        rw [empty, ← tl]
        omega
      have again := reached.step (t := { s with headCache := cache }.goto w
          (.storeHeadCacheAgain { c with hd := s.head })) (by
        simp only [writerStep, goto_pc, goto_head, fits, if_false, goto_goto])
      have stored := again.step (t := { s with headCache := s.head }.goto w
          (.exchange { c with hd := s.head, padding := bufferSize - c.tl % bufferSize })) (by
        simp only [writerStep, goto_pc]
        simp [goto])
      exact ⟨_, stored, _, _, rfl, rfl, rfl, tl⟩
    · exact ⟨_, reached, _, _, rfl, rfl, rfl, tl⟩
  · exact ⟨_, reached, _, _, rfl, rfl, rfl, tl⟩

theorem solo_reserve (positive : 0 < bufferSize) (empty : s.head = s.tail) (valid : accepts bufferSize c.m c.size) :
    ∃ s', Solo bufferSize w (s.goto w (.loadHeadCache c)) s' ∧ Ready w c.m c.size s s' := by
  have half : c.rsize ≤ bufferSize / 2 := (of_decide_eq_true valid).2.2.2
  have began : Solo bufferSize w (s.goto w (.loadHeadCache c)) (s.goto w (.loadHeadCache c)) := ⟨[], .start, nofun⟩
  have cached := began.step (t := s.goto w (.loadTail { c with hd := s.headCache })) (by
    simp only [writerStep, goto_pc, goto_goto]
    rfl)
  have entered := cached.step (t := s.goto w
      (enterLoop bufferSize { c with hd := s.headCache, tl := s.tail })) (by
    simp only [writerStep, goto_pc, goto_goto, goto_tail])
  unfold enterLoop at entered
  split at entered
  · have passed : ¬ s.head > s.tail := by omega
    have fits : ¬ c.rsize > bufferSize - (s.tail - s.head) := by omega
    have loaded := entered.step (t := s.goto w
        (.storeHeadCache { c with hd := s.head, tl := s.tail })) (by
      simp only [writerStep, goto_pc, goto_head, Locals.rsize] at fits ⊢
      simp only [passed, fits, if_false, goto_goto])
    have stored := loaded.step (t := { s with headCache := s.head }.goto w
        (fitBlock bufferSize { c with hd := s.head, tl := s.tail })) (by
      simp only [writerStep, goto_pc]
      simp [goto])
    exact solo_fitBlock (c := { c with hd := s.head, tl := s.tail }) positive empty half rfl stored
  · exact solo_fitBlock (c := { c with hd := s.headCache, tl := s.tail }) positive empty half rfl entered

theorem modify_last (log : List Entry) (e : Entry) (f : Entry → Entry) :
    (log ++ [e]).modify log.length f = log ++ [f e] := by
  induction log with
  | nil => rfl
  | cons d log ih => simpa using ih

theorem solo_header (found : s.log = log ++ [e]) (at' : s.pc w = .writeHeader log.length)
    (reached : Solo bufferSize w t s) :
    ∃ s', Solo bufferSize w t s' ∧ s'.pc w = .idle ∧ s'.log = log ++ [{ e with phase := .pending }] := by
  have last : s.log[log.length]? = some e := by simp [found]
  have written := reached.step (t := ({ s with
    mem := write64 s.mem (e.index bufferSize) (makeHeader e.m e.size true) }.updateEntry log.length
      fun e => { e with phase := .pending }).goto w .idle) (by simp only [writerStep, at', last])
  refine ⟨_, written, goto_pc _ _ _, ?_⟩
  simp only [goto, updateEntry, found, modify_last]

theorem solo_exchange (ready : Ready w m size s s') (reached : Solo bufferSize w t s') :
    ∃ s'' e, Solo bufferSize w t s'' ∧ s''.pc w = .idle ∧ s''.log = s.log ++ [e] ∧ e.m = m ∧ e.size = size ∧
      e.tl = s.tail ∧ e.phase = .pending := by
  obtain ⟨c, cache, rfl, rfl, rfl, tl⟩ := ready
  have exchanged := reached.step (t := { s with
    headCache := cache, tail := c.tl + c.rsize + c.padding, log := s.log ++ [entryOf c w] }.goto w
      (if c.padding ≠ 0 then .writePadding s.log.length else .writeHeader s.log.length)) (by
    simp only [writerStep, goto_pc, goto_tail, tl, Bool.false_eq_true, not_false_eq_true, and_self, if_true]
    simp [goto])
  by_cases some : c.padding ≠ 0
  · rw [if_pos some] at exchanged
    have padded := exchanged.step (t := ({ s with
      headCache := cache, tail := c.tl + c.rsize + c.padding, log := s.log ++ [entryOf c w],
      mem := write64 s.mem (c.tl % bufferSize) (makeHeader msgPad c.padding false) }.updateEntry s.log.length
        fun e => { e with padded := true }).goto w (.writeHeader s.log.length)) (by
      simp only [writerStep, goto_pc]
      simp [goto, updateEntry, entryOf])
    obtain ⟨s', solo, idle, log⟩ := solo_header (e := { entryOf c w with padded := true }) (modify_last _ _ _)
      (goto_pc _ _ _) padded
    exact ⟨s', _, solo, idle, log, rfl, rfl, tl, rfl⟩
  · rw [if_neg some] at exchanged
    obtain ⟨s', solo, idle, log⟩ := solo_header (e := entryOf c w) rfl (goto_pc _ _ _) exchanged
    exact ⟨s', _, solo, idle, log, rfl, rfl, tl, rfl⟩

end Ring

/-- In every interleaving of the writers' and the reader's steps: the messages handed
on are the first ones reserved, each with its type and its bytes, and all of them
finished; the reader alone hands on those that follow up to the first unfinished one;
no two reservations that are not yet read meet in memory; and in an empty buffer a
writer alone reserves whatever it is allowed to. -/
theorem ring_delivers (power : bufferSize = 2 ^ n) (run : Lib.Run (Ring.step bufferSize) {} trace s) :
    (∃ k ≤ s.log.length, s.delivered = (s.log.take k).map (fun e => (e.m, e.payload)) ∧
      ∀ e ∈ s.log.take k, e.phase = .finished) ∧
    (s.reader = .idle → ∀ j ≤ s.log.length, (∀ e ∈ s.log.take j, e.phase = .finished) →
      ∃ s', Ring.Reads bufferSize s s' ∧ s'.log = s.log ∧
        (s.log.take j).map (fun e => (e.m, e.payload)) <+: s'.delivered) ∧
    (∀ (i j : Nat) (e e' : Entry), s.log[i]? = some e → s.log[j]? = some e' → i < j → ∀ x y,
      s.head ≤ x → e.tl ≤ x → x < e.stop → e'.tl ≤ y → y < e'.stop → x % bufferSize ≠ y % bufferSize) ∧
    (s.head = s.tail → ∀ w m size wait, s.pc w = .idle → accepts bufferSize m size →
      ∃ s' s'' e, s.step bufferSize (.prepare w m size wait) = some s' ∧ Ring.Solo bufferSize w s' s'' ∧
        s''.pc w = .idle ∧ s''.log = s.log ++ [e] ∧ e.m = m ∧ e.size = size ∧ e.phase = .pending) := by
  have inv := Ring.Inv.run power run
  have positive : 0 < bufferSize := power ▸ Nat.two_pow_pos n
  refine ⟨⟨s.delivered.length, inv.position.1, inv.delivered, fun e member => ?_⟩, fun idle j le finished => ?_,
    fun i j e e' found found' less x y low _ high low' high' => inv.indices_apart found found' less low high low' high',
    fun empty w m size wait idle valid => ?_⟩
  · obtain ⟨i, less, got⟩ := mem_take_iff_getElem.mp member
    exact inv.consumed i e (by omega) (by rw [getElem?_eq_getElem (by omega), got])
  · have first : ∀ (i : Nat) (e : Entry), i < j → s.log[i]? = some e → e.phase = .finished := fun i e less found =>
      finished e (mem_take_iff_getElem.mpr ⟨i, by omega, (List.getElem?_eq_some_iff.mp found).2⟩)
    obtain ⟨s', reads, log, all⟩ := inv.deliverAll power idle first le
    refine ⟨s', reads, log, ?_⟩
    rw [(reads.inv power inv).delivered, log]
    exact (take_prefix_take_left all).map _
  · obtain ⟨s', reached, ready⟩ := Ring.solo_reserve (c := { m, size, wait }) (w := w) positive empty valid
    obtain ⟨s'', e, solo, rest⟩ := Ring.solo_exchange ready reached
    refine ⟨_, s'', e, ?_, solo, rest.1, rest.2.1, rest.2.2.1, rest.2.2.2.1, rest.2.2.2.2.2⟩
    exact if_pos ⟨idle, valid⟩

/-- Two messages, both read, and a third one that needs a padding, which is read with
a read of its own. -/
def wrapped : List Action :=
  let writer : Nat → Nat → List Action := fun w steps => List.replicate steps (.writer w false)
  let reader : Nat → List Action := fun steps => .read 5 :: List.replicate steps .reader
  List.flatten [[.prepare 0 7 8 true], writer 0 4,
    [.writeBytes 0 0 [1, 2, 3], .prepare 1 8 0 true, .writeBytes 0 0 [4, 5, 6, 7, 8]],
    writer 1 4, [.finish 1 1, .finish 0 0], reader 7,
    [.prepare 0 9 4 true], writer 0 7, [.writeBytes 0 2 [9, 9, 9, 9], .finish 0 2], reader 4, reader 5]

theorem ring_delivers_wrapped :
    ∃ trace s, Lib.Run (Ring.step 32) {} trace s ∧
      s.delivered = [(7, [1, 2, 3, 4, 5, 6, 7, 8]), (8, []), (9, [9, 9, 9, 9])] ∧
      ∃ k ≤ s.log.length, s.delivered = (s.log.take k).map (fun e => (e.m, e.payload)) ∧
        ∀ e ∈ s.log.take k, e.phase = .finished := by
  refine exists_run_of (P := fun _ s => s.delivered = [(7, [1, 2, 3, 4, 5, 6, 7, 8]), (8, []), (9, [9, 9, 9, 9])])
    wrapped (by decide +kernel) ?_
  intro trace s run delivered
  have power : 32 = 2 ^ 5 := rfl
  exact ⟨delivered, (ring_delivers power run).1⟩

end CCF.RingBuffer
