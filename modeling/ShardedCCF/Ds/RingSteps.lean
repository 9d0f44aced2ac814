import ShardedCCF.Ds.RingInvariant

/-! Every step of a writer and of the reader keeps the invariant. -/
namespace CCF.RingBuffer
open Lib List Option Function

variable {bufferSize n x : Nat} {s s' : Ring} {e : Entry} {w : Nat} {c : Locals}

namespace Ring

variable {head head' tail tail' hc hd tl r i ticket : Nat} {pc : Pc} {log log' : List Entry} {padded : Bool}

theorem Owns.update (owns : Owns log w ticket padded)
    (kept : ∀ e, log[ticket]? = some e → e.writer = w → log'[ticket]? = some e) : Owns log' w ticket padded := by
  obtain ⟨e, found, writer, rest⟩ := owns
  exact ⟨e, kept e found writer, writer, rest⟩

theorem PcOk.mono (ok : PcOk bufferSize head tail log w pc)
    (headLe : head ≤ head') (tailLe : tail ≤ tail')
    (kept : ∀ (i : Nat) (e : Entry), log[i]? = some e → e.writer = w → log'[i]? = some e) :
    PcOk bufferSize head' tail' log' w pc := by
  cases pc with
  | idle => trivial
  | loadHeadCache c => exact ok
  | loadTail c => exact ⟨ok.1, ok.2.trans headLe⟩
  | loadHead c => exact ⟨ok.1, ok.2.1, ok.2.2.trans tailLe⟩
  | storeHeadCache c | loadHeadAgain c =>
    obtain ⟨valid, aligned, tl, hd, rest⟩ := ok
    exact ⟨valid, aligned, tl.trans tailLe, hd.trans headLe, rest⟩
  | storeHeadCacheAgain c | exchange c =>
    obtain ⟨valid, aligned, tl, hd, room⟩ := ok
    exact ⟨valid, aligned, tl.trans tailLe, hd.trans headLe, room.imp_left fun less => less.trans_le tailLe⟩
  | writePadding ticket | writeHeader ticket => exact Owns.update ok (kept ticket)

theorem lap_room (positive : 0 < bufferSize) (le : hd ≤ tl) (room : tl + r ≤ hd + bufferSize)
    (over' : r > bufferSize - tl % bufferSize) (front : r ≤ hd % bufferSize) :
    tl + (bufferSize - tl % bufferSize) + r ≤ hd + bufferSize := by
  have lap := Nat.div_add_mod tl bufferSize
  have inside := Nat.mod_lt tl positive
  have low : bufferSize * (tl / bufferSize) ≤ hd := by omega
  have index : hd % bufferSize = hd - bufferSize * (tl / bufferSize) := by
    obtain ⟨d, rfl⟩ := Nat.exists_eq_add_of_le low
    rw [Nat.mul_add_mod, Nat.add_sub_cancel_left, Nat.mod_eq_of_lt (by omega)]
  omega

theorem fitBlock_ok (positive : 0 < bufferSize) (valid : accepts bufferSize c.m c.size)
    (aligned : c.tl % 8 = 0) (below : c.tl ≤ tail) (behind : c.hd ≤ head) (le : c.hd ≤ c.tl)
    (room : c.tl + c.rsize ≤ c.hd + bufferSize) : PcOk bufferSize head tail log w (fitBlock bufferSize c) := by
  have inside := Nat.mod_lt c.tl positive
  unfold fitBlock
  dsimp only
  split
  · split
    · exact ⟨valid, aligned, below, behind, room, ‹_›⟩
    refine ⟨valid, aligned, below, behind, .inr ⟨?_, .inr ⟨?_, ?_, ?_⟩⟩⟩
    · exact lap_room positive le room ‹_› (not_lt.mp ‹_›)
    · exact Nat.add_sub_cancel' inside.le
    · exact Nat.sub_ne_zero_of_lt inside
    · assumption
  refine ⟨valid, aligned, below, behind, .inr ⟨room, .inl ⟨rfl, ?_⟩⟩⟩
  change c.tl % bufferSize + c.rsize ≤ bufferSize
  omega

theorem enterLoop_ok (positive : 0 < bufferSize) (valid : accepts bufferSize c.m c.size)
    (aligned : c.tl % 8 = 0) (below : c.tl ≤ tail) (behind : c.hd ≤ head) (le : c.hd ≤ c.tl) :
    PcOk bufferSize head tail log w (enterLoop bufferSize c) := by
  unfold enterLoop
  split
  · exact ⟨valid, aligned, below⟩
  · exact fitBlock_ok positive valid aligned below behind le (by omega)

theorem failReserve_ok (valid : accepts bufferSize c.m c.size) :
    PcOk bufferSize head tail log w (failReserve c) := by
  unfold failReserve
  split
  · exact valid
  · trivial

theorem boundary_append (e : Entry) (start : e.tl = s.tail) (le : i ≤ s.log.length) (tail : Nat) :
    boundary { s with tail, log := s.log ++ [e] } i = s.boundary i := by
  rcases Nat.lt_or_eq_of_le le with less | rfl
  · simp [boundary, getElem?_append_left less, getElem?_eq_getElem less]
  · simp [boundary, start]

theorem entryOf_wellFormed (valid : accepts bufferSize c.m c.size) (aligned : c.tl % 8 = 0)
    (fits : Fits bufferSize c c.padding) : (entryOf c w).WellFormed bufferSize := by
  have valid := of_decide_eq_true valid
  have large := entrySize_ge c.size
  have half : entrySize c.size ≤ bufferSize / 2 := valid.2.2.2
  obtain ⟨room, block⟩ := fits
  refine ⟨⟨valid.1, valid.2.1⟩, valid.2.2.1, half, Nat.zero_le _, aligned, ?_, ?_, ?_, fun _ _ => rfl⟩
  · rcases block with ⟨none, back⟩ | ⟨whole, -, -⟩
    · simp only [entryOf, Entry.start, none, Nat.add_zero]
      exact back
    have index : (c.tl + c.padding) % bufferSize = 0 := by
      have lap := Nat.div_add_mod c.tl bufferSize
      have : c.tl + c.padding = bufferSize * (c.tl / bufferSize + 1) := by
        rw [Nat.mul_add, Nat.mul_one]
        omega
      rw [this, Nat.mul_mod_right]
    simp only [entryOf, Entry.start, index]
    omega
  · intro some
    rcases block with ⟨none, -⟩ | ⟨whole, -, -⟩
    · exact absurd none some
    · exact whole
  · rcases block with ⟨none, -⟩ | ⟨-, -, short⟩
    · simp only [entryOf, none]
      omega
    · exact short

namespace Inv

variable (inv : s.Inv bufferSize)
include inv

theorem goto_ok (cache : hc ≤ s.head) (ok : PcOk bufferSize s.head s.tail s.log w pc) :
    ({ s with headCache := hc }.goto w pc).Inv bufferSize := by
  obtain ⟨entries, chain, -, head_le, tail_le, tail_aligned, position, consumed, delivered, free, outside, contents,
    paddings, threads, reader⟩ := inv
  refine ⟨entries, chain, cache, head_le, tail_le, tail_aligned, position, consumed, delivered, free, outside, contents,
    paddings, fun v => ?_, reader⟩
  by_cases same : v = w
  · subst same
    simp only [goto, update_self]
    exact ok
  · simp only [goto, update_of_ne same]
    exact threads v

theorem goto (ok : PcOk bufferSize s.head s.tail s.log w pc) : (s.goto w pc).Inv bufferSize :=
  inv.goto_ok inv.headCache_le ok

omit inv in
theorem eight_dvd (power : bufferSize = 2 ^ n) (large : 16 ≤ bufferSize) : 8 ∣ bufferSize := by
  subst power
  have : 3 ≤ n := by
    by_contra less
    have : 2 ^ n ≤ 2 ^ 2 := Nat.pow_le_pow_right (by decide) (by omega)
    omega
  exact Nat.pow_dvd_pow 2 this

theorem free_holds (low : s.tail ≤ x) (high : x + n ≤ s.head + bufferSize)
    (contiguous : x % bufferSize + n ≤ bufferSize) : s.mem.Holds (x % bufferSize) (List.replicate n 0) := by
  refine Memory.holds_replicate.mpr fun k inside => ?_
  rw [← add_mod_eq k (by omega)]
  exact inv.free (x + k) (by omega) (by omega)

theorem exchange (power : bufferSize = 2 ^ n) (ok : PcOk bufferSize s.head s.tail s.log w (.exchange c))
    (same : s.tail = c.tl) :
    ({ s with tail := c.tl + c.rsize + c.padding, log := s.log ++ [entryOf c w] }.goto w
      (if c.padding ≠ 0 then .writePadding s.log.length else .writeHeader s.log.length)).Inv bufferSize := by
  obtain ⟨valid, aligned, -, behind, room⟩ := ok
  have fits := room.resolve_left (by omega)
  have wf := entryOf_wellFormed (w := w) valid aligned fits
  have dvd := eight_dvd power wf.positive
  have padding := wf.padding_mod dvd
  have size := entrySize_mod c.size
  have start : (entryOf c w).tl = s.tail := same.symm
  have stop : (entryOf c w).stop = c.tl + c.rsize + c.padding := by
    simp only [entryOf, Entry.stop, Entry.start, Locals.rsize]
    omega
  have rsize : c.rsize = entrySize c.size := rfl
  have high : c.tl + c.padding + c.rsize ≤ s.head + bufferSize := fits.room.trans (by omega)
  have old : ∀ i, i < s.log.length → (s.log ++ [entryOf c w])[i]? = s.log[i]? := fun i less =>
    getElem?_append_left less
  have split : ∀ (i : Nat) (e : Entry), (s.log ++ [entryOf c w])[i]? = some e →
      s.log[i]? = some e ∧ i < s.log.length ∨ e = entryOf c w ∧ i = s.log.length := fun i e found => by
    rcases Nat.lt_or_ge i s.log.length with less | ge
    · exact .inl ⟨(old i less) ▸ found, less⟩
    rw [getElem?_append_right ge, getElem?_singleton] at found
    split at found
    · exact .inr ⟨(some.inj found).symm, by omega⟩
    · cases found
  have read := inv.position.1
  refine ⟨fun i e found => ?_, fun i e found => ?_, inv.headCache_le, inv.head_le, ?_, ?_, ⟨?_, ?_⟩, fun i e less found => ?_,
    ?_, fun x low upper => inv.free x ?_ upper, inv.outside, fun i e unread found => ?_,
    fun i e unread found some before => ?_, fun v => ?_, ?_⟩
  · rcases split i e found with ⟨older, -⟩ | ⟨rfl, -⟩
    · exact inv.entries i e older
    · exact wf
  · rcases split i e found with ⟨older, less⟩ | ⟨rfl, rfl⟩
    · exact (boundary_append _ start (Nat.succ_le_of_lt less) _).trans (inv.chain i e older)
    · rw [stop]
      exact boundary_of_ge (by simp [Ring.goto])
  · change c.tl + c.rsize + c.padding ≤ s.head + bufferSize
    omega
  · change (c.tl + c.rsize + c.padding) % 8 = 0
    have : c.padding % 8 = 0 := padding
    omega
  · exact read.trans (by simp [Ring.goto])
  · rcases inv.position.2 with at' | ⟨e, found, rest⟩
    · exact .inl (at'.trans (boundary_append _ start read _).symm)
    · refine .inr ⟨e, (old _ ?_).trans found, rest⟩
      exact (List.getElem?_eq_some_iff.mp found).1
  · exact inv.consumed i e less ((old i (less.trans_le read)) ▸ found)
  · change s.delivered = ((s.log ++ [entryOf c w]).take s.delivered.length).map _
    rw [take_append_of_le_length read]
    exact inv.delivered
  · have : c.tl + c.rsize + c.padding ≤ x := low
    omega
  · rcases split i e found with ⟨older, -⟩ | ⟨rfl, rfl⟩
    · exact inv.contents i e unread older
    refine inv.free_holds ?_ ?_ wf.contiguous
    · simp only [entryOf, Entry.start]
      omega
    · simp only [entryOf, Entry.start]
      omega
  · rcases split i e found with ⟨older, -⟩ | ⟨rfl, rfl⟩
    · exact inv.paddings i e unread older some before
    have whole := wf.padding some
    have at' : (entryOf c w).padding = c.padding := rfl
    refine inv.free_holds (n := 8) start.ge ?_ (by omega)
    rw [start]
    omega
  · by_cases self : v = w
    · subst self
      simp only [Ring.goto, update_self]
      split
      · exact ⟨entryOf c v, by simp, rfl, rfl, rfl, fun _ => rfl, fun _ => ‹_›⟩
      · exact ⟨entryOf c v, by simp, rfl, rfl, rfl, fun some => absurd some ‹_›, by rintro ⟨⟩⟩
    simp only [Ring.goto, update_of_ne self]
    refine (inv.threads v).mono le_rfl (by omega) fun i e found _ => ?_
    exact (old i (List.getElem?_eq_some_iff.mp found).1).trans found
  · have ok := inv.reader
    unfold ReaderOk at ok ⊢
    simp only [Ring.goto]
    split
    · trivial
    · rename_i h
      simpa only [h] using ok
    · rename_i h
      simpa only [h] using ok
    · rename_i h
      simp only [h] at ok
      obtain ⟨hd, e, found, rest⟩ := ok
      exact ⟨hd, e, (old _ (List.getElem?_eq_some_iff.mp found).1).trans found, rest⟩
    · rename_i h
      simpa only [h] using ok

omit inv in
theorem write_frame (bytes : Bytes) (low : s.head ≤ x) (high : x + bytes.length ≤ s.head + bufferSize)
    (contiguous : x % bufferSize + bytes.length ≤ bufferSize) (y : Nat) (inLap : s.head ≤ y)
    (inLap' : y < s.head + bufferSize) (apart : y < x ∨ x + bytes.length ≤ y) :
    (s.mem.write (x % bufferSize) bytes) (y % bufferSize) = s.mem (y % bufferSize) := by
  rcases Nat.lt_or_ge (y % bufferSize) (x % bufferSize) with before | after
  · exact Memory.write_of_lt bytes before
  rcases Nat.lt_or_ge (y % bufferSize) (x % bufferSize + bytes.length) with inside | beyond
  · have index : (x + (y % bufferSize - x % bufferSize)) % bufferSize = y % bufferSize := by
      rw [add_mod_eq _ (by omega)]
      omega
    have same := eq_of_mod_eq s.head _ _ (by omega) (by omega) inLap inLap' index
    omega
  · exact Memory.write_of_ge beyond

omit inv in
theorem holds_frame (bytes : Bytes) (low : s.head ≤ x) (high : x + bytes.length ≤ s.head + bufferSize)
    (contiguous : x % bufferSize + bytes.length ≤ bufferSize) (y : Nat) (other : Bytes) (low' : s.head ≤ y)
    (high' : y + other.length ≤ s.head + bufferSize) (contiguous' : y % bufferSize + other.length ≤ bufferSize)
    (apart : y + other.length ≤ x ∨ x + bytes.length ≤ y) (holds : s.mem.Holds (y % bufferSize) other) :
    (s.mem.write (x % bufferSize) bytes).Holds (y % bufferSize) other := by
  intro k inside
  rw [← holds k inside, ← add_mod_eq k (by omega)]
  exact write_frame bytes low high contiguous (y + k) (by omega) (by omega) (by omega)

theorem entry_range (found : s.log[i]? = some e) (unread : s.delivered.length ≤ i) :
    s.head ≤ e.start ∧ e.start + e.bytes.length ≤ s.head + bufferSize ∧
      e.start % bufferSize + e.bytes.length ≤ bufferSize := by
  have wf := inv.entries i e found
  have start := inv.position_le_start found unread
  have stop := inv.stop_le_tail found
  have := inv.head_le
  have := inv.tail_le
  have := wf.contiguous
  rw [wf.length_bytes]
  rw [Entry.stop] at stop
  omega

section
variable (power : bufferSize = 2 ^ n)
include power

theorem pad_range (found : s.log[i]? = some e) (some : e.padding ≠ 0) (before : s.position ≤ e.tl) :
    s.head ≤ e.tl ∧ e.tl + 8 ≤ e.start ∧ e.start ≤ s.head + bufferSize ∧ e.tl % bufferSize + 8 ≤ bufferSize := by
  have wf := inv.entries i e found
  have := wf.padding_mod (eight_dvd power wf.positive)
  have whole := wf.padding some
  have stop := inv.stop_le_tail found
  have := inv.head_le
  have := inv.tail_le
  rw [Entry.stop] at stop
  simp only [Entry.start] at *
  omega

theorem modify {f : Entry → Entry} (found : s.log[ticket]? = some e) (unfinished : e.phase ≠ .finished)
    (writer : e.writer = w) (writer' : (f e).writer = w) (tl' : (f e).tl = e.tl)
    (padding' : (f e).padding = e.padding) (size' : (f e).size = e.size) (wf' : (f e).WellFormed bufferSize)
    (padded' : e.padded → (f e).padded) (bytes : Bytes) (place : s.position ≤ x) (low : e.tl ≤ x)
    (high : x + bytes.length ≤ e.stop) (contiguous : x % bufferSize + bytes.length ≤ bufferSize)
    (holds : (s.mem.write (x % bufferSize) bytes).Holds (e.start % bufferSize) (f e).bytes)
    (pad : e.padding ≠ 0 → s.position ≤ e.tl → (s.mem.write (x % bufferSize) bytes).Holds (e.tl % bufferSize) (f e).padBytes)
    (ok : PcOk bufferSize s.head s.tail (s.log.modify ticket f) w pc) :
    (({ s with mem := s.mem.write (x % bufferSize) bytes }.updateEntry ticket f).goto w pc).Inv bufferSize := by
  have unread := inv.unread_of_unfinished found unfinished
  have headLe : s.head ≤ x := inv.head_le.trans place
  have stopLe : x + bytes.length ≤ s.head + bufferSize :=
    (high.trans (inv.stop_le_tail found)).trans inv.tail_le
  have stop' : (f e).stop = e.stop := by simp only [Entry.stop, Entry.start, tl', padding', size']
  have start' : (f e).start = e.start := by simp only [Entry.start, tl', padding']
  have get : ∀ i, (s.log.modify ticket f)[i]? = if ticket = i then some (f e) else s.log[i]? := fun i => by
    rw [getElem?_modify]
    split
    · rename_i same
      rw [← same, found]
      rfl
    · simp
  -- Every entry of the new log is the changed one or an old one.
  have split : ∀ (i : Nat) (d : Entry), (s.log.modify ticket f)[i]? = some d →
      i = ticket ∧ d = f e ∨ i ≠ ticket ∧ s.log[i]? = some d := fun i d got => by
    rw [get] at got
    split at got
    · exact .inl ⟨Eq.symm ‹_›, (some.inj got).symm⟩
    · exact .inr ⟨Ne.symm ‹_›, got⟩
  have bound : ∀ i, boundary { s with log := s.log.modify ticket f } i = s.boundary i := fun i => by
    simp only [boundary, get]
    split
    · rename_i same
      rw [← same, found]
      simp [tl']
    · rfl
  have apart : ∀ (i : Nat) (d : Entry), i ≠ ticket → s.log[i]? = some d →
      d.stop ≤ x ∨ x + bytes.length ≤ d.tl := fun i d other got => by
    rcases Nat.lt_or_gt_of_ne other with less | greater
    · exact .inl ((inv.stop_le_tl got found less).trans low)
    · exact .inr (high.trans (inv.stop_le_tl found got greater))
  refine ⟨fun i d got => ?_, fun i d got => ?_, inv.headCache_le, inv.head_le, inv.tail_le, inv.tail_aligned, ⟨?_, ?_⟩,
    fun i d less got => ?_, ?_, fun y low upper => ?_, fun j beyond => ?_, fun i d unread got => ?_,
    fun i d unread got some before => ?_, fun v => ?_, ?_⟩
  · rcases split i d got with ⟨rfl, rfl⟩ | ⟨-, older⟩
    · exact wf'
    · exact inv.entries i d older
  · refine (bound (i + 1)).trans ?_
    rcases split i d got with ⟨rfl, rfl⟩ | ⟨-, older⟩
    · rw [stop']
      exact inv.chain i e found
    · exact inv.chain i d older
  · exact inv.position.1.trans (by simp [Ring.goto, updateEntry])
  · rcases inv.position.2 with at' | ⟨d, got, some, padded, at'⟩
    · exact .inl (at'.trans (bound _).symm)
    by_cases same : ticket = s.delivered.length
    · obtain rfl : e = d := Option.some.inj (found.symm.trans (same ▸ got))
      refine .inr ⟨f e, (get _).trans (if_pos same), padding' ▸ some, padded' padded, at'.trans start'.symm⟩
    · exact .inr ⟨d, (get _).trans ((if_neg same).trans got), some, padded, at'⟩
  · rcases split i d got with ⟨rfl, -⟩ | ⟨-, older⟩
    · exact absurd less (not_lt.mpr unread)
    · exact inv.consumed i d less older
  · have taken : (s.log.modify ticket f).take s.delivered.length = s.log.take s.delivered.length := by
      refine ext_getElem? fun i => ?_
      rw [getElem?_take, getElem?_take]
      split
      · rw [get, if_neg (by omega)]
      · rfl
    change s.delivered = ((s.log.modify ticket f).take s.delivered.length).map _
    rw [taken]
    exact inv.delivered
  · have := high.trans (inv.stop_le_tail found)
    have at' : s.tail ≤ y := low
    exact (write_frame bytes headLe stopLe contiguous y (by omega) upper (.inr (by omega))).trans
      (inv.free y low upper)
  · exact (Memory.write_of_ge (contiguous.trans beyond)).trans (inv.outside j beyond)
  · rcases split i d got with ⟨rfl, rfl⟩ | ⟨other, older⟩
    · rw [start']
      exact holds
    obtain ⟨first, second, third⟩ := inv.entry_range older unread
    refine holds_frame bytes headLe stopLe contiguous d.start d.bytes first second third ?_
      (inv.contents i d unread older)
    rw [(inv.entries i d older).length_bytes]
    exact (apart i d other older).imp_right fun le => le.trans (Nat.le_add_right _ _)
  · rcases split i d got with ⟨rfl, rfl⟩ | ⟨other, older⟩
    · rw [tl'] at before ⊢
      exact pad (padding' ▸ some) before
    obtain ⟨first, second, third, fourth⟩ := inv.pad_range power older some before
    refine holds_frame bytes headLe stopLe contiguous d.tl d.padBytes first ?_ ?_ ?_
      (inv.paddings i d unread older some before)
    all_goals rw [Entry.length_padBytes]
    · omega
    · exact fourth
    · refine (apart i d other older).imp_left fun le => ?_
      rw [Entry.stop] at le
      omega
  · by_cases self : v = w
    · subst self
      simp only [Ring.goto, update_self]
      exact ok
    simp only [Ring.goto, update_of_ne self]
    refine (inv.threads v).mono le_rfl le_rfl fun i d got owner => (get i).trans ?_
    rw [if_neg]
    · exact got
    · rintro rfl
      obtain rfl : e = d := some.inj (found.symm.trans got)
      exact self (owner.symm.trans writer)
  · have ok := inv.reader
    unfold ReaderOk at ok ⊢
    simp only [Ring.goto, updateEntry]
    split
    · trivial
    · rename_i h
      simpa only [h] using ok
    · rename_i h
      simpa only [h] using ok
    · rename_i h
      simp only [h] at ok
      obtain ⟨hd, d, got, finished, rest⟩ := ok
      refine ⟨hd, d, (get _).trans ?_, finished, rest⟩
      rw [if_neg]
      · exact got
      · rintro rfl
        obtain rfl : e = d := some.inj (found.symm.trans got)
        exact unfinished finished
    · rename_i r h
      simp only [h] at ok
      obtain ⟨hd, advance, zero⟩ := ok
      refine ⟨hd, advance, fun k inside => ?_⟩
      have before : s.head + k < x := by
        simp only [Ring.position, h] at place
        omega
      have index : (s.head + k) % bufferSize = s.head % bufferSize + k := add_mod_eq k (by omega)
      rw [← index]
      rw [write_frame bytes headLe stopLe contiguous (s.head + k) (by omega) (by omega) (.inl before), index]
      exact zero k inside

section
variable (found : s.log[ticket]? = some e)
include found

theorem writePadding (owns : Owns s.log w ticket false) :
    (({ s with mem := write64 s.mem (e.tl % bufferSize) (makeHeader msgPad e.padding false) }.updateEntry ticket
      fun e => { e with padded := true }).goto w (.writeHeader ticket)).Inv bufferSize := by
  obtain ⟨d, got, writer, reserved, fresh, unpadded, some⟩ := owns
  obtain rfl : e = d := Option.some.inj (found.symm.trans got)
  have some := some rfl
  have unfinished : e.phase ≠ .finished := by simp [reserved]
  have unread := inv.unread_of_unfinished found unfinished
  have before := inv.position_le_tl found unread (unpadded some)
  obtain ⟨first, second, third, fourth⟩ := inv.pad_range power found some before
  have wf := inv.entries ticket e found
  obtain ⟨low, high, within⟩ := inv.entry_range found unread
  refine inv.modify power found unfinished writer writer rfl rfl rfl ?_ (fun _ => rfl) _ before le_rfl ?_ ?_ ?_ ?_ ?_
  · exact ⟨wf.message, wf.size, wf.fits, wf.written, wf.aligned, wf.contiguous, wf.padding, wf.short, by rintro - ⟨⟩⟩
  · rw [length_toBytes, Entry.stop]
    omega
  · exact fourth
  · refine holds_frame _ first ?_ ?_ e.start e.bytes low high within ?_ (inv.contents ticket e unread found)
    all_goals rw [length_toBytes]
    · omega
    · exact fourth
    · exact .inr second
  · intro _ _
    exact Memory.holds_write _ _ _
  · refine ⟨{ e with padded := true }, ?_, writer, reserved, fresh, fun _ => rfl, by rintro ⟨⟩⟩
    rw [getElem?_modify_eq, found]
    rfl

theorem writeEntryHeader (unfinished : e.phase ≠ .finished) (writer : e.writer = w)
    (padded : e.padding ≠ 0 → e.padded) (phase : Phase) (header : Nat)
    (bytes : ∃ old rest, old.length = 8 ∧ e.bytes = old ++ rest ∧ ({ e with phase } : Entry).bytes = toBytes 8 header ++ rest) :
    (({ s with mem := write64 s.mem (e.index bufferSize) header }.updateEntry ticket
      fun e => { e with phase }).goto w .idle).Inv bufferSize := by
  have unread := inv.unread_of_unfinished found unfinished
  have wf := inv.entries ticket e found
  have large := entrySize_ge e.size
  have contiguous := wf.contiguous
  rw [wf.index_eq]
  refine inv.modify power found unfinished writer writer rfl rfl rfl ?_ (fun padded => padded) _
    (inv.position_le_start found unread) (Nat.le_add_right _ _) ?_ ?_ ?_ ?_ trivial
  · exact ⟨wf.message, wf.size, wf.fits, wf.written, wf.aligned, wf.contiguous, wf.padding, wf.short,
      fun some unpadded => by simp [padded some] at unpadded⟩
  · rw [length_toBytes, Entry.stop]
    omega
  · rw [length_toBytes]
    omega
  · obtain ⟨old, rest, length, was, becomes⟩ := bytes
    have holds := inv.contents ticket e unread found
    rw [was] at holds
    rw [becomes]
    exact holds.write_start _ ((length_toBytes 8 header).trans length.symm)
  · intro some before
    obtain ⟨first, second, third, fourth⟩ := inv.pad_range power found some before
    obtain ⟨low, high, within⟩ := inv.entry_range found unread
    rw [wf.length_bytes] at high within
    refine holds_frame _ low ?_ ?_ e.tl e.padBytes first ?_ ?_ ?_ (inv.paddings ticket e unread found some before)
    all_goals simp only [length_toBytes, Entry.length_padBytes]
    all_goals omega

theorem writeHeader (owns : Owns s.log w ticket true) :
    (({ s with mem := write64 s.mem (e.index bufferSize) (makeHeader e.m e.size true) }.updateEntry ticket
      fun e => { e with phase := .pending }).goto w .idle).Inv bufferSize := by
  obtain ⟨d, got, writer, reserved, fresh, padded, -⟩ := owns
  obtain rfl : e = d := some.inj (found.symm.trans got)
  refine inv.writeEntryHeader power found (by simp [reserved]) writer padded .pending _ ?_
  have large := entrySize_ge e.size
  refine ⟨List.replicate 8 0, List.replicate (entrySize e.size - 8) 0, length_replicate, ?_, ?_⟩
  · simp only [Entry.bytes, reserved, replicate_append_replicate]
    congr 1
    omega
  · simp only [Entry.bytes, Entry.payload, fresh, nil_append, length_nil, Nat.sub_zero,
      replicate_append_replicate]
    congr 2
    omega

theorem finish (pending : e.phase = .pending) (writer : e.writer = w) (idle : s.pc w = .idle) : ({ s with
      mem := write64 s.mem (e.index bufferSize) (makeHeader (message (read64 s.mem (e.index bufferSize)))
        (length (read64 s.mem (e.index bufferSize))) false) }.updateEntry ticket
          fun e => { e with phase := .finished }).Inv bufferSize := by
  have unfinished : e.phase ≠ .finished := by simp [pending]
  have unread := inv.unread_of_unfinished found unfinished
  have wf := inv.entries ticket e found
  have holds := inv.contents ticket e unread found
  have header : read64 s.mem (e.index bufferSize) = makeHeader e.m e.size true := by
    simp only [Entry.bytes, pending, Memory.holds_append] at holds
    rw [wf.index_eq]
    exact read64_eq holds.1 (wf.header_small true)
  have unflagged : makeHeader e.m (length (makeHeader e.m e.size true)) false = makeHeader e.m e.size false := by
    rw [length_makeHeader]
    simp only [makeHeader, pendingWriteFlag, if_true]
    omega
  have padded : e.padding ≠ 0 → e.padded = true := fun some => by
    by_contra unpadded
    have reserved := wf.ordered some (Bool.eq_false_of_not_eq_true unpadded)
    simp [pending] at reserved
  rw [header, message_makeHeader, unflagged]
  have finished := inv.writeEntryHeader power found unfinished writer padded .finished (makeHeader e.m e.size false)
    ⟨_, e.payload ++ List.replicate (entrySize e.size - 8 - e.size) 0,
      length_toBytes 8 (makeHeader e.m e.size true), by simp only [Entry.bytes, pending], rfl⟩
  simpa only [Ring.goto, updateEntry, ← idle, Function.update_eq_self] using finished

theorem writeBytes (pending : e.phase = .pending) (writer : e.writer = w) (idle : s.pc w = .idle) (bytes : Bytes)
    (fits : e.written.length + bytes.length ≤ e.size) :
    ({ s with mem := s.mem.write (e.index bufferSize + headerSize + e.written.length) bytes }.updateEntry ticket
      fun e => { e with written := e.written ++ bytes }).Inv bufferSize := by
  rcases eq_nil_or_concat bytes with rfl | ⟨init, last, nonempty⟩
  · have same : (fun e : Entry => { e with written := e.written ++ [] }) = id := by
      funext e
      simp only [append_nil, id]
    simpa only [Memory.write_nil, updateEntry, same, modify_id] using inv
  have positive : 0 < bytes.length := by simp [nonempty]
  have unfinished : e.phase ≠ .finished := by simp [pending]
  have unread := inv.unread_of_unfinished found unfinished
  have wf := inv.entries ticket e found
  have large := entrySize_ge e.size
  have contiguous := wf.contiguous
  have start := inv.position_le_start found unread
  have index : e.index bufferSize + headerSize + e.written.length =
      (e.start + (8 + e.written.length)) % bufferSize := by
    rw [wf.index_eq, add_mod_eq _ (by omega), headerSize]
    omega
  have modified := inv.modify power (f := fun e => { e with written := e.written ++ bytes }) (w := w)
    (x := e.start + (8 + e.written.length)) found unfinished writer writer rfl rfl rfl
    ⟨wf.message, wf.size, wf.fits, by simpa using fits, wf.aligned, wf.contiguous, wf.padding, wf.short, wf.ordered⟩
    (fun padded => padded) bytes (by omega) (by rw [Entry.start]; omega) (by rw [Entry.stop]; omega)
    (by rw [← index, wf.index_eq, headerSize]; omega) ?_ ?_ (show PcOk bufferSize s.head s.tail _ w .idle from trivial)
  · rw [index]
    simpa only [Ring.goto, updateEntry, ← idle, Function.update_eq_self] using modified
  · -- The bytes replace as many zeros of the payload.
    set zeros : Bytes := List.replicate (e.size - (e.written.length + bytes.length)) 0 ++
      List.replicate (entrySize e.size - 8 - e.size) 0
    have before : e.bytes = (toBytes 8 (makeHeader e.m e.size true) ++ e.written) ++
        (List.replicate bytes.length 0 ++ zeros) := by
      have count : e.size - e.written.length = bytes.length + (e.size - (e.written.length + bytes.length)) := by omega
      simp only [Entry.bytes, pending, Entry.payload, zeros, append_assoc, count, ← replicate_append_replicate]
    have after : ({ e with written := e.written ++ bytes } : Entry).bytes =
        (toBytes 8 (makeHeader e.m e.size true) ++ e.written) ++ (bytes ++ zeros) := by
      simp only [Entry.bytes, pending, Entry.payload, zeros, append_assoc, length_append]
    have holds := inv.contents ticket e unread found
    rw [before] at holds
    rw [after, ← index, wf.index_eq, headerSize, Nat.add_assoc]
    have written := holds.write_middle bytes (by simp)
    simpa only [length_append, length_toBytes] using written
  · intro some above
    obtain ⟨first, second, third, fourth⟩ := inv.pad_range power found some above
    obtain ⟨low, high, within⟩ := inv.entry_range found unread
    rw [wf.length_bytes] at high within
    refine holds_frame bytes (by omega) (by omega) (by rw [← index, wf.index_eq, headerSize]; omega) e.tl e.padBytes
      first ?_ ?_ ?_ (inv.paddings ticket e unread found some above)
    all_goals rw [Entry.length_padBytes]
    · omega
    · exact fourth
    · exact .inl (by omega)

end

end

theorem prepare (moved : s.prepare bufferSize w m size wait = some s') : s'.Inv bufferSize := by
  unfold Ring.prepare at moved
  split at moved
  · rename_i guard
    cases moved
    exact inv.goto guard.2
  · cases moved

theorem writerStep (power : bufferSize = 2 ^ n) (moved : s.writerStep bufferSize w spurious = some s') :
    s'.Inv bufferSize := by
  have positive : 0 < bufferSize := power ▸ Nat.two_pow_pos n
  have below := inv.head_le_tail
  have ok := inv.threads w
  unfold Ring.writerStep at moved
  cases at' : s.pc w with
  | idle => simp [at'] at moved
  | loadHeadCache c =>
    simp only [at', some.injEq] at ok moved
    subst moved
    exact inv.goto ⟨ok, inv.headCache_le⟩
  | loadTail c =>
    simp only [at', some.injEq] at ok moved
    subst moved
    exact inv.goto (enterLoop_ok positive ok.1 inv.tail_aligned le_rfl ok.2 (ok.2.trans below))
  | loadHead c =>
    simp only [at', some.injEq] at ok moved
    subst moved
    obtain ⟨valid, aligned, tl⟩ := ok
    refine inv.goto ?_
    split
    · exact ⟨valid, aligned, tl, le_rfl, .inl (lt_of_lt_of_le ‹_› below)⟩
    split
    · exact failReserve_ok valid
    refine ⟨valid, aligned, tl, le_rfl, not_lt.mp ‹_›, ?_⟩
    have := inv.tail_le
    change c.tl + c.rsize ≤ s.head + bufferSize
    omega
  | storeHeadCache c =>
    simp only [at', some.injEq] at ok moved
    subst moved
    obtain ⟨valid, aligned, tl, hd, le, room⟩ := ok
    exact inv.goto_ok hd (fitBlock_ok positive valid aligned tl hd le room)
  | loadHeadAgain c =>
    simp only [at', some.injEq] at ok moved
    subst moved
    obtain ⟨valid, aligned, tl, hd, room, back⟩ := ok
    refine inv.goto ?_
    split
    · exact failReserve_ok valid
    rename_i front
    refine ⟨valid, aligned, tl, le_rfl, ?_⟩
    rcases Nat.lt_or_ge c.tl s.head with passed | behind
    · exact .inl (passed.trans_le below)
    have inside := Nat.mod_lt c.tl positive
    refine .inr ⟨?_, .inr ⟨Nat.add_sub_cancel' inside.le, Nat.sub_ne_zero_of_lt inside, back⟩⟩
    exact lap_room positive behind (room.trans (Nat.add_le_add_right hd _)) back (not_lt.mp front)
  | storeHeadCacheAgain c =>
    simp only [at', some.injEq] at ok moved
    subst moved
    obtain ⟨valid, aligned, tl, hd, room⟩ := ok
    exact inv.goto_ok hd ⟨valid, aligned, tl, hd, room.imp_right fun fits => ⟨fits.room, fits.block⟩⟩
  | exchange c =>
    simp only [at'] at ok moved
    split at moved
    · cases moved
      rename_i same
      exact inv.exchange power ok same.1
    · cases moved
      exact inv.goto (enterLoop_ok positive ok.1 inv.tail_aligned le_rfl ok.2.2.2.1 (ok.2.2.2.1.trans below))
  | writePadding ticket =>
    simp only [at'] at ok moved
    split at moved
    · cases moved
    · cases moved
      exact inv.writePadding power ‹_› ok
  | writeHeader ticket =>
    simp only [at'] at ok moved
    split at moved
    · cases moved
    · cases moved
      exact inv.writeHeader power ‹_› ok

end Inv
end Ring
end CCF.RingBuffer
