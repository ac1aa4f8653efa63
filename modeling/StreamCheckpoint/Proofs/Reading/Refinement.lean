import StreamCheckpoint.Proofs.Alignment.Bare
import StreamCheckpoint.Proofs.Reading.Scheduler

/-! A reader refines the scheduler of the same items.  The list of the scheduler is what is held
back by the reader, followed by what waits for replay and what the gate has not delivered
(`Tracks`).  Holding an item back without exceeding the limit is nothing to the scheduler; every
other turn of the reader is a turn of the scheduler with the same activity (`Lags.turn`).
Therefore the two give the same replies to all calls (`serve_eq_scheduler`). -/

namespace StreamCheckpoint

variable {α : Type}

/-- The reader with nothing held back and a gate that delivers nothing. -/
def Reader.bare (r : Reader α) : Reader α :=
  { r with feed := { r.feed with arrivals := [] }, aligner := r.aligner.bare }

/-- The turn of a bare reader. -/
def Turn.bare (t : Turn α) : Turn α := { t with reader := t.reader.bare }

namespace Reader

section Bare

variable {r s : Reader α} {item : Item}

theorem bare_handle (r : Reader α) (channel : Nat) (e : Event) :
    r.bare.handle channel e = (r.handle channel e).bare := by
  obtain ⟨feed, decoders, aligner, handler, current, isFinished⟩ := r
  cases handler with
  | observer => rfl
  | tracker t =>
    simp only [handle, bare]
    cases (t.handle channel e).answer with
    | error => rfl
    | ok outcome => cases outcome <;> rfl

theorem bare_dispatchEvent (r : Reader α) (channel : Nat) (e : Event) :
    r.bare.dispatchEvent channel e = (r.dispatchEvent channel e).bare := by
  cases e with
  | barrier b =>
    have h : r.bare.aligner.offer channel (.barrier b) = _ := r.aligner.bare_offer _ _
    simp only [dispatchEvent, h, Reaction.bare]
    cases (r.aligner.offer channel (.barrier b)).answer <;> rfl
  | endOfPartition =>
    have h : r.bare.aligner.closeChannel channel = _ := r.aligner.bare_closeChannel _
    have hh := bare_handle
      { r with aligner := (r.aligner.closeChannel channel).aligner } channel .endOfPartition
    simp only [dispatchEvent, h, Reaction.bare]
    cases (r.aligner.closeChannel channel).answer with
    | error => rfl
    | ok =>
      simp only [bare] at hh ⊢
      rw [hh]
      rfl
  | endOfSuperstep => exact bare_handle _ _ _
  | custom => exact bare_handle _ _ _

theorem bare_dispatch (free : r.aligner.isBlocked item.channel = false) :
    r.bare.dispatch item = (r.dispatch item).bare := by
  have hfree : r.bare.aligner.isBlocked item.channel = false := by
    rw [← free]
    exact r.aligner.isBlocked_bare _
  unfold dispatch
  by_cases hr : item.channel < r.decoders.length
  · rw [if_pos hr, if_pos (by exact hr), if_neg (by simp [hfree]),
      if_neg (by simp [free])]
    cases item.content with
    | buffer => rfl
    | event e => exact bare_dispatchEvent _ _ _
  · rw [if_neg hr, if_neg (by exact hr)]
    rfl

theorem bare_decodeCurrent [Record α] (r : Reader α) :
    r.bare.decodeCurrent = r.decodeCurrent.bare := by
  obtain ⟨feed, decoders, aligner, handler, current, isFinished⟩ := r
  cases current with
  | none => rfl
  | some c =>
    simp only [decodeCurrent, bare]
    cases decoders[c]? with
    | none => rfl
    | some d =>
      simp only
      cases d.next.1 with
      | error => rfl
      | ok f => cases f <;> rfl

theorem bare_startNextSuperstep (r : Reader α) :
    r.bare.startNextSuperstep = r.startNextSuperstep.bare := by
  obtain ⟨feed, decoders, aligner, handler, current, isFinished⟩ := r
  cases handler <;> rfl

theorem Takes.bare (h : r.Takes item s) : s.bare = r.bare := by
  cases h <;> rfl

theorem Takes.queue (h : r.Takes item s) :
    s.aligner.queue = r.aligner.queue ∧ s.aligner.heldBytes = r.aligner.heldBytes ∧
      s.aligner.current = r.aligner.current ∧ s.aligner.settings = r.aligner.settings := by
  cases h <;> exact ⟨rfl, rfl, rfl, rfl⟩

theorem advance_of_takes (h : r.Takes item s) : r.advance = s.dispatch item := by
  unfold advance
  cases h with
  | replayed replay => simp only [replay]
  | arrived empty feed => simp only [empty, Feed.next, feed]

theorem advance_of_dry (plain : r.feed.Plain) (empty : r.aligner.replay = [])
    (dry : r.feed.arrivals = []) : r.advance = r.settle := by
  unfold advance
  simp only [empty, Feed.next, dry, plain.unfailing]

theorem decodeCurrent_again [Record α] (quiet : r.decodeCurrent.answer = none) :
    r.decodeCurrent.reader.decodeCurrent = ⟨none, [], r.decodeCurrent.reader⟩ := by
  have hd := r.decodes
  generalize ht : r.decodeCurrent = t at hd quiet
  cases hd with
  | idle => exact ht
  | through => rfl
  | outcome => cases quiet

end Bare

end Reader

namespace Scheduler

open Reader

variable {n : Nat} {s : Scheduler α} {r q : Reader α}

/-- The list and the counter of the scheduler are those of the reader: the list is what is pending,
and what was passed over is what is held back, of which the last items need not be counted yet. -/
structure Tracks (n : Nat) (s : Scheduler α) (r : Reader α) : Prop where
  wellFormed : r.WellFormed n
  pending : s.pending = r.pending
  passed : s.passed ≤ r.aligner.queue.length
  counter : r.aligner.heldBytes = s.counter + sizes (r.aligner.queue.drop s.passed)
  within : ∀ l, r.aligner.settings.byteLimit = some l → r.aligner.heldBytes ≤ l

/-- The scheduler is where the reader is. -/
structure Mirrors (n : Nat) (s : Scheduler α) (r : Reader α) : Prop extends Tracks n s r where
  reader : s.reader = r.bare

/-- The scheduler is where the reader is, or has yet to ask a decoder that has no record. -/
structure Lags [Record α] (n : Nat) (s : Scheduler α) (r : Reader α) : Prop
    extends Tracks n s r where
  decode : s.reader.decodeCurrent = r.bare.decodeCurrent

/-- The scheduler and the reader do the same. -/
structure Matches (n : Nat) (c : Scheduled α) (t : Turn α) : Prop where
  answer : c.answer = t.answer
  activity : c.activity = t.activity
  mirrors : Mirrors n c.scheduler t.reader

/-- The reader holds an item back, and the scheduler does nothing. -/
structure Stutters (n : Nat) (s : Scheduler α) (r : Reader α) (t : Turn α) : Prop where
  answer : t.answer = none
  activity : t.activity = []
  bare : t.reader.bare = r.bare
  tracks : Tracks n s t.reader

section Advance

theorem Tracks.congr {s' : Scheduler α} (h : Tracks n s r) (wf : q.WellFormed n)
    (pending : s'.pending = s.pending) (passed : s'.passed = s.passed)
    (counter : s'.counter = s.counter) (aligner : q.aligner = r.aligner) (feed : q.feed = r.feed) :
    Tracks n s' q := by
  refine ⟨wf, ?_, ?_, ?_, ?_⟩
  · rw [pending, h.pending, Reader.pending, Reader.pending, aligner, feed]
  · rw [passed, aligner]
    exact h.passed
  · rw [passed, counter, aligner]
    exact h.counter
  · rw [aligner]
    exact h.within

theorem tracks_of_idle (wf : r.WellFormed n) (idle : r.aligner.inFlight = none)
    (pending : s.pending = r.pending) (passed : s.passed = 0) (counter : s.counter = 0) :
    Tracks n s r := by
  have hbytes : r.aligner.heldBytes = 0 := by
    rw [Aligner.heldBytes, idle]
    rfl
  refine ⟨wf, pending, ?_, ?_, ?_⟩
  · rw [passed]
    exact Nat.zero_le _
  · rw [hbytes, counter, Aligner.queue_of_idle idle, List.drop_nil]
    rfl
  · intro l _
    rw [hbytes]
    exact Nat.zero_le l

theorem Mirrors.settings (h : Mirrors n s r) :
    s.reader.aligner.settings = r.aligner.settings := by
  rw [h.reader]
  rfl

theorem Mirrors.front (h : Mirrors n s r) {rest : List Item}
    (hr : r.pending = r.aligner.queue ++ rest) :
    s.front = r.aligner.queue ++ rest.takeWhile (r.aligner.isBlocked ·.channel) ∧
      s.behind = rest.dropWhile (r.aligner.isBlocked ·.channel) := by
  have he : (fun i : Item => s.reader.aligner.isBlocked i.channel) =
      (r.aligner.isBlocked ·.channel) := by
    rw [h.reader]
    exact funext fun i => r.aligner.isBlocked_bare i.channel
  have hb : ∀ i ∈ r.aligner.queue, r.aligner.isBlocked i.channel = true := fun i hi =>
    h.wellFormed.sound.isBlocked_queue hi
  rw [Scheduler.front, behind, h.pending, hr, he]
  exact ⟨List.takeWhile_append_of_pos hb, List.dropWhile_append_of_pos hb⟩

theorem Mirrors.total (h : Mirrors n s r) {more : List Item}
    (hf : s.front = r.aligner.queue ++ more) :
    s.total = r.aligner.heldBytes + sizes more := by
  rw [Scheduler.total, hf, List.drop_append_of_le_length h.passed, sizes_append, h.counter]
  omega

theorem Mirrors.total_queue (h : Mirrors n s r) (hf : s.front = r.aligner.queue) :
    s.total = r.aligner.heldBytes := by
  have hnil : s.front = r.aligner.queue ++ [] := by rw [hf, List.append_nil]
  rw [h.total hnil]
  rfl

/-- Passing over what the reader holds back does not exceed the limit. -/
theorem Mirrors.overflow (h : Mirrors n s r) (hf : s.front = r.aligner.queue) :
    s.overflow? = none := by
  unfold overflow?
  rw [if_neg]
  rw [h.total_queue hf, h.settings]
  intro hl
  obtain ⟨l, hlimit, hlt⟩ := (Option.any_eq_true _ _).mp hl
  have hle := h.within l hlimit
  simp only [decide_eq_true_eq] at hlt
  omega

section Free

variable {item : Item}

theorem Mirrors.front_free (h : Mirrors n s r) (take : r.Takes item q)
    (free : q.aligner.isBlocked item.channel = false) :
    ∃ rest, s.front = r.aligner.queue ∧ s.behind = item :: rest ∧
      q.pending = r.aligner.queue ++ rest := by
  obtain ⟨rest, hr, hq, -⟩ := take.pending
  rw [take.queue.1] at hr hq
  rw [take.isBlocked] at free
  obtain ⟨hfront, hbehind⟩ := h.front hr
  rw [List.takeWhile_cons_of_neg (by simp [free]), List.append_nil] at hfront
  rw [List.dropWhile_cons_of_neg (by simp [free])] at hbehind
  exact ⟨rest, hfront, hbehind, hq⟩

theorem Mirrors.dispatch (h : Mirrors n s r) (take : r.Takes item q)
    (free : q.aligner.isBlocked item.channel = false) :
    s.reader.dispatch item = r.advance.bare := by
  rw [h.reader, ← take.bare, bare_dispatch free, advance_of_takes take]

/-- What was passed over stays so as long as it stays held back. -/
theorem Mirrors.process {rest : List Item} (h : Mirrors n s r) (wf : q.WellFormed n)
    (dispatch : (s.reader.dispatch item).reader = q.bare) (front : s.front = r.aligner.queue)
    (pending : q.pending = r.aligner.queue ++ rest) (retains : r.aligner.Retains q.aligner)
    (settings : q.aligner.settings = r.aligner.settings) :
    Mirrors n (s.process item rest).scheduler q := by
  have hstays : ((s.reader.dispatch item).reader.aligner.current = s.reader.aligner.current) =
      (q.aligner.current = r.aligner.current) := by
    rw [dispatch, h.reader]
    simp only [Reader.bare, Aligner.current_bare]
  refine ⟨⟨wf, ?_, ?_, ?_, ?_⟩, dispatch⟩
  · show s.front ++ rest = _
    rw [front, pending]
  · simp only [Scheduler.process, hstays]
    rcases retains with ⟨hc, hqueue, -⟩ | ⟨hc, -, -⟩
    · refine Nat.le_of_eq ?_
      rw [if_pos hc, hqueue, front]
    · rw [if_neg hc]
      exact Nat.zero_le _
  · simp only [Scheduler.process, hstays]
    rcases retains with ⟨hc, hqueue, hbytes⟩ | ⟨hc, hqueue, hbytes⟩
    · rw [if_pos hc, if_pos hc, hqueue, hbytes, front, List.drop_length, h.total_queue front]
      rfl
    · rw [if_neg hc, if_neg hc, hqueue, hbytes]
      rfl
  · intro l hl
    have hle := h.within l (settings ▸ hl)
    rcases retains with ⟨-, -, hbytes⟩ | ⟨-, -, hbytes⟩ <;> omega

theorem Mirrors.advance_free (h : Mirrors n s r) (take : r.Takes item q)
    (free : q.aligner.isBlocked item.channel = false) (wf : r.advance.reader.WellFormed n)
    (pending : r.advance.reader.pending = q.pending)
    (retains : q.aligner.Retains r.advance.reader.aligner)
    (settings : r.advance.reader.aligner.settings = q.aligner.settings) :
    Matches n s.advance r.advance := by
  obtain ⟨hqueue, hbytes, hcurrent, hsettings⟩ := take.queue
  obtain ⟨rest, hfront, hbehind, hq⟩ := h.front_free take free
  have hd := h.dispatch take free
  have hretains : r.aligner.Retains r.advance.reader.aligner := by
    rwa [Aligner.Retains, hqueue, hbytes, hcurrent] at retains
  have hadvance : s.advance = s.process item rest := by
    rw [advance, h.overflow hfront, hbehind]
  rw [hadvance]
  refine ⟨?_, ?_, ?_⟩
  · show (s.reader.dispatch item).answer = r.advance.bare.answer
    rw [hd]
  · show (s.reader.dispatch item).activity = r.advance.bare.activity
    rw [hd]
  · exact h.process wf (congrArg Turn.reader hd) hfront (pending.trans hq) hretains
      (settings.trans hsettings)

end Free

section Held

variable {item : Item} {f : Alignment}

theorem Mirrors.stutters (h : Mirrors n s r) (take : r.Takes item q)
    (flight : q.aligner.inFlight = some f)
    (room : q.aligner.settings.byteLimit.any (· < (f.hold item).bytes) = false) {t : Turn α}
    (turn : t = ⟨none, [],
      { q with aligner := { q.aligner with inFlight := some (f.hold item) } }⟩)
    (wf : t.reader.WellFormed n) (pending : t.reader.pending = r.pending) :
    Stutters n s r t := by
  obtain ⟨hqueue, hbytes, -, -⟩ := take.queue
  rw [Aligner.queue_of_inFlight flight] at hqueue
  rw [Aligner.heldBytes, flight] at hbytes
  subst turn
  refine ⟨rfl, rfl, ?_, wf, h.pending.trans pending.symm, ?_, ?_, ?_⟩
  · rw [← take.bare]
    simp [Reader.bare, Aligner.bare, flight, Alignment.hold, Alignment.bare]
  · show s.passed ≤ (f.queue ++ [item]).length
    rw [List.length_append, hqueue]
    exact Nat.le_add_right_of_le h.passed
  · show f.bytes + item.size = s.counter + sizes ((f.queue ++ [item]).drop s.passed)
    rw [hqueue, List.drop_append_of_le_length h.passed, sizes_append, sizes_singleton,
      ← Nat.add_assoc, ← h.counter]
    exact congrArg (· + item.size) hbytes
  · intro l hl
    have hroom : ¬l < (f.hold item).bytes := by
      simpa [show q.aligner.settings.byteLimit = some l from hl] using room
    exact Nat.not_lt.mp hroom

/-- The item with which the limit is exceeded is passed over as well, so the scheduler gives the
alignment up. -/
theorem Mirrors.overflow_held (h : Mirrors n s r) (take : r.Takes item q)
    (blocked : q.aligner.isBlocked item.channel = true) (flight : q.aligner.inFlight = some f)
    (full : q.aligner.settings.byteLimit.any (· < (f.hold item).bytes) = true) :
    s.overflow? = some f.bare := by
  obtain ⟨hqueue, hbytes, -, hsettings⟩ := take.queue
  obtain ⟨rest, hr, -, -⟩ := take.pending
  rw [hqueue] at hr
  rw [take.isBlocked] at blocked
  rw [Aligner.heldBytes, flight] at hbytes
  obtain ⟨hfront, -⟩ := h.front hr
  rw [List.takeWhile_cons_of_pos (by simp [blocked])] at hfront
  have hle : (f.hold item).bytes ≤ s.total := by
    rw [h.total hfront, sizes_cons, ← hbytes, ← Nat.add_assoc]
    exact Nat.le_add_right _ _
  have hflight : s.reader.aligner.inFlight = some f.bare := by
    rw [h.reader, ← take.bare]
    exact Aligner.bare_inFlight flight
  obtain ⟨l, hl, hlt⟩ := (Option.any_eq_true _ _).mp full
  simp only [decide_eq_true_eq] at hlt
  rw [overflow?, h.settings, ← hsettings, hl, if_pos, hflight]
  simp only [Option.any_some, decide_eq_true_eq]
  omega

theorem Mirrors.advance_held {kept : List Notice × Aligner} (h : Mirrors n s r)
    (take : r.Takes item q) (blocked : q.aligner.isBlocked item.channel = true)
    (stores : q.aligner.Stores item kept) {t : Turn α}
    (turn : t = ⟨none, kept.1.map .notice, { q with aligner := kept.2 }⟩)
    (wf : t.reader.WellFormed n) :
    Stutters n s r t ∨ Matches n s.advance t := by
  have hpending : t.reader.pending = r.pending := by
    rw [turn]
    exact pending_held take blocked stores
  cases stores with
  | idle idle =>
    rw [Aligner.isBlocked_of_idle idle] at blocked
    cases blocked
  | held flight room => exact .inl (h.stutters take flight room turn wf hpending)
  | @overflowed f flight full =>
    have hadvance : s.advance = s.giveUp f.bare := by
      rw [advance, h.overflow_held take blocked flight full]
    rw [hadvance]
    subst turn
    refine .inr ⟨rfl, rfl, tracks_of_idle wf rfl (h.pending.trans hpending.symm) rfl rfl, ?_⟩
    show ({ s.reader with aligner := (s.reader.aligner.abort f.bare .byteLimit).2 } : Reader α) = _
    rw [h.reader, ← take.bare]
    rfl

end Held

/-- When the gate is exhausted, all that is pending is held back. -/
theorem Mirrors.advance_settled (h : Mirrors n s r) (dry : r.feed.arrivals = [])
    (empty : r.aligner.replay = []) (wf : r.settle.reader.WellFormed n) :
    Matches n s.advance r.settle := by
  have hpending : r.pending = r.aligner.items := by
    rw [Reader.pending, dry]
    exact List.append_nil _
  have hnil : r.pending = r.aligner.queue ++ [] := by rw [hpending, Aligner.items, empty]
  obtain ⟨hfront, hbehind⟩ := h.front hnil
  rw [List.takeWhile_nil, List.append_nil] at hfront
  have hadvance : s.advance = s.settle := by
    rw [advance, h.overflow hfront, hbehind]
    rfl
  obtain ⟨hidle, hreplay⟩ := Aligner.settle_spec h.wellFormed.sound
  have hclose : s.reader.aligner.settle = (r.aligner.settle.1, r.aligner.settle.2.bare) := by
    rw [h.reader]
    exact r.aligner.bare_settle
  have he : r.aligner.settle.2.replay.isEmpty = s.pending.isEmpty := by
    rw [hreplay, h.pending, hpending]
  have hleft : r.settle.reader.pending = s.pending := by
    rw [(settles empty).pending, h.pending]
  have hsettle : r.settle = if s.pending.isEmpty then
        ⟨some (.ok .finished), r.aligner.settle.1.map .notice,
          { r with aligner := r.aligner.settle.2, isFinished := true }⟩
      else ⟨none, r.aligner.settle.1.map .notice, { r with aligner := r.aligner.settle.2 }⟩ := by
    rw [← he]
    rfl
  rw [hadvance, Scheduler.settle]
  rw [hsettle] at wf hleft ⊢
  simp only [hclose]
  cases hp : s.pending.isEmpty with
  | true =>
    simp only [hp, if_true] at wf hleft ⊢
    refine ⟨rfl, rfl, tracks_of_idle wf hidle hleft.symm rfl rfl, ?_⟩
    show { s.reader with aligner := r.aligner.settle.2.bare, isFinished := true } = _
    rw [h.reader]
    rfl
  | false =>
    simp only [hp, Bool.false_eq_true, if_false] at wf hleft ⊢
    refine ⟨rfl, rfl, tracks_of_idle wf hidle hleft.symm rfl rfl, ?_⟩
    show { s.reader with aligner := r.aligner.settle.2.bare } = _
    rw [h.reader]
    rfl

/-- When both take the next item, they do the same, or the reader holds it back. -/
theorem Mirrors.advance (h : Mirrors n s r) (quiet : r.Quiet) :
    Stutters n s r r.advance ∨ Matches n s.advance r.advance := by
  have hs := h.wellFormed.steps
  have hw := h.wellFormed.step quiet hs
  generalize ht : r.advance = t at hs hw
  -- the four kinds of items differ only in why what is pending stays as it is
  have hfree : ∀ {item : Item} {q : Reader α}, r.Takes item q →
      q.aligner.isBlocked item.channel = false → t.reader.pending = q.pending →
      q.aligner.Retains t.reader.aligner → t.reader.aligner.settings = q.aligner.settings →
      Matches n s.advance t := by
    intro item q take free pending retains settings
    rw [← ht] at hw pending retains settings ⊢
    exact h.advance_free take free hw pending retains settings
  cases hs with
  | held take blocked stores => exact h.advance_held take blocked stores rfl hw
  | fed take free => exact .inr (hfree take free rfl (Aligner.retains_of_same rfl) rfl)
  | offered take free offers =>
    refine .inr (hfree take free ?_ offers.retains offers.settings)
    rw [Reader.pending, offers.items]
    rfl
  | ended take free closes tracker handles =>
    refine .inr (hfree take free ?_ ?_ ?_)
    · rw [Reader.pending, handles.aligner, handles.feed, closes.items]
      rfl
    · rw [handles.aligner]
      exact closes.retains
    · rw [handles.aligner]
      exact closes.settings
  | handled take free barrier ended tracker handles =>
    refine .inr (hfree take free ?_ ?_ ?_)
    · rw [Reader.pending, handles.aligner, handles.feed]
      rfl
    · rw [handles.aligner]
      exact Aligner.retains_of_same rfl
    · rw [handles.aligner]
  | settled dry empty settle =>
    have hsettle := advance_of_dry h.wellFormed.plain empty dry
    rw [← ht, hsettle] at hw ⊢
    exact .inr (h.advance_settled dry empty hw)

end Advance

section Runs

variable [Record α]

theorem Mirrors.lags (h : Mirrors n s r) : Lags n s r := ⟨h.toTracks, by rw [h.reader]⟩

theorem Lags.isFinished (h : Lags n s r) : s.reader.isFinished = r.isFinished := by
  have hd : ∀ q : Reader α, q.decodeCurrent.reader.isFinished = q.isFinished := by
    intro q
    have hq := q.decodes
    generalize q.decodeCurrent = d at hq
    cases hq <;> rfl
  rw [← hd s.reader, h.decode, hd r.bare]
  rfl

theorem Lags.aligner (h : Lags n s r) : s.reader.aligner = r.aligner.bare := by
  rw [← s.reader.decodeCurrent_reader.2, h.decode, r.bare.decodeCurrent_reader.2]
  rfl

/-- A turn of the reader is a turn of the scheduler, or nothing to it. -/
theorem Lags.turn (h : Lags n s r) :
    (r.turn.answer = none ∧ r.turn.activity = [] ∧ Lags n s r.turn.reader) ∨
      Matches n s.turn r.turn := by
  have hd := r.decodes
  have hdecode : s.reader.decodeCurrent = r.decodeCurrent.bare :=
    h.decode.trans r.bare_decodeCurrent
  obtain ⟨hfeed, haligner⟩ := r.decodeCurrent_reader
  have hm : Mirrors n s.decode r.decodeCurrent.reader := by
    refine ⟨h.toTracks.congr (h.wellFormed.decodes hd) rfl rfl rfl haligner hfeed, ?_⟩
    show s.reader.decodeCurrent.reader = _
    rw [hdecode]
    rfl
  have hanswer : s.reader.decodeCurrent.answer = r.decodeCurrent.answer := by rw [hdecode]; rfl
  cases ha : r.decodeCurrent.answer with
  | some answer =>
    rw [ha] at hanswer
    rw [turn_of_answer (by simp [ha])]
    refine .inr ⟨?_, ?_, ?_⟩
    · rw [Scheduler.turn, hanswer, ha]
    · rw [Scheduler.turn, hanswer, hdecode]
      rfl
    · rw [Scheduler.turn, hanswer]
      exact hm
  | none =>
    rw [ha] at hanswer
    have hturn : s.turn = s.decode.advance := by rw [Scheduler.turn, hanswer]
    rw [turn_of_quiet ha, hturn]
    refine (hm.advance (h.wellFormed.quiet hd ha)).imp_left fun hs => ?_
    refine ⟨hs.answer, hs.activity, ?_, ?_⟩
    · exact hs.tracks.congr hs.tracks.wellFormed rfl rfl rfl rfl rfl
    · have hquiet : r.decodeCurrent = ⟨none, [], r.decodeCurrent.reader⟩ := by
        rw [← ha, ← hd.activity ha]
      rw [hs.bare, bare_decodeCurrent, decodeCurrent_again ha, hdecode, ← hquiet]

theorem Lags.read (h : Lags n s r) :
    s.read.1 = ⟨r.read.answer, r.read.activity⟩ ∧ Mirrors n s.read.2 r.read.reader := by
  -- the turns of the reader, of which the scheduler may need fewer
  induction r using Reader.read.induct generalizing s with
  | case1 r answer ha =>
    rcases h.turn with ⟨hnone, -⟩ | hm
    · rw [ha] at hnone
      cases hnone
    · rw [Reader.read_of_some ha, read_of_some (hm.answer.trans ha), hm.activity]
      exact ⟨rfl, hm.mirrors⟩
  | case2 r ha _ ih =>
    rw [Reader.read_of_none ha]
    rcases h.turn with ⟨-, hactivity, hl⟩ | hm
    · rw [hactivity]
      exact ih hl
    · obtain ⟨hreply, hmirrors⟩ := ih hm.mirrors.lags
      rw [read_of_none (hm.answer.trans ha), hreply, hm.activity]
      exact ⟨rfl, hmirrors⟩

/-- Wherever the reader can be in the middle of a call, the scheduler can be too. -/
theorem Lags.turns {t : List (Activity α)} (h : Lags n s r) (ht : r.Turns t q) :
    ∃ s', s.Turns t s' ∧ Lags n s' q := by
  induction ht generalizing s with
  | here r => exact ⟨s, .here s, h⟩
  | @more r q t unfinished quiet later ih =>
    rcases h.turn with ⟨-, hactivity, hl⟩ | hm
    · rw [hactivity]
      exact ih hl
    · obtain ⟨s', hs', hl⟩ := ih hm.mirrors.lags
      rw [← hm.activity]
      exact ⟨s', .more (h.isFinished.trans unfinished) (hm.answer.trans quiet) hs', hl⟩

omit [Record α] in
theorem Mirrors.startNextSuperstep (h : Mirrors n s r) :
    Mirrors n s.startNextSuperstep r.startNextSuperstep := by
  have hfeed : r.startNextSuperstep.feed = r.feed := by
    unfold Reader.startNextSuperstep
    split <;> rfl
  refine ⟨h.toTracks.congr h.wellFormed.startNextSuperstep rfl rfl rfl
    r.aligner_startNextSuperstep hfeed, ?_⟩
  show s.reader.startNextSuperstep = _
  rw [h.reader, bare_startNextSuperstep]

theorem Mirrors.serve (h : Mirrors n s r) (calls : List Call) :
    (s.serve calls).1 = (r.serve calls).1 ∧ Mirrors n (s.serve calls).2 (r.serve calls).2 := by
  induction calls generalizing s r with
  | nil => exact ⟨rfl, h⟩
  | cons call calls ih => cases call with
    | startNextSuperstep => exact ih h.startNextSuperstep
    | next =>
      have hnext : s.next.1 = ⟨r.next.answer, r.next.activity⟩ ∧
          Mirrors n s.next.2 r.next.reader := by
        have hs := h.lags.isFinished
        cases hf : r.isFinished with
        | true =>
          rw [next_of_finished hf, Scheduler.next, if_pos (hs.trans hf)]
          exact ⟨rfl, h⟩
        | false =>
          rw [next_of_unfinished hf, Scheduler.next, if_neg (by simp [hs, hf])]
          exact h.lags.read
      obtain ⟨hreplies, hm⟩ := ih hnext.2
      refine ⟨?_, hm⟩
      show s.next.1 :: (s.next.2.serve calls).1 = _
      rw [hreplies, hnext.1]
      rfl

end Runs

section New

variable {script : List Item} {settings : ReaderSettings} {listener : Listener}

theorem exists_new (h : Reader.new (.ofScript n script) settings listener = .ok r)
    (range : ∀ i ∈ script, i.channel < n) :
    ∃ s, new n script settings listener = .ok s ∧ Mirrors n s r := by
  have wf := wellFormed_new h range
  obtain ⟨hn, rfl⟩ := new_spec h
  have hbare := new_eq (α := α) hn [] settings listener
  unfold new
  split
  · next e he =>
    rw [hbare] at he
    cases he
  · next reader hr =>
    obtain rfl := Except.ok.inj (hbare.symm.trans hr)
    refine ⟨_, rfl, tracks_of_idle wf rfl ?_ rfl rfl, rfl⟩
    rw [Reader.pending, pending_ofScript]
    rfl

end New

end Scheduler

variable {n : Nat} {script : List Item} {settings : ReaderSettings} {listener : Listener}

/-- A reader gives the same replies as the scheduler of its items, with the same activity. -/
theorem Reader.serve_eq_scheduler [Record α] {r : Reader α}
    (h : new (.ofScript n script) settings listener = .ok r)
    (range : ∀ i ∈ script, i.channel < n) :
    ∃ s : Scheduler α, Scheduler.new n script settings listener = .ok s ∧
      ∀ calls, (r.serve calls).1 = (s.serve calls).1 ∧
        ∀ t q, (r.serve calls).2.Turns t q →
          ∃ s', (s.serve calls).2.Turns t s' ∧ s'.reader.aligner.items = [] ∧
            s'.pending =
              q.aligner.queue ++ q.aligner.replay ++ q.feed.arrivals.filterMap (·.item?) := by
  obtain ⟨s, hs, hm⟩ := Scheduler.exists_new h range
  refine ⟨s, hs, fun calls => ⟨(hm.serve calls).1.symm, fun t q ht => ?_⟩⟩
  obtain ⟨s', hs', hl⟩ := (hm.serve calls).2.lags.turns ht
  refine ⟨s', hs', ?_, hl.pending⟩
  rw [hl.aligner]
  exact Aligner.items_bare _

theorem Reader.serve_eq_scheduler_crossing :
    ∃ s : Scheduler Bytes, Scheduler.new 2 crossing = .ok s ∧
      ∀ calls, (crossingReader.serve calls).1 = (s.serve calls).1 := by
  obtain ⟨s, hs, h⟩ := serve_eq_scheduler new_crossing (by decide)
  exact ⟨s, hs, fun calls => (h calls).1⟩

end StreamCheckpoint
