import StreamCheckpoint.Proofs.Reading.Streams
import StreamCheckpoint.Reading.Run

/-! The transitions of a reader.  A turn is at most two: the decoder of the current channel is asked
for a record (`Decodes`), and, if there is none, the reader takes the next item and deals with it
(`Advances`).  The constructors say everything that can happen, with the conditions under which it
does. -/

namespace StreamCheckpoint

variable {α : Type}

/-- What the record or the error of a decoder is as an answer of the reader. -/
def Reading.ofOutcome : Except DecodeError α → Except ReadError (Reading α)
  | .ok v => .ok (.record v)
  | .error e => .error (.decode e)

/-- The record or decode error that an answer is. -/
def Reading.outcome? : Except ReadError (Reading α) → Option (Except DecodeError α)
  | .ok (.record v) => some (.ok v)
  | .error (.decode e) => some (.error e)
  | _ => none

@[simp] theorem Reading.outcome?_ofOutcome (o : Except DecodeError α) :
    Reading.outcome? (Reading.ofOutcome o) = some o := by
  cases o <;> rfl

/-- Which channels have ended once `channel` has delivered `e`. -/
def endedAfter (ended : List Bool) (channel : Nat) (e : Event) : List Bool :=
  match e with
  | .endOfPartition => ended.set channel true
  | _ => ended

theorem SuperstepTracker.handle_spec {t : SuperstepTracker} {channel : Nat}
    (range : channel < t.channels) (e : Event) :
    ∃ outcome, (t.handle channel e).answer = .ok outcome ∧
      (t.handle channel e).tracker.partitionEnded = endedAfter t.partitionEnded channel e ∧
      (outcome = .finished → (t.handle channel e).tracker.isFinished = true) := by
  unfold handle
  rw [if_pos range]
  cases e with
  | endOfPartition =>
    refine ⟨_, rfl, rfl, fun h => ?_⟩
    split at h
    · assumption
    · split at h <;> cases h
  | endOfSuperstep =>
    refine ⟨_, rfl, rfl, fun h => ?_⟩
    split at h <;> cases h
  | custom kind payload => exact ⟨_, rfl, rfl, fun h => nomatch h⟩
  | barrier b => exact ⟨_, rfl, rfl, fun h => nomatch h⟩

namespace Decoder

variable [Record α] {d : Decoder α}

theorem buffer_nextBody {length : Nat} {seen bytes : Bytes} {f : Fetch α}
    (h : (d.nextBody length seen bytes).1 = .ok f) (hu : f.isBufferUsed = true) :
    (d.nextBody length seen bytes).2.buffer = none := by
  unfold nextBody at h ⊢
  simp only at h ⊢
  by_cases hm : bytes.length < length - seen.length
  · rw [if_pos hm]
  rw [if_neg hm] at h ⊢
  by_cases hr : (bytes.drop (length - seen.length)).isEmpty
  · split <;> simp [hr]
  · split at h
    · simp only [if_neg hr, Except.ok.injEq] at h
      subst h
      cases hu
    · cases h

/-- A decoder that says so has used its buffer up. -/
theorem buffer_next {f : Fetch α} (h : d.next.1 = .ok f) (hu : f.isBufferUsed = true) :
    d.next.2.buffer = none := by
  unfold next at h ⊢
  cases hb : d.buffer with
  | none =>
    simp only [hb, Except.ok.injEq] at h
    subst h
    cases hu
  | some bytes =>
    cases hf : d.frame with
    | body length seen =>
      simp only [hb, hf] at h ⊢
      exact buffer_nextBody h hu
    | length seen =>
      simp only [hb, hf] at h ⊢
      by_cases hm : bytes.length < lengthBytes - seen.length
      · rw [if_pos hm]
      rw [if_neg hm] at h ⊢
      split at h
      · cases h
      · next hl =>
        rw [if_neg hl]
        exact buffer_nextBody h hu

theorem nextBody_ne_noBuffer (length : Nat) (seen bytes : Bytes) :
    (d.nextBody length seen bytes).1 ≠ .ok .noBuffer := by
  unfold nextBody
  simp only
  split
  · simp
  · split
    · simp only [ne_eq, Except.ok.injEq]
      split <;> simp
    · simp

theorem next_eq_noBuffer : d.next.1 = .ok .noBuffer ↔ d.buffer = none := by
  constructor
  · intro h
    cases hb : d.buffer with
    | none => rfl
    | some bytes =>
      unfold next at h
      cases hf : d.frame with
      | body length seen =>
        simp only [hb, hf] at h
        exact absurd h (nextBody_ne_noBuffer _ _ _)
      | length seen =>
        simp only [hb, hf] at h
        split at h
        · simp at h
        · split at h
          · cases h
          · exact absurd h (nextBody_ne_noBuffer _ _ _)
  · intro h
    rw [next, h]

theorem next_of_none (h : d.buffer = none) : d.next = (.ok .noBuffer, d) := by
  rw [next, h]

end Decoder

namespace Reader

/-- No decoder has a buffer. -/
def Quiet (r : Reader α) : Prop := ∀ d ∈ r.decoders, d.buffer = none

/-- What asking the decoder of the current channel does.  It has no buffer, or it uses up its buffer
in the middle of a frame, or it comes to a record or an error. -/
inductive Decodes [Record α] (r : Reader α) : Turn α → Prop
  | idle (empty : ∀ c d, r.current = some c → r.decoders[c]? = some d → d.buffer = none) :
      Decodes r ⟨none, [], r⟩
  | through {c : Nat} {d : Decoder α} (current : r.current = some c)
      (decoder : r.decoders[c]? = some d) (buffer : d.buffer ≠ none)
      (answer : d.next.1 = .ok .bufferEnd) :
      Decodes r ⟨none, [], { r with decoders := r.decoders.set c d.next.2, current := none }⟩
  | outcome {c : Nat} {d : Decoder α} {o : Except DecodeError α} {current' : Option Nat}
      (current : r.current = some c) (decoder : r.decoders[c]? = some d) (buffer : d.buffer ≠ none)
      (answer : Decoder.outcome? d.next.1 = some o)
      (keeps : current' = some c ∨ d.next.2.buffer = none) :
      Decodes r ⟨some (Reading.ofOutcome o), [Activity.ofOutcome c o],
        { r with decoders := r.decoders.set c d.next.2, current := current' }⟩

theorem set_of_getElem? {β : Type} {xs : List β} {i : Nat} {x : β} (h : xs[i]? = some x) :
    xs.set i x = xs := by
  obtain ⟨hi, rfl⟩ := List.getElem?_eq_some_iff.mp h
  exact List.set_getElem_self hi

/-- The cases in which the decoder of the current channel has a buffer. -/
theorem decodes_of_buffer [Record α] {r : Reader α} {c : Nat} {d : Decoder α}
    (current : r.current = some c) (decoder : r.decoders[c]? = some d) (buffer : d.buffer ≠ none) :
    r.Decodes r.decodeCurrent := by
  have hused := fun f h => d.buffer_next (f := f) h
  have hnone := d.next_eq_noBuffer
  have hthrough := Decodes.through current decoder buffer
  have houtcome : ∀ (o : Except DecodeError α) (current' : Option Nat),
      Decoder.outcome? d.next.1 = some o → (current' = some c ∨ d.next.2.buffer = none) → _ :=
    fun _ _ => Decodes.outcome current decoder buffer
  unfold decodeCurrent
  simp only [current, decoder]
  generalize d.next = r' at hused hnone hthrough houtcome
  obtain ⟨answer, d'⟩ := r'
  cases answer with
  | error e => exact current ▸ houtcome (.error e) r.current rfl (.inl current)
  | ok f => cases f with
    | record v => exact current ▸ houtcome (.ok v) r.current rfl (.inl current)
    | lastRecord v => exact houtcome (.ok v) none rfl (.inr (hused _ rfl rfl))
    | bufferEnd => exact hthrough rfl
    | noBuffer => exact absurd (hnone.mp rfl) buffer

theorem decodes [Record α] (r : Reader α) : r.Decodes r.decodeCurrent := by
  by_cases h : ∃ c d, r.current = some c ∧ r.decoders[c]? = some d ∧ d.buffer ≠ none
  · obtain ⟨c, d, current, decoder, buffer⟩ := h
    exact decodes_of_buffer current decoder buffer
  have empty : ∀ c d, r.current = some c → r.decoders[c]? = some d → d.buffer = none := by
    intro c d hc hd
    exact Classical.not_not.mp fun hb => h ⟨c, d, hc, hd, hb⟩
  have e : r.decodeCurrent = ⟨none, [], r⟩ := by
    unfold decodeCurrent
    split
    · rfl
    · next c hc =>
      split
      · rfl
      · next d hd => simp only [Decoder.next_of_none (empty c d hc hd), set_of_getElem? hd]
  rw [e]
  exact .idle empty

/-- `s` is `r` without `item`, which is the next one that `r` takes: the first one that waits for
replay, or, if none does, the first one of the gate. -/
inductive Takes (r : Reader α) (item : Item) : Reader α → Prop
  | replayed {rest : List Item} (replay : r.aligner.replay = item :: rest) :
      Takes r item { r with aligner := { r.aligner with replay := rest } }
  | arrived {arrivals : List Arrival} (empty : r.aligner.replay = [])
      (feed : r.feed.arrivals = .item item :: arrivals) :
      Takes r item { r with feed := { r.feed with arrivals } }

/-- The gate of `r` is asked while nothing waits for replay, and answers that it is exhausted;
`feed` is what is left of it. -/
inductive Dry (r : Reader α) : Feed → Prop
  | ended (empty : r.aligner.replay = []) (feed : r.feed.arrivals = [])
      (unfailing : r.feed.failure = none) : Dry r r.feed
  | paused {arrivals : List Arrival} (empty : r.aligner.replay = [])
      (feed : r.feed.arrivals = .exhausted :: arrivals) : Dry r { r.feed with arrivals }

/-- What becomes of an exhausted gate when nothing waits for replay. -/
inductive Settles (r : Reader α) : Turn α → Prop
  | exhausted (idle : r.aligner.inFlight = none) :
      Settles r ⟨some (.ok .finished), [], { r with isFinished := true }⟩
  | emptied (flight : r.aligner.isAligning = true) (empty : r.aligner.closeAll.2.replay = []) :
      Settles r ⟨some (.ok .finished), r.aligner.closeAll.1.map .notice,
        { r with aligner := r.aligner.closeAll.2, isFinished := true }⟩
  | released (flight : r.aligner.isAligning = true)
      (nonempty : r.aligner.closeAll.2.replay ≠ []) :
      Settles r ⟨none, r.aligner.closeAll.1.map .notice,
        { r with aligner := r.aligner.closeAll.2 }⟩

theorem settles {r : Reader α} (empty : r.aligner.replay = []) : r.Settles r.settle := by
  unfold settle
  by_cases flight : r.aligner.isAligning = true
  · simp only [if_pos flight]
    by_cases he : r.aligner.closeAll.2.replay = []
    · rw [if_pos (by simp [he])]
      exact .emptied flight he
    · rw [if_neg (by simpa using he)]
      exact .released flight he
  · have idle : r.aligner.inFlight = none := by simpa [Aligner.isAligning] using flight
    simp only [if_neg flight]
    rw [if_pos (by simp [empty])]
    exact .exhausted idle

/-- What taking the next item does. -/
inductive Advances (r : Reader α) : Turn α → Prop
  | held {item : Item} {s : Reader α} (take : r.Takes item s)
      (range : item.channel < s.decoders.length)
      (blocked : s.aligner.isBlocked item.channel = true) :
      Advances r ⟨none, (s.aligner.store item).1.map .notice,
        { s with aligner := (s.aligner.store item).2 }⟩
  | fed {channel : Nat} {bytes : Bytes} {s : Reader α} (take : r.Takes ⟨channel, .buffer bytes⟩ s)
      (range : channel < s.decoders.length) (free : s.aligner.isBlocked channel = false) :
      Advances r ⟨none, [.fed channel bytes],
        { s with
          decoders := s.decoders.modify channel (·.setBuffer bytes)
          current := some channel }⟩
  | dispatched {channel : Nat} {e : Event} {s : Reader α} (take : r.Takes ⟨channel, .event e⟩ s)
      (range : channel < s.decoders.length) (free : s.aligner.isBlocked channel = false) :
      Advances r (s.dispatchEvent channel e)
  | stray {item : Item} {s : Reader α} (take : r.Takes item s)
      (range : s.decoders.length ≤ item.channel) :
      Advances r
        ⟨some (.error (.alignment (.channelOutOfRange item.channel s.decoders.length))), [], s⟩
  | settled {feed : Feed} {t : Turn α} (dry : r.Dry feed) (settle : Settles { r with feed } t) :
      Advances r t
  | failed {e : GateError} {feed : Feed} (empty : r.aligner.replay = [])
      (fails : r.feed.next = (.failed e, feed)) :
      Advances r ⟨some (.error (.gate e)), [], { r with feed }⟩

theorem advances_dispatch {r s : Reader α} {item : Item} (take : r.Takes item s) :
    r.Advances (s.dispatch item) := by
  obtain ⟨channel, content⟩ := item
  unfold dispatch
  by_cases hr : channel < s.decoders.length
  · rw [if_pos hr]
    by_cases hb : s.aligner.isBlocked channel = true
    · rw [if_pos hb]
      exact .held take hr hb
    · rw [if_neg hb]
      have free : s.aligner.isBlocked channel = false := by simpa using hb
      cases content with
      | buffer bytes => exact .fed take hr free
      | event e => exact .dispatched take hr free
  · rw [if_neg hr]
    exact .stray take (Nat.not_lt.mp hr)

theorem advances (r : Reader α) : r.Advances r.advance := by
  unfold advance
  cases hr : r.aligner.replay with
  | cons item rest => exact advances_dispatch (.replayed hr)
  | nil =>
    simp only [Feed.next]
    cases hf : r.feed.arrivals with
    | nil =>
      cases hn : r.feed.failure with
      | none => exact .settled (.ended hr hf hn) (settles hr)
      | some e => exact .failed hr (by simp only [Feed.next, hf, hn])
    | cons arrival arrivals => cases arrival with
      | item item => exact advances_dispatch (.arrived hr hf)
      | exhausted => exact .settled (.paused hr hf) (settles hr)
      | failed e => exact .failed hr (by simp only [Feed.next, hf])

theorem turn_of_answer [Record α] {r : Reader α} (h : r.decodeCurrent.answer ≠ none) :
    r.turn = r.decodeCurrent := by
  unfold turn
  cases ha : r.decodeCurrent.answer with
  | none => exact absurd ha h
  | some x => simp [ha]

theorem turn_of_quiet [Record α] {r : Reader α} (h : r.decodeCurrent.answer = none) :
    r.turn = r.decodeCurrent.reader.advance := by
  unfold turn
  simp [h]

/-- What a tracker of supersteps does with an event of one of its channels. -/
inductive Handles (r : Reader α) (t : SuperstepTracker) (channel : Nat) (e : Event) : Turn α → Prop
  | proceeded {t' : SuperstepTracker} {deliveries : List Delivery}
      (ended : t'.partitionEnded = endedAfter t.partitionEnded channel e) :
      Handles r t channel e ⟨none, .handled channel e :: deliveries.map .delivered,
        { r with handler := .tracker t' }⟩
  | paused {t' : SuperstepTracker} {deliveries : List Delivery}
      (ended : t'.partitionEnded = endedAfter t.partitionEnded channel e) :
      Handles r t channel e
        ⟨some (.ok .endOfSuperstep), .handled channel e :: deliveries.map .delivered,
          { r with handler := .tracker t' }⟩
  | finished {t' : SuperstepTracker} {deliveries : List Delivery}
      (ended : t'.partitionEnded = endedAfter t.partitionEnded channel e)
      (all : t'.isFinished = true) :
      Handles r t channel e ⟨some (.ok .finished), .handled channel e :: deliveries.map .delivered,
        { r with handler := .tracker t', isFinished := true }⟩

theorem handles {r : Reader α} {t : SuperstepTracker} {channel : Nat} (h : r.handler = .tracker t)
    (range : channel < t.channels) (e : Event) : r.Handles t channel e (r.handle channel e) := by
  obtain ⟨outcome, answer, ended, all⟩ := t.handle_spec range e
  unfold handle
  simp only [h, answer]
  cases outcome with
  | proceed => exact .proceeded ended
  | endOfSuperstep => exact .paused ended
  | finished => exact .finished ended (all rfl)

theorem Handles.aligner {r : Reader α} {t : SuperstepTracker} {channel : Nat} {e : Event}
    {d : Turn α} (h : Handles r t channel e d) : d.reader.aligner = r.aligner := by
  cases h <;> rfl

theorem Handles.feed {r : Reader α} {t : SuperstepTracker} {channel : Nat} {e : Event}
    {d : Turn α} (h : Handles r t channel e d) : d.reader.feed = r.feed := by
  cases h <;> rfl

/-- A reader is finished as soon as it has said so, and not before. -/
def Finishes (r : Reader α) (t : Turn α) : Prop :=
  t.reader.isFinished = true ↔ r.isFinished = true ∨ t.answer = some (.ok .finished)

theorem finishes_handle (r : Reader α) (channel : Nat) (e : Event) :
    r.Finishes (r.handle channel e) := by
  unfold handle
  split
  · simp [Finishes]
  · simp only
    split <;> simp [Finishes]

theorem finishes_dispatchEvent (r : Reader α) (channel : Nat) (e : Event) :
    r.Finishes (r.dispatchEvent channel e) := by
  unfold dispatchEvent
  split
  · simp only
    split <;> simp [Finishes]
  · simp only
    split
    · simp [Finishes]
    · exact finishes_handle _ _ _
  · exact finishes_handle _ _ _

theorem Takes.isFinished {r s : Reader α} {item : Item} (h : r.Takes item s) :
    s.isFinished = r.isFinished := by
  cases h <;> rfl

theorem Decodes.finishes [Record α] {r : Reader α} {t : Turn α} (h : r.Decodes t) :
    r.Finishes t := by
  cases h with
  | @outcome c d o => cases o <;> simp [Finishes, Reading.ofOutcome]
  | _ => simp [Finishes]

theorem Advances.finishes {r : Reader α} {t : Turn α} (h : r.Advances t) : r.Finishes t := by
  cases h with
  | held take => simp [Finishes, take.isFinished]
  | fed take => simp [Finishes, take.isFinished]
  | dispatched take =>
    rw [Finishes, ← take.isFinished]
    exact finishes_dispatchEvent _ _ _
  | stray take => simp [Finishes, take.isFinished]
  | settled _ settle => cases settle <;> simp [Finishes]
  | failed => simp [Finishes]

theorem finishes_turn [Record α] (r : Reader α) : r.Finishes r.turn := by
  have hd := r.decodes.finishes
  cases ha : r.decodeCurrent.answer with
  | some answer =>
    rw [turn_of_answer (by simp [ha])]
    exact hd
  | none =>
    have h := (advances r.decodeCurrent.reader).finishes
    rw [turn_of_quiet ha]
    simp only [Finishes, ha, reduceCtorEq, or_false] at hd h ⊢
    rw [h, hd]

/-- A turn without a record or a decode error. -/
def Silent (t : Turn α) : Prop :=
  t.answer.bind Reading.outcome? = none ∧ ∀ a ∈ t.activity, a.outcome? = none

theorem silent_handle (r : Reader α) (channel : Nat) (e : Event) :
    Silent (r.handle channel e) := by
  unfold handle
  split
  · simp [Silent]
  · simp only
    split <;> simp [Silent, Reading.outcome?]

theorem silent_dispatchEvent (r : Reader α) (channel : Nat) (e : Event) :
    Silent (r.dispatchEvent channel e) := by
  unfold dispatchEvent
  split
  · simp only
    split <;> simp [Silent, Reading.outcome?]
  · simp only
    split
    · simp [Silent, Reading.outcome?]
    · obtain ⟨hanswer, hactivity⟩ := silent_handle
        { r with aligner := (r.aligner.closeChannel channel).aligner } channel .endOfPartition
      refine ⟨hanswer, fun a ha => ?_⟩
      rcases List.mem_append.mp ha with ha | ha
      · obtain ⟨n, -, rfl⟩ := List.mem_map.mp ha
        rfl
      · exact hactivity a ha
  · exact silent_handle _ _ _

/-- Taking an item gives no record and no decode error. -/
theorem Advances.silent {r : Reader α} {t : Turn α} (h : r.Advances t) : Silent t := by
  cases h with
  | dispatched => exact silent_dispatchEvent _ _ _
  | settled _ settle => cases settle <;> simp [Silent, Reading.outcome?]
  | held => simp [Silent]
  | _ => simp [Silent, Reading.outcome?]

theorem turn_outcome [Record α] (r : Reader α) :
    (∃ c o, r.turn.answer = some (Reading.ofOutcome o) ∧
      r.turn.activity = [Activity.ofOutcome c o]) ∨ Silent r.turn := by
  cases ha : r.decodeCurrent.answer with
  | some answer =>
    rw [turn_of_answer (by simp [ha])]
    have hd := r.decodes
    generalize r.decodeCurrent = t at ha hd
    cases hd with
    | @outcome c _ o => exact .inl ⟨c, o, rfl, rfl⟩
    | _ => cases ha
  | none =>
    rw [turn_of_quiet ha]
    exact .inr (advances _).silent

end Reader

end StreamCheckpoint
