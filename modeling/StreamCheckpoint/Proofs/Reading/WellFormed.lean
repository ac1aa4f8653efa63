import StreamCheckpoint.Proofs.Alignment.Invariant
import StreamCheckpoint.Proofs.Reading.Runs

/-! Readers of a gate that delivers items of its channels and is then exhausted.  Their parts fit
the number of channels and no decoder has a buffer but that of the current channel (`WellFormed`).
`Steps` says what such a reader can do when it takes the next item. -/

namespace StreamCheckpoint

variable {α : Type}

/-- The item, if there is one. -/
def Arrival.item? : Arrival → Option Item
  | .item i => some i
  | _ => none

/-- The gate never fails, and is not exhausted before the last item. -/
structure Feed.Plain (f : Feed) : Prop where
  unfailing : f.failure = none
  items : ∀ a ∈ f.arrivals, ∃ i, a = .item i

theorem Feed.Plain.arrivals_eq_nil {f : Feed} (h : f.Plain)
    (empty : f.arrivals.filterMap (·.item?) = []) : f.arrivals = [] := by
  cases ha : f.arrivals with
  | nil => rfl
  | cons a arrivals =>
    obtain ⟨i, rfl⟩ := h.items a (ha ▸ List.mem_cons_self)
    rw [ha] at empty
    cases empty

namespace Reader

/-- What is still to be dealt with, oldest first: what is held back, what waits for replay and what
the gate has not delivered yet. -/
def pending (r : Reader α) : List Item := r.aligner.items ++ r.feed.arrivals.filterMap (·.item?)

/-- No decoder has a buffer but that of the current channel. -/
def Buffered (r : Reader α) : Prop :=
  ∀ c d, r.decoders[c]? = some d → d.buffer ≠ none → r.current = some c

/-- The parts of the reader fit its `n` channels. -/
structure WellFormed (n : Nat) (r : Reader α) : Prop where
  decoders : r.decoders.length = n
  channels : r.aligner.channels = n
  sound : r.aligner.Sound
  plain : r.feed.Plain
  range : ∀ i ∈ r.pending, i.channel < n
  buffered : ∀ c d, r.decoders[c]? = some d → d.buffer ≠ none → r.current = some c
  tracker : ∃ t, r.handler = .tracker t ∧ t.channels = n

section Takes

variable {r s : Reader α} {item : Item}

theorem Takes.decoders (h : r.Takes item s) : s.decoders = r.decoders := by cases h <;> rfl

theorem Takes.current (h : r.Takes item s) : s.current = r.current := by cases h <;> rfl

theorem Takes.handler (h : r.Takes item s) : s.handler = r.handler := by cases h <;> rfl

theorem Takes.inFlight (h : r.Takes item s) : s.aligner.inFlight = r.aligner.inFlight := by
  cases h <;> rfl

theorem Takes.closed (h : r.Takes item s) : s.aligner.closed = r.aligner.closed := by
  cases h <;> rfl

theorem Takes.latest (h : r.Takes item s) : s.aligner.latest = r.aligner.latest := by
  cases h <;> rfl

theorem Takes.sound (h : r.Takes item s) (sound : r.aligner.Sound) : s.aligner.Sound := by
  intro f flight
  rw [h.closed, h.latest]
  exact sound f (h.inFlight ▸ flight)

theorem Takes.isBlocked {item : Item} (take : r.Takes item s) (c : Nat) :
    s.aligner.isBlocked c = r.aligner.isBlocked c := by
  unfold Aligner.isBlocked
  rw [take.inFlight]

theorem Takes.plain (h : r.Takes item s) (hp : r.feed.Plain) : s.feed.Plain := by
  cases h with
  | replayed => exact hp
  | arrived _ feed =>
    refine ⟨hp.unfailing, fun a ha => hp.items a ?_⟩
    rw [feed]
    exact List.mem_cons_of_mem _ ha

/-- The item that is taken comes right after what is held back. -/
theorem Takes.pending (h : r.Takes item s) :
    ∃ rest, r.pending = s.aligner.queue ++ item :: rest ∧ s.pending = s.aligner.queue ++ rest ∧
      rest = s.aligner.replay ++ s.feed.arrivals.filterMap (·.item?) := by
  cases h with
  | replayed replay =>
    refine ⟨_, ?_, List.append_assoc _ _ _, rfl⟩
    simp [Reader.pending, Aligner.items, replay, Aligner.queue]
  | arrived empty feed =>
    refine ⟨_, ?_, List.append_assoc _ _ _, rfl⟩
    simp [Reader.pending, Aligner.items, empty, feed, Arrival.item?]

end Takes

/-- What a quiet reader does when it takes the next item of a gate that delivers nothing else. -/
inductive Steps (r : Reader α) : Turn α → Prop
  | held {item : Item} {s : Reader α} {kept : List Notice × Aligner} (take : r.Takes item s)
      (blocked : s.aligner.isBlocked item.channel = true) (stores : s.aligner.Stores item kept) :
      Steps r ⟨none, kept.1.map .notice, { s with aligner := kept.2 }⟩
  | fed {channel : Nat} {bytes : Bytes} {s : Reader α} (take : r.Takes ⟨channel, .buffer bytes⟩ s)
      (free : s.aligner.isBlocked channel = false) :
      Steps r ⟨none, [.fed channel bytes],
        { s with
          decoders := s.decoders.modify channel (·.setBuffer bytes)
          current := some channel }⟩
  | offered {channel : Nat} {b : Barrier} {s : Reader α}
      {answer : Option (Except ReadError (Reading α))}
      {o : Reaction (Except AlignmentError Unit)} (take : r.Takes ⟨channel, .event (.barrier b)⟩ s)
      (free : s.aligner.isBlocked channel = false) (offers : s.aligner.Offers channel b o) :
      Steps r ⟨answer, .offered channel b :: o.notices.map .notice,
        { s with aligner := o.aligner }⟩
  | ended {channel : Nat} {s : Reader α} {c : Reaction (Except AlignmentError Unit)}
      {tr : SuperstepTracker} {t : Turn α} (take : r.Takes ⟨channel, .event .endOfPartition⟩ s)
      (free : s.aligner.isBlocked channel = false) (closes : s.aligner.Closes channel c)
      (tracker : s.handler = .tracker tr)
      (handles : Handles { s with aligner := c.aligner } tr channel .endOfPartition t) :
      Steps r ⟨t.answer, c.notices.map .notice ++ t.activity, t.reader⟩
  | handled {channel : Nat} {e : Event} {s : Reader α} {tr : SuperstepTracker} {t : Turn α}
      (take : r.Takes ⟨channel, .event e⟩ s) (free : s.aligner.isBlocked channel = false)
      (barrier : ∀ b, e ≠ .barrier b) (ended : e ≠ .endOfPartition)
      (tracker : s.handler = .tracker tr) (handles : Handles s tr channel e t) : Steps r t
  | settled {t : Turn α} (dry : r.feed.arrivals = []) (empty : r.aligner.replay = [])
      (settle : Settles r t) : Steps r t

theorem dispatchEvent_barrier {r : Reader α} {channel : Nat} (h : channel < r.aligner.channels)
    (b : Barrier) : ∃ answer, r.dispatchEvent channel (.barrier b) =
      ⟨answer, .offered channel b :: (r.aligner.offerBarrier channel b).notices.map .notice,
        { r with aligner := (r.aligner.offerBarrier channel b).aligner }⟩ := by
  simp only [dispatchEvent, Aligner.offer, if_pos h]
  split
  · exact ⟨_, rfl⟩
  · exact ⟨_, rfl⟩

theorem dispatchEvent_endOfPartition {r : Reader α} {channel : Nat}
    (h : channel < r.aligner.channels) : r.dispatchEvent channel .endOfPartition =
      let c := r.aligner.closeChannel channel
      let t := ({ r with aligner := c.aligner } : Reader α).handle channel .endOfPartition
      ⟨t.answer, c.notices.map .notice ++ t.activity, t.reader⟩ := by
  simp only [dispatchEvent, (Aligner.closes h).answer]

theorem Quiet.of_decoders {r s : Reader α} (quiet : r.Quiet) (h : s.decoders = r.decoders) :
    s.Quiet :=
  fun d hd => quiet d (h ▸ hd)

/-- Holding an item back leaves it where it was in the order of what is pending. -/
theorem pending_held {r s : Reader α} {item : Item} {kept : List Notice × Aligner}
    (take : r.Takes item s) (blocked : s.aligner.isBlocked item.channel = true)
    (stores : s.aligner.Stores item kept) :
    ({ s with aligner := kept.2 } : Reader α).pending = r.pending := by
  have hitems := stores.items.resolve_right fun hi => by
    rw [Aligner.isBlocked_of_idle hi.1] at blocked
    cases blocked
  obtain ⟨rest, hr, hs, rfl⟩ := take.pending
  rw [hr, Reader.pending, hitems]
  simp

/-- What is taken is the first that is pending on its channel, since nothing of a channel that is
not blocked is held back. -/
theorem Takes.contentsOf {r s : Reader α} {item : Item} (take : r.Takes item s)
    (sound : s.aligner.Sound) (free : s.aligner.isBlocked item.channel = false) (c : Nat) :
    contentsOf c r.pending =
      (if item.channel = c then [item.content] else []) ++ contentsOf c s.pending := by
  obtain ⟨rest, hr, hs, -⟩ := take.pending
  rw [hr, hs, contentsOf_append, contentsOf_append, contentsOf_cons]
  by_cases hc : item.channel = c
  · have hq : StreamCheckpoint.contentsOf c s.aligner.queue = [] := by
      rw [contentsOf_eq_nil]
      intro i hi he
      have hb := sound.isBlocked_queue hi
      rw [he, ← hc, free] at hb
      cases hb
    rw [hq, List.nil_append, List.nil_append]
  · rw [if_neg hc, List.nil_append, List.nil_append]

theorem Settles.pending {r : Reader α} {t : Turn α} (h : r.Settles t) :
    t.reader.pending = r.pending := by
  cases h with
  | exhausted => rfl
  | emptied => simp only [Reader.pending, Aligner.items_closeAll]
  | released => simp only [Reader.pending, Aligner.items_closeAll]

theorem Settles.same {r : Reader α} {d : Turn α} (h : r.Settles d) :
    d.reader.decoders = r.decoders ∧ d.reader.handler = r.handler ∧
      ∃ ns : List Notice, d.activity = ns.map .notice := by
  cases h with
  | exhausted => exact ⟨rfl, rfl, [], rfl⟩
  | emptied => exact ⟨rfl, rfl, _, rfl⟩
  | released => exact ⟨rfl, rfl, _, rfl⟩

section Buffered

variable {r s : Reader α}

/-- A decoder that stays or has no buffer may take the place of the current one. -/
theorem Buffered.set {c : Nat} {d : Decoder α} {current : Option Nat} (h : r.Buffered)
    (now : r.current = some c) (keeps : current = some c ∨ d.buffer = none) :
    ({ r with decoders := r.decoders.set c d, current } : Reader α).Buffered := by
  intro c' d' hd' hb
  simp only [List.getElem?_set] at hd'
  split at hd'
  · next same =>
    split at hd'
    · obtain rfl := Option.some.inj hd'
      exact same ▸ keeps.resolve_right hb
    · cases hd'
  · next other =>
    rw [h c' d' hd' hb] at now
    exact absurd (Option.some.inj now).symm other

theorem Buffered.decodes [Record α] {t : Turn α} (h : r.Buffered) (hd : r.Decodes t) :
    t.reader.Buffered := by
  cases hd with
  | idle => exact h
  | @through c d current decoder buffer answer =>
    exact h.set current (.inr (d.buffer_next answer rfl))
  | outcome current decoder buffer answer keeps => exact h.set current keeps

/-- Once its decoder has been asked in vain, a reader is quiet. -/
theorem Buffered.quiet [Record α] {t : Turn α} (h : r.Buffered) (hd : r.Decodes t)
    (quiet : t.answer = none) : t.reader.Quiet := by
  intro d hmem
  obtain ⟨c, hc⟩ := List.getElem?_of_mem hmem
  refine Classical.not_not.mp fun hb => ?_
  have current := h.decodes hd c d hc hb
  cases hd with
  | idle empty => exact hb (empty c d current hc)
  | through => cases current
  | outcome => cases quiet

theorem Quiet.buffered (quiet : r.Quiet) : r.Buffered :=
  fun _ d hd hb => absurd (quiet d (List.mem_of_getElem? hd)) hb

theorem Buffered.fed (quiet : r.Quiet) (channel : Nat) (bytes : Bytes) :
    ({ r with
      decoders := r.decoders.modify channel (·.setBuffer bytes)
      current := some channel } : Reader α).Buffered := by
  intro c d hd hb
  by_cases same : channel = c
  · rw [same]
  · simp only [List.getElem?_modify_ne _ _ same] at hd
    exact absurd (quiet d (List.mem_of_getElem? hd)) hb

end Buffered

namespace WellFormed

variable {n : Nat} {r : Reader α}

theorem take {s : Reader α} {item : Item} (h : r.WellFormed n) (take : r.Takes item s) :
    s.WellFormed n ∧ item.channel < n := by
  obtain ⟨rest, hr, hs, -⟩ := take.pending
  have range := h.range
  rw [hr] at range
  refine ⟨⟨?_, ?_, take.sound h.sound, take.plain h.plain, fun i hi => range i ?_, ?_, ?_⟩, ?_⟩
  · rw [take.decoders, h.decoders]
  · rw [Aligner.channels, take.closed]
    exact h.channels
  · rw [hs] at hi
    simp only [List.mem_append, List.mem_cons] at hi ⊢
    exact hi.imp_right .inr
  · intro c d hd hb
    rw [take.current]
    exact h.buffered c d (take.decoders ▸ hd) hb
  · rw [take.handler]
    exact h.tracker
  · exact range item (by simp)

theorem contentsOf_take {s : Reader α} {item : Item} (h : r.WellFormed n) (take : r.Takes item s)
    (free : s.aligner.isBlocked item.channel = false) (c : Nat) :
    contentsOf c r.pending =
      (if item.channel = c then [item.content] else []) ++ contentsOf c s.pending :=
  take.contentsOf (h.take take).1.sound free c

theorem quiet [Record α] {t : Turn α} (h : r.WellFormed n) (hd : r.Decodes t)
    (quiet : t.answer = none) : t.reader.Quiet :=
  Buffered.quiet h.buffered hd quiet

/-- The next item of a well formed reader is dealt with in one of the ways of `Steps`. -/
theorem steps (h : r.WellFormed n) : r.Steps r.advance := by
  have ha := r.advances
  generalize r.advance = t at ha
  cases ha with
  | held take range blocked => exact .held take blocked (Aligner.stores _ _)
  | fed take range free => exact .fed take free
  | @dispatched channel e s take range free =>
    obtain ⟨hw, hc⟩ := h.take take
    obtain ⟨tr, htr, htn⟩ := hw.tracker
    have hch : channel < s.aligner.channels := by rw [hw.channels]; exact hc
    have hctr : channel < tr.channels := by rw [htn]; exact hc
    cases e with
    | barrier b =>
      obtain ⟨answer, e⟩ := dispatchEvent_barrier hch b
      rw [e]
      exact .offered take free (Aligner.offers _ _ _)
    | endOfPartition =>
      rw [dispatchEvent_endOfPartition hch]
      exact .ended take free (Aligner.closes hch) htr (handles (by exact htr) hctr _)
    | endOfSuperstep => exact .handled take free nofun nofun htr (handles htr hctr _)
    | custom kind payload => exact .handled take free nofun nofun htr (handles htr hctr _)
  | stray take range =>
    obtain ⟨hw, hc⟩ := h.take take
    rw [hw.decoders] at range
    exact absurd hc (Nat.not_lt.mpr range)
  | settled dry settle => cases dry with
    | ended empty feed unfailing => exact .settled feed empty settle
    | paused empty feed =>
      obtain ⟨i, hi⟩ := h.plain.items .exhausted (by rw [feed]; exact List.mem_cons_self)
      cases hi
  | @failed e feed empty fails =>
    unfold Feed.next at fails
    cases hf : r.feed.arrivals with
    | nil =>
      simp only [hf, h.plain.unfailing] at fails
      cases fails
    | cons a arrivals =>
      obtain ⟨i, rfl⟩ := h.plain.items a (by rw [hf]; exact List.mem_cons_self)
      simp only [hf] at fails
      cases fails

theorem pending_decodes [Record α] {t : Turn α} (hd : r.Decodes t) :
    t.reader.pending = r.pending := by
  cases hd <;> rfl

theorem decodes [Record α] {t : Turn α} (h : r.WellFormed n) (hd : r.Decodes t) :
    t.reader.WellFormed n := by
  have buffered : t.reader.Buffered := Buffered.decodes h.buffered hd
  cases hd with
  | idle => exact h
  | _ =>
    exact ⟨List.length_set.trans h.decoders, h.channels, h.sound, h.plain, h.range, buffered,
      h.tracker⟩

theorem withAligner (h : r.WellFormed n) {a : Aligner} (channels : a.channels = r.aligner.channels)
    (sound : a.Sound) (items : a.items = r.aligner.items) :
    ({ r with aligner := a } : Reader α).WellFormed n := by
  refine ⟨h.decoders, channels.trans h.channels, sound, h.plain, ?_, h.buffered, h.tracker⟩
  unfold pending
  rw [items]
  exact h.range

theorem handles {tr : SuperstepTracker} {channel : Nat} {e : Event} {t : Turn α}
    (h : r.WellFormed n) (tracker : r.handler = .tracker tr) (ht : Handles r tr channel e t) :
    t.reader.WellFormed n ∧ t.reader.pending = r.pending := by
  have hlen : ∀ {t' : SuperstepTracker},
      t'.partitionEnded = endedAfter tr.partitionEnded channel e → t'.channels = n := by
    intro t' ht'
    obtain ⟨tr', htr', hn⟩ := h.tracker
    rw [tracker] at htr'
    obtain rfl := Handler.tracker.inj htr'
    rw [SuperstepTracker.channels, ht', ← hn]
    unfold endedAfter
    split
    · exact List.length_set
    · rfl
  cases ht with
  | proceeded ended =>
    exact ⟨⟨h.decoders, h.channels, h.sound, h.plain, h.range, h.buffered, _, rfl, hlen ended⟩, rfl⟩
  | paused ended =>
    exact ⟨⟨h.decoders, h.channels, h.sound, h.plain, h.range, h.buffered, _, rfl, hlen ended⟩, rfl⟩
  | finished ended =>
    exact ⟨⟨h.decoders, h.channels, h.sound, h.plain, h.range, h.buffered, _, rfl, hlen ended⟩, rfl⟩

theorem step {t : Turn α} (h : r.WellFormed n) (quiet : r.Quiet) (hs : r.Steps t) :
    t.reader.WellFormed n := by
  cases hs with
  | @held item s kept take blocked stores =>
    obtain ⟨hw, hc⟩ := h.take take
    refine ⟨hw.decoders, ?_, stores.sound hw.sound blocked, hw.plain, ?_, hw.buffered, hw.tracker⟩
    · exact (congrArg List.length stores.same.1).trans hw.channels
    · rw [pending_held take blocked stores]
      exact h.range
  | @fed channel bytes s take free =>
    obtain ⟨hw, hc⟩ := h.take take
    refine ⟨?_, hw.channels, hw.sound, hw.plain, hw.range,
      Buffered.fed (quiet.of_decoders take.decoders) channel bytes, hw.tracker⟩
    rw [List.length_modify, hw.decoders]
  | @offered channel b s answer o take free offers =>
    obtain ⟨hw, hc⟩ := h.take take
    refine hw.withAligner (congrArg List.length offers.closed) ?_ offers.items
    exact offers.sound hw.sound (by rw [hw.channels]; exact hc)
  | @ended channel s c tr t take free closes tracker ht =>
    obtain ⟨hw, hc⟩ := h.take take
    have hw' := hw.withAligner closes.channels (closes.sound hw.sound) closes.items
    exact (hw'.handles tracker ht).1
  | @handled channel e s tr t take free barrier ended tracker ht =>
    obtain ⟨hw, hc⟩ := h.take take
    exact (hw.handles tracker ht).1
  | settled dry empty settle =>
    obtain ⟨hidle, -, -, hch, -⟩ := Aligner.closeAll_spec h.sound
    have hw := h.withAligner hch (Aligner.sound_of_idle hidle) r.aligner.items_closeAll
    cases settle with
    | exhausted => exact ⟨h.decoders, h.channels, h.sound, h.plain, h.range, h.buffered, h.tracker⟩
    | emptied =>
      exact ⟨hw.decoders, hw.channels, hw.sound, hw.plain, hw.range, hw.buffered, hw.tracker⟩
    | released => exact hw

theorem startNextSuperstep (h : r.WellFormed n) : r.startNextSuperstep.WellFormed n := by
  obtain ⟨tr, htr, hn⟩ := h.tracker
  unfold Reader.startNextSuperstep
  rw [htr]
  exact ⟨h.decoders, h.channels, h.sound, h.plain, h.range, h.buffered, _, rfl, hn⟩

end WellFormed

theorem pending_startNextSuperstep (r : Reader α) : r.startNextSuperstep.pending = r.pending := by
  unfold startNextSuperstep
  split <;> rfl

theorem aligner_startNextSuperstep (r : Reader α) :
    r.startNextSuperstep.aligner = r.aligner := by
  unfold startNextSuperstep
  split <;> rfl

theorem decoders_startNextSuperstep (r : Reader α) :
    r.startNextSuperstep.decoders = r.decoders := by
  unfold startNextSuperstep
  split <;> rfl

section Turns

variable [Record α] {n : Nat} {P : List (Activity α) → Reader α → Prop}

theorem Decodes.activity {r : Reader α} {d : Turn α} (h : r.Decodes d) (quiet : d.answer = none) :
    d.activity = [] := by
  cases h with
  | outcome => cases quiet
  | _ => rfl

theorem turn_preserves (wf : ∀ t s, P t s → s.WellFormed n)
    (decodes : ∀ t s d, P t s → s.Decodes d → P (t ++ d.activity) d.reader)
    (steps : ∀ t s d, P t s → s.Quiet → s.Steps d → P (t ++ d.activity) d.reader)
    {t : List (Activity α)} {r : Reader α} (h : P t r) :
    P (t ++ r.turn.activity) r.turn.reader := by
  have hd := decodes t r _ h r.decodes
  cases ha : r.decodeCurrent.answer with
  | some answer =>
    rw [turn_of_answer (by simp [ha])]
    exact hd
  | none =>
    rw [turn_of_quiet ha]
    rw [r.decodes.activity ha, List.append_nil] at hd
    exact steps t _ _ hd ((wf t r h).quiet r.decodes ha) (wf t _ hd).steps

end Turns

section New

variable {n : Nat} {script : List Item} {settings : ReaderSettings} {listener : Listener}
  {r : Reader α}

theorem pending_ofScript (n : Nat) (script : List Item) :
    (Feed.ofScript n script).arrivals.filterMap (·.item?) = script := by
  rw [Feed.ofScript, List.filterMap_map]
  exact List.filterMap_some

theorem new_of_pos (feed : Feed) (h : 0 < feed.channels) (settings : ReaderSettings)
    (listener : Listener) : new feed settings listener = .ok (α := Reader α)
    { feed
      decoders := List.replicate feed.channels (.new settings.decoder)
      aligner :=
        { closed := List.replicate feed.channels false, settings := settings.alignment, listener }
      handler := .tracker (.new feed.channels) } := by
  have hn : feed.channels ≠ 0 := Nat.ne_of_gt h
  simp [new, Aligner.new, hn, ofParts, Aligner.setListener, Aligner.channels]

theorem new_eq (h : 0 < n) (script : List Item) (settings : ReaderSettings)
    (listener : Listener) : new (Feed.ofScript n script) settings listener = .ok (α := Reader α)
    { feed := .ofScript n script
      decoders := List.replicate n (.new settings.decoder)
      aligner := { closed := List.replicate n false, settings := settings.alignment, listener }
      handler := .tracker (.new n) } :=
  new_of_pos (.ofScript n script) h settings listener

theorem channels_pos {feed : Feed} (h : new feed settings listener = .ok r) :
    0 < feed.channels := by
  refine Nat.pos_of_ne_zero fun hn => ?_
  simp [new, Aligner.new, hn] at h

theorem new_spec (h : new (Feed.ofScript n script) settings listener = .ok r) :
    0 < n ∧ r =
      { feed := .ofScript n script
        decoders := List.replicate n (.new settings.decoder)
        aligner :=
          { closed := List.replicate n false, settings := settings.alignment, listener }
        handler := .tracker (.new n) } := by
  have hn : 0 < n := channels_pos h
  rw [new_eq hn script settings listener] at h
  exact ⟨hn, (Except.ok.inj h).symm⟩

theorem wellFormed_new (h : new (Feed.ofScript n script) settings listener = .ok r)
    (range : ∀ i ∈ script, i.channel < n) : r.WellFormed n := by
  obtain ⟨-, rfl⟩ := new_spec h
  refine ⟨List.length_replicate, List.length_replicate, Aligner.sound_of_idle rfl, ⟨rfl, ?_⟩, ?_,
    fun c d hd hb => ?_, _, rfl, List.length_replicate⟩
  · intro a ha
    obtain ⟨i, -, rfl⟩ := List.mem_map.mp ha
    exact ⟨i, rfl⟩
  · rw [pending, pending_ofScript]
    exact range
  · obtain ⟨-, rfl⟩ := List.mem_replicate.mp (List.mem_of_getElem? hd)
    exact absurd rfl hb

end New

end Reader

end StreamCheckpoint
