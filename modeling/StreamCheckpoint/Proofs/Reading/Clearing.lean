import StreamCheckpoint.Proofs.Reading.Errors
import StreamCheckpoint.Proofs.Reading.Faults
import StreamCheckpoint.Proofs.Reading.Machine

/-! What becomes of a reader whose buffers are dropped.  It is a reader that was made just now, with
new decoders and nothing held back, except that it knows which channels have ended and which
checkpoint is the newest (`clearBuffers_isolates`).  `Sources` says where everything comes from that
is dealt with later: from what the gate has not delivered yet. -/

namespace StreamCheckpoint

variable {α : Type}

namespace Reader

/-- A reader with new decoders, in which nothing is held back.  Of `s` it has the gate, the handler,
who hears the notices, and what the aligner knows of channels and checkpoints. -/
def afresh (s : Reader α) (decoders : List DecoderSettings) (settings : AlignmentSettings) :
    Reader α where
  feed := s.feed
  decoders := decoders.map fun d => .new d
  aligner :=
    { closed := s.aligner.closed
      settings
      listener := s.aligner.listener
      latest := s.aligner.latest
      counters := s.aligner.counters }
  handler := s.handler
  isFinished := s.isFinished

/-- The items that the gate has not delivered yet. -/
def undelivered (r : Reader α) : List Item := r.feed.arrivals.filterMap (·.item?)

theorem clearBuffers_eq (s : Reader α) :
    s.clearBuffers = s.afresh s.decoderSettings s.aligner.settings := by
  have decoders : s.decoders.map (·.clear) = s.decoderSettings.map fun d => .new d := by
    rw [decoderSettings, List.map_map]
    rfl
  unfold clearBuffers
  rw [decoders]
  rfl

section Dealing

variable {channel : Nat}

theorem handle_deals (r : Reader α) (channel : Nat) {e : Event} (barrier : ∀ b, e ≠ .barrier b) :
    (∀ c, dealt c (r.handle channel e).activity = if channel = c then [.event e] else []) ∧
      ∀ c, outputs c (r.handle channel e).activity =
        if channel = c then eventOutput channel e else [] := by
  obtain ⟨ds, same⟩ := r.activity_handle channel e
  rw [same, eventOutput_of_ne barrier]
  exact ⟨dealt_handled channel e ds, outputs_handled channel e ds⟩

/-- An event of a channel of the aligner is dealt with, whatever it is. -/
theorem dispatchEvent_deals {r : Reader α} (range : channel < r.aligner.channels) (e : Event) :
    (∀ c, dealt c (r.dispatchEvent channel e).activity =
      if channel = c then [.event e] else []) ∧
      ∀ c, outputs c (r.dispatchEvent channel e).activity =
        if channel = c then eventOutput channel e else [] := by
  cases e with
  | barrier b =>
    obtain ⟨answer, same⟩ := dispatchEvent_barrier range b
    rw [same]
    refine ⟨dealt_offered channel b _, fun c => ?_⟩
    rw [outputs_offered]
    simp [eventOutput]
  | endOfPartition =>
    rw [dispatchEvent_endOfPartition range]
    simp only [dealt_append, dealt_notices, outputs_append, outputs_notices, List.nil_append]
    exact handle_deals _ channel (by simp)
  | endOfSuperstep => exact r.handle_deals channel (by simp)
  | custom kind payload => exact r.handle_deals channel (by simp)

end Dealing

section Sources

variable [Record α] {n : Nat} {items : List Item} {fresh : Nat → Decoder α}
  {t u : List (Activity α)} {r s : Reader α}

/-- Everything that was dealt with in `t`, and everything that is pending, comes from `items`, and
what came out is what the decoders `fresh` make of it. -/
structure Sources (n : Nat) (items : List Item) (fresh : Nat → Decoder α) (t : List (Activity α))
    (r : Reader α) : Prop where
  decoders : r.decoders.length = n
  channels : r.aligner.channels = n
  sound : r.aligner.Sound
  buffered : r.Buffered
  order : ∀ c < n, dealt c t ++ contentsOf c r.pending = contentsOf c items
  strays : ∀ c, n ≤ c → dealt c t = [] ∧ outputs c t = []
  decoded : r.Decoded fresh t

theorem Sources.decodes {d : Turn α} (h : r.Sources n items fresh t) (hd : r.Decodes d) :
    d.reader.Sources n items fresh (t ++ d.activity) := by
  have aligner : d.reader.aligner = r.aligner := by cases hd <;> rfl
  -- only a channel that has a decoder gets anything out of one
  have outputs_eq : ∀ c, n ≤ c → outputs c d.activity = [] := by
    intro c hc
    cases hd with
    | idle => rfl
    | through => rfl
    | @outcome c' d o _ _ decoder =>
      have range := (List.getElem?_eq_some_iff.mp decoder).1
      have other : c' ≠ c := by
        have := h.decoders
        omega
      simp [outputs, other]
  refine ⟨hd.length_decoders.trans h.decoders, aligner ▸ h.channels, aligner ▸ h.sound,
    h.buffered.decodes hd, fun c hc => ?_, fun c hc => ?_, h.decoded.decodes hd⟩
  · rw [hd.dealt, WellFormed.pending_decodes hd]
    exact h.order c hc
  · rw [hd.dealt, outputs_append, outputs_eq c hc, List.append_nil]
    exact h.strays c hc

theorem Sources.take {item : Item} (h : r.Sources n items fresh t) (take : r.Takes item s) :
    s.decoders.length = n ∧ s.aligner.channels = n ∧ s.aligner.Sound :=
  ⟨take.decoders ▸ h.decoders, take.leads.channels.trans h.channels, take.sound h.sound⟩

/-- The first item that is pending on its channel is dealt with. -/
theorem Sources.deal {item : Item} {s' : Reader α} (h : r.Sources n items fresh t)
    (take : r.Takes item s) (free : s.aligner.isBlocked item.channel = false)
    (range : item.channel < n)
    (hu : ∀ c, dealt c u = if item.channel = c then [item.content] else [])
    (ho : ∀ c, item.channel ≠ c → outputs c u = [])
    (decoders : s'.decoders.length = n) (channels : s'.aligner.channels = n)
    (sound : s'.aligner.Sound) (buffered : s'.Buffered) (pending : s'.pending = s.pending)
    (decoded : s'.Decoded fresh (t ++ u)) : s'.Sources n items fresh (t ++ u) := by
  refine ⟨decoders, channels, sound, buffered, fun c hc => ?_, fun c hc => ?_, decoded⟩
  · rw [dealt_append, hu, pending, List.append_assoc,
      ← take.contentsOf (h.take take).2.2 free]
    exact h.order c hc
  · have other : item.channel ≠ c := by omega
    obtain ⟨none, empty⟩ := h.strays c hc
    rw [dealt_append, outputs_append, hu, if_neg other, ho c other, none, empty]
    exact ⟨rfl, rfl⟩

/-- Nothing is dealt with, and the same is pending. -/
theorem Sources.same {s' : Reader α} (h : r.Sources n items fresh t) (ns : List Notice)
    (decoders : s'.decoders = r.decoders) (channels : s'.aligner.channels = n)
    (sound : s'.aligner.Sound) (buffered : s'.Buffered)
    (pending : ∀ c < n, contentsOf c s'.pending = contentsOf c r.pending) :
    s'.Sources n items fresh (t ++ ns.map .notice) := by
  refine ⟨decoders ▸ h.decoders, channels, sound, buffered, fun c hc => ?_, fun c hc => ?_,
    h.decoded.same decoders (by simp) (by simp)⟩
  · rw [pending c hc]
    simpa using h.order c hc
  · simpa using h.strays c hc

omit [Record α] in
theorem Dry.pending {feed : Feed} (h : r.Dry feed) :
    ({ r with feed } : Reader α).pending = r.pending := by
  cases h with
  | ended => rfl
  | paused _ arrivals => simp [Reader.pending, arrivals, Arrival.item?]

omit [Record α] in
theorem pending_failed {e : GateError} {feed : Feed} (h : r.feed.next = (.failed e, feed)) :
    ({ r with feed } : Reader α).pending = r.pending := by
  unfold Feed.next at h
  cases arrivals : r.feed.arrivals with
  | nil =>
    simp only [arrivals] at h
    split at h
    · cases h
    · obtain ⟨-, rfl⟩ := Prod.mk.inj h
      rfl
  | cons a rest =>
    simp only [arrivals, Prod.mk.injEq] at h
    obtain ⟨rfl, rfl⟩ := h
    simp [Reader.pending, arrivals, Arrival.item?]

omit [Record α] in
theorem Settles.sound {d : Turn α} (h : r.Settles d) (sound : r.aligner.Sound) :
    d.reader.aligner.Sound := by
  cases h with
  | exhausted => exact sound
  | emptied => exact Aligner.sound_of_idle (Aligner.closeAll_spec sound).1
  | released => exact Aligner.sound_of_idle (Aligner.closeAll_spec sound).1

theorem Sources.advance {d : Turn α} (h : r.Sources n items fresh t) (quiet : r.Quiet)
    (hd : r.Advances d) : d.reader.Sources n items fresh (t ++ d.activity) := by
  have channels := hd.leads.channels.trans h.channels
  cases hd with
  | @held item s take range blocked =>
    have stores := s.aligner.stores item
    refine h.same _ take.decoders channels (stores.sound (h.take take).2.2 blocked)
      (quiet.of_decoders take.decoders).buffered fun c _ => ?_
    rw [pending_held take blocked stores]
  | @fed channel bytes s take range free =>
    obtain ⟨decoders, -, sound⟩ := h.take take
    have hu := dealt_fed (α := α) channel bytes
    refine h.deal take free (decoders ▸ range) hu (fun _ _ => rfl) ?_ channels sound
      (.fed (quiet.of_decoders take.decoders) channel bytes) rfl
      (h.decoded.buffer quiet (by rw [take.decoders]) hu fun _ => rfl)
    rw [List.length_modify, decoders]
  | @dispatched channel e s take range free =>
    obtain ⟨decoders, width, sound⟩ := h.take take
    obtain ⟨feed, kept, same⟩ := s.dispatchEvent_reader channel e
    rw [decoders] at range
    obtain ⟨hu, ho⟩ := dispatchEvent_deals (width.symm ▸ range) e
    refine h.deal take free range hu (fun c other => by rw [ho, if_neg other])
      (same ▸ decoders) channels (sound_dispatchEvent sound channel e)
      (quiet.of_decoders (same.trans take.decoders)).buffered ?_
      (h.decoded.event quiet (same.trans take.decoders) hu ho)
    rw [pending, pending, kept, feed]
  | @stray item s take range =>
    obtain ⟨decoders, width, sound⟩ := h.take take
    rw [decoders] at range
    -- the item is dropped, and no channel of the aligner misses it
    have free : s.aligner.isBlocked item.channel = false := by
      refine Bool.eq_false_iff.mpr fun blocked => ?_
      have := sound.lt_of_isBlocked blocked
      omega
    refine h.same [] take.decoders channels sound
      (quiet.of_decoders take.decoders).buffered fun c hc => ?_
    have other : item.channel ≠ c := by omega
    rw [take.contentsOf sound free, if_neg other, List.nil_append]
  | @settled feed d dry settle =>
    obtain ⟨decoders, -, ns, told⟩ := settle.same
    rw [told]
    refine h.same ns decoders channels (settle.sound h.sound)
      (quiet.of_decoders decoders).buffered fun c _ => ?_
    rw [settle.pending, dry.pending]
  | failed empty fails =>
    refine h.same [] rfl channels h.sound quiet.buffered fun c _ => ?_
    rw [pending_failed fails]

theorem Sources.turn (h : r.Sources n items fresh t) :
    r.turn.reader.Sources n items fresh (t ++ r.turn.activity) := by
  have decodes := h.decodes r.decodes
  by_cases quiet : r.decodeCurrent.answer = none
  · rw [r.decodes.activity quiet, List.append_nil] at decodes
    rw [turn_of_quiet quiet]
    exact decodes.advance (h.buffered.quiet r.decodes quiet) (advances _)
  · rw [turn_of_answer quiet]
    exact decodes

/-- As long as nothing is dropped, everything comes from where it came from. -/
theorem Sources.obey {commands : List Command} (h : r.Sources n items fresh t)
    (keeps : .clearBuffers ∉ commands) :
    (r.obey commands).2.Sources n items fresh (t ++ trace (r.obey commands).1) :=
  obey_preserves (fun _ _ h _ => h.turn)
    (fun _ _ _ _ h =>
      ⟨h.decoders, h.channels, h.sound, h.buffered, h.order, h.strays, h.decoded⟩)
    (fun drops => absurd drops keeps) h

/-- What came out of a channel is the beginning of what a new decoder makes of what there is. -/
theorem Sources.outputs_prefix (h : r.Sources n items fresh t) {c : Nat} (hc : c < n) :
    dealt c t <+: contentsOf c items ∧
      outputs c t <+: ((fresh c).process c (contentsOf c items)).1 := by
  rw [← h.order c hc, Decoder.process_append]
  refine ⟨List.prefix_append _ _, ?_⟩
  have present : c < r.decoders.length := h.decoders.symm ▸ hc
  rw [← (h.decoded c _ (List.getElem?_eq_getElem present)).1, List.append_assoc]
  exact List.prefix_append _ _

theorem sources_afresh (s : Reader α) {decoders : List DecoderSettings}
    (channels : s.aligner.channels = decoders.length) (settings : AlignmentSettings) :
    (s.afresh decoders settings).Sources decoders.length s.undelivered
      (fun c => .new (decoders.getD c {})) [] := by
  have decoder : ∀ c d, (s.afresh decoders settings).decoders[c]? = some d →
      d = Decoder.new (decoders.getD c {}) := by
    intro c d hd
    obtain ⟨d', hd', rfl⟩ := Option.map_eq_some_iff.mp (List.getElem?_map.symm.trans hd)
    rw [List.getD_eq_getElem?_getD, hd', Option.getD_some]
  refine ⟨List.length_map _, channels, Aligner.sound_of_idle rfl, fun c d hd hb => ?_,
    fun c _ => rfl, fun c _ => ⟨rfl, rfl⟩, fun c d hd => ?_⟩
  · rw [decoder c d hd] at hb
    exact absurd rfl hb
  · rw [decoder c d hd, Decoder.drain_of_none rfl]
    exact ⟨rfl, rfl⟩

end Sources

section Isolation

theorem ofParts_channels {feed : Feed} {decoders : List (Decoder α)} {aligner : Aligner}
    {handler : Handler} {r : Reader α} (h : ofParts feed decoders aligner handler = .ok r) :
    aligner.channels = decoders.length := by
  unfold ofParts at h
  split at h
  · cases h
  · next none =>
    simp only [List.find?_eq_none, List.mem_cons, List.not_mem_nil, or_false, forall_eq_or_imp,
      forall_eq, bne_iff_ne, ne_eq, Classical.not_not] at none
    rw [none.1, none.2]

variable [Record α] {n : Nat} {settings : AlignmentSettings} {a : Aligner} {ops : List Operation}
  {feed : Feed} {decoders : List DecoderSettings} {handler : Handler} {r s : Reader α}

/-- What is dropped is no longer in flight, but still the newest checkpoint. -/
theorem notices_clearBuffers {k : Nat} (sound : s.aligner.bare.Sound)
    (current : s.aligner.current = some k) (more : List Command) :
    ∀ x ∈ notices (trace (s.clearBuffers.obey more).1), k < x.checkpoint := by
  intro x hx
  rw [← Aligner.current_bare] at current
  have progress := (leads_obey s.clearBuffers more).progress (Aligner.sound_of_idle rfl)
  rcases progress.fresh x hx with flight | newer
  · cases flight
  · exact Aligner.not_seen_iff.mp newer k (sound.latest_of_current current)

/-- What a reader with new decoders deals with was not delivered before. -/
theorem obey_afresh (channels : s.aligner.channels = decoders.length)
    (settings : AlignmentSettings) {more : List Command} (keeps : .clearBuffers ∉ more) :
    let later := trace ((s.afresh decoders settings).obey more).1
    (∀ c d, decoders[c]? = some d → dealt c later <+: contentsOf c s.undelivered ∧
      outputs c later <+: ((Decoder.new d).process c (contentsOf c s.undelivered)).1) ∧
    ∀ c, decoders.length ≤ c → dealt c later = [] ∧ outputs c later = [] := by
  have sources := (sources_afresh s channels settings).obey keeps
  rw [List.nil_append] at sources
  refine ⟨fun c d hd => ?_, fun c hc => sources.strays c hc⟩
  have settled := sources.outputs_prefix (List.getElem?_eq_some_iff.mp hd).1
  rwa [List.getD_eq_getElem?_getD, hd, Option.getD_some] at settled

/-- Dropping the buffers of a reader, whatever it was asked before and whatever it is in the middle
of, leaves a reader that has new decoders and holds nothing back.  So what comes out of a channel
later is the beginning of what a new decoder makes of what the gate had not delivered, and no notice
is about the checkpoint that was being aligned or an older one.  If the decoders are kept in
registers, what is left over in their cells cannot be told from cells that were never filled. -/
theorem clearBuffers_isolates (new : Aligner.new n settings = .ok a)
    (parts : ofParts feed (decoders.map fun d => .new d) (a.run ops).2 handler = .ok r)
    (past : List Command) :
    let s := (r.obey past).2
    s.clearBuffers = s.afresh decoders settings ∧
    (∀ more, .clearBuffers ∉ more →
      let later := trace (s.clearBuffers.obey more).1
      (∀ c d, decoders[c]? = some d → dealt c later <+: contentsOf c s.undelivered ∧
        outputs c later <+: ((Decoder.new d).process c (contentsOf c s.undelivered)).1) ∧
      ∀ c, decoders.length ≤ c → dealt c later = [] ∧ outputs c later = []) ∧
    (∀ k, s.aligner.current = some k → ∀ more,
      ∀ x ∈ notices (trace (s.clearBuffers.obey more).1), k < x.checkpoint) ∧
    let m := (r.inRegisters.obey past).2
    m.view = s ∧ ∀ more,
      let later := m.clearBuffers.obey more
      let new := (s.afresh decoders settings).inRegisters.obey more
      later.1 = new.1 ∧ later.2.view = new.2.view := by
  intro s
  obtain ⟨-, rfl⟩ := Aligner.new_spec new
  have width := ofParts_channels parts
  have made := ofParts_spec parts
  have given : r.decoderSettings = decoders := by
    rw [made, decoderSettings, List.map_map]
    exact List.map_id' decoders
  have begun : r.aligner.settings = settings ∧ r.aligner.bare.Sound := by
    have leads := Aligner.leads_run { closed := List.replicate n false, settings } ops
    rw [made]
    exact ⟨leads.settings, leads.sound (Aligner.sound_of_idle rfl)⟩
  have leads := r.leads_obey past
  have cleared : s.clearBuffers = s.afresh decoders settings := by
    rw [clearBuffers_eq, settings_obey, given, leads.settings, begun.1]
  have start : r.inRegisters.view = r := inRegisters_view (congrArg Reader.decoders made)
  obtain ⟨same, valid⟩ := Machine.obey_view r.valid_inRegisters past
  have seen : (r.inRegisters.obey past).2.view = s := by
    rw [start] at same
    exact (congrArg Prod.snd same).symm
  refine ⟨cleared, fun more keeps => ?_,
    fun k current => notices_clearBuffers (leads.sound begun.2) current, seen,
    Machine.obey_congr valid.clearBuffers (valid_inRegisters _) ?_⟩
  · rw [cleared]
    refine obey_afresh ?_ settings keeps
    rw [leads.channels, made, width, List.length_map]
  · rw [← Machine.clearBuffers_view, seen, inRegisters_view rfl]
    exact cleared

/-- The first channel is ahead with a record, and the second one is in the middle of a length when
everything is dropped. -/
def interrupted : List Item := [
  .event 0 (.barrier (.plain 1 0)), .buffer 0 [0, 0, 0, 1, 97],
  .buffer 1 [0, 0, 0, 1, 98, 0, 0], .buffer 1 [0, 0, 0, 1, 99],
  .event 1 (.barrier (.plain 1 0)), .event 0 .endOfPartition, .event 1 .endOfPartition]

/-- A reader of `interrupted`. -/
def interruptedReader : Reader Bytes where
  feed := .ofScript 2 interrupted
  decoders := [.new {}, .new {}]
  aligner := { closed := [false, false] }
  handler := .tracker (.new 2)

omit [Record α] in
theorem next_interrupted :
    interruptedReader.next.answer = .ok (.record [98]) ∧
      interruptedReader.next.reader.current = some 1 ∧
      interruptedReader.next.reader.aligner.current = some 1 ∧
      interruptedReader.next.reader.aligner.queue = [.buffer 0 [0, 0, 0, 1, 97]] := by
  rw [next_of_quiet rfl rfl, next_of_quiet rfl rfl, next_of_quiet rfl rfl, next_of_answer rfl rfl]
  exact ⟨rfl, rfl, rfl, rfl⟩

omit [Record α] in
theorem clearBuffers_isolates_interrupted :
    let s := (interruptedReader.obey [.next]).2
    Aligner.new 2 = .ok { closed := [false, false] } ∧ s.aligner.current = some 1 ∧
      s.clearBuffers = s.afresh [{}, {}] {} ∧
      ∀ more, ∀ x ∈ notices (trace (s.clearBuffers.obey more).1), 1 < x.checkpoint := by
  intro s
  have current : s.aligner.current = some 1 := next_interrupted.2.2.1
  let a : Aligner := { closed := [false, false] }
  have parts : ofParts (.ofScript 2 interrupted) ([{}, {}].map fun d => Decoder.new d)
    (a.run []).2 (.tracker (.new 2)) = .ok interruptedReader := rfl
  obtain ⟨cleared, -, told, -⟩ :=
    clearBuffers_isolates (show Aligner.new 2 = .ok a from rfl) parts [.next]
  exact ⟨rfl, current, cleared, told 1 current⟩

end Isolation

end Reader

end StreamCheckpoint
