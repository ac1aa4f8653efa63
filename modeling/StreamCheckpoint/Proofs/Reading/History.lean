import StreamCheckpoint.Proofs.Reading.WellFormed
import StreamCheckpoint.Proofs.Record.Frames

/-! The past of a reader against its present.  What was dealt with on a channel and what is pending
there make up what the script has for it, in order; what came out of the channel, together with what
its decoder has still to give, is what a decoder of its own makes of what was dealt with
(`Accounts`). -/

namespace StreamCheckpoint

namespace Reader

variable {α : Type} [Record α]

/-- `t` accounts for the reader: what has happened and what is pending are together the script, one
channel at a time, and decoders and handler are where what was dealt with has brought them. -/
structure Accounts (script : List Item) (fresh : Decoder α) (t : List (Activity α)) (r : Reader α) :
    Prop where
  order : ∀ c, dealt c t ++ contentsOf c r.pending = contentsOf c script
  decoded : ∀ c d, r.decoders[c]? = some d →
    outputs c t ++ d.drain.1.map (.ofOutcome c) = (fresh.process c (dealt c t)).1 ∧
      d.drain.2 = (fresh.process c (dealt c t)).2
  ended : ∀ tr c, r.handler = .tracker tr → tr.partitionEnded.getD c false = true →
    .event .endOfPartition ∈ dealt c t

/-- What came out of a channel, with what its decoder has still to give, is what the decoder
`fresh` of the channel makes of what was dealt with. -/
def Decoded (fresh : Nat → Decoder α) (t : List (Activity α)) (r : Reader α) : Prop :=
  ∀ c d, r.decoders[c]? = some d →
    outputs c t ++ d.drain.1.map (.ofOutcome c) = ((fresh c).process c (dealt c t)).1 ∧
      d.drain.2 = ((fresh c).process c (dealt c t)).2

variable {script : List Item} {fresh : Decoder α} {n : Nat} {r s : Reader α}
  {t u : List (Activity α)}

/-- What the handler is given of an event of `channel`. -/
def eventOutput (channel : Nat) : Event → List (Activity α)
  | .barrier _ => []
  | e => [.handled channel e]

theorem process_event (d : Decoder α) (channel : Nat) (e : Event) :
    d.process channel [.event e] = (eventOutput channel e, d) := by
  cases e <;> rfl

omit [Record α] in
theorem eventOutput_of_ne {e : Event} (h : ∀ b, e ≠ .barrier b) (channel : Nat) :
    eventOutput (α := α) channel e = [.handled channel e] := by
  cases e with
  | barrier b => exact absurd rfl (h b)
  | _ => rfl

omit [Record α] in
theorem dealt_handled (channel : Nat) (e : Event) (ds : List Delivery) (c : Nat) :
    dealt c ((.handled channel e : Activity α) :: ds.map .delivered) =
      if channel = c then [.event e] else [] := by
  by_cases hc : channel = c <;> simp [dealt, Activity.dealt?, hc]

omit [Record α] in
theorem outputs_handled (channel : Nat) (e : Event) (ds : List Delivery) (c : Nat) :
    outputs c ((.handled channel e : Activity α) :: ds.map .delivered) =
      if channel = c then [.handled channel e] else [] := by
  by_cases hc : channel = c <;> simp [outputs, Activity.isOutputOf, hc]

omit [Record α] in
/-- What is left of an event once the handler has got it. -/
theorem Handles.spec {channel : Nat} {e : Event} {tr : SuperstepTracker} {d : Turn α}
    (h : Handles s tr channel e d) (he : ∀ b, e ≠ .barrier b) :
    (∀ c, dealt c d.activity = if channel = c then [.event e] else []) ∧
      (∀ c, outputs c d.activity = if channel = c then eventOutput channel e else []) ∧
      d.reader.pending = s.pending ∧ d.reader.decoders = s.decoders ∧
      ∃ tr', d.reader.handler = .tracker tr' ∧
        tr'.partitionEnded = endedAfter tr.partitionEnded channel e := by
  rw [eventOutput_of_ne he]
  cases h with
  | proceeded ended => exact ⟨dealt_handled _ _ _, outputs_handled _ _ _, rfl, rfl, _, rfl, ended⟩
  | paused ended => exact ⟨dealt_handled _ _ _, outputs_handled _ _ _, rfl, rfl, _, rfl, ended⟩
  | finished ended => exact ⟨dealt_handled _ _ _, outputs_handled _ _ _, rfl, rfl, _, rfl, ended⟩

omit [Record α] in
theorem Handles.dealt_ended {channel : Nat} {tr : SuperstepTracker} {d : Turn α}
    (h : Handles s tr channel .endOfPartition d) (ns : List Notice) (c : Nat) :
    dealt c (ns.map .notice ++ d.activity) =
      if channel = c then [.event .endOfPartition] else [] := by
  rw [dealt_append, dealt_notices, List.nil_append, (h.spec nofun).1]

theorem Decodes.dealt {d : Turn α} (h : r.Decodes d) (t : List (Activity α)) (c : Nat) :
    dealt c (t ++ d.activity) = dealt c t := by
  cases h <;> simp [StreamCheckpoint.dealt]

namespace Decoded

variable {fresh : Nat → Decoder α}

theorem decodes {d : Turn α} (h : r.Decoded fresh t) (hd : r.Decodes d) :
    d.reader.Decoded fresh (t ++ d.activity) := by
  intro c' d' hd'
  rw [hd.dealt]
  cases hd with
  | idle => simpa using h c' d' hd'
  | @through c d current decoder buffer answer =>
    rw [List.append_nil]
    obtain ⟨hout, hlast⟩ := h c d decoder
    rw [Decoder.drain_of_buffer buffer, answer] at hout hlast
    simp only [List.getElem?_set] at hd'
    split at hd'
    · next he =>
      split at hd'
      · rw [← he, ← Option.some.inj hd']
        exact ⟨hout, hlast⟩
      · cases hd'
    · exact h c' d' hd'
  | @outcome c d o current' current decoder buffer answer keeps =>
    obtain ⟨hout, hlast⟩ := h c d decoder
    rw [Decoder.drain_of_buffer buffer, answer] at hout hlast
    simp only [List.getElem?_set] at hd'
    split at hd'
    · next he =>
      split at hd'
      · rw [← he, ← Option.some.inj hd']
        refine ⟨?_, hlast⟩
        rw [← hout]
        simp [outputs]
      · cases hd'
    · next he =>
      have ho : outputs c' (t ++ [Activity.ofOutcome c o]) = outputs c' t := by
        simp [outputs, he]
      rw [ho]
      exact h c' d' hd'

theorem same (h : r.Decoded fresh t) (decoders : s.decoders = r.decoders)
    (hu : ∀ c, dealt c u = []) (ho : ∀ c, outputs c u = []) : s.Decoded fresh (t ++ u) := by
  intro c d hd
  rw [dealt_append, outputs_append, hu, ho, List.append_nil, List.append_nil]
  exact h c d (decoders ▸ hd)

theorem event {channel : Nat} {e : Event} (h : r.Decoded fresh t) (quiet : r.Quiet)
    (decoders : s.decoders = r.decoders)
    (hu : ∀ c, dealt c u = if channel = c then [.event e] else [])
    (ho : ∀ c, outputs c u = if channel = c then eventOutput channel e else []) :
    s.Decoded fresh (t ++ u) := by
  intro c d hd
  rw [decoders] at hd
  obtain ⟨hout, hlast⟩ := h c d hd
  rw [dealt_append, outputs_append, Decoder.process_append, hu, ho]
  rw [Decoder.drain_of_none (quiet d (List.mem_of_getElem? hd))] at hout hlast ⊢
  rw [List.map_nil, List.append_nil] at hout ⊢
  by_cases hc : channel = c
  · rw [if_pos hc, if_pos hc, hc, process_event, ← hlast, hout]
    exact ⟨rfl, rfl⟩
  · rw [if_neg hc, if_neg hc, hout, hlast]
    simp [Decoder.process]

theorem buffer {channel : Nat} {bytes : Bytes} (h : r.Decoded fresh t) (quiet : r.Quiet)
    (decoders : s.decoders = r.decoders.modify channel (·.setBuffer bytes))
    (hu : ∀ c, dealt c u = if channel = c then [.buffer bytes] else [])
    (ho : ∀ c, outputs c u = []) : s.Decoded fresh (t ++ u) := by
  intro c d hd
  rw [decoders] at hd
  rw [dealt_append, outputs_append, Decoder.process_append, hu, ho, List.append_nil]
  by_cases hc : channel = c
  · rw [hc, List.getElem?_modify_eq] at hd
    obtain ⟨d', hd', rfl⟩ := Option.map_eq_some_iff.mp hd
    obtain ⟨hout, hlast⟩ := h c d' hd'
    rw [Decoder.drain_of_none (quiet d' (List.mem_of_getElem? hd'))] at hout hlast
    rw [List.map_nil, List.append_nil] at hout
    rw [if_pos hc, hout, ← hlast]
    simp [Decoder.process]
  · rw [List.getElem?_modify_ne _ _ hc] at hd
    rw [if_neg hc]
    simpa [Decoder.process] using h c d hd

end Decoded

namespace Accounts

theorem decodes {d : Turn α} (h : r.Accounts script fresh t) (hd : r.Decodes d) :
    d.reader.Accounts script fresh (t ++ d.activity) := by
  have hp := WellFormed.pending_decodes hd
  have handler : d.reader.handler = r.handler := by cases hd <;> rfl
  have decoded : r.Decoded (fun _ => fresh) t := h.decoded
  refine ⟨fun c => ?_, decoded.decodes hd, fun tr c htr hc => ?_⟩
  · rw [hd.dealt, hp]
    exact h.order c
  · rw [hd.dealt]
    exact h.ended tr c (handler ▸ htr) hc

section Dealing

variable {item : Item} {s' : Reader α}

theorem order_deal (h : r.Accounts script fresh t) (hw : r.WellFormed n) (take : r.Takes item s)
    (free : s.aligner.isBlocked item.channel = false)
    (hu : ∀ c, dealt c u = if item.channel = c then [item.content] else [])
    (hp : s'.pending = s.pending) (c : Nat) :
    dealt c (t ++ u) ++ contentsOf c s'.pending = contentsOf c script := by
  rw [dealt_append, hu, hp, List.append_assoc, ← hw.contentsOf_take take free]
  exact h.order c

theorem ended_same (h : r.Accounts script fresh t) (hh : s'.handler = r.handler)
    (u : List (Activity α)) (tr : SuperstepTracker) (c : Nat) (htr : s'.handler = .tracker tr)
    (hc : tr.partitionEnded.getD c false = true) : .event .endOfPartition ∈ dealt c (t ++ u) := by
  rw [dealt_append, List.mem_append]
  exact .inl (h.ended tr c (hh ▸ htr) hc)

theorem ended_after (h : r.Accounts script fresh t) {tr tr' : SuperstepTracker} {channel : Nat}
    {e : Event} (tracker : r.handler = .tracker tr)
    (hu : ∀ c, dealt c u = if channel = c then [.event e] else [])
    (ended : tr'.partitionEnded = endedAfter tr.partitionEnded channel e) (c : Nat)
    (hc : tr'.partitionEnded.getD c false = true) : .event .endOfPartition ∈ dealt c (t ++ u) := by
  rw [dealt_append, List.mem_append, hu]
  by_cases he : e = .endOfPartition ∧ channel = c
  · rw [if_pos he.2, he.1]
    exact .inr List.mem_cons_self
  · left
    refine h.ended tr c tracker ?_
    rw [ended] at hc
    unfold endedAfter at hc
    split at hc
    · rw [getD_set, if_neg fun hch => he ⟨rfl, hch.1⟩] at hc
      exact hc
    · exact hc

end Dealing

theorem step {d : Turn α} (h : r.Accounts script fresh t) (hw : r.WellFormed n) (quiet : r.Quiet)
    (hs : r.Steps d) : d.reader.Accounts script fresh (t ++ d.activity) := by
  have decoded : r.Decoded (fun _ => fresh) t := h.decoded
  cases hs with
  | @held item s kept take blocked stores =>
    refine ⟨fun c => ?_, decoded.same take.decoders (by simp) (by simp),
      h.ended_same take.handler _⟩
    rw [pending_held take blocked stores]
    simpa using h.order c
  | @fed channel bytes s take free =>
    have hu := dealt_fed (α := α) channel bytes
    refine ⟨h.order_deal hw take free hu rfl, ?_, h.ended_same take.handler _⟩
    exact decoded.buffer quiet (by rw [take.decoders]) hu (fun _ => rfl)
  | @offered channel b s answer o take free offers =>
    have hu := dealt_offered (α := α) channel b o.notices
    have ho : ∀ c, outputs c ((.offered channel b : Activity α) :: o.notices.map .notice) =
        if channel = c then eventOutput channel (.barrier b) else [] := by
      intro c
      rw [outputs_offered]
      simp [eventOutput]
    refine ⟨h.order_deal hw take free hu ?_, decoded.event quiet take.decoders hu ho,
      h.ended_same take.handler _⟩
    simp only [pending, offers.items]
  | @ended channel s c tr d take free closes tracker hd =>
    obtain ⟨hu, ho, hp, hdec, tr', htr, hended⟩ := hd.spec fun _ h => Event.noConfusion h
    have hu' := hd.dealt_ended c.notices
    refine ⟨h.order_deal hw take free hu' ?_,
      decoded.event quiet (hdec.trans take.decoders) hu' fun c' => ?_, fun tr'' c' htr'' => ?_⟩
    · rw [hp]
      simp only [pending, closes.items]
    · rw [outputs_append, outputs_notices, List.nil_append, ho]
    · obtain rfl := Handler.tracker.inj (htr.symm.trans htr'')
      exact h.ended_after (take.handler ▸ tracker) hu' hended c'
  | @handled channel e s tr d take free barrier ended tracker hd =>
    obtain ⟨hu, ho, hp, hdec, tr', htr, hended⟩ := hd.spec barrier
    refine ⟨h.order_deal hw take free hu hp,
      decoded.event quiet (hdec.trans take.decoders) hu ho, fun tr'' c' htr'' => ?_⟩
    obtain rfl := Handler.tracker.inj (htr.symm.trans htr'')
    exact h.ended_after (take.handler ▸ tracker) hu hended c'
  | settled dry empty settle =>
    obtain ⟨hdec, hh, ns, hn⟩ := settle.same
    rw [hn]
    refine ⟨fun c => ?_, decoded.same hdec (by simp) (by simp), h.ended_same hh _⟩
    rw [settle.pending, dealt_append, dealt_notices, List.append_nil]
    exact h.order c

theorem startNextSuperstep (h : r.Accounts script fresh t) :
    r.startNextSuperstep.Accounts script fresh t := by
  have hp := r.pending_startNextSuperstep
  unfold Reader.startNextSuperstep at hp ⊢
  cases hh : r.handler with
  | observer =>
    simp only [hh] at hp ⊢
    exact h
  | tracker tr =>
    simp only [hh] at hp ⊢
    refine ⟨fun c => hp ▸ h.order c, h.decoded, fun tr' c htr' hc => ?_⟩
    obtain rfl := Handler.tracker.inj htr'
    exact h.ended tr c hh hc

end Accounts

section Runs

variable {settings : ReaderSettings} {listener : Listener}

theorem accounts_new (h : new (Feed.ofScript n script) settings listener = .ok r) :
    r.Accounts script (.new settings.decoder) [] := by
  obtain ⟨-, rfl⟩ := new_spec h
  refine ⟨fun c => ?_, fun c d hd => ?_, fun tr c htr hc => ?_⟩
  · rw [pending, pending_ofScript]
    rfl
  · obtain ⟨-, rfl⟩ := List.mem_replicate.mp (List.mem_of_getElem? hd)
    rw [Decoder.drain_of_none rfl]
    exact ⟨rfl, rfl⟩
  · obtain rfl := Handler.tracker.inj htr
    simp only [SuperstepTracker.new, List.getD_eq_getElem?_getD, List.getElem?_replicate] at hc
    split at hc <;> cases hc

/-- What holds of a reader of `script` wherever its run can be. -/
structure Follows (n : Nat) (script : List Item) (fresh : Decoder α) (t : List (Activity α))
    (r : Reader α) : Prop where
  wellFormed : r.WellFormed n
  accounts : r.Accounts script fresh t

theorem Follows.decodes {d : Turn α} (h : r.Follows n script fresh t) (hd : r.Decodes d) :
    d.reader.Follows n script fresh (t ++ d.activity) :=
  ⟨h.wellFormed.decodes hd, h.accounts.decodes hd⟩

theorem Follows.step {d : Turn α} (h : r.Follows n script fresh t) (quiet : r.Quiet)
    (hs : r.Steps d) : d.reader.Follows n script fresh (t ++ d.activity) :=
  ⟨h.wellFormed.step quiet hs, h.accounts.step h.wellFormed quiet hs⟩

theorem Follows.turn (h : r.Follows n script fresh t) :
    r.turn.reader.Follows n script fresh (t ++ r.turn.activity) :=
  turn_preserves (fun _ _ hs => hs.wellFormed) (fun _ _ _ hs hd => hs.decodes hd)
    (fun _ _ _ hs quiet hd => hs.step quiet hd) h

theorem Follows.startNextSuperstep (h : r.Follows n script fresh t) :
    r.startNextSuperstep.Follows n script fresh t :=
  ⟨h.wellFormed.startNextSuperstep, h.accounts.startNextSuperstep⟩

theorem follows_new (h : new (Feed.ofScript n script) settings listener = .ok r)
    (range : ∀ i ∈ script, i.channel < n) : r.Follows n script (.new settings.decoder) [] :=
  ⟨wellFormed_new h range, accounts_new h⟩

end Runs

end Reader

end StreamCheckpoint
