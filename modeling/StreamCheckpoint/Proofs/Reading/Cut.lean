import StreamCheckpoint.Proofs.Alignment.Barriers
import StreamCheckpoint.Proofs.Reading.History

/-! The cut of a checkpoint.  As long as the gate delivers, a channel is marked as ended exactly if
its end was dealt with, and the aligner knows which barriers were (`Open`).  Therefore, when a
checkpoint is complete, every channel has just had its barrier dealt with, or has none and nothing
left but its end (`CutAt`).  If every channel ends, the gate is never exhausted with an alignment in
flight, and every checkpoint that is completed is a consistent cut (`consistent_cut`). -/

namespace StreamCheckpoint

variable {α : Type}

theorem split_left {β : Type} {xs ys before after : List β} {y : β}
    (h : xs ++ ys = before ++ y :: after) (hy : y ∉ ys) : ∃ rest, xs = before ++ y :: rest := by
  rcases List.append_eq_append_iff.mp h with ⟨as, rfl, hys⟩ | ⟨cs, rfl, hcs⟩
  · exact absurd (hys ▸ List.mem_append_right _ List.mem_cons_self) hy
  · cases cs with
    | nil => exact absurd (List.nil_append ys ▸ hcs ▸ List.mem_cons_self) hy
    | cons z cs =>
      obtain ⟨rfl, -⟩ := List.cons.inj hcs
      exact ⟨cs, rfl⟩

theorem split_notices {ns : List Notice} {before after : List (Activity α)} {x : Notice}
    (h : ns.map .notice = before ++ .notice x :: after) :
    x ∈ ns ∧ ∃ ns' : List Notice, before = ns'.map .notice := by
  obtain ⟨ns1, ns2, rfl, rfl, h2⟩ := List.map_eq_append_iff.mp h
  obtain ⟨n, ns3, rfl, hn, -⟩ := List.map_eq_cons_iff.mp h2
  obtain rfl := Activity.notice.inj hn
  exact ⟨List.mem_append_right _ List.mem_cons_self, ns1, rfl⟩

/-- `P` holds of what happened before every completion of a checkpoint in `t`. -/
def AtCompletions (P : List (Activity α) → Barrier → Prop) (t : List (Activity α)) : Prop :=
  ∀ before b after, t = before ++ .notice (.complete b) :: after → P before b

section AtCompletions

variable {P : List (Activity α) → Barrier → Prop} {t u : List (Activity α)}

theorem atCompletions_nil : AtCompletions P [] := by
  intro before b after h
  simp at h

theorem AtCompletions.append (ht : AtCompletions P t)
    (hu : AtCompletions (fun before b => P (t ++ before) b) u) : AtCompletions P (t ++ u) := by
  intro before b after h
  rcases List.append_eq_append_iff.mp h with ⟨as, rfl, he⟩ | ⟨cs, rfl, he⟩
  · exact hu as b after he
  · cases cs with
    | nil => simpa using hu [] b after he.symm
    | cons y cs =>
      obtain ⟨rfl, -⟩ := List.cons.inj he
      exact ht before b cs rfl

theorem AtCompletions.imp {Q : List (Activity α) → Barrier → Prop} (h : AtCompletions P t)
    (hq : ∀ before b, P before b → Q before b) : AtCompletions Q t :=
  fun before b after e => hq before b (h before b after e)

theorem AtCompletions.initial (h : AtCompletions P u) (ht : t <+: u) : AtCompletions P t := by
  obtain ⟨v, rfl⟩ := ht
  intro before b after e
  exact h before b (after ++ v) (by rw [e]; simp)

end AtCompletions

namespace Reader

variable {n : Nat} {script : List Item} {r s : Reader α} {t u : List (Activity α)}

theorem seeing_dealt {channel : Nat} {x : Content}
    (hu : ∀ c, dealt c u = if channel = c then [x] else []) :
    seeing (fun c => dealt c t) channel x = fun c => dealt c (t ++ u) := by
  funext c
  rw [dealt_append, hu, seeing]

/-- What is known of the channels before the gate is exhausted with an alignment in flight. -/
structure Open (n : Nat) (t : List (Activity α)) (r : Reader α) : Prop where
  knows : r.aligner.Knows fun c => dealt c t
  closed : ∀ c < n, r.aligner.isClosed c = true ↔ .event .endOfPartition ∈ dealt c t

theorem Takes.isClosed {item : Item} (take : r.Takes item s) (c : Nat) :
    s.aligner.isClosed c = r.aligner.isClosed c := by
  unfold Aligner.isClosed
  rw [take.closed]

theorem Takes.knows {item : Item} {seen : Nat → List Content} (take : r.Takes item s)
    (h : r.aligner.Knows seen) : s.aligner.Knows seen :=
  ⟨fun c k hk => take.latest ▸ h.latest c k hk, fun f c hf => h.blocked f c (take.inFlight ▸ hf),
    fun f c hf => h.free f c (take.inFlight ▸ hf)⟩

/-- The aligner knows what was dealt with, whatever is dealt with next. -/
theorem knows_step {d : Turn α} (h : r.aligner.Knows fun c => dealt c t) (hw : r.WellFormed n)
    (hs : r.Steps d) : d.reader.aligner.Knows fun c => dealt c (t ++ d.activity) := by
  cases hs with
  | held take blocked stores =>
    simp only [dealt_append, dealt_notices, List.append_nil]
    exact (take.knows h).stores stores
  | fed take free =>
    rw [← seeing_dealt (dealt_fed _ _)]
    exact (take.knows h).content free nofun
  | @offered channel b s answer o take free offers =>
    obtain ⟨hws, hcn⟩ := hw.take take
    have hch : channel < s.aligner.channels := by rwa [hws.channels]
    rw [← seeing_dealt (dealt_offered _ _ _)]
    exact (take.knows h).offers hws.sound hch free offers
  | @ended channel s c tr d take free closes tracker hd =>
    rw [← seeing_dealt (hd.dealt_ended c.notices), hd.aligner]
    exact ((take.knows h).closes closes).content (closes.free free) nofun
  | handled take free barrier ended tracker hd =>
    rw [← seeing_dealt (hd.spec barrier).1, hd.aligner]
    exact (take.knows h).content free fun b hb => barrier b (Content.event.inj hb)
  | settled dry empty settle =>
    obtain ⟨ns, hn⟩ := settle.same.2.2
    rw [hn]
    simp only [dealt_append, dealt_notices, List.append_nil]
    cases settle with
    | exhausted => exact h
    | emptied => exact h.closeAll hw.sound
    | released => exact h.closeAll hw.sound

namespace Open

theorem closed_deal {channel : Nat} {x : Content} (h : r.Open n t)
    (hu : ∀ c, dealt c u = if channel = c then [x] else []) (hx : x ≠ .event .endOfPartition)
    {c : Nat} (hc : c < n) :
    r.aligner.isClosed c = true ↔ .event .endOfPartition ∈ dealt c (t ++ u) := by
  rw [h.closed c hc, dealt_append, List.mem_append, hu]
  by_cases he : channel = c
  · simp [he, Ne.symm hx]
  · simp [he]

theorem step {d : Turn α} (h : r.Open n t) (hw : r.WellFormed n)
    (idle : r.feed.arrivals = [] → r.aligner.replay = [] → r.aligner.inFlight = none)
    (hs : r.Steps d) : d.reader.Open n (t ++ d.activity) := by
  refine ⟨knows_step h.knows hw hs, fun c hc => ?_⟩
  cases hs with
  | held take blocked stores =>
    rw [dealt_append, dealt_notices, List.append_nil, ← h.closed c hc, ← take.isClosed]
    unfold Aligner.isClosed
    rw [stores.same.1]
  | fed take free => rw [← h.closed_deal (dealt_fed _ _) nofun hc, ← take.isClosed]
  | offered take free offers =>
    rw [← h.closed_deal (dealt_offered _ _ _) nofun hc, ← take.isClosed]
    unfold Aligner.isClosed
    rw [offers.closed]
  | @ended channel s cl tr d take free closes tracker hd =>
    obtain ⟨hws, hcn⟩ := hw.take take
    have hch : channel < s.aligner.channels := by rwa [hws.channels]
    rw [hd.aligner, closes.isClosed hch, take.isClosed, dealt_append, List.mem_append,
      hd.dealt_ended, Bool.or_eq_true, h.closed c hc, beq_iff_eq]
    by_cases he : channel = c
    · simp [he]
    · simp [he, Ne.symm he]
  | handled take free barrier ended tracker hd =>
    rw [← h.closed_deal (hd.spec barrier).1 (fun he => ended (Content.event.inj he)) hc, hd.aligner,
      ← take.isClosed]
  | settled dry empty settle =>
    have hidle := idle dry empty
    cases settle with
    | exhausted => simpa using h.closed c hc
    | emptied flight => simp [Aligner.isAligning, hidle] at flight
    | released flight => simp [Aligner.isAligning, hidle] at flight

end Open

theorem Open.startNextSuperstep (h : r.Open n t) : r.startNextSuperstep.Open n t := by
  unfold Reader.startNextSuperstep
  split
  · exact ⟨h.knows, h.closed⟩
  · exact h

theorem open_new {settings : ReaderSettings} {listener : Listener}
    (h : new (Feed.ofScript n script) settings listener = .ok r) : r.Open n [] := by
  obtain ⟨-, rfl⟩ := new_spec h
  refine ⟨Aligner.knows_of_idle rfl fun c k hk => ?_, fun c hc => ?_⟩
  · obtain ⟨x, hx, -⟩ := hk
    cases hx
  · simp [Aligner.isClosed, List.getD_eq_getElem?_getD, hc]

theorem Handles.no_notice {tr : SuperstepTracker} {channel : Nat} {e : Event} {d : Turn α}
    (h : Handles r tr channel e d) (x : Notice) : .notice x ∉ d.activity := by
  cases h <;> simp

theorem atCompletions_of_no_notice {P : List (Activity α) → Barrier → Prop}
    (h : ∀ x, .notice x ∉ u) : AtCompletions P u := by
  intro before b after e
  exact absurd (e ▸ List.mem_append_right _ List.mem_cons_self) (h (.complete b))

variable [Record α] {fresh : Decoder α}

theorem Open.decodes {d : Turn α} (h : r.Open n t) (hd : r.Decodes d) :
    d.reader.Open n (t ++ d.activity) := by
  have haligner : d.reader.aligner = r.aligner := by cases hd <;> rfl
  refine ⟨?_, fun c hc => ?_⟩
  · simp only [hd.dealt, haligner]
    exact h.knows
  · rw [hd.dealt, haligner]
    exact h.closed c hc

/-- `before` is a cut for the checkpoint of `x`: every channel has just had its barrier dealt with,
or has none and nothing left but its end, and whatever was dealt with has come out. -/
structure CutAt (n : Nat) (script : List Item) (fresh : Decoder α) (before : List (Activity α))
    (x : Barrier) : Prop where
  outputs : ∀ c < n, outputs c before = (fresh.process c (dealt c before)).1
  cut : ∀ c < n, ∃ rest, contentsOf c script = dealt c before ++ rest ∧
    (Delivered x.id (dealt c before) ∨
      ¬Carries x.id (dealt c before) ∧ (rest = [] ∨ rest = [.event .endOfPartition]))

/-- Before the next item is taken, everything that was dealt with has come out. -/
theorem Follows.outputs_quiet (h : r.Follows n script fresh t) (quiet : r.Quiet) {c : Nat}
    (hc : c < n) : outputs c t = (fresh.process c (dealt c t)).1 := by
  have hlt : c < r.decoders.length := by rwa [h.wellFormed.decoders]
  have hout := (h.accounts.decoded c _ (List.getElem?_eq_getElem hlt)).1
  rwa [Decoder.drain_of_none (quiet _ (List.getElem_mem hlt)), List.map_nil,
    List.append_nil] at hout

theorem Follows.cutAt (h : r.Follows n script fresh t) (quiet : r.Quiet) {x : Barrier}
    (ns : List Notice) (cut : ∀ c < n, Delivered x.id (dealt c t) ∨
      ¬Carries x.id (dealt c t) ∧
        (contentsOf c r.pending = [] ∨ contentsOf c r.pending = [.event .endOfPartition])) :
    CutAt n script fresh (t ++ ns.map .notice) x := by
  refine ⟨fun c hc => ?_, fun c hc => ⟨contentsOf c r.pending, ?_, ?_⟩⟩
  · rw [outputs_append, outputs_notices, dealt_append, dealt_notices, List.append_nil,
      List.append_nil]
    exact h.outputs_quiet quiet hc
  · rw [dealt_append, dealt_notices, List.append_nil]
    exact (h.accounts.order c).symm
  · rw [dealt_append, dealt_notices, List.append_nil]
    exact cut c hc

section Cuts

variable {d : Turn α}

/-- What an ended channel has delivered is all that it has. -/
theorem Open.contentsOf_pending (h : r.Open n t) (hf : r.Follows n script fresh t)
    (last : ∀ c < n, EndsLast (contentsOf c script)) {c : Nat} (hc : c < n)
    (closed : r.aligner.isClosed c = true) : contentsOf c r.pending = [] := by
  have hlast := last c hc
  rw [← hf.accounts.order c] at hlast
  exact hlast.eq_nil ((h.closed c hc).mp closed)

theorem Follows.outputs_offered (h : r.Follows n script fresh t) (quiet : r.Quiet) (channel : Nat)
    (b : Barrier) (ns : List Notice) {c : Nat} (hc : c < n) :
    outputs c (t ++ (.offered channel b :: ns.map .notice)) =
      (fresh.process c (dealt c (t ++ (.offered channel b :: ns.map .notice)))).1 := by
  rw [outputs_append, StreamCheckpoint.outputs_offered, List.append_nil, dealt_append,
    dealt_offered, Decoder.process_append, h.outputs_quiet quiet hc]
  split <;> simp [Decoder.process]

theorem Open.cut_offered {channel : Nat} {b x : Barrier}
    {o : Reaction (Except AlignmentError Unit)} (h : r.Open n t)
    (hf : r.Follows n script fresh t) (quiet : r.Quiet)
    (last : ∀ c < n, EndsLast (contentsOf c script))
    (take : r.Takes ⟨channel, .event (.barrier b)⟩ s)
    (free : s.aligner.isBlocked channel = false) (offers : s.aligner.Offers channel b o)
    (hx : .complete x ∈ o.notices) (ns : List Notice) :
    CutAt n script fresh (t ++ (.offered channel b :: ns.map .notice)) x := by
  obtain ⟨hws, hcn⟩ := hf.wellFormed.take take
  have hch : channel < s.aligner.channels := by rwa [hws.channels]
  obtain ⟨hid, -, hall⟩ := offers.complete (take.knows h.knows) hws.sound hch hx
  have hu := dealt_offered (α := α) channel b ns
  rw [seeing_dealt hu, ← hid, hws.channels] at hall
  refine ⟨fun c hc => ?_, fun c hc => ⟨contentsOf c s.pending, ?_, (hall c hc).imp_right ?_⟩⟩
  · exact hf.outputs_offered quiet channel b ns hc
  · exact (hf.accounts.order_deal hf.wellFormed take free hu rfl c).symm
  · rintro ⟨closed, hk⟩
    have hnil := h.contentsOf_pending hf last hc (take.isClosed c ▸ closed)
    rw [hf.wellFormed.contentsOf_take take free] at hnil
    exact ⟨hk, .inl (List.append_eq_nil_iff.mp hnil).2⟩

theorem Open.cut_ended {channel : Nat} {x : Barrier} {c : Reaction (Except AlignmentError Unit)}
    (h : r.Open n t) (hf : r.Follows n script fresh t) (quiet : r.Quiet)
    (last : ∀ c < n, EndsLast (contentsOf c script))
    (take : r.Takes ⟨channel, .event .endOfPartition⟩ s)
    (free : s.aligner.isBlocked channel = false) (closes : s.aligner.Closes channel c)
    (hx : .complete x ∈ c.notices) (ns : List Notice) :
    CutAt n script fresh (t ++ ns.map .notice) x := by
  obtain ⟨hws, hcn⟩ := hf.wellFormed.take take
  have hch : channel < s.aligner.channels := by rwa [hws.channels]
  have hall := closes.complete (take.knows h.knows) hws.sound hch hx
  rw [hws.channels] at hall
  refine hf.cutAt quiet ns fun c hc => (hall c hc).imp_right ?_
  rintro ⟨closed | rfl, hk⟩
  · exact ⟨hk, .inl (h.contentsOf_pending hf last hc (take.isClosed c ▸ closed))⟩
  · refine ⟨hk, .inr ?_⟩
    have hlast := last c hc
    have hp := hf.wellFormed.contentsOf_take take free c
    rw [if_pos rfl] at hp
    rw [← hf.accounts.order c, hp, ← List.append_assoc] at hlast
    rw [hp, hlast.eq_nil (by simp), List.append_nil]

/-- When the gate is exhausted, only channels that are blocked have something left. -/
theorem Follows.contentsOf_dry {f : Alignment} (hf : r.Follows n script fresh t)
    (dry : r.feed.arrivals = []) (empty : r.aligner.replay = [])
    (flight : r.aligner.inFlight = some f) {c : Nat} (free : f.blocked.getD c false = false) :
    contentsOf c r.pending = [] := by
  rw [pending, dry, Aligner.items, empty, List.filterMap_nil, List.append_nil, List.append_nil,
    contentsOf_eq_nil]
  rintro i hi rfl
  have hb := hf.wellFormed.sound.isBlocked_queue hi
  rw [Aligner.isBlocked_of_inFlight flight, free] at hb
  cases hb

theorem Open.cut_settled {x : Barrier} (h : r.Open n t) (hf : r.Follows n script fresh t)
    (quiet : r.Quiet) (dry : r.feed.arrivals = []) (empty : r.aligner.replay = [])
    (hx : .complete x ∈ r.aligner.closeAll.1) (ns : List Notice) :
    CutAt n script fresh (t ++ ns.map .notice) x := by
  obtain ⟨f, flight, rfl, hall⟩ := Aligner.complete_closeAll h.knows hx
  refine hf.cutAt quiet ns fun c hc => (hall c).imp (·.2) ?_
  rintro ⟨free, hk⟩
  exact ⟨hk, .inl (hf.contentsOf_dry dry empty flight free)⟩

/-- Before the gate is exhausted with an alignment in flight, and when that happens, every completed
checkpoint is a cut. -/
theorem Open.cut (h : r.Open n t) (hf : r.Follows n script fresh t) (quiet : r.Quiet)
    (last : ∀ c < n, EndsLast (contentsOf c script)) (hs : r.Steps d) :
    AtCompletions (fun before x => CutAt n script fresh (t ++ before) x) d.activity := by
  intro before x after e
  have hmem : .notice (.complete x) ∈ d.activity := e ▸ by simp
  cases hs with
  | @held item s kept take blocked stores =>
    obtain ⟨hx, -⟩ := split_notices e
    cases stores <;> simp at hx
  | fed => simp at hmem
  | @offered channel b s answer o take free offers =>
    cases before with
    | nil => cases e
    | cons y before =>
      obtain ⟨rfl, tail⟩ := List.cons.inj e
      obtain ⟨hx, ns, rfl⟩ := split_notices tail
      exact h.cut_offered hf quiet last take free offers hx ns
  | @ended channel s c tr d take free closes tracker hd =>
    obtain ⟨rest, e⟩ := split_left e (hd.no_notice _)
    obtain ⟨hx, ns, rfl⟩ := split_notices e
    exact h.cut_ended hf quiet last take free closes hx ns
  | handled take free barrier ended tracker hd => exact absurd hmem (hd.no_notice _)
  | settled dry empty settle => cases settle with
    | exhausted => simp at hmem
    | emptied =>
      obtain ⟨hx, ns, rfl⟩ := split_notices e
      exact h.cut_settled hf quiet dry empty hx ns
    | released =>
      obtain ⟨hx, ns, rfl⟩ := split_notices e
      exact h.cut_settled hf quiet dry empty hx ns

theorem Decodes.no_notice (h : r.Decodes d) (x : Notice) : .notice x ∉ d.activity := by
  cases h with
  | @outcome c _ o =>
    intro hm
    have := congrArg Activity.outcome? (List.mem_singleton.mp hm)
    simp at this
  | _ => simp

end Cuts

/-- The records and errors that a new decoder finds in the buffers among `xs`, put together. -/
def decoding (settings : DecoderSettings) (xs : List Content) : List (Except DecodeError α) :=
  ((Decoder.new settings).setBuffer (xs.filterMap (·.buffer?)).flatten).drain.1

section Consistent

variable {settings : ReaderSettings} {listener : Listener}

/-- If every channel ends, the gate is not exhausted while a channel is waited for. -/
theorem Open.idle_of_dry (h : r.Open n t) (hf : r.Follows n script fresh t)
    (ended : ∀ c < n, .event .endOfPartition ∈ contentsOf c script)
    (dry : r.feed.arrivals = []) (empty : r.aligner.replay = []) : r.aligner.inFlight = none := by
  cases flight : r.aligner.inFlight with
  | none => rfl
  | some f =>
    -- nothing of the channel that is waited for is pending, so its end was dealt with
    obtain ⟨c, hc, hopen, free⟩ := (hf.wellFormed.sound f flight).waiting
    have hcn : c < n := by
      rw [← hf.wellFormed.channels]
      exact hc
    have hend := ended c hcn
    rw [← hf.accounts.order c, hf.contentsOf_dry dry empty flight free, List.append_nil,
      ← h.closed c hcn] at hend
    rw [Aligner.isClosed, hopen] at hend
    cases hend

/-- What holds of a reader at any time if every channel ends: every checkpoint completed so far was
a cut. -/
structure Cuts (n : Nat) (script : List Item) (fresh : Decoder α) (t : List (Activity α))
    (r : Reader α) : Prop where
  follows : r.Follows n script fresh t
  knows : r.Open n t
  cuts : AtCompletions (CutAt n script fresh) t

theorem Cuts.turn (h : r.Cuts n script fresh t) (last : ∀ c < n, EndsLast (contentsOf c script))
    (ended : ∀ c < n, .event .endOfPartition ∈ contentsOf c script) :
    r.turn.reader.Cuts n script fresh (t ++ r.turn.activity) := by
  refine turn_preserves (fun _ _ hs => hs.follows.wellFormed) (fun t s d hs hd => ?_)
    (fun t s d hs quiet hd => ?_) h
  · exact ⟨hs.follows.decodes hd, hs.knows.decodes hd,
      hs.cuts.append (atCompletions_of_no_notice hd.no_notice)⟩
  · exact ⟨hs.follows.step quiet hd,
      hs.knows.step hs.follows.wellFormed (hs.knows.idle_of_dry hs.follows ended) hd,
      hs.cuts.append (hs.knows.cut hs.follows quiet last hd)⟩

theorem cuts_serve (h : new (Feed.ofScript n script) settings listener = .ok r)
    (range : ∀ i ∈ script, i.channel < n) (last : ∀ c < n, EndsLast (contentsOf c script))
    (ended : ∀ c < n, .event .endOfPartition ∈ contentsOf c script) (calls : List Call) :
    AtCompletions (CutAt n script (.new settings.decoder)) (trace (r.serve calls).1) := by
  have hs := (reaches_serve r calls).induction
    (P := fun t s => s.Cuts n script (.new settings.decoder) t)
    ⟨follows_new h range, open_new h, atCompletions_nil⟩ (fun t s _ hs _ => hs.turn last ended)
    fun t s hs => ⟨hs.follows.startNextSuperstep, hs.knows.startNextSuperstep, hs.cuts⟩
  exact hs.cuts

/-- What was dealt with of a channel at a cut has the buffers, and no other events for the handler,
than what precedes the barrier. -/
theorem CutAt.filterMap_dealt {before : List (Activity α)} {x : Barrier} {c : Nat}
    (h : CutAt n script fresh before x) (hc : c < n) :
    (dealt c before).filterMap (·.buffer?) =
        (preceding x.id (contentsOf c script)).filterMap (·.buffer?) ∧
      (dealt c before).filterMap (·.handled?) <+:
        (preceding x.id (contentsOf c script)).filterMap (·.handled?) := by
  obtain ⟨rest, e, ⟨pre, b, hd, hb, hn⟩ | ⟨hn, rfl | rfl⟩⟩ := h.cut c hc
  · rw [e, hd, List.append_assoc, List.singleton_append,
      preceding_barrier hn (isBarrierOf_barrier.mpr hb)]
    simp [Content.buffer?, Content.handled?]
  · rw [e, List.append_nil, preceding_of_not_carries hn]
    simp
  · rw [e, preceding_append hn]
    simp [preceding, Content.buffer?, Content.isBarrierOf]

theorem CutAt.results_eq {before : List (Activity α)} {x : Barrier} {c : Nat}
    (h : CutAt n script (.new settings.decoder) before x) (hc : c < n) :
    results c before = decoding settings.decoder (preceding x.id (contentsOf c script)) := by
  rw [results, h.outputs c hc, (Decoder.outcomes_process _ _ _).1,
    (h.filterMap_dealt hc).1, Decoder.readBuffers_new, decoding]

theorem CutAt.handled_prefix {before : List (Activity α)} {x : Barrier} {c : Nat}
    (h : CutAt n script fresh before x) (hc : c < n) :
    handled c before <+: (preceding x.id (contentsOf c script)).filterMap (·.handled?) := by
  rw [handled, h.outputs c hc, Decoder.events_process]
  exact (h.filterMap_dealt hc).2

/-- Every completed checkpoint is a consistent cut. -/
theorem consistent_cut (h : new (Feed.ofScript n script) settings listener = .ok r)
    (range : ∀ i ∈ script, i.channel < n) (last : ∀ c < n, EndsLast (contentsOf c script))
    (ended : ∀ c < n, .event .endOfPartition ∈ contentsOf c script) (calls : List Call)
    {earlier later : List (Reply α)} {p : Reply α} {u v : List (Activity α)} {b : Barrier}
    (replies : (r.serve calls).1 = earlier ++ p :: later)
    (complete : p.activity = u ++ .notice (.complete b) :: v) :
    ∀ c < n,
      results c (trace earlier) = decoding settings.decoder (preceding b.id (contentsOf c script)) ∧
      handled c (trace earlier ++ u) <+:
        (preceding b.id (contentsOf c script)).filterMap (·.handled?) := by
  intro c hc
  have hcut := cuts_serve h range last ended calls (trace earlier ++ u) b (v ++ trace later)
    (by rw [replies]; simp [complete])
  have hsilent : results c u = [] := by
    have hp := r.lastOutcome_serve calls p (by rw [replies]; simp)
    refine List.filterMap_eq_nil_iff.mpr fun a ha => ?_
    exact hp.before complete a (List.mem_filter.mp ha).1
  have hres := hcut.results_eq hc
  rw [results_append, hsilent, List.append_nil] at hres
  exact ⟨hres, hcut.handled_prefix hc⟩

theorem consistent_cut_crossing :
    ∃ (calls : List Call) (earlier later : List (Reply Bytes)) (p : Reply Bytes)
      (u v : List (Activity Bytes)),
      (crossingReader.serve calls).1 = earlier ++ p :: later ∧
      p.activity = u ++ .notice (.complete (.plain 1 0)) :: v ∧
      results 0 (trace earlier) = decoding {} [] ∧
      results 1 (trace earlier) = decoding {} [.buffer [0, 0, 0, 1, 98]] := by
  obtain ⟨calls, ht⟩ := (crossingReader.reaches_after (k := 5) (by decide)).exists_serve
  obtain ⟨earlier, p, later, u, v, replies, complete⟩ :=
    exists_of_mem_trace (x := .notice (.complete (.plain 1 0))) (ht.subset (by decide))
  have hcut :=
    consistent_cut new_crossing (by decide) (by decide) (by decide) calls replies complete
  exact ⟨calls, earlier, later, p, u, v, replies, complete, (hcut 0 (by decide)).1,
    (hcut 1 (by decide)).1⟩

end Consistent

end Reader

end StreamCheckpoint
