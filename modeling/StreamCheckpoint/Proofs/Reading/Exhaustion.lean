import StreamCheckpoint.Proofs.Reading.Cut
import StreamCheckpoint.Proofs.Reading.Delivery

/-! What becomes of the cut when the gate is exhausted with an alignment in flight.  Every channel
is marked as ended then, also one whose next barriers are only held back; from then on every new
barrier completes its checkpoint at once (`Drained`).  Such a checkpoint is a cut exactly if no
other channel has something held back in front of its barrier (`InStep`, `exhausted_cut_iff`). -/

namespace StreamCheckpoint

/-- The newest checkpoint once `item` was dealt with. -/
def newestAfter (latest : Option Nat) (item : Item) : Option Nat :=
  match item.content with
  | .event (.barrier b) => if latest.any (b.id ≤ ·) then latest else some b.id
  | _ => latest

/-- The checkpoint that `item` completes at once when every channel is marked as ended. -/
def completedBy (latest : Option Nat) (item : Item) : Option Barrier :=
  match item.content with
  | .event (.barrier b) => if latest.any (b.id ≤ ·) || b.isCancel then none else some b
  | _ => none

/-- Whenever an item of the queue completes a checkpoint at once, every other channel that has a
barrier of it further back has that barrier next. -/
def InStep (channels : Nat) (latest : Option Nat) : List Item → Prop
  | [] => True
  | item :: rest =>
    (∀ b, completedBy latest item = some b → ∀ c < channels, c ≠ item.channel →
      Carries b.id (contentsOf c rest) → preceding b.id (contentsOf c rest) = []) ∧
    InStep channels (newestAfter latest item) rest

theorem inStep_of_channel {channels k : Nat} {latest : Option Nat} {items : List Item}
    (h : ∀ i ∈ items, i.channel = k) : InStep channels latest items := by
  induction items generalizing latest with
  | nil => trivial
  | cons item rest ih =>
    refine ⟨?_, ih fun i hi => h i (List.mem_cons_of_mem _ hi)⟩
    intro b _ c _ hne hcarries
    have hnil : contentsOf c rest = [] := by
      rw [contentsOf_eq_nil]
      intro i hi hc
      have hk := h i (List.mem_cons_of_mem _ hi)
      have hitem := h item List.mem_cons_self
      omega
    rw [hnil] at hcarries
    obtain ⟨x, hx, -⟩ := hcarries
    cases hx

namespace Aligner

variable {a : Aligner} {channel : Nat} {b : Barrier} {r : Reaction (Except AlignmentError Unit)}

/-- When every channel has ended, a barrier begins no alignment. -/
theorem Offers.drained (ho : a.Offers channel b r) (idle : a.inFlight = none)
    (closed : ∀ c < a.channels, a.isClosed c = true) (hc : channel < a.channels) :
    r.aligner.inFlight = none ∧ r.aligner.replay = a.replay ∧
      r.aligner.latest = newestAfter a.latest ⟨channel, .event (.barrier b)⟩ ∧
      (∀ x, completedBy a.latest ⟨channel, .event (.barrier b)⟩ = some x →
        x = b ∧ r.notices = [.complete b]) ∧
      (completedBy a.latest ⟨channel, .event (.barrier b)⟩ = none →
        ∀ x, .complete x ∉ r.notices) := by
  have flightless : ∀ {f}, a.inFlight ≠ some f := by
    intro f hf
    rw [idle] at hf
    cases hf
  have hnewer : (∀ l, a.latest = some l → l < b.id) → a.latest.any (b.id ≤ ·) = false := by
    intro newer
    cases hl : a.latest with
    | none => rfl
    | some l => simpa using newer l hl
  cases ho with
  | @stale l latest old other =>
    rw [idle] at latest
    have hl : a.latest = some l := latest
    have hany : a.latest.any (b.id ≤ ·) = true := by simpa [hl] using old
    refine ⟨idle, rfl, ?_, fun x hx => ?_, fun _ x hx => ?_⟩
    · simp only [newestAfter, hany, if_true]
      rfl
    · simp [completedBy, hany] at hx
    · cases hx
  | cancelled flight => exact absurd flight flightless
  | duplicate flight => exact absurd flight flightless
  | joined flight => exact absurd flight flightless
  | completed flight => exact absurd flight flightless
  | refused clear cancel =>
    cases clear with
    | superseded flight => exact absurd flight flightless
    | idle _ newer =>
      refine ⟨idle, rfl, ?_, fun x hx => ?_, fun _ x hx => ?_⟩
      · simp [newestAfter, hnewer newer]
      · simp [completedBy, cancel] at hx
      · simp at hx
  | instant clear plain =>
    cases clear with
    | superseded flight => exact absurd flight flightless
    | idle _ newer =>
      refine ⟨idle, rfl, ?_, fun x hx => ?_, fun hn => ?_⟩
      · simp [newestAfter, hnewer newer]
      · simp only [completedBy, hnewer newer, plain, Bool.or_self, Bool.false_eq_true, if_false,
          Option.some.injEq] at hx
        exact ⟨hx.symm, rfl⟩
      · simp [completedBy, hnewer newer, plain] at hn
  | begun clear plain waiting =>
    exact absurd ((first_complete_iff hc b).mpr fun c hcn => .inl (closed c hcn)) waiting

theorem Closes.drained (h : a.Closes channel r) (idle : a.inFlight = none) :
    r.aligner.inFlight = none ∧ r.aligner.replay = a.replay ∧ r.aligner.latest = a.latest ∧
      r.notices = [] := by
  have flightless : ∀ {f}, a.inFlight ≠ some f := by
    intro f hf
    rw [idle] at hf
    cases hf
  cases h with
  | again => exact ⟨idle, rfl, rfl, rfl⟩
  | idle => exact ⟨idle, rfl, rfl, rfl⟩
  | waiting _ flight => exact absurd flight flightless
  | completed _ flight => exact absurd flight flightless
  | aborted _ flight => exact absurd flight flightless

end Aligner

namespace Reader

variable {α : Type} {n : Nat} {script : List Item} {r s : Reader α} {t u : List (Activity α)}

/-- The gate is exhausted and every channel is marked as ended. -/
structure Drained (n : Nat) (t : List (Activity α)) (r : Reader α) : Prop where
  idle : r.aligner.inFlight = none
  dry : r.feed.arrivals = []
  closed : ∀ c < n, r.aligner.isClosed c = true
  knows : r.aligner.Knows fun c => dealt c t

theorem Takes.of_dry {item : Item} (take : r.Takes item s) (dry : r.feed.arrivals = []) :
    r.aligner.replay = item :: s.aligner.replay ∧ s.feed.arrivals = [] := by
  cases take with
  | replayed replay => exact ⟨replay, dry⟩
  | arrived _ feed => rw [dry] at feed; cases feed

theorem completedBy_of_event {latest : Option Nat} {channel : Nat} {e : Event}
    (h : ∀ b, e ≠ .barrier b) : completedBy latest ⟨channel, .event e⟩ = none := by
  cases e with
  | barrier b => exact absurd rfl (h b)
  | _ => rfl

theorem newestAfter_of_event {latest : Option Nat} {channel : Nat} {e : Event}
    (h : ∀ b, e ≠ .barrier b) : newestAfter latest ⟨channel, .event e⟩ = latest := by
  cases e with
  | barrier b => exact absurd rfl (h b)
  | _ => rfl

theorem completedBy_eq_some {latest : Option Nat} {item : Item} {b : Barrier}
    (h : completedBy latest item = some b) :
    item.content = .event (.barrier b) ∧ latest.any (b.id ≤ ·) = false := by
  obtain ⟨channel, content⟩ := item
  cases content with
  | buffer bytes => cases h
  | event e => cases e with
    | barrier x =>
      simp only [completedBy] at h
      split at h
      · cases h
      · next hn =>
        obtain rfl := Option.some.inj h
        rw [Bool.or_eq_true, not_or] at hn
        exact ⟨rfl, by simpa using hn.1⟩
    | _ => cases h

/-- A drained reader deals with what waits for replay, item by item, and completes a checkpoint with
every barrier that begins one. -/
theorem Drained.step {d : Turn α} (h : r.Drained n t) (hw : r.WellFormed n) (hs : r.Steps d) :
    (r.aligner.replay = [] ∧ d.activity = [] ∧ d.reader.aligner = r.aligner) ∨
      ∃ item rest, r.aligner.replay = item :: rest ∧ d.reader.aligner.replay = rest ∧
        d.reader.aligner.latest = newestAfter r.aligner.latest item ∧
        (∀ b, completedBy r.aligner.latest item = some b →
          d.activity = [.offered item.channel b, .notice (.complete b)]) ∧
        (completedBy r.aligner.latest item = none →
          ∀ x, .notice (.complete x) ∉ d.activity) := by
  cases hs with
  | held take blocked =>
    rw [take.isBlocked, Aligner.isBlocked_of_idle h.idle] at blocked
    cases blocked
  | fed take =>
    exact .inr ⟨_, _, (take.of_dry h.dry).1, rfl, take.latest, nofun, by simp⟩
  | @offered channel b s answer o take free offers =>
    obtain ⟨hws, hcn⟩ := hw.take take
    have hch : channel < s.aligner.channels := by rwa [hws.channels]
    have hclosed : ∀ c < s.aligner.channels, s.aligner.isClosed c = true := by
      intro c hc
      rw [take.isClosed]
      exact h.closed c (hws.channels ▸ hc)
    obtain ⟨-, hreplay, hlatest, hsome, hnone⟩ :=
      offers.drained (take.inFlight.trans h.idle) hclosed hch
    rw [take.latest] at hlatest hsome hnone
    refine .inr ⟨_, _, (take.of_dry h.dry).1, hreplay, hlatest, fun x hx => ?_, fun hx x hm => ?_⟩
    · obtain ⟨rfl, hn⟩ := hsome x hx
      simp [hn]
    · exact hnone hx x (by simpa using hm)
  | @ended channel s c tr d take free closes tracker hd =>
    obtain ⟨-, hreplay, hlatest, hn⟩ := closes.drained (take.inFlight.trans h.idle)
    refine .inr ⟨_, _, (take.of_dry h.dry).1, ?_, ?_, nofun, fun _ x hm => ?_⟩
    · rw [hd.aligner, hreplay]
    · rw [hd.aligner, hlatest, take.latest]
      rfl
    · rw [hn] at hm
      exact hd.no_notice _ (by simpa using hm)
  | handled take free barrier ended tracker hd =>
    refine .inr ⟨_, _, (take.of_dry h.dry).1, ?_, ?_, fun b hb => ?_, fun _ x => hd.no_notice _⟩
    · rw [hd.aligner]
    · rw [hd.aligner, take.latest, newestAfter_of_event barrier]
    · rw [completedBy_of_event barrier] at hb
      cases hb
  | settled dry empty settle => cases settle with
    | exhausted => exact .inl ⟨empty, rfl, rfl⟩
    | emptied flight => simp [Aligner.isAligning, h.idle] at flight
    | released flight => simp [Aligner.isAligning, h.idle] at flight

theorem Drained.preserved {d : Turn α} (h : r.Drained n t) (hw : r.WellFormed n)
    (hs : r.Steps d) : d.reader.Drained n (t ++ d.activity) := by
  have knows := knows_step h.knows hw hs
  cases hs with
  | held take blocked =>
    rw [take.isBlocked, Aligner.isBlocked_of_idle h.idle] at blocked
    cases blocked
  | fed take =>
    refine ⟨take.inFlight.trans h.idle, (take.of_dry h.dry).2, fun c hc => ?_, knows⟩
    exact (take.isClosed c).trans (h.closed c hc)
  | @offered channel b s answer o take free offers =>
    obtain ⟨hws, hcn⟩ := hw.take take
    have hch : channel < s.aligner.channels := by rwa [hws.channels]
    have hclosed : ∀ c < n, s.aligner.isClosed c = true := fun c hc =>
      (take.isClosed c).trans (h.closed c hc)
    refine ⟨(offers.drained (take.inFlight.trans h.idle) (hws.channels ▸ hclosed) hch).1,
      (take.of_dry h.dry).2, fun c hc => ?_, knows⟩
    rw [Aligner.isClosed, offers.closed]
    exact hclosed c hc
  | @ended channel s c tr d take free closes tracker hd =>
    obtain ⟨hws, hcn⟩ := hw.take take
    have hch : channel < s.aligner.channels := by rwa [hws.channels]
    refine ⟨?_, ?_, fun c' hc => ?_, knows⟩
    · rw [hd.aligner]
      exact (closes.drained (take.inFlight.trans h.idle)).1
    · rw [hd.feed]
      exact (take.of_dry h.dry).2
    · rw [hd.aligner, closes.isClosed hch, take.isClosed, h.closed c' hc, Bool.true_or]
  | handled take free barrier ended tracker hd =>
    refine ⟨?_, ?_, fun c hc => ?_, knows⟩
    · rw [hd.aligner]
      exact take.inFlight.trans h.idle
    · rw [hd.feed]
      exact (take.of_dry h.dry).2
    · rw [hd.aligner, take.isClosed]
      exact h.closed c hc
  | settled dry empty settle => cases settle with
    | exhausted => exact ⟨h.idle, h.dry, h.closed, knows⟩
    | emptied flight => simp [Aligner.isAligning, h.idle] at flight
    | released flight => simp [Aligner.isAligning, h.idle] at flight

/-- When the gate is exhausted with an alignment in flight, everything that is held back is released
and every channel is marked as ended. -/
theorem Open.drains {d : Turn α} (h : r.Open n t) (hw : r.WellFormed n) (hs : r.Steps d)
    (dry : r.feed.arrivals = []) (empty : r.aligner.replay = [])
    (aligning : r.aligner.isAligning = true) :
    d.reader.Drained n (t ++ d.activity) ∧ d.reader.aligner.replay = r.aligner.queue ∧
      d.reader.aligner.latest = r.aligner.latest := by
  have hsettle : r.Settles d := by
    have hno : ∀ {item : Item} {s : Reader α}, ¬r.Takes item s := by
      intro item s take
      have := (take.of_dry dry).1
      rw [empty] at this
      cases this
    cases hs with
    | settled _ _ settle => exact settle
    | held take => exact absurd take hno
    | fed take => exact absurd take hno
    | offered take => exact absurd take hno
    | ended take => exact absurd take hno
    | handled take => exact absurd take hno
  have knows := knows_step h.knows hw hs
  obtain ⟨hidle, hreplay, hlatest, -, hclosed⟩ := Aligner.closeAll_spec hw.sound
  rw [hw.channels] at hclosed
  have hqueue : r.aligner.closeAll.2.replay = r.aligner.queue := by
    rw [hreplay, Aligner.items, empty, List.append_nil]
  cases hsettle with
  | exhausted idle => simp [Aligner.isAligning, idle] at aligning
  | emptied => exact ⟨⟨hidle, dry, hclosed, knows⟩, hqueue, hlatest⟩
  | released => exact ⟨⟨hidle, dry, hclosed, knows⟩, hqueue, hlatest⟩

theorem Open.step_or_drains {d : Turn α} (h : r.Open n t) (hw : r.WellFormed n)
    (hs : r.Steps d) :
    d.reader.Open n (t ++ d.activity) ∨
      (r.feed.arrivals = [] ∧ r.aligner.replay = [] ∧ r.aligner.isAligning = true) := by
  by_cases hdry : r.feed.arrivals = [] ∧ r.aligner.replay = [] ∧ r.aligner.isAligning = true
  · exact .inr hdry
  · refine .inl (h.step hw (fun dry empty => ?_) hs)
    cases hf : r.aligner.inFlight with
    | none => rfl
    | some f => exact absurd ⟨dry, empty, by simp [Aligner.isAligning, hf]⟩ hdry

theorem Drained.startNextSuperstep (h : r.Drained n t) : r.startNextSuperstep.Drained n t := by
  unfold Reader.startNextSuperstep
  split
  · exact ⟨h.idle, h.dry, h.closed, h.knows⟩
  · exact h

theorem atCompletions_offered {P : List (Activity α) → Barrier → Prop} {channel : Nat} {b : Barrier}
    (h : P [.offered channel b] b) :
    AtCompletions P [.offered channel b, .notice (.complete b)] := by
  intro before x after e
  cases before with
  | nil => cases e
  | cons y before =>
    obtain ⟨rfl, e1⟩ := List.cons.inj e
    cases before with
    | nil =>
      obtain ⟨he, -⟩ := List.cons.inj e1
      obtain rfl := Notice.complete.inj (Activity.notice.inj he)
      exact h
    | cons z before =>
      obtain ⟨-, e2⟩ := List.cons.inj e1
      cases before <;> cases e2

theorem Drained.congr (h : r.Drained n t) (aligner : s.aligner = r.aligner) (feed : s.feed = r.feed)
    (hdealt : ∀ c, dealt c u = dealt c t) : s.Drained n u := by
  refine ⟨aligner ▸ h.idle, feed ▸ h.dry, aligner ▸ h.closed, ?_⟩
  simp only [hdealt, aligner]
  exact h.knows

theorem Open.congr (h : r.Open n t) (aligner : s.aligner = r.aligner)
    (hdealt : ∀ c, dealt c u = dealt c t) : s.Open n u := by
  refine ⟨?_, fun c hc => ?_⟩
  · simp only [hdealt, aligner]
    exact h.knows
  · rw [aligner, hdealt]
    exact h.closed c hc

variable [Record α] {fresh : Decoder α}

/-- When the checkpoint of `b` was completed, everything was processed that any channel delivers
before its barrier of it. -/
def Processed (n : Nat) (script : List Item) (fresh : Decoder α) (before : List (Activity α))
    (b : Barrier) : Prop :=
  ∀ c < n, Carries b.id (contentsOf c script) →
    preceding b.id (contentsOf c script) <+: dealt c before ∧
      outputs c before = (fresh.process c (dealt c before)).1

theorem CutAt.processed {before : List (Activity α)} {b : Barrier}
    (h : CutAt n script fresh before b) : Processed n script fresh before b := by
  intro c hc hcarries
  refine ⟨?_, h.outputs c hc⟩
  obtain ⟨rest, e, ⟨pre, x, hd, hx, hn⟩ | ⟨hn, rfl | rfl⟩⟩ := h.cut c hc
  · rw [e, hd, List.append_assoc, List.singleton_append,
      preceding_barrier hn (isBarrierOf_barrier.mpr hx)]
    exact List.prefix_append _ _
  · rw [e, List.append_nil] at hcarries
    exact absurd hcarries hn
  · rw [e, carries_append] at hcarries
    rcases hcarries with hcarries | ⟨x, hx, hxb⟩
    · exact absurd hcarries hn
    · rw [List.mem_singleton.mp hx] at hxb
      cases hxb

/-- A channel other than that of a new barrier has processed what it has before its own barrier
exactly if it has nothing in front of it that waits for replay. -/
theorem Drained.processed_iff {item : Item} {rest : List Item} {b : Barrier}
    (h : r.Drained n t) (hf : r.Follows n script fresh t) (quiet : r.Quiet)
    (replay : r.aligner.replay = item :: rest)
    (completes : completedBy r.aligner.latest item = some b) :
    Processed n script fresh (t ++ [.offered item.channel b]) b ↔
      ∀ c < n, c ≠ item.channel → Carries b.id (contentsOf c rest) →
        preceding b.id (contentsOf c rest) = [] := by
  obtain ⟨hcontent, newer⟩ := completedBy_eq_some completes
  -- the checkpoint is new, so its barriers on other channels are all still to come
  have hfree : ∀ c, ¬Carries b.id (dealt c t) := by
    intro c hc
    obtain ⟨l, hl, hle⟩ := h.knows.latest c _ hc
    simp [hl, hle] at newer
  have hpending : r.pending = item :: rest := by
    rw [pending, h.dry, Aligner.items, Aligner.queue_of_idle h.idle, replay]
    simp
  have hoffered : ∀ c, dealt c [(.offered item.channel b : Activity α)] =
      if item.channel = c then [.event (.barrier b)] else [] := dealt_offered item.channel b []
  have hscript : ∀ c, contentsOf c script =
      dealt c (t ++ [.offered item.channel b]) ++ contentsOf c rest := by
    intro c
    rw [← hf.accounts.order c, hpending, contentsOf_cons, dealt_append,
      hoffered, hcontent, List.append_assoc]
  have hout := fun c (hc : c < n) => hf.outputs_offered quiet item.channel b [] hc
  have hother : ∀ c, c ≠ item.channel → dealt c (t ++ [.offered item.channel b]) = dealt c t := by
    intro c hne
    rw [dealt_append, hoffered, if_neg hne.symm, List.append_nil]
  constructor
  · intro hp c hc hne hcarries
    have hpre := (hp c hc (by rw [hscript, carries_append]; exact .inr hcarries)).1
    rw [hscript, hother c hne, preceding_append (hfree c)] at hpre
    have hlen := hpre.length_le
    rw [List.length_append] at hlen
    exact List.length_eq_zero_iff.mp (by omega)
  · intro hrest c hc hcarries
    refine ⟨?_, hout c hc⟩
    by_cases hne : c = item.channel
    · subst hne
      rw [hscript, dealt_append, hoffered, if_pos rfl, List.append_assoc,
        List.singleton_append, preceding_barrier (hfree _) (isBarrierOf_barrier.mpr rfl)]
      exact List.prefix_append _ _
    · rw [hscript, hother c hne, carries_append, or_iff_right (hfree c)] at hcarries
      refine ⟨[], ?_⟩
      rw [List.append_nil, hscript, hother c hne, preceding_append (hfree c),
        hrest c hc hne hcarries, List.append_nil]

/-- Every completed checkpoint had what precedes its barriers processed, and the replay is in step
once the gate is exhausted. -/
structure Keeps (n : Nat) (script : List Item) (fresh : Decoder α) (t : List (Activity α))
    (r : Reader α) : Prop where
  follows : r.Follows n script fresh t
  processed : AtCompletions (Processed n script fresh) t
  phase : r.Open n t ∨ r.Drained n t ∧ InStep n r.aligner.latest r.aligner.replay

theorem Drained.decodes {d : Turn α} (h : r.Drained n t) (hd : r.Decodes d) :
    d.reader.Drained n (t ++ d.activity) := by
  refine h.congr ?_ ?_ (hd.dealt t)
  · cases hd <;> rfl
  · cases hd <;> rfl

/-- The completion by a drained reader. -/
theorem Keeps.step_drained {d : Turn α} (h : r.Keeps n script fresh t) (quiet : r.Quiet)
    (hd : r.Drained n t) (inStep : InStep n r.aligner.latest r.aligner.replay) (hs : r.Steps d) :
    d.reader.Keeps n script fresh (t ++ d.activity) := by
  have hf := h.follows.step quiet hs
  have hd' := hd.preserved h.follows.wellFormed hs
  rcases hd.step h.follows.wellFormed hs with ⟨-, hact, hal⟩ |
    ⟨item, rest, hreplay, hrest, hlatest, hsome, hnone⟩
  · refine ⟨hf, ?_, .inr ⟨hd', hal ▸ inStep⟩⟩
    rw [hact, List.append_nil]
    exact h.processed
  · rw [hreplay] at inStep
    refine ⟨hf, h.processed.append ?_, .inr ⟨hd', by rw [hrest, hlatest]; exact inStep.2⟩⟩
    cases hc : completedBy r.aligner.latest item with
    | none => exact fun before b after e => absurd (e ▸ by simp) (hnone hc b)
    | some b =>
      rw [hsome b hc]
      exact atCompletions_offered
        ((hd.processed_iff h.follows quiet hreplay hc).mpr (inStep.1 b hc))

theorem Keeps.turn (h : r.Keeps n script fresh t) (last : ∀ c < n, EndsLast (contentsOf c script))
    (inStep : r.feed.arrivals = [] → r.aligner.replay = [] → r.aligner.isAligning = true →
      InStep n r.aligner.latest r.aligner.queue) :
    r.turn.reader.Keeps n script fresh (t ++ r.turn.activity) := by
  have hd := r.decodes
  obtain ⟨hfeed, haligner⟩ := r.decodeCurrent_reader
  have hk : r.decodeCurrent.reader.Keeps n script fresh (t ++ r.decodeCurrent.activity) := by
    refine ⟨h.follows.decodes hd,
      h.processed.append (atCompletions_of_no_notice hd.no_notice), ?_⟩
    rw [haligner]
    exact h.phase.imp (·.decodes hd) fun hp => ⟨hp.1.decodes hd, hp.2⟩
  cases ha : r.decodeCurrent.answer with
  | some answer => rwa [turn_of_answer (by simp [ha])]
  | none =>
    rw [turn_of_quiet ha]
    rw [hd.activity ha, List.append_nil] at hk
    have quiet := h.follows.wellFormed.quiet hd ha
    have hs := hk.follows.wellFormed.steps
    rcases hk.phase with hopen | ⟨hdrained, hin⟩
    · refine ⟨hk.follows.step quiet hs, hk.processed.append ?_, ?_⟩
      · exact (hopen.cut hk.follows quiet last hs).imp fun _ _ hcut => hcut.processed
      · refine (hopen.step_or_drains hk.follows.wellFormed hs).imp_right ?_
        rintro ⟨dry, empty, aligning⟩
        obtain ⟨hdrained, hreplay, hlatest⟩ :=
          hopen.drains hk.follows.wellFormed hs dry empty aligning
        refine ⟨hdrained, ?_⟩
        rw [hreplay, hlatest, haligner]
        exact inStep (hfeed ▸ dry) (haligner ▸ empty) (haligner ▸ aligning)
    · exact hk.step_drained quiet hdrained hin hs

theorem Reaches.rest {q : Reader α} (h : q.Reaches t r) (unfinished : r.isFinished = false)
    (steady : r.Steady) :
    ∃ t' r', q.Reaches t' r' ∧ r'.isFinished = false ∧ r'.decodeCurrent.answer = none ∧
      r'.aligner = r.aligner ∧ r'.feed = r.feed ∧ ∀ c, dealt c t' = dealt c t := by
  -- each record or error that the decoder still has takes from the load
  induction hl : r.load using Nat.strongRecOn generalizing r t with
  | ind l ih =>
    subst hl
    cases ha : r.decodeCurrent.answer with
    | none => exact ⟨t, r, h, unfinished, ha, rfl, rfl, fun _ => rfl⟩
    | some answer =>
      have hd := r.decodes
      have hturn := turn_of_answer (r := r) (by simp [ha])
      have hfin : r.decodeCurrent.reader.isFinished = false := by
        generalize r.decodeCurrent = d at hd ha
        cases hd with
        | outcome => exact unfinished
        | _ => cases ha
      have hr := h.turn unfinished
      have hs := steady.turn
      rw [hturn] at hr hs
      obtain ⟨t', r', hr', hu, hq, hal, hfe, hdealt⟩ :=
        ih _ ((hd.load steady.framed).2 (by simp [ha])) hr hfin hs rfl
      obtain ⟨hfeed, haligner⟩ := r.decodeCurrent_reader
      exact ⟨t', r', hr', hu, hq, hal.trans haligner, hfe.trans hfeed,
        fun c => (hdealt c).trans (hd.dealt t c)⟩

section Runs

variable {settings : ReaderSettings} {listener : Listener} {q : Reader α}

theorem Reaches.steady (h : new (Feed.ofScript n script) settings listener = .ok q)
    (hr : q.Reaches t r) : r.Steady :=
  hr.induction (P := fun _ s => s.Steady) (load_new h).1 (fun _ _ _ hs _ => hs.turn)
    fun _ _ hs => hs.startNextSuperstep

/-- If the replay is in step whenever the gate is exhausted with an alignment in flight, then every
completed checkpoint is a cut. -/
theorem Reaches.keeps (h : new (Feed.ofScript n script) settings listener = .ok q)
    (range : ∀ i ∈ script, i.channel < n) (last : ∀ c < n, EndsLast (contentsOf c script))
    (inStep : ∀ t s, q.Reaches t s → s.feed.arrivals = [] → s.aligner.replay = [] →
      s.aligner.isAligning = true → InStep n s.aligner.latest s.aligner.queue)
    (hr : q.Reaches t r) : r.Keeps n script (.new settings.decoder) t := by
  refine hr.induction (P := fun t s => s.Keeps n script (.new settings.decoder) t)
    ⟨follows_new h range, atCompletions_nil, .inl (open_new h)⟩
    (fun t s hs hk _ => hk.turn last (inStep t s hs)) fun t s hk => ⟨?_, hk.processed, ?_⟩
  · exact hk.follows.startNextSuperstep
  · refine hk.phase.imp (·.startNextSuperstep) fun hp => ⟨hp.1.startNextSuperstep, ?_⟩
    rw [aligner_startNextSuperstep]
    exact hp.2

theorem Reaches.phase (h : new (Feed.ofScript n script) settings listener = .ok q)
    (range : ∀ i ∈ script, i.channel < n) (hr : q.Reaches t r) :
    r.Follows n script (.new settings.decoder) t ∧ (r.Open n t ∨ r.Drained n t) := by
  refine hr.induction
    (P := fun t s => s.Follows n script (.new settings.decoder) t ∧ (s.Open n t ∨ s.Drained n t))
    ⟨follows_new h range, .inl (open_new h)⟩ (fun t s _ hs _ => ?_)
    fun t s hs => ⟨hs.1.startNextSuperstep, hs.2.imp (·.startNextSuperstep) (·.startNextSuperstep)⟩
  refine turn_preserves
    (P := fun t s => s.Follows n script (.new settings.decoder) t ∧ (s.Open n t ∨ s.Drained n t))
    (fun _ _ hs => hs.1.wellFormed) (fun t s d hs hd => ?_) (fun t s d hs quiet hd => ?_) hs
  · exact ⟨hs.1.decodes hd, hs.2.imp (·.decodes hd) (·.decodes hd)⟩
  · refine ⟨hs.1.step quiet hd, ?_⟩
    rcases hs.2 with hopen | hdrained
    · refine (hopen.step_or_drains hs.1.wellFormed hd).imp_right ?_
      rintro ⟨dry, empty, aligning⟩
      exact (hopen.drains hs.1.wellFormed hd dry empty aligning).1
    · exact .inr (hdrained.preserved hs.1.wellFormed hd)

theorem Reaches.next_item (h : new (Feed.ofScript n script) settings listener = .ok q)
    (range : ∀ i ∈ script, i.channel < n) (hr : q.Reaches t r)
    (unfinished : r.isFinished = false) :
    ∃ (t' : List (Activity α)) (p : Reader α) (d : Turn α),
      q.Reaches (t' ++ d.activity) d.reader ∧ p.Follows n script (.new settings.decoder) t' ∧
        p.Quiet ∧ p.Steps d ∧ p.aligner = r.aligner ∧ p.feed = r.feed ∧
        ∀ c, dealt c t' = dealt c t := by
  obtain ⟨t', r', hr', hu, hq, hal, hfe, hdealt⟩ := hr.rest unfinished (hr.steady h)
  have hd := r'.decodes
  have hfol := (hr'.phase h range).1
  have hp := hfol.decodes hd
  rw [hd.activity hq, List.append_nil] at hp
  obtain ⟨hfeed, haligner⟩ := r'.decodeCurrent_reader
  have hturn := hr'.turn hu
  rw [turn_of_quiet hq] at hturn
  exact ⟨t', _, _, hturn, hp, hfol.wellFormed.quiet hd hq, hp.wellFormed.steps,
    haligner.trans hal, hfeed.trans hfe, hdealt⟩

/-- If every completed checkpoint is a cut, then so are those of the replay, which is in step. -/
theorem Reaches.inStep_drained (h : new (Feed.ofScript n script) settings listener = .ok q)
    (range : ∀ i ∈ script, i.channel < n) (last : ∀ c < n, EndsLast (contentsOf c script))
    (processed : ∀ t s, q.Reaches t s →
      AtCompletions (Processed n script (.new settings.decoder)) t)
    {replay : List Item} (hr : q.Reaches t r) (hd : r.Drained n t)
    (hreplay : r.aligner.replay = replay) : InStep n r.aligner.latest replay := by
  induction replay generalizing t r with
  | nil => trivial
  | cons item rest ih =>
    obtain ⟨-, hdone⟩ := hr.follows_done h range last
    have unfinished : r.isFinished = false := by
      cases hf : r.isFinished with
      | false => rfl
      | true =>
        have hp := (hdone hf).1
        rw [pending, Aligner.items, hreplay] at hp
        simp at hp
    obtain ⟨t', p, d, hr', hfol, quiet, hs, hal, hfe, hdealt⟩ := hr.next_item h range unfinished
    have hd' := hd.congr hal hfe hdealt
    rw [← hal] at hreplay ⊢
    rcases hd'.step hfol.wellFormed hs with ⟨hnil, -⟩ |
      ⟨item', rest', hcons, hrest, hlatest, hsome, -⟩
    · rw [hreplay] at hnil
      cases hnil
    · obtain ⟨rfl, rfl⟩ := List.cons.inj (hreplay.symm.trans hcons)
      refine ⟨fun b hb => ?_, ?_⟩
      · refine (hd'.processed_iff hfol quiet hreplay hb).mp ?_
        refine processed _ _ hr' _ b [] ?_
        rw [hsome b hb, List.append_assoc]
        rfl
      · have hin := ih hr' (hd'.preserved hfol.wellFormed hs) hrest
        rwa [hlatest] at hin

/-- With two channels, only one can be blocked, and every completed checkpoint is a cut. -/
theorem exhausted_cut_of_two (h : new (Feed.ofScript n script) settings listener = .ok q)
    (range : ∀ i ∈ script, i.channel < n) (last : ∀ c < n, EndsLast (contentsOf c script))
    (two : n ≤ 2) (calls : List Call) :
    AtCompletions (Processed n script (.new settings.decoder)) (trace (q.serve calls).1) := by
  refine ((q.reaches_serve calls).keeps h range last fun t s hr _ _ aligning => ?_).processed
  have wf := (hr.phase h range).1.wellFormed
  obtain ⟨f, flight⟩ := Option.isSome_iff_exists.mp aligning
  obtain ⟨c, hc, -, hfree⟩ := (wf.sound f flight).waiting
  have hcn : c < n := wf.channels ▸ hc
  rw [Aligner.queue_of_inFlight flight]
  -- the channel that is waited for has nothing held back, which leaves the other one
  refine inStep_of_channel (k := 1 - c) fun i hi => ?_
  have hblocked := (wf.sound f flight).queued i hi
  have hin : i.channel < n := by
    refine wf.range i ?_
    rw [Reader.pending, Aligner.items, Aligner.queue_of_inFlight flight]
    exact List.mem_append_left _ (List.mem_append_left _ hi)
  have hne : i.channel ≠ c := by
    intro he
    rw [he, hfree] at hblocked
    cases hblocked
  omega

/-- A checkpoint that is completed while the gate delivers, or when it is exhausted, is always a
cut.  Those that are completed after that, by what was held back, are cuts on every run exactly if
the queue is in step whenever the gate is exhausted with an alignment in flight. -/
theorem exhausted_cut_iff (h : new (Feed.ofScript n script) settings listener = .ok q)
    (range : ∀ i ∈ script, i.channel < n) (last : ∀ c < n, EndsLast (contentsOf c script)) :
    (∀ calls, AtCompletions (Processed n script (.new settings.decoder))
      (trace (q.serve calls).1)) ↔
    ∀ t s, q.Reaches t s → s.feed.arrivals = [] → s.aligner.replay = [] →
      s.aligner.isAligning = true → InStep n s.aligner.latest s.aligner.queue := by
  constructor
  · intro hall
    have processed : ∀ t s, q.Reaches t s →
        AtCompletions (Processed n script (.new settings.decoder)) t := by
      intro t s hr
      obtain ⟨calls, hp⟩ := hr.exists_serve
      exact (hall calls).initial hp
    intro t s hr dry empty aligning
    obtain ⟨-, hdone⟩ := hr.follows_done h range last
    cases hf : s.isFinished with
    | true =>
      have hp := (hdone hf).1
      rw [pending, Aligner.items, List.append_assoc] at hp
      rw [(List.append_eq_nil_iff.mp hp).1]
      trivial
    | false =>
      have hopen : s.Open n t := by
        refine (hr.phase h range).2.resolve_right fun hd => ?_
        simp [Aligner.isAligning, hd.idle] at aligning
      obtain ⟨t', p, d, hr', hfol, -, hs, hal, hfe, hdealt⟩ := hr.next_item h range hf
      obtain ⟨hdrained, hreplay, hlatest⟩ := (hopen.congr hal hdealt).drains hfol.wellFormed hs
        (hfe ▸ dry) (hal ▸ empty) (hal ▸ aligning)
      rw [← hal, ← hlatest]
      exact hr'.inStep_drained h range last processed hdrained hreplay
  · intro inStep calls
    exact ((q.reaches_serve calls).keeps h range last inStep).processed

end Runs

section SecondCheckpoint

/-- The first two of three channels deliver two checkpoints, the third one nothing.  What follows
the first barriers is held back until the gate is exhausted. -/
def secondQueued : List Item := [
  .event 0 (.barrier (.plain 1 0)), .event 1 (.barrier (.plain 1 0)),
  .buffer 0 [0, 0, 0, 1, 97], .event 0 (.barrier (.plain 2 0)),
  .buffer 1 [0, 0, 0, 1, 98], .event 1 (.barrier (.plain 2 0)),
  .event 0 .endOfPartition, .event 1 .endOfPartition]

/-- A reader of `secondQueued`. -/
def secondReader : Reader Bytes where
  feed := .ofScript 3 secondQueued
  decoders := List.replicate 3 (.new {})
  aligner := { closed := List.replicate 3 false }
  handler := .tracker (.new 3)

theorem new_secondQueued : new (.ofScript 3 secondQueued) = .ok secondReader := rfl

/-- The second checkpoint is completed by the barrier of the first channel, while a buffer of the
second channel still waits in front of the other barrier. -/
theorem activity_secondReader : (secondReader.after 12).1 = [
    .offered 0 (.plain 1 0), .offered 1 (.plain 1 0), .notice (.complete (.plain 1 0)),
    .fed 0 [0, 0, 0, 1, 97], .record 0 [97],
    .offered 0 (.plain 2 0), .notice (.complete (.plain 2 0))] := by
  decide

theorem secondReader_unprocessed :
    ¬∀ calls, AtCompletions (Processed 3 secondQueued (.new {}))
      (trace (secondReader.serve calls).1) := by
  intro hall
  obtain ⟨calls, hp⟩ := (secondReader.reaches_after (k := 12) (by decide)).exists_serve
  have h := (hall calls).initial hp
  rw [activity_secondReader] at h
  have hcarries : Carries 2 (contentsOf 1 secondQueued) :=
    ⟨.event (.barrier (.plain 2 0)), by decide, by decide⟩
  obtain ⟨hle, -⟩ := h
    [.offered 0 (.plain 1 0), .offered 1 (.plain 1 0), .notice (.complete (.plain 1 0)),
      .fed 0 [0, 0, 0, 1, 97], .record 0 [97], .offered 0 (.plain 2 0)]
    (.plain 2 0) [] rfl 1 (by decide) hcarries
  exact absurd hle (by decide)

theorem exhausted_cut_iff_secondReader :
    ¬∀ t s, secondReader.Reaches t s → s.feed.arrivals = [] → s.aligner.replay = [] →
      s.aligner.isAligning = true → InStep 3 s.aligner.latest s.aligner.queue := by
  intro inStep
  exact secondReader_unprocessed
    ((exhausted_cut_iff new_secondQueued (by decide) (by decide)).mpr inStep)

/-- A checkpoint that is completed during the replay after exhaustion need not be a cut, although
the barriers of every channel come in order, nothing follows the end of a channel, and one channel
has no end. -/
theorem exhausted_cut_fails :
    new (.ofScript 3 secondQueued) = .ok secondReader ∧
      (∀ i ∈ secondQueued, i.channel < 3) ∧
      (∀ c < 3, EndsLast (contentsOf c secondQueued)) ∧
      (∀ c < 3, ((contentsOf c secondQueued).filterMap (·.barrier?)).Pairwise (·.id < ·.id)) ∧
      (∀ c < 3, ∀ b ∈ (contentsOf c secondQueued).filterMap (·.barrier?), b.isCancel = false) ∧
      .event .endOfPartition ∉ contentsOf 2 secondQueued ∧
      ¬∀ calls, AtCompletions (Processed 3 secondQueued (.new {}))
        (trace (secondReader.serve calls).1) :=
  ⟨new_secondQueued, by decide, by decide, by decide, by decide, by decide,
    secondReader_unprocessed⟩

end SecondCheckpoint

end Reader

end StreamCheckpoint
