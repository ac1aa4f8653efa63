import StreamCheckpoint.Proofs.Alignment.Completion
import StreamCheckpoint.Proofs.Alignment.Plan
import StreamCheckpoint.Proofs.Reading.Cut
import StreamCheckpoint.Proofs.Reading.Delivery

/-! Readers whose channels deliver the barriers of one plan.  The channels may be far apart, since
what is ahead waits until the others have caught up: every barrier that is dealt with is the next
one of the plan.  So every checkpoint that a channel goes as far as is completed, once and in the
order of the plan, with the first of its barriers (`completes_plan`). -/

namespace StreamCheckpoint

variable {α : Type}

namespace Activity

def notice? : Activity α → Option Notice
  | .notice x => some x
  | _ => none

/-- The barrier that the aligner was offered. -/
def offered? : Activity α → Option Barrier
  | .offered _ b => some b
  | _ => none

end Activity

/-- The notices in `t`, in order. -/
def notices (t : List (Activity α)) : List Notice := t.filterMap (·.notice?)

/-- The barriers that were dealt with in `t`, in order. -/
def offers (t : List (Activity α)) : List Barrier := t.filterMap (·.offered?)

section Traces

variable {t u : List (Activity α)}

@[simp] theorem notices_append : notices (t ++ u) = notices t ++ notices u :=
  List.filterMap_append

@[simp] theorem offers_append : offers (t ++ u) = offers t ++ offers u :=
  List.filterMap_append

@[simp] theorem notices_notices (ns : List Notice) :
    notices (ns.map (.notice (α := α))) = ns := by
  rw [notices, List.filterMap_map]
  exact List.filterMap_some

@[simp] theorem offers_notices (ns : List Notice) :
    offers (ns.map (.notice (α := α))) = [] := by
  simp [offers, Activity.offered?]

theorem exists_dealt_of_mem_offers {b : Barrier} (h : b ∈ offers t) :
    ∃ c, .event (.barrier b) ∈ dealt c t := by
  obtain ⟨x, hx, hb⟩ := List.mem_filterMap.mp h
  cases x with
  | offered c b' =>
    obtain rfl := Option.some.inj hb
    exact ⟨c, List.mem_filterMap.mpr ⟨_, hx, by simp [Activity.dealt?]⟩⟩
  | _ => cases hb

end Traces

namespace Reader

variable {n : Nat} {script : List Item} {plan : List Nat} {r s : Reader α}
  {t u : List (Activity α)} {a a' : Aligner}

/-- The barrier of an alignment, and the one with which a checkpoint is complete, is the first one
of its checkpoint that was dealt with. -/
structure Firsts (t : List (Activity α)) (a : Aligner) : Prop where
  seen : ∀ x ∈ offers t, a.Seen x.id
  first : ∀ x, .complete x ∈ notices t ∨ a.aligning = some x →
    (offers t).find? (·.id == x.id) = some x

theorem Firsts.same (h : Firsts t a) (none : offers u = []) (latest : a'.latest = a.latest)
    (about : ∀ x, .complete x ∈ notices u ∨ a'.aligning = some x → a.aligning = some x) :
    Firsts (t ++ u) a' := by
  refine ⟨fun x hx => ?_, fun x hx => ?_⟩
  · rw [offers_append, none, List.append_nil] at hx
    unfold Aligner.Seen
    rw [latest]
    exact h.seen x hx
  · rw [offers_append, none, List.append_nil]
    rw [notices_append, List.mem_append, or_assoc] at hx
    rcases hx with hx | hx
    · exact h.first x (.inl hx)
    · exact h.first x (.inr (about x hx))

theorem Firsts.offered {channel : Nat} {b : Barrier} {o : Reaction (Except AlignmentError Unit)}
    (h : Firsts t a) (hs : a.Sound) (hc : channel < a.channels) (ho : a.Offers channel b o) :
    Firsts (t ++ (.offered channel b :: o.notices.map .notice)) o.aligner := by
  have hu : offers ((.offered channel b : Activity α) :: o.notices.map .notice) = [b] :=
    congrArg (List.cons b) (offers_notices o.notices)
  have hn : notices ((.offered channel b : Activity α) :: o.notices.map .notice) = o.notices :=
    notices_notices o.notices
  have known : ∀ x, a.aligning = some x ∨ .complete x ∈ notices t →
      ((offers t ++ [b]).find? (·.id == x.id)) = some x := by
    intro x hx
    rw [List.find?_append, h.first x hx.symm, Option.some_or]
  have begun : ∀ x, x = b ∧ b.isCancel = false ∧ ¬a.Seen b.id →
      ((offers t ++ [b]).find? (·.id == x.id)) = some x := by
    rintro x ⟨rfl, -, newer⟩
    have none : (offers t).find? (·.id == x.id) = none := by
      refine List.find?_eq_none.mpr fun y hy he => newer ?_
      rw [← beq_iff_eq.mp he]
      exact h.seen y hy
    simp [List.find?_append, none]
  refine ⟨fun x hx => ?_, fun x hx => ?_⟩
  · rw [offers_append, hu, List.mem_append, List.mem_singleton] at hx
    rw [ho.seen_iff hs]
    rcases hx with hx | rfl
    · exact .inl (h.seen x hx)
    · exact .inr (Nat.le_refl _)
  · rw [offers_append, hu]
    rw [notices_append, hn, List.mem_append, or_assoc] at hx
    rcases hx with hx | hx | hx
    · exact known x (.inr hx)
    · rcases ((ho.complete_iff hs hc).mp hx).2.1 with hx | hx
      · exact known x (.inl hx)
      · exact begun x hx
    · rcases ((ho.aligning_iff hs).mp hx).1 with hx | hx
      · exact known x (.inl hx)
      · exact begun x hx

theorem Firsts.ended {channel : Nat} {o : Reaction (Except AlignmentError Unit)} (h : Firsts t a)
    (hs : a.Sound) (hc : channel < a.channels) (hcl : a.Closes channel o)
    (hn : notices u = o.notices) (none : offers u = []) : Firsts (t ++ u) o.aligner := by
  refine h.same none hcl.latest fun x hx => ?_
  rw [hn] at hx
  rcases hx with hx | hx
  · obtain ⟨y, hy, outcome, -⟩ := (hcl.mem_notices_iff hs hc).mp hx
    obtain ⟨-, rfl⟩ := ClosePolicy.outcome_eq_complete.mp outcome
    exact hy
  · exact (hcl.aligning_iff.mp hx).1

theorem Firsts.closeAll (h : Firsts t a) (hs : a.Sound) :
    Firsts (t ++ a.closeAll.1.map .notice) a.closeAll.2 := by
  obtain ⟨idle, -, latest, -⟩ := Aligner.closeAll_spec hs
  refine h.same (offers_notices _) latest fun x hx => ?_
  rw [notices_notices] at hx
  rcases hx with hx | hx
  · obtain ⟨f, flight, rfl⟩ := Aligner.complete_closeEach hx (by simp)
    exact Aligner.aligning_of_inFlight flight
  · exact absurd hx (Aligner.aligning_ne_of_idle idle)

theorem Firsts.stores {item : Item} {kept : List Notice × Aligner} (h : Firsts t a)
    (hk : a.Stores item kept) : Firsts (t ++ kept.1.map .notice) kept.2 := by
  refine h.same (offers_notices _) hk.same.2 fun x hx => ?_
  rw [notices_notices] at hx
  cases hk with
  | idle => exact hx.resolve_left nofun
  | held flight => exact (Aligner.aligning_of_inFlight flight).trans (hx.resolve_left nofun)
  | overflowed =>
    rcases hx with hx | hx
    · simp at hx
    · exact absurd hx (Aligner.aligning_ne_of_idle rfl)

theorem Firsts.take {item : Item} (h : Firsts t r.aligner) (take : r.Takes item s) :
    Firsts t s.aligner := by
  have aligning : s.aligner.aligning = r.aligner.aligning := by
    rw [Aligner.aligning, take.inFlight, Aligner.aligning]
  have hs := h.same (u := []) rfl take.latest fun x hx => ?_
  · rwa [List.append_nil] at hs
  · rw [← aligning]
    exact hx.resolve_left List.not_mem_nil

theorem Firsts.silent (h : Firsts t a) (hn : notices u = []) (none : offers u = []) :
    Firsts (t ++ u) a := by
  refine h.same none rfl fun x hx => ?_
  rw [hn] at hx
  exact hx.resolve_left nofun

theorem Handles.trace_spec {tr : SuperstepTracker} {channel : Nat} {e : Event} {d : Turn α}
    (h : Handles r tr channel e d) : notices d.activity = [] ∧ offers d.activity = [] := by
  cases h <;>
  simp [notices, offers, Activity.notice?, Activity.offered?]

theorem Firsts.step {d : Turn α} (h : Firsts t r.aligner) (hw : r.WellFormed n) (hs : r.Steps d) :
    Firsts (t ++ d.activity) d.reader.aligner := by
  cases hs with
  | held take blocked stores => exact (h.take take).stores stores
  | fed take => exact (h.take take).silent rfl rfl
  | @offered channel b s answer o take free offers =>
    obtain ⟨hws, hc⟩ := hw.take take
    exact (h.take take).offered hws.sound (by rwa [hws.channels]) offers
  | @ended channel s c tr d take free closes tracker hd =>
    obtain ⟨hws, hc⟩ := hw.take take
    rw [hd.aligner]
    refine (h.take take).ended hws.sound (by rwa [hws.channels]) closes ?_ ?_
    · rw [notices_append, notices_notices, hd.trace_spec.1, List.append_nil]
    · rw [offers_append, offers_notices, hd.trace_spec.2, List.append_nil]
  | handled take free barrier ended tracker hd =>
    rw [hd.aligner]
    exact (h.take take).silent hd.trace_spec.1 hd.trace_spec.2
  | settled dry empty settle => cases settle with
    | exhausted => exact h.silent rfl rfl
    | emptied => exact h.closeAll hw.sound
    | released => exact h.closeAll hw.sound

/-- Every channel of the script delivers the barriers of the plan, in its order and as far as it
goes, and then ends. -/
structure Planned (n : Nat) (plan : List Nat) (script : List Item) : Prop where
  ascending : plan.Pairwise (· < ·)
  range : ∀ i ∈ script, i.channel < n
  planned : ∀ c < n, checkpoints (contentsOf c script) <+: plan
  plain : ∀ c < n, ∀ b ∈ (contentsOf c script).filterMap (·.barrier?), b.isCancel = false
  last : ∀ c < n, EndsLast (contentsOf c script)
  ended : ∀ c < n, .event .endOfPartition ∈ contentsOf c script

section Plan

variable [Record α] {fresh : Decoder α} {settings : ReaderSettings} {listener : Listener}

/-- What holds of a reader at any time if every channel delivers the barriers of the plan: there
were no notices but of completed checkpoints. -/
structure Punctual (n : Nat) (script : List Item) (plan : List Nat) (fresh : Decoder α)
    (t : List (Activity α)) (r : Reader α) : Prop where
  follows : r.Follows n script fresh t
  knows : r.Open n t
  firsts : Firsts t r.aligner
  onPlan : ∃ bs : List Barrier, notices t = bs.map .complete ∧
    r.aligner.OnPlan plan (bs.map (·.id)) fun c => dealt c t

omit [Record α] in
theorem Takes.onPlan {item : Item} {made : List Nat} {seen : Nat → List Content}
    (take : r.Takes item s) (h : r.aligner.OnPlan plan made seen) :
    s.aligner.OnPlan plan made seen := by
  refine h.congr ?_ fun _ => rfl
  cases take <;> rfl

omit [Record α] in
theorem checkpoints_dealt {channel : Nat} {x : Content}
    (hu : ∀ c, dealt c u = if channel = c then [x] else []) (hx : ∀ b, x ≠ .event (.barrier b))
    (c : Nat) : checkpoints (dealt c (t ++ u)) = checkpoints (dealt c t) := by
  rw [dealt_append, hu, checkpoints_append]
  split
  · rw [checkpoints_of_ne hx, List.append_nil]
  · exact List.append_nil _

theorem Open.onPlan_offered {channel : Nat} {b : Barrier}
    {o : Reaction (Except AlignmentError Unit)} {made : List Nat} (hk : r.Open n t)
    (hf : r.Follows n script fresh t) (hp : Planned n plan script)
    (h : r.aligner.OnPlan plan made fun c => dealt c t)
    (take : r.Takes ⟨channel, .event (.barrier b)⟩ s)
    (free : s.aligner.isBlocked channel = false) (ho : s.aligner.Offers channel b o) :
    ∃ bs : List Barrier, o.notices = bs.map .complete ∧
      o.aligner.OnPlan plan (made ++ bs.map (·.id)) fun c =>
        dealt c (t ++ (.offered channel b :: o.notices.map .notice)) := by
  obtain ⟨hws, hc⟩ := hf.wellFormed.take take
  have hch : channel < s.aligner.channels := by rwa [hws.channels]
  have hu := dealt_offered (α := α) channel b o.notices
  rw [← seeing_dealt hu]
  have pending := hf.wellFormed.contentsOf_take take free channel
  rw [if_pos rfl] at pending
  -- a channel that has ended has nothing left, and this one has a barrier
  have opened : s.aligner.isClosed channel = false := by
    rw [take.isClosed]
    refine Bool.eq_false_iff.mpr fun closed => ?_
    rw [hk.contentsOf_pending hf hp.last hc closed] at pending
    cases pending
  have order := hf.accounts.order channel
  rw [pending, ← List.append_assoc] at order
  have fits : checkpoints (dealt channel t) ++ [b.id] <+: plan := by
    refine List.IsPrefix.trans ?_ (hp.planned channel hc)
    rw [← order, checkpoints_append, checkpoints_append]
    exact List.prefix_append _ _
  have plain : b.isCancel = false := by
    refine hp.plain channel hc b ?_
    rw [← order]
    simp [Content.barrier?]
  exact (take.onPlan h).offers hch opened free fits hp.ascending hws.sound plain ho

theorem Punctual.step {d : Turn α} (h : r.Punctual n script plan fresh t) (quiet : r.Quiet)
    (hp : Planned n plan script) (hs : r.Steps d) :
    d.reader.Punctual n script plan fresh (t ++ d.activity) := by
  have hw := h.follows.wellFormed
  have idle := h.knows.idle_of_dry h.follows hp.ended
  refine ⟨h.follows.step quiet hs, h.knows.step hw idle hs, h.firsts.step hw hs, ?_⟩
  obtain ⟨bs, hn, hplan⟩ := h.onPlan
  cases hs with
  | held take blocked stores =>
    obtain ⟨none, hs⟩ := (take.onPlan hplan).stores stores
    refine ⟨bs, by simp [none, hn], hs.congr rfl fun c => ?_⟩
    rw [dealt_append, dealt_notices, List.append_nil]
  | fed take =>
    refine ⟨bs, ?_, (take.onPlan hplan).congr rfl (checkpoints_dealt (dealt_fed _ _) nofun)⟩
    rw [notices_append, hn]
    exact List.append_nil _
  | offered take free offers =>
    obtain ⟨more, hm, ho⟩ := h.knows.onPlan_offered h.follows hp hplan take free offers
    refine ⟨bs ++ more, ?_, List.map_append ▸ ho⟩
    rw [notices_append, hn, List.map_append, ← hm]
    exact congrArg (_ ++ ·) (notices_notices _)
  | @ended channel s c tr d take free closes tracker hd =>
    obtain ⟨hws, hc⟩ := hw.take take
    obtain ⟨more, hm, ho⟩ :=
      (take.onPlan hplan).closes hws.sound (by rwa [hws.channels]) closes
    refine ⟨bs ++ more, ?_, ?_⟩
    · rw [notices_append, notices_append, notices_notices, hd.trace_spec.1, hn, hm]
      simp
    · rw [List.map_append]
      exact ho.congr (congrArg Aligner.bare hd.aligner)
        (checkpoints_dealt (hd.dealt_ended c.notices) nofun)
  | handled take free barrier ended tracker hd =>
    refine ⟨bs, ?_, (take.onPlan hplan).congr (congrArg Aligner.bare hd.aligner)
      (checkpoints_dealt (hd.spec barrier).1 fun b e => barrier b (Content.event.inj e))⟩
    rw [notices_append, hd.trace_spec.1, hn, List.append_nil]
  | settled dry empty settle =>
    have none := idle dry empty
    cases settle with
    | exhausted => exact ⟨bs, by simpa using hn, by simpa using hplan⟩
    | emptied flight => simp [Aligner.isAligning, none] at flight
    | released flight => simp [Aligner.isAligning, none] at flight

theorem Decodes.trace_spec {d : Turn α} (h : r.Decodes d) :
    notices d.activity = [] ∧ offers d.activity = [] := by
  cases h with
  | @outcome c d o => cases o <;> exact ⟨rfl, rfl⟩
  | _ => exact ⟨rfl, rfl⟩

theorem Punctual.decodes {d : Turn α} (h : r.Punctual n script plan fresh t) (hd : r.Decodes d) :
    d.reader.Punctual n script plan fresh (t ++ d.activity) := by
  have aligner : d.reader.aligner = r.aligner := by cases hd <;> rfl
  obtain ⟨hn, ho⟩ := hd.trace_spec
  obtain ⟨bs, hbs, hplan⟩ := h.onPlan
  refine ⟨h.follows.decodes hd, h.knows.decodes hd, aligner ▸ h.firsts.silent hn ho, bs, ?_, ?_⟩
  · rw [notices_append, hn, hbs, List.append_nil]
  · simpa only [hd.dealt, aligner] using hplan

theorem Punctual.turn (h : r.Punctual n script plan fresh t) (hp : Planned n plan script) :
    r.turn.reader.Punctual n script plan fresh (t ++ r.turn.activity) :=
  turn_preserves (fun _ _ hs => hs.follows.wellFormed) (fun _ _ _ hs hd => hs.decodes hd)
    (fun _ _ _ hs quiet hd => hs.step quiet hp hd) h

theorem Punctual.startNextSuperstep (h : r.Punctual n script plan fresh t) :
    r.startNextSuperstep.Punctual n script plan fresh t := by
  have aligner := r.aligner_startNextSuperstep
  refine ⟨h.follows.startNextSuperstep, h.knows.startNextSuperstep, ?_, ?_⟩
  · rw [aligner]
    exact h.firsts
  · rw [aligner]
    exact h.onPlan

theorem punctual_new (h : new (Feed.ofScript n script) settings listener = .ok r)
    (unlimited : settings.alignment.byteLimit = none)
    (completing : settings.alignment.closePolicy = .complete) (hp : Planned n plan script) :
    r.Punctual n script plan (.new settings.decoder) [] := by
  refine ⟨follows_new h hp.range, open_new h, ?_, [], rfl, ?_⟩
  · obtain ⟨-, rfl⟩ := new_spec h
    exact ⟨nofun, fun x hx => absurd (hx.resolve_left nofun) (Aligner.aligning_ne_of_idle rfl)⟩
  · obtain ⟨-, rfl⟩ := new_spec h
    exact ⟨unlimited, completing, rfl, List.nil_prefix, rfl, fun c _ => List.nil_prefix,
      fun c _ _ => rfl⟩

/-- When nothing is left, the checkpoints that are complete are those of which there was a
barrier. -/
theorem Punctual.mem_made (h : r.Punctual n script plan fresh t) (hp : Planned n plan script)
    (pending : r.pending = []) {bs : List Barrier} (hn : notices t = bs.map .complete)
    (hplan : r.aligner.OnPlan plan (bs.map (·.id)) fun c => dealt c t) (k : Nat) :
    k ∈ bs.map (·.id) ↔ ∃ c < n, Carries k (contentsOf c script) := by
  have dealt_eq : ∀ c, dealt c t = contentsOf c script := by
    intro c
    have order := h.follows.accounts.order c
    rwa [pending, contentsOf_nil, List.append_nil] at order
  constructor
  · intro hk
    obtain ⟨b, hb, rfl⟩ := List.mem_map.mp hk
    have first := h.firsts.first b (.inl (hn ▸ List.mem_map_of_mem hb))
    obtain ⟨c, hc⟩ := exists_dealt_of_mem_offers (List.mem_of_find?_eq_some first)
    rw [dealt_eq] at hc
    exact ⟨c, lt_of_mem_contentsOf hp.range hc, _, hc, isBarrierOf_barrier.mpr rfl⟩
  · rintro ⟨c, hc, hk⟩
    rw [Reader.pending, Aligner.items] at pending
    obtain ⟨hitems, harrivals⟩ := List.append_eq_nil_iff.mp pending
    have idle := h.knows.idle_of_dry h.follows hp.ended
      (h.follows.wellFormed.plain.arrivals_eq_nil harrivals) (List.append_eq_nil_iff.mp hitems).2
    have behind := hplan.behind c (h.follows.wellFormed.channels.symm ▸ hc)
    rw [Aligner.current_of_idle idle, Option.toList_none, List.append_nil, dealt_eq] at behind
    exact behind.subset (mem_checkpoints.mpr hk)

/-- If every channel delivers the barriers of one plan as far as it goes, every checkpoint of which
there is a barrier is completed, once, in the order of the plan and with its first barrier; no
checkpoint is given up, and no barrier comes too late. -/
theorem completes_plan (h : new (Feed.ofScript n script) settings listener = .ok r)
    (unlimited : settings.alignment.byteLimit = none)
    (completing : settings.alignment.closePolicy = .complete) (hp : Planned n plan script) :
    (∀ calls, script.length + bytesOf script < calls.count .next →
      .ok .finished ∈ (r.serve calls).1.map (·.answer)) ∧
    ∀ calls, let t := trace (r.serve calls).1
      (r.serve calls).2.aligner.counters.stale = 0 ∧
      ∃ bs : List Barrier, notices t = bs.map .complete ∧ bs.map (·.id) <+: plan ∧
        (∀ b ∈ bs, (offers t).find? (·.id == b.id) = some b) ∧
        (.ok .finished ∈ (r.serve calls).1.map (·.answer) →
          ∀ k, k ∈ bs.map (·.id) ↔ ∃ c < n, Carries k (contentsOf c script)) := by
  obtain ⟨steady, load⟩ := load_new h
  refine ⟨fun calls hc => finished_mem_serve steady (load ▸ hc), fun calls => ?_⟩
  intro t
  have hs := (reaches_serve r calls).induction
    (P := fun t s => s.Punctual n script plan (.new settings.decoder) t)
    (punctual_new h unlimited completing hp) (fun t s _ hs _ => hs.turn hp)
    fun t s hs => hs.startNextSuperstep
  obtain ⟨bs, hn, hplan⟩ := hs.onPlan
  refine ⟨hplan.stale, bs, hn, ?_, fun b hb => ?_, fun finished k => ?_⟩
  · exact (List.prefix_append _ _).trans hplan.due
  · exact hs.firsts.first b (.inl (hn ▸ List.mem_map_of_mem hb))
  · obtain ⟨-, done⟩ := (reaches_serve r calls).follows_done h hp.range hp.last
    exact hs.mem_made hp (done (isFinished_serve finished)).1 hn hplan k

/-- The first channel is done before the second one has begun, and the third one has no barrier. -/
def racing : List Item := [
  .event 0 (.barrier (.plain 1 0)), .buffer 0 [0, 0, 0, 1, 97],
  .event 0 (.barrier (.plain 2 0)), .event 0 .endOfPartition,
  .event 1 (.barrier (.plain 1 0)), .event 2 .endOfPartition, .event 1 .endOfPartition]

/-- A reader of `racing`. -/
def racingReader : Reader Bytes where
  feed := .ofScript 3 racing
  decoders := List.replicate 3 (.new {})
  aligner := { closed := List.replicate 3 false }
  handler := .tracker (.new 3)

omit [Record α] in
theorem new_racing : new (.ofScript 3 racing) = .ok racingReader := rfl

theorem planned_racing : Planned 3 [1, 2, 3] racing := by
  constructor <;> decide

theorem completes_plan_racing :
    let served := racingReader.serve (List.replicate 13 .next)
    .ok .finished ∈ served.1.map (·.answer) ∧ served.2.aligner.counters.stale = 0 ∧
      ∃ bs : List Barrier, notices (trace served.1) = bs.map .complete ∧
        bs.map (·.id) <+: [1, 2, 3] ∧ 2 ∈ bs.map (·.id) ∧ 3 ∉ bs.map (·.id) := by
  obtain ⟨finishes, completes⟩ := completes_plan new_racing rfl rfl planned_racing
  have finished := finishes (List.replicate 13 .next) (by decide)
  obtain ⟨stale, bs, complete, inOrder, -, made⟩ := completes (List.replicate 13 .next)
  refine ⟨finished, stale, bs, complete, inOrder, ?_, ?_⟩
  · exact (made finished 2).mpr (by decide)
  · rw [made finished 3]
    decide

end Plan

end Reader

end StreamCheckpoint
