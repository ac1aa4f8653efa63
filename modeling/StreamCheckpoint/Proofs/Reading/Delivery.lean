import StreamCheckpoint.Proofs.Reading.History
import StreamCheckpoint.Proofs.Reading.Load

/-! Nothing is lost and nothing is repeated.  When a reader answers that the input is exhausted,
nothing is pending and no decoder has a buffer, so that what came out of every channel is what comes
out of it when it is dealt with alone (`serve_delivers`). -/

namespace StreamCheckpoint

namespace Reader

variable {α : Type} [Record α]

variable {n : Nat} {script : List Item} {fresh : Decoder α} {r s : Reader α}
  {t : List (Activity α)}

theorem Follows.pending_eq_nil (h : r.Follows n script fresh t)
    (last : ∀ c < n, EndsLast (contentsOf c script))
    (all : ∀ c < n, .event .endOfPartition ∈ dealt c t) : r.pending = [] := by
  refine eq_nil_of_contentsOf h.wellFormed.range fun c hc => ?_
  have hlast := last c hc
  rw [← h.accounts.order c] at hlast
  exact hlast.eq_nil (all c hc)

/-- A reader that is finished has nothing left. -/
def Done (r : Reader α) : Prop := r.isFinished = true → r.pending = [] ∧ r.Quiet

omit [Record α] in
theorem Settles.done {d : Turn α} (hw : r.WellFormed n) (quiet : r.Quiet)
    (unfinished : r.isFinished = false) (dry : r.feed.arrivals = [])
    (empty : r.aligner.replay = []) (h : r.Settles d) : d.reader.Done := by
  intro hf
  refine ⟨h.pending.trans ?_, quiet.of_decoders h.same.1⟩
  rw [Reader.pending, dry, List.filterMap_nil, List.append_nil]
  cases h with
  | exhausted idle => rw [Aligner.items, Aligner.queue_of_idle idle, empty, List.append_nil]
  | emptied _ nothing => rw [← (Aligner.closeAll_spec hw.sound).2.1, nothing]
  | released =>
    rw [unfinished] at hf
    cases hf

omit [Record α] in
theorem Handles.quiet {tr : SuperstepTracker} {channel : Nat} {e : Event} {d : Turn α}
    (h : Handles r tr channel e d) (quiet : r.Quiet) : d.reader.Quiet := by
  cases h <;> exact quiet

/-- The handler says that the input is exhausted when every channel has ended. -/
theorem Handles.all_ended {tr : SuperstepTracker} {channel : Nat} {e : Event} {d : Turn α}
    (h : Handles s tr channel e d) (unfinished : s.isFinished = false)
    (hd : d.reader.Follows n script fresh t) (hf : d.reader.isFinished = true) :
    ∀ c < n, .event .endOfPartition ∈ dealt c t := by
  intro c hc
  cases h with
  | proceeded => rw [unfinished] at hf; cases hf
  | paused => rw [unfinished] at hf; cases hf
  | @finished t' _ _ all =>
    obtain ⟨tr', htr', hn⟩ := hd.wellFormed.tracker
    obtain rfl := Handler.tracker.inj htr'
    refine hd.accounts.ended t' c rfl ?_
    have hlt : c < t'.partitionEnded.length := by
      rw [← hn] at hc
      exact hc
    exact all_iff_getD.mp all c hlt

theorem Follows.done_step {d : Turn α} (h : r.Follows n script fresh t)
    (last : ∀ c < n, EndsLast (contentsOf c script))
    (unfinished : r.isFinished = false) (quiet : r.Quiet) (hs : r.Steps d) : d.reader.Done := by
  have h' := h.step quiet hs
  have absurd_of : ∀ {s : Reader α} {item : Item}, r.Takes item s → s.isFinished = false :=
    fun take => take.isFinished.trans unfinished
  intro hf
  cases hs with
  | held take => rw [absurd_of take] at hf; cases hf
  | fed take => rw [absurd_of take] at hf; cases hf
  | offered take => rw [absurd_of take] at hf; cases hf
  | ended take _ _ _ handles =>
    have hs := absurd_of take
    exact ⟨h'.pending_eq_nil last (handles.all_ended hs h' hf),
      handles.quiet (quiet.of_decoders take.decoders)⟩
  | handled take _ _ _ _ handles =>
    exact ⟨h'.pending_eq_nil last (handles.all_ended (absurd_of take) h' hf),
      handles.quiet (quiet.of_decoders take.decoders)⟩
  | settled dry empty settle =>
    exact settle.done h.wellFormed quiet unfinished dry empty hf

theorem Follows.done_turn (h : r.Follows n script fresh t)
    (last : ∀ c < n, EndsLast (contentsOf c script))
    (unfinished : r.isFinished = false) : r.turn.reader.Done := by
  cases ha : r.decodeCurrent.answer with
  | some answer =>
    rw [turn_of_answer (by simp [ha])]
    have hd := r.decodes
    intro hf
    generalize r.decodeCurrent = d at ha hd hf
    cases hd with
    | outcome => rw [unfinished] at hf; cases hf
    | _ => cases ha
  | none =>
    rw [turn_of_quiet ha]
    have hd := h.decodes r.decodes
    have hf : r.decodeCurrent.reader.isFinished = false := by
      have := r.decodes.finishes
      rw [Finishes, ha, unfinished] at this
      simpa using this
    exact hd.done_step last hf (h.wellFormed.quiet r.decodes ha) hd.wellFormed.steps

/-- Wherever the run of a reader of `script` can be, nothing is left if it is finished. -/
theorem Reaches.follows_done {settings : ReaderSettings} {listener : Listener} {q : Reader α}
    (h : new (Feed.ofScript n script) settings listener = .ok q)
    (range : ∀ i ∈ script, i.channel < n) (last : ∀ c < n, EndsLast (contentsOf c script))
    (hr : q.Reaches t r) : r.Follows n script (.new settings.decoder) t ∧ r.Done := by
  refine hr.induction (P := fun t s => s.Follows n script (.new settings.decoder) t ∧ s.Done)
    ⟨follows_new h range, ?_⟩ (fun t s _ hs hf => ⟨hs.1.turn, hs.1.done_turn last hf⟩)
    fun t s hs => ⟨?_, ?_⟩
  · obtain ⟨-, rfl⟩ := new_spec h
    intro hf
    cases hf
  · exact hs.1.startNextSuperstep
  · intro hf
    rw [isFinished_startNextSuperstep] at hf
    obtain ⟨hp, hq⟩ := hs.2 hf
    exact ⟨s.pending_startNextSuperstep.trans hp,
      hq.of_decoders s.decoders_startNextSuperstep⟩

theorem serve_delivers {settings : ReaderSettings} {listener : Listener}
    (h : new (Feed.ofScript n script) settings listener = .ok r)
    (range : ∀ i ∈ script, i.channel < n)
    (last : ∀ c < n, EndsLast (contentsOf c script)) :
    (∀ calls, script.length + bytesOf script < calls.count .next →
      .ok .finished ∈ (r.serve calls).1.map (·.answer)) ∧
    ∀ calls, .ok .finished ∈ (r.serve calls).1.map (·.answer) →
      (∀ c < n,
        outputs c (trace (r.serve calls).1) =
          ((Decoder.new settings.decoder).process c (contentsOf c script)).1 ∧
        dealt c (trace (r.serve calls).1) = contentsOf c script) ∧
      ((r.serve calls).1.map (·.answer)).filterMap Reading.outcome? =
        (trace (r.serve calls).1).filterMap (·.outcome?) ∧
      (r.serve calls).2.aligner.queue = [] ∧ (r.serve calls).2.aligner.replay = [] ∧
      (r.serve calls).2.feed.arrivals = [] := by
  obtain ⟨steady, load⟩ := load_new h
  refine ⟨fun calls hc => finished_mem_serve steady (load ▸ hc), fun calls finished => ?_⟩
  obtain ⟨hfol, hdone⟩ := (reaches_serve r calls).follows_done h range last
  obtain ⟨pending, quiet⟩ := hdone (isFinished_serve finished)
  refine ⟨fun c hc => ?_, outcomes_serve r calls, ?_⟩
  · have hdealt := hfol.accounts.order c
    rw [pending, contentsOf_nil, List.append_nil] at hdealt
    refine ⟨?_, hdealt⟩
    have hlt : c < (r.serve calls).2.decoders.length := by
      rw [hfol.wellFormed.decoders]
      exact hc
    have hout := (hfol.accounts.decoded c _ (List.getElem?_eq_getElem hlt)).1
    rw [Decoder.drain_of_none (quiet _ (List.getElem_mem hlt)), hdealt] at hout
    rwa [List.map_nil, List.append_nil] at hout
  · rw [Reader.pending, Aligner.items] at pending
    obtain ⟨hitems, harrivals⟩ := List.append_eq_nil_iff.mp pending
    obtain ⟨hqueue, hreplay⟩ := List.append_eq_nil_iff.mp hitems
    exact ⟨hqueue, hreplay, hfol.wellFormed.plain.arrivals_eq_nil harrivals⟩

theorem serve_delivers_crossing :
    let served := crossingReader.serve (List.replicate 17 .next)
    .ok .finished ∈ served.1.map (·.answer) ∧
      (∀ c < 2, dealt c (trace served.1) = contentsOf c crossing) ∧
      served.2.aligner.queue = [] ∧ served.2.aligner.replay = [] := by
  obtain ⟨finishes, delivers⟩ := serve_delivers new_crossing (by decide) (by decide)
  have finished := finishes (List.replicate 17 .next) (by decide)
  obtain ⟨all, -, hqueue, hreplay, -⟩ := delivers _ finished
  exact ⟨finished, fun c hc => (all c hc).2, hqueue, hreplay⟩

end Reader

end StreamCheckpoint
