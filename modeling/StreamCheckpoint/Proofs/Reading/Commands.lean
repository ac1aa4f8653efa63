import StreamCheckpoint.Proofs.Alignment.Limit
import StreamCheckpoint.Proofs.Reading.Plan
import StreamCheckpoint.Proofs.Record.Registers

/-! All that a task can ask of its reader, in any order (`obey`).  Whatever it asks, the reader
makes calls of its aligner, and the notices are those that the calls send (`leads_obey`): what holds
of every run of an aligner holds of the aligner of a reader.  The settings of the decoders stay as
they are (`settings_obey`). -/

namespace StreamCheckpoint

variable {α : Type}

/-- What a task can ask of its reader. -/
inductive Command
  /-- The next record or boundary. -/
  | next
  /-- To begin the next superstep. -/
  | startNextSuperstep
  /-- To add a subscriber to the custom events of a kind. -/
  | subscribe (kind : Nat)
  /-- To put the handler into another state. -/
  | setHandler (handler : Handler)
  /-- To send the notices to a listener. -/
  | listen (listener : Listener)
  /-- To drop what decoders have read and what is held back. -/
  | clearBuffers
deriving DecidableEq, Repr

namespace Aligner

/-- Some calls lead from `a` to `a'`, and `ns` are the notices that they send. -/
def Leads (a : Aligner) (ns : List Notice) (a' : Aligner) : Prop := ∃ ops, a.run ops = (ns, a')

section Leads

variable {a a' a'' : Aligner} {ns ms : List Notice}

theorem leads_run (a : Aligner) (ops : List Operation) : a.Leads (a.run ops).1 (a.run ops).2 :=
  ⟨ops, rfl⟩

theorem Leads.refl (a : Aligner) : a.Leads [] a := ⟨[], rfl⟩

theorem Leads.trans (h : a.Leads ns a') (h' : a'.Leads ms a'') : a.Leads (ns ++ ms) a'' := by
  obtain ⟨ops, h⟩ := h
  obtain ⟨more, h'⟩ := h'
  exact ⟨ops ++ more, by rw [run_append, h, h']⟩

theorem leads_perform (a : Aligner) (op : Operation) :
    a.Leads (a.perform op).notices (a.perform op).aligner :=
  ⟨[op], by rw [run_cons, run_nil, List.append_nil]⟩

/-- One more call that sends no notice. -/
theorem Leads.concat (h : a.Leads ns a') (op : Operation) (silent : (a'.perform op).notices = []) :
    a.Leads ns (a'.perform op).aligner := by
  have leads := h.trans (a'.leads_perform op)
  rwa [silent, List.append_nil] at leads

theorem leads_closeEach (a : Aligner) (cs : List Nat) :
    a.Leads (a.closeEach cs).1 (a.closeEach cs).2 := by
  induction cs generalizing a with
  | nil => exact .refl a
  | cons c cs ih => exact (a.leads_perform (.close c)).trans (ih _)

theorem Leads.settings (h : a.Leads ns a') : a'.settings = a.settings := by
  obtain ⟨ops, h⟩ := h
  have settings := a.settings_run ops
  rwa [h] at settings

theorem channels_run (a : Aligner) (ops : List Operation) :
    (a.run ops).2.channels = a.channels := by
  induction ops generalizing a with
  | nil => rfl
  | cons op ops ih => exact (ih _).trans (a.performs op).channels

theorem Leads.channels (h : a.Leads ns a') : a'.channels = a.channels := by
  obtain ⟨ops, h⟩ := h
  have channels := a.channels_run ops
  rwa [h] at channels

theorem Leads.sound (h : a.Leads ns a') (sound : a.bare.Sound) : a'.bare.Sound := by
  obtain ⟨ops, h⟩ := h
  have sound := sound_run sound ops
  rwa [h] at sound

theorem Leads.progress (h : a.Leads ns a') (sound : a.bare.Sound) : a.Progress ns a' := by
  obtain ⟨ops, h⟩ := h
  have progress := progress_run sound ops
  rwa [h] at progress

end Leads

end Aligner

namespace Reader

section Leads

variable {r s : Reader α} {t : Turn α}

/-- The handler gets the event, and then hands it on. -/
theorem activity_handle (r : Reader α) (channel : Nat) (e : Event) :
    ∃ ds : List Delivery,
      (r.handle channel e).activity = .handled channel e :: ds.map .delivered := by
  unfold handle
  split
  · exact ⟨[], rfl⟩
  · simp only
    split <;> exact ⟨_, rfl⟩

theorem notices_handle (r : Reader α) (channel : Nat) (e : Event) :
    notices (r.handle channel e).activity = [] := by
  obtain ⟨ds, same⟩ := r.activity_handle channel e
  rw [same]
  simp [notices, Activity.notice?]

theorem leads_handle (r : Reader α) (channel : Nat) (e : Event) :
    r.aligner.Leads (notices (r.handle channel e).activity)
      (r.handle channel e).reader.aligner := by
  rw [notices_handle, (r.handle_reader channel e).2]
  exact .refl _

theorem leads_dispatchEvent (r : Reader α) (channel : Nat) (e : Event) :
    r.aligner.Leads (notices (r.dispatchEvent channel e).activity)
      (r.dispatchEvent channel e).reader.aligner := by
  unfold dispatchEvent
  split
  · next b =>
    have leads := r.aligner.leads_perform (.offer channel (.barrier b))
    rw [← notices_notices (α := α) (Reaction.notices _)] at leads
    simp only
    split <;> exact leads
  · have leads := r.aligner.leads_perform (.close channel)
    rw [← notices_notices (α := α) (Reaction.notices _)] at leads
    simp only
    split
    · exact leads
    · rw [notices_append]
      exact leads.trans (leads_handle
        { r with aligner := (r.aligner.closeChannel channel).aligner } channel .endOfPartition)
  · exact r.leads_handle channel _

theorem Takes.leads {item : Item} (h : r.Takes item s) : r.aligner.Leads [] s.aligner := by
  cases h with
  | replayed replay =>
    have leads := r.aligner.leads_perform .replayNext
    simpa only [Aligner.perform, Aligner.replayNext, replay] using leads
  | arrived => exact .refl _

theorem Settles.leads (h : r.Settles t) :
    r.aligner.Leads (notices t.activity) t.reader.aligner := by
  have leads := r.aligner.leads_closeEach (List.range r.aligner.channels)
  cases h with
  | exhausted => exact .refl _
  | emptied => rwa [notices_notices]
  | released => rwa [notices_notices]

theorem Advances.leads (h : r.Advances t) :
    r.aligner.Leads (notices t.activity) t.reader.aligner := by
  cases h with
  | @held item s take =>
    rw [notices_notices]
    exact take.leads.trans (s.aligner.leads_perform (.store item))
  | fed take => exact take.leads
  | @dispatched channel e s take => exact take.leads.trans (s.leads_dispatchEvent channel e)
  | stray take => exact take.leads
  | settled _ settle => exact settle.leads
  | failed => exact .refl _

variable [Record α]

theorem Decodes.leads (h : r.Decodes t) :
    r.aligner.Leads (notices t.activity) t.reader.aligner := by
  have same : t.reader.aligner = r.aligner := by cases h <;> rfl
  rw [h.trace_spec.1, same]
  exact .refl _

/-- A turn makes calls of the aligner. -/
theorem leads_turn (r : Reader α) :
    r.aligner.Leads (notices r.turn.activity) r.turn.reader.aligner := by
  have decodes := r.decodes.leads
  by_cases quiet : r.decodeCurrent.answer = none
  · rw [r.decodes.activity quiet] at decodes
    rw [turn_of_quiet quiet]
    exact decodes.trans (advances _).leads
  · rw [turn_of_answer quiet]
    exact decodes

end Leads

section Settings

variable {r : Reader α} {t : Turn α}

/-- The settings of the decoders. -/
def decoderSettings (r : Reader α) : List DecoderSettings := r.decoders.map fun d => ⟨d.limit⟩

theorem settings_clearBuffers (r : Reader α) :
    r.clearBuffers.decoderSettings = r.decoderSettings := by
  simp [decoderSettings, clearBuffers, Function.comp_def, Decoder.clear]

theorem Advances.settings (h : r.Advances t) : t.reader.decoderSettings = r.decoderSettings := by
  unfold decoderSettings
  cases h with
  | held take => rw [take.decoders]
  | @fed channel bytes s take =>
    rw [← take.decoders]
    refine List.ext_getElem? fun c => ?_
    simp only [List.getElem?_map, List.getElem?_modify]
    cases s.decoders[c]? with
    | none => rfl
    | some d =>
      simp only [Option.map_eq_map, Option.map_some]
      split <;> rfl
  | @dispatched channel e s take => rw [(s.dispatchEvent_reader channel e).2.2, take.decoders]
  | stray take => rw [take.decoders]
  | settled _ settle => rw [settle.same.1]
  | failed => rfl

variable [Record α]

theorem settings_set {c : Nat} {d : Decoder α} (decoder : r.decoders[c]? = some d) :
    (r.decoders.set c d.next.2).map (fun d => (⟨d.limit⟩ : DecoderSettings)) =
      r.decoderSettings := by
  have kept : r.decoderSettings[c]? = some ⟨d.limit⟩ := by
    rw [decoderSettings, List.getElem?_map, decoder, Option.map_some]
  rw [List.map_set, d.limit_next]
  exact set_of_getElem? kept

theorem Decodes.settings (h : r.Decodes t) : t.reader.decoderSettings = r.decoderSettings := by
  cases h with
  | idle => rfl
  | through _ decoder => exact settings_set decoder
  | outcome _ decoder => exact settings_set decoder

theorem settings_turn (r : Reader α) : r.turn.reader.decoderSettings = r.decoderSettings := by
  by_cases quiet : r.decodeCurrent.answer = none
  · rw [turn_of_quiet quiet, (advances _).settings, r.decodes.settings]
  · rw [turn_of_answer quiet, r.decodes.settings]

end Settings

section Obey

variable [Record α] {r : Reader α}

/-- Does what the task asks; only the next record or boundary is an answer. -/
def carryOut (r : Reader α) : Command → List (Reply α) × Reader α
  | .next => ([⟨r.next.answer, r.next.activity⟩], r.next.reader)
  | .startNextSuperstep => ([], r.startNextSuperstep)
  | .subscribe kind => ([], r.subscribe kind)
  | .setHandler handler => ([], { r with handler })
  | .listen listener => ([], { r with aligner := r.aligner.setListener listener })
  | .clearBuffers => ([], r.clearBuffers)

/-- Does what the task asks, one after the other. -/
def obey (r : Reader α) : List Command → List (Reply α) × Reader α
  | [] => ([], r)
  | command :: commands =>
    let (replies, r) := r.carryOut command
    let (more, last) := r.obey commands
    (replies ++ more, last)

/-- Between two calls for a record a task changes who hears notices and where the handler is,
unless it drops everything. -/
theorem carryOut_spec (r : Reader α) {command : Command} (reads : command ≠ .next)
    (drops : command ≠ .clearBuffers) :
    ∃ listener handler, r.carryOut command =
      ([], { r with aligner := r.aligner.setListener listener, handler }) := by
  cases command with
  | next => exact absurd rfl reads
  | clearBuffers => exact absurd rfl drops
  | listen listener => exact ⟨listener, r.handler, rfl⟩
  | setHandler handler => exact ⟨r.aligner.listener, handler, rfl⟩
  | startNextSuperstep =>
    obtain ⟨feed, decoders, aligner, handler, current, isFinished⟩ := r
    cases handler with
    | tracker t => exact ⟨aligner.listener, .tracker t.startNext, rfl⟩
    | observer => exact ⟨aligner.listener, .observer, rfl⟩
  | subscribe kind =>
    obtain ⟨feed, decoders, aligner, handler, current, isFinished⟩ := r
    cases handler with
    | tracker t => exact ⟨aligner.listener, .tracker (t.subscribe kind), rfl⟩
    | observer => exact ⟨aligner.listener, .observer, rfl⟩

/-- What every turn preserves, and everything that is asked between two calls for a record, holds
after all that a task asks. -/
theorem obey_preserves {P : List (Activity α) → Reader α → Prop} {commands : List Command}
    (turn : ∀ t s, P t s → s.isFinished = false → P (t ++ s.turn.activity) s.turn.reader)
    (adjust : ∀ t s listener handler, P t s →
      P t { s with aligner := s.aligner.setListener listener, handler })
    (clear : .clearBuffers ∈ commands → ∀ t s, P t s → P t s.clearBuffers)
    {t : List (Activity α)} (h : P t r) :
    P (t ++ trace (r.obey commands).1) (r.obey commands).2 := by
  induction commands generalizing r t with
  | nil => simpa [obey] using h
  | cons command commands ih =>
    have first : P (t ++ trace (r.carryOut command).1) (r.carryOut command).2 := by
      by_cases reads : command = .next
      · subst reads
        simp only [carryOut, trace_cons, trace_nil, List.append_nil]
        cases finished : r.isFinished with
        | true => simpa [next_of_finished finished] using h
        | false =>
          rw [next_of_unfinished finished]
          exact read_preserves turn h finished
      · by_cases drops : command = .clearBuffers
        · subst drops
          simpa [carryOut] using clear List.mem_cons_self _ _ h
        · obtain ⟨listener, handler, same⟩ := r.carryOut_spec reads drops
          rw [same, trace_nil, List.append_nil]
          exact adjust _ _ _ _ h
    have rest := ih (fun h => clear (List.mem_cons_of_mem _ h)) first
    simpa only [obey, trace_append, List.append_assoc] using rest

/-- Whatever a task asks, its reader makes calls of the aligner. -/
theorem leads_obey (r : Reader α) (commands : List Command) :
    r.aligner.Leads (notices (trace (r.obey commands).1)) (r.obey commands).2.aligner := by
  refine obey_preserves (P := fun t s => r.aligner.Leads (notices t) s.aligner) (t := [])
    (fun t s h _ => ?_) (fun t s listener _ h => h.concat (.setListener listener) rfl)
    (fun _ t s h => h.concat .cleanup rfl) (.refl _)
  rw [notices_append]
  exact h.trans s.leads_turn

theorem settings_obey (r : Reader α) (commands : List Command) :
    (r.obey commands).2.decoderSettings = r.decoderSettings :=
  obey_preserves (P := fun _ s => s.decoderSettings = r.decoderSettings) (t := [])
    (fun _ s h _ => s.settings_turn.trans h) (fun _ _ _ _ h => h)
    (fun _ _ s h => s.settings_clearBuffers.trans h) rfl

end Obey

end Reader

end StreamCheckpoint
