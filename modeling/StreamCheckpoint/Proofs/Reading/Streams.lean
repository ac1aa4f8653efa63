import StreamCheckpoint.Proofs.Channel.Contents
import StreamCheckpoint.Reading.Reader

/-! What happens on one channel.  The trace of a run is what happened on all of them; `dealt` and
`outputs` are the parts that belong to a single one.  `Decoder.process` says what should come out of
a channel that is dealt with alone: a run is right if its outputs are those. -/

namespace StreamCheckpoint

variable {α : Type}

namespace Activity

/-- The record or decode error that an activity is. -/
def outcome? : Activity α → Option (Except DecodeError α)
  | .record _ v => some (.ok v)
  | .refused _ e => some (.error e)
  | _ => none

/-- The event that the handler got. -/
def event? : Activity α → Option Event
  | .handled _ e => some e
  | _ => none

/-- Whether the activity is a record or decode error of `channel`, or the handler got an event of
it. -/
def isOutputOf (channel : Nat) : Activity α → Bool
  | .record c _ => c == channel
  | .refused c _ => c == channel
  | .handled c _ => c == channel
  | _ => false

/-- What of `channel` was dealt with: a buffer by its decoder, a barrier by the aligner, or another
event by the handler. -/
def dealt? (channel : Nat) : Activity α → Option Content
  | .fed c bytes => if c = channel then some (.buffer bytes) else none
  | .offered c b => if c = channel then some (.event (.barrier b)) else none
  | .handled c e => if c = channel then some (.event e) else none
  | _ => none

/-- What the record or the error of a decoder is as an activity of its channel. -/
def ofOutcome (channel : Nat) : Except DecodeError α → Activity α
  | .ok v => .record channel v
  | .error e => .refused channel e

@[simp] theorem outcome?_notice (n : Notice) : (notice n : Activity α).outcome? = none := rfl

@[simp] theorem outcome?_delivered (d : Delivery) :
    (delivered d : Activity α).outcome? = none := rfl

@[simp] theorem outcome?_fed (c : Nat) (bytes : Bytes) :
    (fed c bytes : Activity α).outcome? = none := rfl

@[simp] theorem outcome?_offered (c : Nat) (b : Barrier) :
    (offered c b : Activity α).outcome? = none := rfl

@[simp] theorem outcome?_handled (c : Nat) (e : Event) :
    (handled c e : Activity α).outcome? = none := rfl

@[simp] theorem outcome?_ofOutcome (channel : Nat) (o : Except DecodeError α) :
    (ofOutcome channel o).outcome? = some o := by
  cases o <;> rfl

theorem outcomes_ofOutcome (channel : Nat) (os : List (Except DecodeError α)) :
    (os.map (ofOutcome channel)).filterMap (·.outcome?) = os := by
  rw [List.filterMap_map, show (·.outcome?) ∘ ofOutcome channel = some from
    funext (outcome?_ofOutcome channel)]
  exact List.filterMap_some

@[simp] theorem event?_ofOutcome (channel : Nat) (o : Except DecodeError α) :
    (ofOutcome channel o).event? = none := by
  cases o <;> rfl

@[simp] theorem dealt?_ofOutcome (channel c : Nat) (o : Except DecodeError α) :
    (ofOutcome c o).dealt? channel = none := by
  cases o <;> rfl

@[simp] theorem isOutputOf_ofOutcome (channel c : Nat) (o : Except DecodeError α) :
    (ofOutcome c o).isOutputOf channel = (c == channel) := by
  cases o <;> rfl

end Activity

/-- What of `channel` was dealt with in `t`, in order. -/
def dealt (channel : Nat) (t : List (Activity α)) : List Content := t.filterMap (·.dealt? channel)

/-- The records, decode errors and handled events of `channel` in `t`, in order. -/
def outputs (channel : Nat) (t : List (Activity α)) : List (Activity α) :=
  t.filter (·.isOutputOf channel)

/-- The records and decode errors of `channel` in `t`, in order. -/
def results (channel : Nat) (t : List (Activity α)) : List (Except DecodeError α) :=
  (outputs channel t).filterMap (·.outcome?)

/-- The events of `channel` that the handler got in `t`, in order. -/
def handled (channel : Nat) (t : List (Activity α)) : List Event :=
  (outputs channel t).filterMap (·.event?)

section Traces

variable {channel : Nat} {t u : List (Activity α)}

@[simp] theorem dealt_nil : dealt channel ([] : List (Activity α)) = [] := rfl

@[simp] theorem dealt_append : dealt channel (t ++ u) = dealt channel t ++ dealt channel u :=
  List.filterMap_append

@[simp] theorem outputs_append :
    outputs channel (t ++ u) = outputs channel t ++ outputs channel u :=
  List.filter_append _ _

@[simp] theorem results_append :
    results channel (t ++ u) = results channel t ++ results channel u := by
  rw [results, outputs_append, List.filterMap_append, results, results]

@[simp] theorem dealt_notices (ns : List Notice) :
    dealt channel (ns.map (.notice (α := α))) = [] := by
  simp [dealt, Activity.dealt?]

@[simp] theorem outputs_notices (ns : List Notice) :
    outputs channel (ns.map (.notice (α := α))) = [] := by
  simp [outputs, Activity.isOutputOf]

theorem dealt_fed (channel : Nat) (bytes : Bytes) (c : Nat) :
    dealt c [(.fed channel bytes : Activity α)] = if channel = c then [.buffer bytes] else [] := by
  by_cases hc : channel = c <;> simp [dealt, Activity.dealt?, hc]

theorem dealt_offered (channel : Nat) (b : Barrier) (ns : List Notice) (c : Nat) :
    dealt c ((.offered channel b : Activity α) :: ns.map .notice) =
      if channel = c then [.event (.barrier b)] else [] := by
  by_cases hc : channel = c <;> simp [dealt, Activity.dealt?, hc]

theorem outputs_offered (channel : Nat) (b : Barrier) (ns : List Notice) (c : Nat) :
    outputs c ((.offered channel b : Activity α) :: ns.map .notice) = [] := by
  simp [outputs, Activity.isOutputOf]

end Traces

namespace Decoder

variable [Record α]

/-- Deals with what a channel brings, in order and without regard to other channels: buffers go
through the decoder, barriers have no output of their own, and every other event is handled. -/
def process (channel : Nat) (d : Decoder α) : List Content → List (Activity α) × Decoder α
  | [] => ([], d)
  | .buffer bytes :: xs =>
    let (outcomes, d) := (d.setBuffer bytes).drain
    let (more, d) := d.process channel xs
    (outcomes.map (.ofOutcome channel) ++ more, d)
  | .event (.barrier _) :: xs => d.process channel xs
  | .event e :: xs =>
    let (more, d) := d.process channel xs
    (.handled channel e :: more, d)

theorem process_append (channel : Nat) (d : Decoder α) (xs ys : List Content) :
    d.process channel (xs ++ ys) =
      ((d.process channel xs).1 ++ ((d.process channel xs).2.process channel ys).1,
        ((d.process channel xs).2.process channel ys).2) := by
  induction xs generalizing d with
  | nil => rfl
  | cons x xs ih => cases x with
    | buffer bytes => simp only [List.cons_append, process, ih, List.append_assoc]
    | event e => cases e <;> simp only [List.cons_append, process, ih]

theorem outcomes_process (channel : Nat) (d : Decoder α) (xs : List Content) :
    (d.process channel xs).1.filterMap (·.outcome?) =
        (d.readBuffers (xs.filterMap (·.buffer?))).1 ∧
      (d.process channel xs).2 = (d.readBuffers (xs.filterMap (·.buffer?))).2 := by
  induction xs generalizing d with
  | nil => exact ⟨rfl, rfl⟩
  | cons x xs ih => cases x with
    | buffer bytes =>
      obtain ⟨h1, h2⟩ := ih (d.setBuffer bytes).drain.2
      refine ⟨?_, h2⟩
      simp only [process, List.filterMap_append, Activity.outcomes_ofOutcome, h1]
      rfl
    | event e => cases e <;> exact ih d

theorem events_process (channel : Nat) (d : Decoder α) (xs : List Content) :
    (d.process channel xs).1.filterMap (·.event?) = xs.filterMap (·.handled?) := by
  induction xs generalizing d with
  | nil => rfl
  | cons x xs ih => cases x with
    | buffer bytes => simp [process, ih, Content.handled?]
    | event e => cases e with
      | barrier b => exact ih d
      | _ => exact congrArg (List.cons _) (ih d)

end Decoder

end StreamCheckpoint
