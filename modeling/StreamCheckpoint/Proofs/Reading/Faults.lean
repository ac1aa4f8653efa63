import StreamCheckpoint.Proofs.Reading.Load
import StreamCheckpoint.Proofs.Reading.Refinement

/-! Faults of a gate in the middle of reading.  A gate may fail now and then, or deliver an item of
a channel that it does not have.  The reader answers each of these with one error, and a task that
reads on gets what it would have got without them (`faults_transparent`).  A reader over a gate with
faults shadows one over the gate without them: its turn is the turn of the other one, or it answers
with the error and is where the other one is once that has asked its decoder (`Shadows.turn`). -/

namespace StreamCheckpoint

variable {α : Type}

/-- What a gate with `n` channels answers, when some of its answers are known to be faults. -/
inductive Entry (n : Nat)
  | original (a : Arrival)
  /-- A failure of the gate that was added. -/
  | failure (e : GateError)
  /-- An item that was added, of a channel that the gate does not have. -/
  | stray (item : Item) (range : n ≤ item.channel)

namespace Entry

variable {n : Nat}

/-- What the gate answers. -/
def arrival : Entry n → Arrival
  | original a => a
  | failure e => .failed e
  | stray item _ => .item item

/-- What the gate answers without the faults that were added. -/
def original? : Entry n → Option Arrival
  | original a => some a
  | failure _ => none
  | stray _ _ => none

/-- The error with which a reader answers a fault that was added. -/
def error? : Entry n → Option ReadError
  | original _ => none
  | failure e => some (.gate e)
  | stray item _ => some (.alignment (.channelOutOfRange item.channel n))

end Entry

/-- Something that a task can see of its reader. -/
inductive Observation (α : Type)
  | happened (x : Activity α)
  | answered (answer : Except ReadError (Reading α))

/-- What a task sees of the replies, in order. -/
def observed (replies : List (Reply α)) : List (Observation α) :=
  replies.flatMap fun p => p.activity.map .happened ++ [.answered p.answer]

/-- The last answer is that the input is exhausted. -/
def Ended (replies : List (Reply α)) : Prop :=
  (replies.map (·.answer)).getLast? = some (.ok .finished)

/-- The third list is the first two, each in its order. -/
inductive Merge {β : Type} : List β → List β → List β → Prop
  | nil : Merge [] [] []
  | left {x : β} {xs ys zs : List β} (rest : Merge xs ys zs) : Merge (x :: xs) ys (x :: zs)
  | right {y : β} {xs ys zs : List β} (rest : Merge xs ys zs) : Merge xs (y :: ys) (y :: zs)

theorem Merge.append_left {β : Type} {xs ys zs : List β} (h : Merge xs ys zs) (front : List β) :
    Merge (front ++ xs) ys (front ++ zs) := by
  induction front with
  | nil => exact h
  | cons x front ih => exact .left ih

theorem merge_nil {β : Type} (xs : List β) : Merge xs [] xs := by
  simpa using Merge.nil.append_left xs

theorem observed_cons (p : Reply α) (replies : List (Reply α)) :
    observed (p :: replies) =
      p.activity.map .happened ++ .answered p.answer :: observed replies := by
  simp [observed]

theorem Ended.cons {replies : List (Reply α)} (h : Ended replies) (p : Reply α) :
    Ended (p :: replies) := by
  unfold Ended at h ⊢
  rw [List.map_cons, List.getLast?_cons, h]
  rfl

/-- The reader with which a task goes on after the step: at the end of a superstep it begins the
next one. -/
def ReadStep.resume (s : ReadStep α) : Reader α :=
  match s.answer with
  | .ok .endOfSuperstep => s.reader.startNextSuperstep
  | _ => s.reader

/-- The reader over a gate with other answers. -/
def Reader.withArrivals (r : Reader α) (arrivals : List Arrival) : Reader α :=
  { r with feed := { r.feed with arrivals } }

/-- What the reader does with an answer of its gate. -/
def Reader.meet (r : Reader α) : Arrival → Turn α
  | .item item => r.dispatch item
  | .exhausted => r.settle
  | .failed e => ⟨some (.error (.gate e)), [], r⟩

/-- The turn over a gate with other answers. -/
def Turn.withArrivals (t : Turn α) (arrivals : List Arrival) : Turn α :=
  { t with reader := t.reader.withArrivals arrivals }

namespace Reader

section Arrivals

variable {r : Reader α} {arrivals : List Arrival}

theorem handle_withArrivals (r : Reader α) (arrivals : List Arrival) (channel : Nat) (e : Event) :
    (r.withArrivals arrivals).handle channel e = (r.handle channel e).withArrivals arrivals := by
  obtain ⟨feed, decoders, aligner, handler, current, isFinished⟩ := r
  cases handler with
  | observer => rfl
  | tracker t =>
    simp only [handle, withArrivals]
    cases (t.handle channel e).answer with
    | error => rfl
    | ok outcome => cases outcome <;> rfl

theorem dispatchEvent_withArrivals (r : Reader α) (arrivals : List Arrival) (channel : Nat)
    (e : Event) : (r.withArrivals arrivals).dispatchEvent channel e =
      (r.dispatchEvent channel e).withArrivals arrivals := by
  cases e with
  | barrier b =>
    simp only [dispatchEvent, withArrivals]
    cases (r.aligner.offer channel (.barrier b)).answer <;> rfl
  | endOfPartition =>
    have h := handle_withArrivals { r with aligner := (r.aligner.closeChannel channel).aligner }
      arrivals channel .endOfPartition
    simp only [dispatchEvent, withArrivals] at h ⊢
    cases (r.aligner.closeChannel channel).answer with
    | error => rfl
    | ok =>
      simp only
      rw [h]
      rfl
  | endOfSuperstep => exact handle_withArrivals _ _ _ _
  | custom => exact handle_withArrivals _ _ _ _

theorem dispatch_withArrivals (r : Reader α) (arrivals : List Arrival) (item : Item) :
    (r.withArrivals arrivals).dispatch item = (r.dispatch item).withArrivals arrivals := by
  unfold dispatch
  by_cases range : item.channel < r.decoders.length
  · rw [if_pos range, if_pos (by exact range)]
    by_cases blocked : r.aligner.isBlocked item.channel = true
    · rw [if_pos blocked, if_pos (by exact blocked)]
      rfl
    · rw [if_neg blocked, if_neg (by exact blocked)]
      cases item.content with
      | buffer => rfl
      | event e => exact dispatchEvent_withArrivals _ _ _ _
  · rw [if_neg range, if_neg (by exact range)]
    rfl

theorem settle_withArrivals (r : Reader α) (arrivals : List Arrival) :
    (r.withArrivals arrivals).settle = r.settle.withArrivals arrivals := by
  have unfolded : ∀ s : Reader α, s.settle =
      if s.aligner.settle.2.replay.isEmpty then
        ⟨some (.ok .finished), s.aligner.settle.1.map .notice,
          { s with aligner := s.aligner.settle.2, isFinished := true }⟩
      else ⟨none, s.aligner.settle.1.map .notice, { s with aligner := s.aligner.settle.2 }⟩ :=
    fun _ => rfl
  have closed : (r.withArrivals arrivals).aligner.settle = r.aligner.settle := rfl
  rw [unfolded, unfolded, closed]
  split <;> rfl

theorem decodeCurrent_withArrivals [Record α] (r : Reader α) (arrivals : List Arrival) :
    (r.withArrivals arrivals).decodeCurrent = r.decodeCurrent.withArrivals arrivals := by
  obtain ⟨feed, decoders, aligner, handler, current, isFinished⟩ := r
  cases current with
  | none => rfl
  | some c =>
    simp only [decodeCurrent, withArrivals]
    cases decoders[c]? with
    | none => rfl
    | some d =>
      simp only
      cases d.next.1 with
      | error => rfl
      | ok f => cases f <;> rfl

theorem startNextSuperstep_withArrivals (r : Reader α) (arrivals : List Arrival) :
    (r.withArrivals arrivals).startNextSuperstep =
      r.startNextSuperstep.withArrivals arrivals := by
  obtain ⟨feed, decoders, aligner, handler, current, isFinished⟩ := r
  cases handler <;> rfl

theorem meet_withArrivals (r : Reader α) (arrivals : List Arrival) (a : Arrival) :
    (r.withArrivals arrivals).meet a = (r.meet a).withArrivals arrivals := by
  cases a with
  | item item => exact dispatch_withArrivals r arrivals item
  | exhausted => exact settle_withArrivals r arrivals
  | failed e => rfl

theorem feed_dispatch (r : Reader α) (item : Item) : (r.dispatch item).reader.feed = r.feed := by
  unfold dispatch
  split
  · split
    · rfl
    · split
      · rfl
      · exact (r.dispatchEvent_reader item.channel _).1
  · rfl

theorem feed_meet (r : Reader α) (a : Arrival) : (r.meet a).reader.feed = r.feed := by
  cases a with
  | item item => exact r.feed_dispatch item
  | exhausted =>
    simp only [meet, settle]
    split <;> split <;> rfl
  | failed e => rfl

theorem advance_of_arrival {a : Arrival} (empty : r.aligner.replay = [])
    (feed : r.feed.arrivals = a :: arrivals) : r.advance = (r.withArrivals arrivals).meet a := by
  unfold advance
  simp only [empty, Feed.next, feed]
  cases a <;> rfl

theorem advance_of_end (empty : r.aligner.replay = []) (feed : r.feed.arrivals = []) :
    r.advance.reader.feed = r.feed := by
  unfold advance
  simp only [empty, Feed.next, feed]
  cases r.feed.failure with
  | none => exact r.feed_meet .exhausted
  | some e => rfl

end Arrivals

variable {n : Nat}

/-- The noisy reader `q` is where the reader `r` is, but its gate answers with faults in between,
and `rest` is what it has still to answer. -/
structure Shadows (rest : List (Entry n)) (r q : Reader α) : Prop where
  noisy : q = r.withArrivals (rest.map (·.arrival))
  clean : r.feed.arrivals = rest.filterMap (·.original?)
  decoders : r.decoders.length = n

/-- What a turn of a noisy reader is to the reader `r`: the same turn, or an answer to a fault that
was added. -/
inductive Repeats [Record α] (rest : List (Entry n)) (r : Reader α) : Turn α → Prop
  | same {taken rest' : List (Entry n)} {q : Reader α} (split : rest = taken ++ rest')
      (originals : taken.filterMap (·.error?) = []) (shadows : Shadows rest' r.turn.reader q) :
      Repeats rest r ⟨r.turn.answer, r.turn.activity, q⟩
  | fault {x : Entry n} {rest' : List (Entry n)} {e : ReadError} {q : Reader α}
      (split : rest = x :: rest') (error : x.error? = some e)
      (quiet : r.decodeCurrent.answer = none) (shadows : Shadows rest' r.decodeCurrent.reader q) :
      Repeats rest r ⟨some (.error e), [], q⟩

/-- What a call of a noisy reader is to the reader `r`: the same call, or an answer to a fault that
was added, after which the call of `r` goes on in `s`. -/
inductive Returns [Record α] (rest : List (Entry n)) (r : Reader α) : ReadStep α → Prop
  | same {taken rest' : List (Entry n)} {q : Reader α} (split : rest = taken ++ rest')
      (originals : taken.filterMap (·.error?) = []) (shadows : Shadows rest' r.next.reader q) :
      Returns rest r ⟨r.next.answer, r.next.activity, q⟩
  | fault {taken rest' : List (Entry n)} {x : Entry n} {e : ReadError} {t : List (Activity α)}
      {s q : Reader α} (split : rest = taken ++ x :: rest')
      (originals : taken.filterMap (·.error?) = []) (error : x.error? = some e)
      (later : r.next = { s.next with activity := t ++ s.next.activity })
      (shadows : Shadows rest' s q) : Returns rest r ⟨.error e, t, q⟩

section Turns

variable {rest : List (Entry n)} {r q s : Reader α}

theorem Advances.length_decoders {t : Turn α} (h : r.Advances t) :
    t.reader.decoders.length = r.decoders.length := by
  cases h with
  | held take => exact congrArg List.length take.decoders
  | fed take => rw [List.length_modify, take.decoders]
  | @dispatched channel e s take =>
    rw [(s.dispatchEvent_reader channel e).2.2, take.decoders]
  | stray take => exact congrArg List.length take.decoders
  | settled _ settle => exact congrArg List.length settle.same.1
  | failed => rfl

theorem Shadows.congr (h : Shadows rest r q) (feed : s.feed.arrivals = r.feed.arrivals)
    (decoders : s.decoders.length = r.decoders.length) :
    Shadows rest s (s.withArrivals (rest.map (·.arrival))) :=
  ⟨rfl, feed.trans h.clean, decoders.trans h.decoders⟩

/-- What the two readers do when they take the next item: the same, unless the gate of the noisy one
answers with a fault that was added. -/
theorem Shadows.advance (h : Shadows rest r q) :
    (∃ taken rest', rest = taken ++ rest' ∧ taken.filterMap (·.error?) = [] ∧
      r.advance.reader.feed.arrivals = rest'.filterMap (·.original?) ∧
      q.advance = r.advance.withArrivals (rest'.map (·.arrival))) ∨
    ∃ x rest' e, rest = x :: rest' ∧ x.error? = some e ∧
      r.feed.arrivals = rest'.filterMap (·.original?) ∧
      q.advance = ⟨some (.error e), [], r.withArrivals (rest'.map (·.arrival))⟩ := by
  obtain ⟨rfl, clean, rfl⟩ := h
  cases replay : r.aligner.replay with
  | cons item more =>
    refine .inl ⟨[], rest, rfl, rfl, ?_, ?_⟩
    · rw [advance_of_takes (.replayed replay), feed_dispatch]
      exact clean
    · rw [advance_of_takes (.replayed replay), ← dispatch_withArrivals]
      exact advance_of_takes (.replayed replay)
  | nil =>
    cases rest with
    | nil =>
      have clean : r.feed.arrivals = [] := clean
      have same : r.withArrivals [] = r := by rw [withArrivals, ← clean]
      have last : r.advance.reader.feed.arrivals = [] := by
        rw [advance_of_end replay clean, clean]
      refine .inl ⟨[], [], rfl, rfl, last, ?_⟩
      rw [List.map_nil, same, Turn.withArrivals, withArrivals, ← last]
    | cons x rest' =>
      have arrival : (r.withArrivals ((x :: rest').map (·.arrival))).advance = _ :=
        advance_of_arrival replay rfl
      cases x with
      | original a =>
        have clean : r.feed.arrivals = a :: rest'.filterMap (·.original?) := clean
        refine .inl ⟨[.original a], rest', rfl, rfl, ?_, ?_⟩
        · rw [advance_of_arrival replay clean, feed_meet]
          rfl
        · rw [arrival, advance_of_arrival replay clean, ← meet_withArrivals]
          rfl
      | failure e => exact .inr ⟨_, rest', _, rfl, rfl, clean, arrival⟩
      | stray item range =>
        refine .inr ⟨_, rest', _, rfl, rfl, clean, arrival.trans ?_⟩
        show Reader.dispatch _ item = _
        rw [dispatch, if_neg (by exact Nat.not_lt.mpr range)]
        rfl

variable [Record α]

theorem Decodes.length_decoders {t : Turn α} (h : r.Decodes t) :
    t.reader.decoders.length = r.decoders.length := by
  cases h with
  | idle => rfl
  | _ => exact List.length_set

/-- Once its decoder was asked, a reader does what it would have done. -/
theorem turn_decodeCurrent (quiet : r.decodeCurrent.answer = none) :
    r.decodeCurrent.reader.turn = r.turn := by
  have again := decodeCurrent_again quiet
  rw [turn_of_quiet quiet, turn_of_quiet (by rw [again]), again]

theorem Shadows.turn (h : Shadows rest r q) : Repeats rest r q.turn := by
  have decoded : q.decodeCurrent = r.decodeCurrent.withArrivals (rest.map (·.arrival)) := by
    rw [h.noisy, decodeCurrent_withArrivals]
  have shadows : Shadows rest r.decodeCurrent.reader q.decodeCurrent.reader := by
    rw [decoded]
    exact h.congr (congrArg Feed.arrivals r.decodeCurrent_reader.1) r.decodes.length_decoders
  have answer : q.decodeCurrent.answer = r.decodeCurrent.answer := by rw [decoded]; rfl
  by_cases quiet : r.decodeCurrent.answer = none
  · rw [turn_of_quiet (answer.trans quiet)]
    rcases shadows.advance with ⟨taken, rest', split, originals, clean, same⟩ |
        ⟨x, rest', e, split, error, clean, fault⟩
    · rw [same]
      rw [← turn_of_quiet quiet] at clean ⊢
      refine .same split originals ⟨rfl, clean, ?_⟩
      rw [turn_of_quiet quiet, (advances _).length_decoders]
      exact shadows.decoders
    · rw [fault]
      exact .fault split error quiet ⟨rfl, clean, shadows.decoders⟩
  · rw [turn_of_answer (answer ▸ quiet), decoded]
    rw [decoded] at shadows
    rw [← turn_of_answer quiet] at shadows ⊢
    exact .same (show rest = [] ++ rest from rfl) rfl shadows

theorem next_of_answer {answer : Except ReadError (Reading α)} (unfinished : r.isFinished = false)
    (h : r.turn.answer = some answer) : r.next = ⟨answer, r.turn.activity, r.turn.reader⟩ := by
  rw [next_of_unfinished unfinished, read_of_some h]

theorem next_of_quiet (unfinished : r.isFinished = false) (quiet : r.turn.answer = none) :
    r.next = { r.turn.reader.next with
      activity := r.turn.activity ++ r.turn.reader.next.activity } := by
  rw [next_of_unfinished unfinished, read_of_none quiet,
    next_of_unfinished ((isFinished_of_quiet quiet).trans unfinished)]

theorem next_decodeCurrent (unfinished : r.isFinished = false)
    (quiet : r.decodeCurrent.answer = none) : r.decodeCurrent.reader.next = r.next := by
  have same := turn_decodeCurrent quiet
  have unfinished' : r.decodeCurrent.reader.isFinished = false := by
    have finishes := r.decodes.finishes
    rw [Finishes, quiet] at finishes
    simpa [unfinished] using finishes
  cases ha : r.turn.answer with
  | some answer =>
    rw [next_of_answer unfinished ha, next_of_answer unfinished' (same ▸ ha), same]
  | none => rw [next_of_quiet unfinished ha, next_of_quiet unfinished' (same ▸ ha), same]

omit [Record α] in
theorem Shadows.isFinished (h : Shadows rest r q) : q.isFinished = r.isFinished := by
  rw [h.noisy]
  rfl

theorem Shadows.next (h : Shadows rest r q) : Returns rest r q.next := by
  cases finished : r.isFinished with
  | true =>
    have same := next_of_finished finished
    rw [next_of_finished (h.isFinished.trans finished)]
    have returns : Returns rest r ⟨r.next.answer, r.next.activity, q⟩ :=
      .same (show rest = [] ++ rest from rfl) rfl (by rw [same]; exact h)
    rwa [same] at returns
  | false =>
    rw [next_of_unfinished (h.isFinished.trans finished)]
    -- the turns of the noisy reader, each of which is one of `r` or the end of the call
    induction q using read.induct generalizing r rest with
    | case1 q answer ha =>
      rw [read_of_some ha]
      have turn := h.turn
      generalize q.turn = t at turn ha
      cases turn with
      | same split originals shadows =>
        have next := next_of_answer finished ha
        have returns := Returns.same (r := r) split originals (by rw [next]; exact shadows)
        rwa [next] at returns
      | fault split error quiet shadows =>
        obtain rfl := Option.some.inj ha
        refine .fault (t := []) (show rest = [] ++ _ from split) rfl error ?_ shadows
        rw [next_decodeCurrent finished quiet]
        rfl
    | case2 q ha _ ih =>
      rw [read_of_none ha]
      have turn := h.turn
      generalize q.turn = t at turn ha ih
      cases turn with
      | @same _ _ q' split originals shadows =>
        have next := next_of_quiet finished ha
        have later := ih shadows ((isFinished_of_quiet ha).trans finished)
        generalize q'.read = step at later ⊢
        cases later with
        | same split' originals' shadows' =>
          have returns := Returns.same (r := r) (split.trans (split' ▸ (List.append_assoc ..).symm))
            (by rw [List.filterMap_append, originals, originals', List.append_nil])
            (by rw [next]; exact shadows')
          rwa [next] at returns
        | fault split' originals' error later shadows' =>
          refine .fault (split.trans (split' ▸ (List.append_assoc ..).symm)) ?_ error ?_ shadows'
          · rw [List.filterMap_append, originals, originals', List.append_nil]
          · rw [next, later, List.append_assoc]
      | fault => cases ha

end Turns

section Reading

variable {rest : List (Entry n)} {r q s : Reader α}

theorem Steady.resume {step : ReadStep α} (h : step.reader.Steady) : step.resume.Steady := by
  unfold ReadStep.resume
  split
  · exact h.startNextSuperstep
  · exact h

theorem load_resume (step : ReadStep α) : step.resume.load = step.reader.load := by
  unfold ReadStep.resume
  split
  · exact load_startNextSuperstep _
  · rfl

theorem Shadows.resume {step step' : ReadStep α} (answer : step'.answer = step.answer)
    (h : Shadows rest step.reader step'.reader) : Shadows rest step.resume step'.resume := by
  unfold ReadStep.resume
  rw [answer]
  split
  · rw [h.noisy, startNextSuperstep_withArrivals]
    have same : step.reader.startNextSuperstep.feed = step.reader.feed ∧
        step.reader.startNextSuperstep.decoders = step.reader.decoders := by
      unfold startNextSuperstep
      split <;> exact ⟨rfl, rfl⟩
    exact h.congr (congrArg Feed.arrivals same.1) (congrArg List.length same.2)
  · exact h

variable [Record α]

/-- Reads to the end of the input, errors or not, or until there were `limit` answers. -/
def readOut (r : Reader α) : Nat → List (Reply α) × Reader α
  | 0 => ([], r)
  | limit + 1 =>
    let reply : Reply α := ⟨r.next.answer, r.next.activity⟩
    match r.next.answer with
    | .ok .finished => ([reply], r.next.reader)
    | _ =>
      let (replies, last) := r.next.resume.readOut limit
      (reply :: replies, last)

theorem readOut_of_finished {step : ReadStep α} (next : r.next = step)
    (finished : step.answer = .ok .finished) (limit : Nat) :
    r.readOut (limit + 1) = ([⟨step.answer, step.activity⟩], step.reader) := by
  rw [readOut, next, finished]

theorem readOut_of_more {step : ReadStep α} (next : r.next = step)
    (more : step.answer ≠ .ok .finished) (limit : Nat) :
    r.readOut (limit + 1) = (⟨step.answer, step.activity⟩ :: (step.resume.readOut limit).1,
      (step.resume.readOut limit).2) := by
  subst next
  rw [readOut]
  split
  · next finished => exact absurd finished more
  · rfl

/-- Reading on from the middle of a call gives what was to come. -/
theorem readOut_later {t : List (Activity α)}
    (later : r.next = { s.next with activity := t ++ s.next.activity }) (limit : Nat) :
    observed (r.readOut (limit + 1)).1 = t.map .happened ++ observed (s.readOut (limit + 1)).1 ∧
      (r.readOut (limit + 1)).1.map (·.answer) = (s.readOut (limit + 1)).1.map (·.answer) ∧
      (r.readOut (limit + 1)).2 = (s.readOut (limit + 1)).2 := by
  by_cases finished : s.next.answer = .ok .finished
  · rw [readOut_of_finished later finished, readOut_of_finished rfl finished]
    exact ⟨by simp [observed], rfl, rfl⟩
  · rw [readOut_of_more later finished, readOut_of_more rfl finished]
    exact ⟨by simp [observed_cons, ReadStep.resume], rfl, rfl⟩

/-- Going on takes from the load. -/
theorem load_next (h : r.Steady) (more : r.next.answer ≠ .ok .finished) :
    r.next.resume.Steady ∧ r.next.resume.load < r.load := by
  cases finished : r.isFinished with
  | true => exact absurd (by rw [next_of_finished finished]) more
  | false =>
    rw [next_of_unfinished finished] at more ⊢
    obtain ⟨steady, less⟩ := load_read h
    exact ⟨steady.resume, by rw [load_resume]; exact less more⟩

/-- What a task gets from the noisy reader is what it gets from the other one, with one error for
each fault that was added. -/
theorem Shadows.readOut {limit limit' : Nat} (h : Shadows rest r q) (steady : q.Steady)
    (enough : q.load < limit) (enough' : q.load < limit') :
    ∃ reached unreached, rest = reached ++ unreached ∧
      Shadows unreached (r.readOut limit').2 (q.readOut limit).2 ∧
      Merge (observed (r.readOut limit').1)
        ((reached.filterMap (·.error?)).map fun e => .answered (.error e))
        (observed (q.readOut limit).1) ∧
      Ended (r.readOut limit').1 ∧ Ended (q.readOut limit).1 := by
  induction limit generalizing limit' rest r q with
  | zero => exact absurd enough (Nat.not_lt_zero _)
  | succ limit ih =>
    obtain ⟨limit', rfl⟩ := Nat.exists_eq_succ_of_ne_zero (Nat.ne_zero_of_lt enough')
    have returns := h.next
    have more := load_next steady
    generalize next : q.next = step at returns more
    cases returns with
    | @same taken rest' q' split originals shadows =>
      by_cases finished : r.next.answer = .ok .finished
      · rw [readOut_of_finished next finished, readOut_of_finished rfl finished]
        refine ⟨taken, rest', split, shadows, ?_, ?_, ?_⟩
        · rw [originals]
          exact merge_nil _
        · simp [Ended, finished]
        · simp [Ended, finished]
      · obtain ⟨steady', less⟩ := more finished
        have resumed : Shadows rest' r.next.resume
            (⟨r.next.answer, r.next.activity, q'⟩ : ReadStep α).resume := .resume rfl shadows
        obtain ⟨reached, unreached, split', shadows', merge, ended, ended'⟩ :=
          ih resumed steady' (Nat.lt_of_lt_of_le less (Nat.le_of_lt_succ enough))
            (Nat.lt_of_lt_of_le less (Nat.le_of_lt_succ enough'))
        rw [readOut_of_more next finished, readOut_of_more rfl finished]
        refine ⟨taken ++ reached, unreached, ?_, shadows', ?_, ended.cons _, ended'.cons _⟩
        · rw [split, split', List.append_assoc]
        · rw [List.filterMap_append, originals, List.nil_append, observed_cons, observed_cons]
          exact merge.left.append_left _
    | @fault taken rest' x e t s q' split originals error later shadows =>
      have goesOn : (⟨.error e, t, q'⟩ : ReadStep α).answer ≠ .ok .finished := by simp
      obtain ⟨steady', less⟩ : q'.Steady ∧ q'.load < q.load := more goesOn
      obtain ⟨reached, unreached, split', shadows', merge, ended, ended'⟩ :=
        ih shadows steady' (Nat.lt_of_lt_of_le less (Nat.le_of_lt_succ enough))
          (Nat.lt_trans less enough')
      obtain ⟨seen, answers, last⟩ := readOut_later later limit'
      rw [readOut_of_more next goesOn]
      refine ⟨taken ++ x :: reached, unreached, ?_, last ▸ shadows', ?_, ?_, ended'.cons _⟩
      · rw [split, split', List.append_assoc, List.cons_append]
      · rw [List.filterMap_append, originals, List.nil_append, List.filterMap_cons_some error,
          List.map_cons, seen, observed_cons]
        exact merge.right.append_left _
      · rw [Ended, answers]
        exact ended

end Reading

section Transparency

theorem ofParts_spec {feed : Feed} {decoders : List (Decoder α)} {aligner : Aligner}
    {handler : Handler} {r : Reader α} (h : ofParts feed decoders aligner handler = .ok r) :
    r = { feed, decoders, aligner, handler } := by
  unfold ofParts at h
  split at h
  · cases h
  · exact (Except.ok.inj h).symm

variable [Record α] {decoder : DecoderSettings} {aligner : Aligner} {handler : Handler}
  {entries : List (Entry n)} {r q : Reader α}

/-- Gate failures and items of channels that the gate does not have, wherever they come, are
answered with one error each, as far as the reader gets to them.  Without those errors a task that
reads on to the end of the input sees the same as over the gate without the faults: the same
records, errors and boundaries, with the same things happening between them. -/
theorem faults_transparent
    (clean : ofParts { channels := n, arrivals := entries.filterMap (·.original?) }
      (List.replicate n (.new decoder)) aligner handler = .ok r)
    (noisy : ofParts { channels := n, arrivals := entries.map (·.arrival) }
      (List.replicate n (.new decoder)) aligner handler = .ok q)
    {limit : Nat} (enough : q.load < limit) :
    ∃ reached unreached, entries = reached ++ unreached ∧
      (q.readOut limit).2 = (r.readOut limit).2.withArrivals (unreached.map (·.arrival)) ∧
      Merge (observed (r.readOut limit).1)
        ((reached.filterMap (·.error?)).map fun e => .answered (.error e))
        (observed (q.readOut limit).1) ∧
      Ended (r.readOut limit).1 ∧ Ended (q.readOut limit).1 := by
  have hr := ofParts_spec clean
  have hq := ofParts_spec noisy
  have shadows : Shadows entries r q := by
    subst hr hq
    exact ⟨rfl, rfl, List.length_replicate⟩
  have steady : q.Steady := by
    subst hq
    refine ⟨fun d hd => ?_, rfl⟩
    obtain ⟨-, rfl⟩ := List.mem_replicate.mp hd
    exact ⟨[], Decoder.holds_between _⟩
  obtain ⟨reached, unreached, split, last, merge, ended, ended'⟩ :=
    shadows.readOut steady enough enough
  exact ⟨reached, unreached, split, last.noisy, merge, ended, ended'⟩

/-- The gate of `crossing` fails at first and again in the middle of the alignment, and delivers an
item of a third channel in between. -/
def faultyCrossing : List (Entry 2) := [
  .failure (.transport "lost"),
  .original (.item (.event 0 (.barrier (.plain 1 0)))),
  .stray (.buffer 2 [7]) (by decide),
  .original (.item (.buffer 0 [0, 0, 0, 1, 97])),
  .original (.item (.buffer 1 [0, 0, 0, 1, 98])),
  .failure (.transport "lost"),
  .original (.item (.event 1 (.barrier (.plain 1 0)))),
  .original (.item (.event 0 .endOfPartition)),
  .original (.item (.event 1 .endOfPartition))]

theorem faults_transparent_crossing :
    faultyCrossing.filterMap (·.original?) = crossing.map .item ∧
    ∃ q : Reader Bytes,
      ofParts { channels := 2, arrivals := faultyCrossing.map (·.arrival) }
        crossingReader.decoders crossingReader.aligner crossingReader.handler = .ok q ∧
      q.load < 30 ∧
      ∃ reached unreached, faultyCrossing = reached ++ unreached ∧
        Merge (observed (crossingReader.readOut 30).1)
          ((reached.filterMap (·.error?)).map fun e => .answered (.error e))
          (observed (q.readOut 30).1) ∧
        Ended (q.readOut 30).1 := by
  have clean : ofParts { channels := 2, arrivals := faultyCrossing.filterMap (·.original?) }
      (List.replicate 2 (.new {})) crossingReader.aligner crossingReader.handler =
        .ok crossingReader := rfl
  refine ⟨rfl, _, rfl, by decide, ?_⟩
  obtain ⟨reached, unreached, split, -, merge, -, ended⟩ :=
    faults_transparent clean rfl (show _ < 30 by decide)
  exact ⟨reached, unreached, split, merge, ended⟩

end Transparency

end Reader

end StreamCheckpoint
