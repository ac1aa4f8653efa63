import StreamCheckpoint.Proofs.Reading.Transitions

/-! Whole runs of a reader.  A task calls its reader again and again (`serve`), and every call takes
some turns; `Reaches` says where a run can be after any number of turns, in the middle of a call
too.  What every turn preserves holds there (`Reaches.induction`). -/

namespace StreamCheckpoint

variable {α : Type}

/-- A gate that delivers the items of `script` and is then exhausted. -/
def Feed.ofScript (channels : Nat) (script : List Item) : Feed :=
  { channels, arrivals := script.map .item }

/-- What a task asks of its reader. -/
inductive Call
  /-- The next record or boundary. -/
  | next
  /-- To begin the next superstep. -/
  | startNextSuperstep
deriving DecidableEq, Repr

/-- An answer of a reader, with what happened on the way to it. -/
structure Reply (α : Type) where
  answer : Except ReadError (Reading α)
  activity : List (Activity α)

/-- What happened during some calls, in order. -/
def trace (replies : List (Reply α)) : List (Activity α) := replies.flatMap (·.activity)

@[simp] theorem trace_nil : trace ([] : List (Reply α)) = [] := rfl

@[simp] theorem trace_cons (p : Reply α) (replies : List (Reply α)) :
    trace (p :: replies) = p.activity ++ trace replies := rfl

@[simp] theorem trace_append (ps qs : List (Reply α)) : trace (ps ++ qs) = trace ps ++ trace qs :=
  List.flatMap_append

theorem exists_of_mem_trace {replies : List (Reply α)} {x : Activity α} (h : x ∈ trace replies) :
    ∃ earlier p later u v, replies = earlier ++ p :: later ∧ p.activity = u ++ x :: v := by
  obtain ⟨p, hp, hx⟩ := List.mem_flatMap.mp h
  obtain ⟨earlier, later, hreplies⟩ := List.append_of_mem hp
  obtain ⟨u, v, hactivity⟩ := List.append_of_mem hx
  exact ⟨earlier, p, later, u, v, hreplies, hactivity⟩

/-- The record or decode error that is the answer is the last thing that happened, and there was no
other. -/
def LastOutcome (p : Reply α) : Prop :=
  (∃ u c o, (∀ a ∈ u, a.outcome? = none) ∧ p.activity = u ++ [Activity.ofOutcome c o] ∧
    Reading.outcome? p.answer = some o) ∨
  Reading.outcome? p.answer = none ∧ ∀ a ∈ p.activity, a.outcome? = none

theorem LastOutcome.outcomes {p : Reply α} (h : LastOutcome p) :
    (Reading.outcome? p.answer).toList = p.activity.filterMap (·.outcome?) := by
  rcases h with ⟨u, c, o, hu, hact, ho⟩ | ⟨ho, hact⟩
  · rw [ho, hact, List.filterMap_append, List.filterMap_eq_nil_iff.mpr hu]
    simp
  · rw [ho, List.filterMap_eq_nil_iff.mpr hact]
    rfl

/-- Only the last thing that happened can have been a record or an error. -/
theorem LastOutcome.before {p : Reply α} (h : LastOutcome p) {u v : List (Activity α)}
    {x : Activity α} (e : p.activity = u ++ x :: v) : ∀ a ∈ u, a.outcome? = none := by
  rcases h with ⟨w, c, o, hw, hact, -⟩ | ⟨-, hact⟩
  · intro a ha
    rw [e] at hact
    rcases List.append_eq_append_iff.mp hact with ⟨as, rfl, -⟩ | ⟨cs, rfl, hcs⟩
    · exact hw a (List.mem_append_left _ ha)
    · cases cs with
      | nil => exact hw a (by simpa using ha)
      | cons y cs =>
        obtain ⟨-, hnil⟩ := List.cons.inj hcs
        cases cs <;> cases hnil
  · exact fun a ha => hact a (e ▸ List.mem_append_left _ ha)

namespace Reader

variable [Record α] {r s : Reader α} {t : List (Activity α)}

/-- Answers calls, one after the other. -/
def serve (r : Reader α) : List Call → List (Reply α) × Reader α
  | [] => ([], r)
  | .next :: calls =>
    let (replies, last) := r.next.reader.serve calls
    (⟨r.next.answer, r.next.activity⟩ :: replies, last)
  | .startNextSuperstep :: calls => r.startNextSuperstep.serve calls

theorem serve_append (r : Reader α) (calls more : List Call) :
    r.serve (calls ++ more) =
      ((r.serve calls).1 ++ ((r.serve calls).2.serve more).1,
        ((r.serve calls).2.serve more).2) := by
  induction calls generalizing r with
  | nil => rfl
  | cons call calls ih => cases call with
    | next => simp only [List.cons_append, serve, ih]
    | startNextSuperstep => simp only [List.cons_append, serve, ih]

theorem read_of_some {answer : Except ReadError (Reading α)} (h : r.turn.answer = some answer) :
    r.read = ⟨answer, r.turn.activity, r.turn.reader⟩ := by
  rw [read]
  split
  · next h' => rw [Option.some.inj (h.symm.trans h')]
  · next h' => rw [h] at h'; cases h'

theorem read_of_none (h : r.turn.answer = none) :
    r.read =
      { r.turn.reader.read with activity := r.turn.activity ++ r.turn.reader.read.activity } := by
  rw [read]
  split
  · next h' => rw [h] at h'; cases h'
  · rfl

theorem next_of_unfinished (h : r.isFinished = false) : r.next = r.read := by
  rw [next, if_neg (by simp [h])]

theorem next_of_finished (h : r.isFinished = true) : r.next = ⟨.ok .finished, [], r⟩ := by
  rw [next, if_pos h]

/-- `s` is where a run of `r` can be in the middle of a call, and `t` is what happened since the
call was made. -/
inductive Turns : Reader α → List (Activity α) → Reader α → Prop
  | here (r : Reader α) : Turns r [] r
  | more {r s : Reader α} {t : List (Activity α)} (unfinished : r.isFinished = false)
      (quiet : r.turn.answer = none) (later : Turns r.turn.reader t s) :
      Turns r (r.turn.activity ++ t) s

/-- `s` is where a run of `r` can be, between two calls or in the middle of one, and `t` is what
happened on the way. -/
def Reaches (r : Reader α) (t : List (Activity α)) (s : Reader α) : Prop :=
  ∃ calls u, t = trace (r.serve calls).1 ++ u ∧ (r.serve calls).2.Turns u s

theorem reaches_serve (r : Reader α) (calls : List Call) :
    r.Reaches (trace (r.serve calls).1) (r.serve calls).2 :=
  ⟨calls, [], (List.append_nil _).symm, .here _⟩

theorem Turns.snoc (h : r.Turns t s) (unfinished : s.isFinished = false)
    (quiet : s.turn.answer = none) : r.Turns (t ++ s.turn.activity) s.turn.reader := by
  induction h with
  | here r => simpa using Turns.more unfinished quiet (.here _)
  | more unf qui _ ih =>
    rw [List.append_assoc]
    exact .more unf qui (ih unfinished quiet)

/-- A call that takes some turns goes on as a call of the reader after them. -/
theorem Turns.next (h : r.Turns t s) (unfinished : s.isFinished = false) :
    r.next = { s.read with activity := t ++ s.read.activity } := by
  induction h with
  | here r => rw [next_of_unfinished unfinished]; rfl
  | more unf qui later ih =>
    rw [next_of_unfinished unf, read_of_none qui, List.append_assoc]
    cases later with
    | here => rfl
    | more unf' qui' later' =>
      rw [← next_of_unfinished unf', ih unfinished]

theorem Reaches.turn (h : r.Reaches t s) (unfinished : s.isFinished = false) :
    r.Reaches (t ++ s.turn.activity) s.turn.reader := by
  obtain ⟨calls, u, rfl, h⟩ := h
  cases ha : s.turn.answer with
  | none => exact ⟨calls, _, List.append_assoc _ _ _, h.snoc unfinished ha⟩
  | some answer =>
    have hn := h.next unfinished
    rw [read_of_some ha] at hn
    refine ⟨calls ++ [.next], [], ?_, ?_⟩
    · simp [serve_append, serve, hn]
    · simp only [serve_append, serve, hn]
      exact .here _

theorem isFinished_of_quiet (quiet : r.turn.answer = none) :
    r.turn.reader.isFinished = r.isFinished := by
  have h := r.finishes_turn
  rw [Finishes, quiet] at h
  simpa using h

theorem Turns.isFinished (h : r.Turns t s) : s.isFinished = r.isFinished := by
  induction h with
  | here => rfl
  | more _ quiet _ ih => rw [ih, isFinished_of_quiet quiet]

theorem Reaches.exists_serve (h : r.Reaches t s) : ∃ calls, t <+: trace (r.serve calls).1 := by
  obtain ⟨calls, u, rfl, h⟩ := h
  cases hf : s.isFinished with
  | false =>
    refine ⟨calls ++ [.next], ?_⟩
    simp [serve_append, serve, h.next hf]
  | true =>
    cases h with
    | here => exact ⟨calls, by simp⟩
    | more unfinished quiet later =>
      rw [later.isFinished, isFinished_of_quiet quiet, unfinished] at hf
      cases hf

section Invariants

variable {P : List (Activity α) → Reader α → Prop}

theorem read_preserves
    (turn : ∀ t s, P t s → s.isFinished = false → P (t ++ s.turn.activity) s.turn.reader)
    (h : P t r) (hf : r.isFinished = false) : P (t ++ r.read.activity) r.read.reader := by
  induction r using read.induct generalizing t with
  | case1 r answer ha =>
    rw [read_of_some ha]
    exact turn _ _ h hf
  | case2 r ha _ ih =>
    rw [read_of_none ha, ← List.append_assoc]
    exact ih (turn _ _ h hf) ((isFinished_of_quiet ha).trans hf)

theorem Turns.preserves
    (turn : ∀ t s, P t s → s.isFinished = false → P (t ++ s.turn.activity) s.turn.reader)
    {u : List (Activity α)} (h : r.Turns u s) (hp : P t r) : P (t ++ u) s := by
  induction h generalizing t with
  | here r => rwa [List.append_nil]
  | more unfinished _ _ ih =>
    rw [← List.append_assoc]
    exact ih (turn _ _ hp unfinished)

/-- What holds at the beginning, and is preserved by every turn and by the beginning of a superstep,
holds wherever a run can be. -/
theorem Reaches.induction (start : P [] r)
    (turn : ∀ t s, r.Reaches t s → P t s → s.isFinished = false →
      P (t ++ s.turn.activity) s.turn.reader)
    (again : ∀ t s, P t s → P t s.startNextSuperstep) (h : r.Reaches t s) : P t s := by
  have turn' : ∀ t s, (r.Reaches t s ∧ P t s) → s.isFinished = false →
      (r.Reaches (t ++ s.turn.activity) s.turn.reader ∧ P (t ++ s.turn.activity) s.turn.reader) :=
    fun t s hs hf => ⟨hs.1.turn hf, turn t s hs.1 hs.2 hf⟩
  -- the calls are answered one by one; `done` are those that have been
  have hserve : ∀ calls done, P (trace (r.serve done).1) (r.serve done).2 →
      P (trace (r.serve (done ++ calls)).1) (r.serve (done ++ calls)).2 := by
    intro calls
    induction calls with
    | nil => intro done hd; rwa [List.append_nil]
    | cons call calls ih =>
      intro done hd
      rw [← List.singleton_append, ← List.append_assoc]
      refine ih _ ?_
      cases call with
      | startNextSuperstep => simpa [serve_append, serve] using again _ _ hd
      | next =>
        simp only [serve_append, serve, trace_append, trace_cons, trace_nil, List.append_nil]
        cases hf : (r.serve done).2.isFinished with
        | true => simpa [next_of_finished hf] using hd
        | false =>
          rw [next_of_unfinished hf]
          exact (read_preserves turn' ⟨r.reaches_serve done, hd⟩ hf).2
  obtain ⟨calls, u, rfl, hu⟩ := h
  exact (hu.preserves turn' ⟨r.reaches_serve calls, hserve calls [] start⟩).2

end Invariants

section After

/-- The reader after `k` turns, and what happened in them. -/
def after (r : Reader α) : Nat → List (Activity α) × Reader α
  | 0 => ([], r)
  | k + 1 => ((r.after k).1 ++ (r.after k).2.turn.activity, (r.after k).2.turn.reader)

theorem reaches_after {k : Nat} (unfinished : (r.after k).2.isFinished = false) :
    r.Reaches (r.after k).1 (r.after k).2 := by
  induction k with
  | zero => exact ⟨[], [], rfl, .here _⟩
  | succ k ih =>
    have hk : (r.after k).2.isFinished = false := by
      have h := (r.after k).2.finishes_turn
      rw [Finishes, show (r.after k).2.turn.reader.isFinished = false from unfinished] at h
      cases hf : (r.after k).2.isFinished with
      | false => rfl
      | true => exact absurd (h.mpr (.inl hf)) Bool.false_ne_true
    exact (ih hk).turn hk

end After

section Answers

theorem lastOutcome_read (r : Reader α) : LastOutcome ⟨r.read.answer, r.read.activity⟩ := by
  induction r using read.induct with
  | case1 r answer ha =>
    rw [read_of_some ha]
    rcases r.turn_outcome with ⟨c, o, ho, hact⟩ | ⟨ho, hact⟩
    · obtain rfl := Option.some.inj (ha.symm.trans ho)
      exact .inl ⟨[], c, o, by simp, hact, by simp⟩
    · rw [ha] at ho
      exact .inr ⟨ho, hact⟩
  | case2 r ha _ ih =>
    rw [read_of_none ha]
    have hquiet : ∀ a ∈ r.turn.activity, a.outcome? = none := by
      rcases r.turn_outcome with ⟨c, o, ho, -⟩ | ⟨-, hact⟩
      · rw [ha] at ho; cases ho
      · exact hact
    rcases ih with ⟨u, c, o, hu, hact, ho⟩ | ⟨ho, hact⟩
    · refine .inl ⟨r.turn.activity ++ u, c, o, fun a h => ?_, ?_, ho⟩
      · exact (List.mem_append.mp h).elim (hquiet a) (hu a)
      · rw [List.append_assoc, ← hact]
    · exact .inr ⟨ho, fun a h => (List.mem_append.mp h).elim (hquiet a) (hact a)⟩

theorem lastOutcome_serve (r : Reader α) (calls : List Call) :
    ∀ p ∈ (r.serve calls).1, LastOutcome p := by
  induction calls generalizing r with
  | nil => simp [serve]
  | cons call calls ih => cases call with
    | startNextSuperstep => exact ih _
    | next =>
      intro p hp
      rw [serve, List.mem_cons] at hp
      rcases hp with rfl | hp
      · cases hf : r.isFinished with
        | true =>
          rw [next_of_finished hf]
          exact .inr ⟨rfl, by simp⟩
        | false =>
          rw [next_of_unfinished hf]
          exact r.lastOutcome_read
      · exact ih _ p hp

theorem outcomes_serve (r : Reader α) (calls : List Call) :
    ((r.serve calls).1.map (·.answer)).filterMap Reading.outcome? =
      (trace (r.serve calls).1).filterMap (·.outcome?) := by
  have h := r.lastOutcome_serve calls
  generalize (r.serve calls).1 = replies at h
  induction replies with
  | nil => rfl
  | cons p replies ih =>
    rw [List.map_cons, trace_cons, List.filterMap_append,
      ← ih fun q hq => h q (List.mem_cons_of_mem _ hq), ← (h p List.mem_cons_self).outcomes]
    cases ho : Reading.outcome? p.answer with
    | none => rw [List.filterMap_cons_none ho, Option.toList_none, List.nil_append]
    | some o => rw [List.filterMap_cons_some ho, Option.toList_some, List.singleton_append]

theorem isFinished_read (h : r.read.answer = .ok .finished) : r.read.reader.isFinished = true := by
  induction r using read.induct with
  | case1 r answer ha =>
    rw [read_of_some ha] at h ⊢
    exact r.finishes_turn.mpr (.inr (ha.trans (congrArg some h)))
  | case2 r ha _ ih =>
    rw [read_of_none ha] at h ⊢
    exact ih h

omit [Record α] in
theorem isFinished_startNextSuperstep (r : Reader α) :
    r.startNextSuperstep.isFinished = r.isFinished := by
  unfold startNextSuperstep
  split <;> rfl

theorem isFinished_serve_of_finished (hf : r.isFinished = true) (calls : List Call) :
    (r.serve calls).2.isFinished = true := by
  induction calls generalizing r with
  | nil => exact hf
  | cons call calls ih => cases call with
    | startNextSuperstep => exact ih (by rwa [isFinished_startNextSuperstep])
    | next =>
      rw [serve, next_of_finished hf]
      exact ih hf

theorem isFinished_serve {calls : List Call}
    (h : .ok .finished ∈ (r.serve calls).1.map (·.answer)) :
    (r.serve calls).2.isFinished = true := by
  induction calls generalizing r with
  | nil => simp [serve] at h
  | cons call calls ih => cases call with
    | startNextSuperstep => exact ih h
    | next =>
      rw [serve, List.map_cons, List.mem_cons] at h
      rcases h with h | h
      · refine isFinished_serve_of_finished ?_ calls
        cases hf : r.isFinished with
        | true => rwa [next_of_finished hf]
        | false =>
          rw [next_of_unfinished hf] at h ⊢
          exact isFinished_read h.symm
      · exact ih h

end Answers

section Crossing

/-- Two channels deliver a checkpoint: the buffer of the first one comes after its barrier, that of
the second one before it. -/
def crossing : List Item := [
  .event 0 (.barrier (.plain 1 0)), .buffer 0 [0, 0, 0, 1, 97],
  .buffer 1 [0, 0, 0, 1, 98], .event 1 (.barrier (.plain 1 0)),
  .event 0 .endOfPartition, .event 1 .endOfPartition]

/-- A reader of `crossing`. -/
def crossingReader : Reader Bytes where
  feed := .ofScript 2 crossing
  decoders := List.replicate 2 (.new {})
  aligner := { closed := List.replicate 2 false }
  handler := .tracker (.new 2)

omit [Record α] in
theorem new_crossing : new (.ofScript 2 crossing) = .ok crossingReader := rfl

end Crossing

end Reader

end StreamCheckpoint
