import StreamCheckpoint.Proofs.Reading.Load

/-! Reading comes to an end, whatever the gate answers.  Every call is some turns without an answer
and then one with the answer, and no call takes more turns than the budget of the reader; and a
reader gives only so many answers before it answers that the input is exhausted, for ever
(`serve_finishes`). -/

namespace StreamCheckpoint

namespace Reader

variable {α : Type} [Record α] {r : Reader α}

/-- The call of a reader that is not finished comes to an end: it is `k` turns without an answer
and one with the answer. -/
structure EndsAfter (r : Reader α) (k : Nat) : Prop where
  quiet : ∀ j < k, (r.after j).2.turn.answer = none
  answer : (r.after k).2.turn.answer = some r.next.answer
  activity : (r.after (k + 1)).1 = r.next.activity
  reader : (r.after (k + 1)).2 = r.next.reader

theorem after_succ (r : Reader α) (k : Nat) :
    r.after (k + 1) =
      (r.turn.activity ++ (r.turn.reader.after k).1, (r.turn.reader.after k).2) := by
  induction k with
  | zero => simp [after]
  | succ k ih =>
    rw [after, ih, after, List.append_assoc]

theorem endsAfter_of_answer {answer : Except ReadError (Reading α)}
    (unfinished : r.isFinished = false) (h : r.turn.answer = some answer) : r.EndsAfter 0 := by
  constructor <;> simp [next_of_unfinished unfinished, read_of_some h, after, h]

theorem EndsAfter.more {k : Nat} (unfinished : r.isFinished = false)
    (quiet : r.turn.answer = none) (h : r.turn.reader.EndsAfter k) : r.EndsAfter (k + 1) := by
  have hnext : r.turn.reader.next = r.turn.reader.read :=
    next_of_unfinished ((isFinished_of_quiet quiet).trans unfinished)
  constructor
  · intro j hj
    cases j with
    | zero => exact quiet
    | succ j =>
      rw [after_succ]
      exact h.quiet j (Nat.lt_of_succ_lt_succ hj)
  · rw [after_succ, next_of_unfinished unfinished, read_of_none quiet, ← hnext]
    exact h.answer
  · rw [after_succ, next_of_unfinished unfinished, read_of_none quiet, ← hnext, h.activity]
  · rw [after_succ, next_of_unfinished unfinished, read_of_none quiet, ← hnext, h.reader]

/-- Every turn without an answer takes from the budget, so that a call comes to an end before the
budget is used up. -/
theorem exists_endsAfter (unfinished : r.isFinished = false) : ∃ k ≤ r.budget, r.EndsAfter k := by
  induction r using read.induct with
  | case1 r answer ha => exact ⟨0, Nat.zero_le _, endsAfter_of_answer unfinished ha⟩
  | case2 r ha hless ih =>
    obtain ⟨k, hk, hends⟩ := ih ((isFinished_of_quiet ha).trans unfinished)
    exact ⟨k + 1, Nat.lt_of_le_of_lt hk hless, hends.more unfinished ha⟩

/-- A reader of any finite sequence of answers of a gate, whatever they are, answers every call, and
after at most one answer for each of them and one for each byte of their buffers it answers that
the input is exhausted, and goes on to do so. -/
theorem serve_finishes {n : Nat} {script : List Arrival} {settings : ReaderSettings}
    {listener : Listener} (h : new { channels := n, arrivals := script } settings listener = .ok r)
    (calls : List Call) :
    ((r.serve calls).2.isFinished = false →
      ∃ k ≤ (r.serve calls).2.budget, (r.serve calls).2.EndsAfter k) ∧
    ((r.serve calls).2.isFinished = true →
      (r.serve calls).2.next = ⟨.ok .finished, [], (r.serve calls).2⟩) ∧
    ∃ before m, (r.serve calls).1.map (·.answer) = before ++ List.replicate m (.ok .finished) ∧
      .ok .finished ∉ before ∧
      before.length ≤ script.length + bytesOf (script.filterMap (·.item?)) ∧
      before.length + m = calls.count .next := by
  obtain ⟨steady, load⟩ := load_start rfl h
  exact ⟨exists_endsAfter, next_of_finished, load ▸ answers_serve steady calls⟩

/-- A gate with one channel fails, delivers an item of another channel and two bytes of a length,
and fails again: of seven calls at least one finds the input exhausted. -/
theorem serve_finishes_failing :
    let script : List Arrival := [.failed (.transport "lost"), .item ⟨3, .buffer []⟩,
      .item ⟨0, .buffer [0, 0]⟩, .failed (.transport "lost")]
    ∃ r : Reader Bytes, new { channels := 1, arrivals := script } = .ok r ∧
      .ok .finished ∈ (r.serve (List.replicate 7 .next)).1.map (·.answer) := by
  intro script
  have hnew := new_of_pos (α := Bytes) { channels := 1, arrivals := script } Nat.one_pos {} .silent
  obtain ⟨-, -, before, m, heq, -, hle, hcount⟩ := serve_finishes hnew (List.replicate 7 .next)
  refine ⟨_, hnew, ?_⟩
  have hload : script.length + bytesOf (script.filterMap (·.item?)) = 6 := by decide
  rw [List.count_replicate_self] at hcount
  rw [heq]
  exact List.mem_append_right _ (List.mem_replicate.2 ⟨by omega, rfl⟩)

end Reader

end StreamCheckpoint
