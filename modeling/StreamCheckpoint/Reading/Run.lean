import StreamCheckpoint.Alignment.Held
import StreamCheckpoint.Reading.Reader

/-! Reading turn after turn until there is an answer.  Every turn without an answer disposes of an
item for good, or ends the alignment in flight, or holds an item back, and there are only so many
items; `budget` weighs the three, and `budget_turn` says that every turn without an answer makes it
smaller. -/

namespace StreamCheckpoint

/-- What reading did. -/
structure ReadStep (α : Type) where
  answer : Except ReadError (Reading α)
  activity : List (Activity α)
  reader : Reader α

namespace Reader

variable {α : Type}

/-- The number of items and other answers of the gate that have not been dealt with. -/
def outstanding (r : Reader α) : Nat := r.feed.arrivals.length + r.aligner.held

/-- The number of those that are not held back. -/
def ahead (r : Reader α) : Nat := r.feed.arrivals.length + r.aligner.replay.length

/-- A bound on the number of turns without an answer: with `n` answers outstanding, fewer than
`2 * (n + 1)` turns pass until one of them is dealt with. -/
def budget (r : Reader α) : Nat :=
  r.outstanding * (r.outstanding + 1) + (if r.aligner.isAligning then r.outstanding + 1 else 0) +
    r.ahead

theorem ahead_le (r : Reader α) : r.ahead ≤ r.outstanding := by
  simp only [ahead, outstanding, Aligner.held]
  omega

/-- Dealing with an item for good makes the budget smaller. -/
theorem budget_lt_of_outstanding {r s : Reader α} (h : r.outstanding < s.outstanding) :
    r.budget < s.budget := by
  have hr := r.ahead_le
  have hm : (r.outstanding + 1) * (r.outstanding + 2) ≤ s.outstanding * (s.outstanding + 1) :=
    Nat.mul_le_mul h (by omega)
  have he : (r.outstanding + 1) * (r.outstanding + 2) =
      r.outstanding * (r.outstanding + 1) + 2 * r.outstanding + 2 := by
    rw [Nat.mul_comm (r.outstanding + 1), Nat.add_mul r.outstanding 2]
    omega
  simp only [budget]
  split <;> split <;> omega

theorem budget_lt_of_idle {r s : Reader α} (ho : r.outstanding ≤ s.outstanding)
    (hr : r.aligner.isAligning = false) (hs : s.aligner.isAligning) : r.budget < s.budget := by
  rcases Nat.lt_or_eq_of_le ho with h | h
  · exact budget_lt_of_outstanding h
  · have := r.ahead_le
    simp only [budget, hr, hs, h, if_true]
    simp
    omega

theorem budget_lt_of_ahead {r s : Reader α} (ho : r.outstanding = s.outstanding)
    (ha : r.aligner.isAligning = s.aligner.isAligning) (h : r.ahead < s.ahead) :
    r.budget < s.budget := by
  simp only [budget, ho, ha]
  omega

theorem decodeCurrent_reader [Record α] (r : Reader α) :
    r.decodeCurrent.reader.feed = r.feed ∧ r.decodeCurrent.reader.aligner = r.aligner := by
  simp only [decodeCurrent]
  split
  · exact ⟨rfl, rfl⟩
  · split
    · exact ⟨rfl, rfl⟩
    · split <;> exact ⟨rfl, rfl⟩

theorem handle_reader (r : Reader α) (channel : Nat) (e : Event) :
    (r.handle channel e).reader.feed = r.feed ∧
      (r.handle channel e).reader.aligner = r.aligner := by
  simp only [handle]
  split
  · exact ⟨rfl, rfl⟩
  · split <;> exact ⟨rfl, rfl⟩

theorem outstanding_dispatchEvent (r : Reader α) (channel : Nat) (e : Event) :
    (r.dispatchEvent channel e).reader.outstanding = r.outstanding := by
  simp only [dispatchEvent]
  split
  · split <;> simp [outstanding]
  · split
    · simp [outstanding]
    · next hc => simp [outstanding, handle_reader]
  · simp [outstanding, handle_reader]

/-- Dealing with an item that was taken from a reader `s` makes the budget smaller. -/
theorem budget_dispatch {r s : Reader α} {item : Item}
    (ho : s.outstanding = r.outstanding + 1) (ha : s.ahead = r.ahead + 1)
    (hf : s.aligner.isAligning = r.aligner.isAligning) :
    (r.dispatch item).reader.budget < s.budget := by
  simp only [dispatch]
  split
  · split
    · next hb =>
      have hal : r.aligner.isAligning := by
        cases h : r.aligner.inFlight with
        | none => simp [Aligner.isBlocked, h] at hb
        | some f => simp [Aligner.isAligning, h]
      have heq : r.feed.arrivals.length + (r.aligner.store item).2.held = s.outstanding := by
        rw [Aligner.held_store, ho, outstanding]
        omega
      rcases Aligner.store_inFlight hal item with h | h
      · exact budget_lt_of_idle (Nat.le_of_eq heq) h (hf.trans hal)
      · refine budget_lt_of_ahead heq (h.1.trans (hf.trans hal).symm) ?_
        simp only [ahead, h.2] at ha ⊢
        omega
    · split
      · refine budget_lt_of_outstanding ?_
        simp only [outstanding] at ho ⊢
        omega
      · refine budget_lt_of_outstanding ?_
        rw [outstanding_dispatchEvent]
        omega
  · refine budget_lt_of_outstanding ?_
    show r.outstanding < s.outstanding
    omega

theorem budget_settle {r s : Reader α} (ho : r.outstanding ≤ s.outstanding)
    (ha : r.aligner = s.aligner) (hr : r.aligner.replay = []) (h : r.settle.answer = none) :
    r.settle.reader.budget < s.budget := by
  simp only [settle] at h ⊢
  by_cases hal : r.aligner.isAligning
  · rw [if_pos hal] at h ⊢
    by_cases he : r.aligner.closeAll.2.replay.isEmpty
    · simp [he] at h
    · rw [if_neg he]
      have hn : r.aligner.closeAll.2.inFlight = none :=
        Aligner.inFlight_closeAll hr fun e => he (by rw [e]; rfl)
      refine budget_lt_of_idle ?_ (by simp [Aligner.isAligning, hn]) (ha ▸ hal)
      simpa [outstanding] using ho
  · simp [hal, hr] at h

theorem budget_advance (r : Reader α) (h : r.advance.answer = none) :
    r.advance.reader.budget < r.budget := by
  simp only [advance] at h ⊢
  cases hr : r.aligner.replay with
  | cons item rest =>
    refine budget_dispatch ?_ ?_ rfl
    · simp only [outstanding, Aligner.held, Aligner.queue, hr, List.length_cons]
      omega
    · simp only [ahead, hr, List.length_cons]
      omega
  | nil =>
    simp only [hr] at h ⊢
    cases hf : r.feed.arrivals with
    | nil =>
      cases hn : r.feed.failure with
      | none =>
        simp only [Feed.next, hf, hn] at h ⊢
        exact budget_settle (Nat.le_refl _) rfl hr h
      | some e => simp [Feed.next, hf, hn] at h
    | cons a arrivals =>
      simp only [Feed.next, hf] at h ⊢
      cases a with
      | item item =>
        refine budget_dispatch ?_ ?_ rfl
        · simp only [outstanding, hf, List.length_cons]
          omega
        · simp only [ahead, hf, List.length_cons]
          omega
      | exhausted =>
        refine budget_settle ?_ rfl hr h
        simp only [outstanding, hf, List.length_cons]
        omega
      | failed e => simp at h

/-- A turn without an answer makes the budget smaller. -/
theorem budget_turn [Record α] (r : Reader α) (h : r.turn.answer = none) :
    r.turn.reader.budget < r.budget := by
  have hd := r.decodeCurrent_reader
  have hb : r.decodeCurrent.reader.budget = r.budget := by
    simp only [budget, outstanding, ahead, hd]
  simp only [turn] at h ⊢
  cases ha : r.decodeCurrent.answer with
  | some a => simp [ha] at h
  | none =>
    simp only [ha] at h ⊢
    exact hb ▸ budget_advance _ h

/-- Reads, turn after turn, until there is an answer. -/
def read [Record α] (r : Reader α) : ReadStep α :=
  match h : r.turn.answer with
  | some answer => ⟨answer, r.turn.activity, r.turn.reader⟩
  | none =>
    have : r.turn.reader.budget < r.budget := r.budget_turn h
    let s := r.turn.reader.read
    { s with activity := r.turn.activity ++ s.activity }
termination_by r.budget

/-- The next record or boundary.  A reader that has answered that the input is exhausted does so
for ever. -/
def next [Record α] (r : Reader α) : ReadStep α :=
  if r.isFinished then ⟨.ok .finished, [], r⟩ else r.read

end Reader

end StreamCheckpoint
