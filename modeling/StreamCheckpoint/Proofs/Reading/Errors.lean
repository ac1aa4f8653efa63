import StreamCheckpoint.Proofs.Alignment.Conservation
import StreamCheckpoint.Proofs.Reading.Runs

/-! The errors of an aligner.  Only a channel out of range and a barrier that a channel delivers
twice are refused, and a call that is refused is as if it had not been made
(`alignmentErrors_exact`).  A reader holds back what a blocked channel delivers, so that it never
offers a barrier twice. -/

namespace StreamCheckpoint

namespace Aligner

/-- What the call answers, with the notices that it sends. -/
def reply (a : Aligner) (op : Operation) : List (Except AlignmentError Answer × List Notice) :=
  [((a.perform op).answer, (a.perform op).notices)]

/-- The call, unless it is refused. -/
def accepted (a : Aligner) (op : Operation) : List Operation :=
  if (a.perform op).answer.isOk then [op] else []

/-- What the calls answer, each with the notices that it sends. -/
def replies (a : Aligner) (ops : List Operation) :
    List (Except AlignmentError Answer × List Notice) := a.collect reply ops

/-- The calls that are not refused. -/
def succeeding (a : Aligner) (ops : List Operation) : List Operation := a.collect accepted ops

section Refusals

variable {n : Nat} {settings : AlignmentSettings} {a : Aligner} {channel : Nat}
  {err : AlignmentError}

theorem Offers.error {b : Barrier} {r : Reaction (Except AlignmentError Unit)}
    (h : a.Offers channel b r) (fails : r.answer = .error err) :
    r = ⟨.error err, [], a⟩ ∧ b.isCancel = false ∧ a.current = some b.id ∧
      a.isBlocked channel = true ∧ err = .duplicateBarrier channel b.id := by
  cases h with
  | duplicate flight same plain blocked =>
    obtain rfl := Except.error.inj fails
    rw [current_of_inFlight flight, same, isBlocked_of_inFlight flight]
    exact ⟨rfl, plain, rfl, blocked, rfl⟩
  | _ => cases fails

/-- A barrier is refused exactly if it is the one that is being aligned and its channel has
delivered it already. -/
theorem offerBarrier_error_iff {b : Barrier} :
    (a.offerBarrier channel b).answer = .error err ↔ b.isCancel = false ∧ a.current = some b.id ∧
      a.isBlocked channel = true ∧ err = .duplicateBarrier channel b.id := by
  refine ⟨fun fails => ((a.offers channel b).error fails).2, ?_⟩
  rintro ⟨plain, current, blocked, rfl⟩
  obtain ⟨f, flight, same⟩ := Option.map_eq_some_iff.mp current
  rw [isBlocked_of_inFlight flight] at blocked
  simp only [offerBarrier, flight, if_pos same.symm, join]
  rw [if_neg (Bool.eq_false_iff.mp plain), if_pos blocked]

theorem offer_error_iff {e : Event} :
    (a.offer channel e).answer = .error err ↔
      a.channels ≤ channel ∧ err = .channelOutOfRange channel a.channels ∨
      channel < a.channels ∧ ∃ b, e = .barrier b ∧ b.isCancel = false ∧
        a.current = some b.id ∧ a.isBlocked channel = true ∧
        err = .duplicateBarrier channel b.id := by
  unfold offer
  by_cases range : channel < a.channels
  · rw [if_pos range]
    simp only [Nat.not_le.mpr range, false_and, range, true_and, false_or]
    cases e with
    | barrier b =>
      simp only [Event.barrier.injEq, exists_eq_left', ← offerBarrier_error_iff]
      cases (a.offerBarrier channel b).answer <;> simp [Except.map]
    | _ => simp
  · rw [if_neg range]
    simp [Nat.not_lt.mp range, range, eq_comm (a := err)]

theorem closeChannel_error_iff :
    (a.closeChannel channel).answer = .error err ↔
      a.channels ≤ channel ∧ err = .channelOutOfRange channel a.channels := by
  by_cases range : channel < a.channels
  · simp [(closes range).answer, Nat.not_le.mpr range]
  · rw [closeChannel, if_neg range]
    simp [Nat.not_lt.mp range, eq_comm (a := err)]

/-- A call that is refused sends no notice and changes nothing. -/
theorem perform_error {op : Operation} (fails : (a.perform op).answer = .error err) :
    a.perform op = ⟨.error err, [], a⟩ := by
  cases op with
  | offer channel e =>
    by_cases range : channel < a.channels
    · cases e with
      | barrier b =>
        have h := a.offers channel b
        simp only [perform, offer, if_pos range] at fails ⊢
        generalize a.offerBarrier channel b = r at h fails
        obtain ⟨answer, notices, a'⟩ := r
        cases answer with
        | ok => cases fails
        | error err' =>
          obtain ⟨same, -⟩ := h.error rfl
          obtain rfl := Except.error.inj fails
          simp only [Reaction.mk.injEq, true_and] at same
          rw [same.1, same.2]
          rfl
      | _ =>
        simp only [perform, offer, if_pos range] at fails
        cases fails
    · simp only [perform, offer, if_neg range] at fails ⊢
      obtain rfl := Except.error.inj fails
      rfl
  | close channel =>
    by_cases range : channel < a.channels
    · simp only [perform, (closes range).answer] at fails
      cases fails
    · simp only [perform, closeChannel, if_neg range] at fails ⊢
      obtain rfl := Except.error.inj fails
      rfl
  | _ => cases fails

/-- Without the calls that are refused, the others answer the same, send the same notices and lead
to the same state. -/
theorem run_succeeding (a : Aligner) (ops : List Operation) :
    a.replies (a.succeeding ops) = (a.replies ops).filter (·.1.isOk) ∧
      a.run (a.succeeding ops) = a.run ops := by
  unfold replies succeeding
  induction ops generalizing a with
  | nil => exact ⟨rfl, rfl⟩
  | cons op ops ih =>
    obtain ⟨replies, last⟩ := ih (a.perform op).aligner
    cases answer : (a.perform op).answer with
    | ok x =>
      have kept : a.accepted op = [op] := by simp [accepted, answer, Except.isOk, Except.toBool]
      have shown : (a.reply op).filter (·.1.isOk) = a.reply op := by
        simp [reply, answer, Except.isOk, Except.toBool]
      rw [collect, kept, List.singleton_append, collect, replies, collect, List.filter_append,
        shown, run_cons, last, run_cons]
      exact ⟨rfl, rfl⟩
    | error err =>
      have same := perform_error answer
      have gone : a.accepted op = [] := by simp [accepted, answer, Except.isOk, Except.toBool]
      have hidden : (a.reply op).filter (·.1.isOk) = [] := by
        simp [reply, answer, Except.isOk, Except.toBool]
      rw [collect, gone, collect, List.filter_append, hidden, run_cons]
      rw [same] at replies last ⊢
      exact ⟨replies, last⟩

theorem Sound.lt_of_isBlocked (h : a.Sound) (blocked : a.isBlocked channel = true) :
    channel < a.channels := by
  cases flight : a.inFlight with
  | none =>
    rw [isBlocked_of_idle flight] at blocked
    cases blocked
  | some f =>
    rw [isBlocked_of_inFlight flight] at blocked
    rw [channels, ← (h f flight).length]
    by_contra range
    simp [List.getD_eq_getElem?_getD, range] at blocked

end Refusals

end Aligner

theorem SuperstepTracker.handle_error {t : SuperstepTracker} {channel : Nat} {e : Event}
    {err : AlignmentError} (fails : (t.handle channel e).answer = .error err) :
    err = .channelOutOfRange channel t.channels := by
  unfold handle at fails
  split at fails
  · cases e <;> cases fails
  · exact (Except.error.inj fails).symm

namespace Reader

variable {α : Type}

section Duplicates

variable {channel c k : Nat}

theorem handle_ne_duplicate (r : Reader α) (channel : Nat) (e : Event) :
    (r.handle channel e).answer ≠ some (.error (.alignment (.duplicateBarrier c k))) := by
  intro fails
  unfold handle at fails
  split at fails
  · cases fails
  · next t _ =>
    simp only at fails
    split at fails
    · next err answer =>
      obtain rfl := t.handle_error answer
      cases fails
    all_goals cases fails

/-- A barrier of a channel that is not blocked is not refused as a duplicate. -/
theorem dispatchEvent_ne_duplicate {s : Reader α} (free : s.aligner.isBlocked channel = false)
    (e : Event) :
    (s.dispatchEvent channel e).answer ≠
      some (.error (.alignment (.duplicateBarrier c k))) := by
  intro fails
  unfold dispatchEvent at fails
  split at fails
  · simp only at fails
    split at fails
    · next err answer =>
      obtain rfl : err = .duplicateBarrier c k := by simpa using fails
      rcases Aligner.offer_error_iff.mp answer with ⟨-, stray⟩ | ⟨-, b, -, -, -, blocked, -⟩
      · cases stray
      · rw [free] at blocked
        cases blocked
    · cases fails
  · simp only at fails
    split at fails
    · next err answer =>
      obtain ⟨-, rfl⟩ := Aligner.closeChannel_error_iff.mp answer
      cases fails
    · exact handle_ne_duplicate _ _ _ fails
  · exact handle_ne_duplicate _ _ _ fails

theorem Advances.ne_duplicate {r : Reader α} {t : Turn α} (h : r.Advances t) :
    t.answer ≠ some (.error (.alignment (.duplicateBarrier c k))) := by
  cases h with
  | dispatched _ _ free => exact dispatchEvent_ne_duplicate free _
  | settled _ settle => cases settle <;> simp
  | _ => simp

variable [Record α]

theorem turn_ne_duplicate (r : Reader α) :
    r.turn.answer ≠ some (.error (.alignment (.duplicateBarrier c k))) := by
  by_cases quiet : r.decodeCurrent.answer = none
  · rw [turn_of_quiet quiet]
    exact (advances _).ne_duplicate
  · rw [turn_of_answer quiet]
    have decodes := r.decodes
    generalize r.decodeCurrent = t at decodes
    cases decodes with
    | @outcome _ _ o => cases o <;> simp [Reading.ofOutcome]
    | _ => simp

theorem read_ne_duplicate (r : Reader α) :
    r.read.answer ≠ .error (.alignment (.duplicateBarrier c k)) := by
  induction r using read.induct with
  | case1 r answer h =>
    rw [read_of_some h]
    exact fun e => r.turn_ne_duplicate (h.trans (congrArg some e))
  | case2 r h _ ih =>
    rw [read_of_none h]
    exact ih

/-- No call of a reader is answered with a duplicate barrier. -/
theorem next_ne_duplicate (r : Reader α) :
    r.next.answer ≠ .error (.alignment (.duplicateBarrier c k)) := by
  cases finished : r.isFinished with
  | true => simp [next_of_finished finished]
  | false =>
    rw [next_of_unfinished finished]
    exact r.read_ne_duplicate

end Duplicates

end Reader

section Exact

variable {α : Type} [Record α] {n : Nat} {settings : AlignmentSettings} {a : Aligner}

/-- An aligner refuses a channel out of range and a barrier that a channel delivers twice, and
nothing else.  A call that is refused changes nothing and sends no notice, so that a run without
those calls is the same run.  No reader, in whatever state and over whatever gate, is refused a
barrier that was delivered twice. -/
theorem alignmentErrors_exact (h : Aligner.new n settings = .ok a) (ops : List Operation) :
    let s := (a.run ops).2
    (∀ channel e err, (s.offer channel e).answer = .error err ↔
      n ≤ channel ∧ err = .channelOutOfRange channel n ∨
      ∃ b, e = .barrier b ∧ b.isCancel = false ∧ s.current = some b.id ∧
        s.isBlocked channel = true ∧ err = .duplicateBarrier channel b.id) ∧
    (∀ channel err, (s.closeChannel channel).answer = .error err ↔
      n ≤ channel ∧ err = .channelOutOfRange channel n) ∧
    (∀ op err, (s.perform op).answer = .error err → s.perform op = ⟨.error err, [], s⟩) ∧
    (a.replies (a.succeeding ops) = (a.replies ops).filter (·.1.isOk) ∧
      a.run (a.succeeding ops) = a.run ops) ∧
    ∀ (r : Reader α) channel k,
      r.next.answer ≠ .error (.alignment (.duplicateBarrier channel k)) := by
  intro s
  have remembers := Aligner.remembers_run h ops
  have channels : s.channels = n := remembers.channels
  refine ⟨fun channel e err => ?_, fun channel err => ?_, fun op err => Aligner.perform_error,
    a.run_succeeding ops, fun r channel k => r.next_ne_duplicate⟩
  · rw [Aligner.offer_error_iff, channels]
    refine or_congr_right (and_iff_right_of_imp ?_)
    rintro ⟨b, -, -, -, blocked, -⟩
    rw [← channels]
    exact remembers.sound.lt_of_isBlocked (s.isBlocked_bare channel ▸ blocked)
  · rw [Aligner.closeChannel_error_iff, channels]

/-- The first channel delivers its barrier twice, and there are no channels 2 and 3. -/
def refusedCalls : List Operation :=
  [.offer 0 (.barrier (.plain 1 0)), .offer 0 (.barrier (.plain 1 0)), .close 2,
    .store (.buffer 0 [1]), .offer 3 .endOfSuperstep, .offer 1 (.barrier (.plain 1 0)),
    .offer 1 (.barrier (.plain 2 0))]

theorem alignmentErrors_exact_refused :
    let a : Aligner := { closed := [false, false] }
    let s := (a.run refusedCalls).2
    Aligner.new 2 = .ok a ∧
      (s.offer 1 (.barrier (.plain 2 0))).answer = .error (.duplicateBarrier 1 2) ∧
      (s.closeChannel 2).answer = .error (.channelOutOfRange 2 2) ∧
      (s.perform (.close 2)).notices = [] ∧
      a.run [.offer 0 (.barrier (.plain 1 0)), .store (.buffer 0 [1]),
        .offer 1 (.barrier (.plain 1 0)), .offer 1 (.barrier (.plain 2 0))] =
          a.run refusedCalls ∧
      Reader.crossingReader.next.answer ≠ .error (.alignment (.duplicateBarrier 0 1)) := by
  intro a s
  obtain ⟨offer, close, unchanged, ⟨-, same⟩, reader⟩ :=
    alignmentErrors_exact (show Aligner.new 2 = .ok a from rfl) refusedCalls (α := Bytes)
  have stray : (s.closeChannel 2).answer = .error (.channelOutOfRange 2 2) :=
    (close 2 _).mpr ⟨by decide, rfl⟩
  refine ⟨rfl, (offer 1 _ _).mpr (.inr ⟨.plain 2 0, rfl, by decide, by decide, by decide, rfl⟩),
    stray, ?_, ?_, reader Reader.crossingReader 0 1⟩
  · have refused : (s.perform (.close 2)).answer = .error (.channelOutOfRange 2 2) := by
      rw [Aligner.perform, stray]
      rfl
    rw [unchanged (.close 2) _ refused]
  · have kept : a.succeeding refusedCalls = [.offer 0 (.barrier (.plain 1 0)),
        .store (.buffer 0 [1]), .offer 1 (.barrier (.plain 1 0)),
        .offer 1 (.barrier (.plain 2 0))] := by decide
    rw [← kept]
    exact same

end Exact

end StreamCheckpoint
