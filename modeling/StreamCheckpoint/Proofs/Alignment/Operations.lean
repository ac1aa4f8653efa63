import StreamCheckpoint.Proofs.Alignment.Bare

/-! Whole runs of an aligner.  Its operations may be called in any order and with any arguments,
also with items of channels that are not blocked (`run`).  `Performs` says what a call can do to
what matters to the protocol, and `run_induction` carries what every call preserves through a
run. -/

namespace StreamCheckpoint

/-- A call of an aligner. -/
inductive Operation
  | offer (channel : Nat) (e : Event)
  | store (item : Item)
  | replayNext
  | close (channel : Nat)
  | cleanup
  | setListener (listener : Listener)
deriving DecidableEq, Repr

/-- What a call of an aligner answers. -/
inductive Answer
  | offered (o : Offered)
  | replayed (item : Option Item)
  | done
deriving DecidableEq, Repr

/-- The call is no barrier and no end of one of the `n` channels, and drops nothing. -/
def Operation.Quiet (n : Nat) : Operation → Prop
  | .offer channel e => channel < n → ∀ b, e ≠ .barrier b
  | .close channel => n ≤ channel
  | .cleanup => False
  | .store _ | .replayNext | .setListener _ => True

namespace Aligner

def perform (a : Aligner) : Operation → Reaction (Except AlignmentError Answer)
  | .offer channel e =>
    let r := a.offer channel e
    ⟨r.answer.map .offered, r.notices, r.aligner⟩
  | .store item =>
    let (notices, a) := a.store item
    ⟨.ok .done, notices, a⟩
  | .replayNext =>
    let (item, a) := a.replayNext
    ⟨.ok (.replayed item), [], a⟩
  | .close channel =>
    let r := a.closeChannel channel
    ⟨r.answer.map fun _ => .done, r.notices, r.aligner⟩
  | .cleanup => ⟨.ok .done, [], a.cleanup⟩
  | .setListener listener => ⟨.ok .done, [], a.setListener listener⟩

/-- Makes the calls one after the other, and lists the notices that they send. -/
def run (a : Aligner) : List Operation → List Notice × Aligner
  | [] => ([], a)
  | op :: ops =>
    let r := a.perform op
    let (notices, last) := r.aligner.run ops
    (r.notices ++ notices, last)

@[simp] theorem run_nil (a : Aligner) : a.run [] = ([], a) := rfl

@[simp] theorem run_cons (a : Aligner) (op : Operation) (ops : List Operation) :
    a.run (op :: ops) = ((a.perform op).notices ++ ((a.perform op).aligner.run ops).1,
      ((a.perform op).aligner.run ops).2) := rfl

/-- What a call does to an aligner as far as the protocol is concerned: nothing is held back and
nothing waits for replay, so that storing does nothing unless it is too much. -/
inductive Performs (a : Aligner) : Operation → Reaction (Except AlignmentError Answer) → Prop
  | offered {channel : Nat} {b : Barrier} {o : Reaction (Except AlignmentError Unit)}
      (range : channel < a.channels) (offers : a.Offers channel b o) :
      Performs a (.offer channel (.barrier b))
        ⟨o.answer.map fun _ => .offered .consumed, o.notices, o.aligner⟩
  | closed {channel : Nat} {o : Reaction (Except AlignmentError Unit)}
      (range : channel < a.channels) (closes : a.Closes channel o) :
      Performs a (.close channel) ⟨.ok .done, o.notices, o.aligner⟩
  | overflowed {item : Item} {f : Alignment} (flight : a.inFlight = some f) :
      Performs a (.store item)
        ⟨.ok .done, [.aborted f.barrier.id .byteLimit], (a.abort f .byteLimit).2⟩
  | dropped : Performs a .cleanup ⟨.ok .done, [], a.cleanup⟩
  | kept {op : Operation} {answer : Except AlignmentError Answer} (listener : Listener)
      (quiet : op.Quiet a.channels) : Performs a op ⟨answer, [], a.setListener listener⟩

theorem performs_offer (a : Aligner) (channel : Nat) (e : Event) :
    a.bare.Performs (.offer channel e) (a.perform (.offer channel e)).bare := by
  by_cases hc : channel < a.channels
  · cases e with
    | barrier b =>
      have h := Performs.offered (a := a.bare) hc (a.bare.offers channel b)
      rw [bare_offerBarrier] at h
      simp only [perform, offer, if_pos hc]
      generalize a.offerBarrier channel b = o at h
      obtain ⟨answer, notices, a'⟩ := o
      cases answer <;> exact h
    | _ =>
      simp only [perform, offer, if_pos hc]
      refine .kept a.listener fun _ b e => ?_
      cases e
  · simp only [perform, offer, if_neg hc]
    exact .kept a.listener fun h => absurd h hc

theorem performs_close (a : Aligner) (channel : Nat) :
    a.bare.Performs (.close channel) (a.perform (.close channel)).bare := by
  by_cases hc : channel < a.channels
  · have h := Performs.closed (a := a.bare) hc (closes hc)
    rw [bare_closeChannel] at h
    simp only [perform, (closes hc).answer]
    exact h
  · simp only [perform, closeChannel, if_neg hc]
    exact .kept a.listener (Nat.not_lt.mp hc)

theorem performs_store (a : Aligner) (item : Item) :
    a.bare.Performs (.store item) (a.perform (.store item)).bare := by
  have h := a.stores item
  simp only [perform]
  generalize a.store item = r at h
  cases h with
  | idle => exact .kept a.listener trivial
  | held flight =>
    simp only [Reaction.bare, bare_hold flight item]
    exact .kept a.listener trivial
  | overflowed flight => exact .overflowed (bare_inFlight flight)

/-- Every call does one of the things of `Performs`. -/
theorem performs (a : Aligner) (op : Operation) : a.bare.Performs op (a.perform op).bare := by
  cases op with
  | offer channel e => exact a.performs_offer channel e
  | store item => exact a.performs_store item
  | replayNext =>
    unfold perform replayNext
    cases a.replay <;> exact .kept a.listener trivial
  | close channel => exact a.performs_close channel
  | cleanup => exact .dropped
  | setListener listener => exact .kept listener trivial

theorem Performs.sound {a : Aligner} {op : Operation} {r : Reaction (Except AlignmentError Answer)}
    (h : a.Performs op r) (hs : a.Sound) : r.aligner.Sound := by
  cases h with
  | offered range offers => exact offers.sound hs range
  | closed range closes => exact closes.sound hs
  | overflowed => exact sound_of_idle rfl
  | dropped => exact sound_of_idle rfl
  | kept => exact hs

/-- What holds at the beginning, and is preserved by every call, holds after a run. -/
theorem run_induction {a : Aligner} {P : List Operation → List Notice → Aligner → Prop}
    (start : P [] [] a.bare)
    (step : ∀ past notices s op r, P past notices s → s.Performs op r →
      P (past ++ [op]) (notices ++ r.notices) r.aligner) (ops : List Operation) :
    P ops (a.run ops).1 (a.run ops).2.bare := by
  -- `past` are the calls that have been made, and `notices` what they sent
  have h : ∀ past notices (s : Aligner), P past notices s.bare →
      P (past ++ ops) (notices ++ (s.run ops).1) (s.run ops).2.bare := by
    induction ops with
    | nil => intro past notices s hs; simpa using hs
    | cons op ops ih =>
      intro past notices s hs
      have := ih _ _ _ (step past notices s.bare op _ hs (s.performs op))
      simpa [Reaction.bare] using this
  simpa using h [] [] a start

theorem sound_run {a : Aligner} (hs : a.bare.Sound) (ops : List Operation) :
    (a.run ops).2.bare.Sound :=
  run_induction (P := fun _ _ s => s.Sound) hs (fun _ _ _ _ _ hs h => h.sound hs) ops

theorem new_spec {channels : Nat} {settings : AlignmentSettings} {a : Aligner}
    (h : new channels settings = .ok a) :
    0 < channels ∧ a = { closed := List.replicate channels false, settings } := by
  unfold new at h
  split at h
  · cases h
  · next hn => exact ⟨Nat.pos_of_ne_zero hn, (Except.ok.inj h).symm⟩

end Aligner

end StreamCheckpoint
