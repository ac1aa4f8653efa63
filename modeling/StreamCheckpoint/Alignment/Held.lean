import StreamCheckpoint.Alignment.Aligner

/-! How many items an aligner has.  Offering an event and closing a channel move items from the
alignment's queue to the replay and neither add nor lose one; storing adds exactly one. -/

namespace StreamCheckpoint

namespace Aligner

/-- The number of items held back or waiting for replay. -/
def held (a : Aligner) : Nat := a.queue.length + a.replay.length

@[simp] theorem held_of_idle {a : Aligner} (h : a.inFlight = none) : a.held = a.replay.length := by
  simp [held, queue, h]

theorem held_of_inFlight {a : Aligner} {f : Alignment} (h : a.inFlight = some f) :
    a.held = f.queue.length + a.replay.length := by
  simp [held, queue, h]

@[simp] theorem held_complete (a : Aligner) (f : Alignment) :
    (a.complete f).2.held = f.queue.length + a.replay.length := by
  simp [complete, release, held, queue]

@[simp] theorem held_abort (a : Aligner) (f : Alignment) (reason : AbortReason) :
    (a.abort f reason).2.held = f.queue.length + a.replay.length := by
  simp [abort, release, held, queue]

@[simp] theorem inFlight_complete (a : Aligner) (f : Alignment) :
    (a.complete f).2.inFlight = none := rfl

@[simp] theorem inFlight_abort (a : Aligner) (f : Alignment) (reason : AbortReason) :
    (a.abort f reason).2.inFlight = none := rfl

theorem held_start {a : Aligner} (h : a.inFlight = none) (channel : Nat) (b : Barrier) :
    (a.start channel b).2.held = a.held := by
  simp only [start]
  split
  · simp [held, queue]
  · split <;> simp [held, queue, h]

theorem held_join {a : Aligner} {f : Alignment} (h : a.inFlight = some f) (channel : Nat)
    (b : Barrier) : (a.join f channel b).aligner.held = a.held := by
  simp only [join]
  split
  · simp [held_of_inFlight h]
  · split
    · rfl
    · split
      · simp [held_of_inFlight h]
      · simp [held, queue, h]

theorem held_offerBarrier (a : Aligner) (channel : Nat) (b : Barrier) :
    (a.offerBarrier channel b).aligner.held = a.held := by
  simp only [offerBarrier]
  split
  · next f h =>
    split
    · exact held_join h channel b
    · split
      · rw [held_start (inFlight_abort a f _), held_abort, held_of_inFlight h]
      · rfl
  · next h =>
    split
    · rfl
    · exact held_start h channel b

@[simp] theorem held_offer (a : Aligner) (channel : Nat) (e : Event) :
    (a.offer channel e).aligner.held = a.held := by
  simp only [offer]
  split
  · split
    · exact held_offerBarrier a channel _
    · rfl
  · rfl

@[simp] theorem held_store (a : Aligner) (item : Item) : (a.store item).2.held = a.held + 1 := by
  simp only [store]
  split
  · next f h =>
    split
    · simp [held_of_inFlight h]; omega
    · simp [held, queue, h]; omega
  · next h => simp [held, queue, h]

@[simp] theorem held_closeChannel (a : Aligner) (channel : Nat) :
    (a.closeChannel channel).aligner.held = a.held := by
  simp only [closeChannel]
  split
  · split
    · rfl
    · split
      · next f h =>
        split
        · split <;> simp [held_of_inFlight h]
        · rfl
      · rfl
  · rfl

@[simp] theorem held_closeEach (a : Aligner) (cs : List Nat) :
    (a.closeEach cs).2.held = a.held := by
  induction cs generalizing a with
  | nil => rfl
  | cons c cs ih => simp [closeEach, ih]

@[simp] theorem held_closeAll (a : Aligner) : a.closeAll.2.held = a.held := held_closeEach a _

/-- Storing an item either ends the alignment in flight or leaves the replay as it was. -/
theorem store_inFlight {a : Aligner} (h : a.isAligning) (item : Item) :
    (a.store item).2.isAligning = false ∨
      (a.store item).2.isAligning ∧ (a.store item).2.replay = a.replay := by
  obtain ⟨f, hf⟩ := Option.isSome_iff_exists.1 h
  simp only [store, hf]
  split <;> simp [isAligning]

/-- Closing a channel either ends the alignment in flight or leaves the replay as it was. -/
theorem closeChannel_replay (a : Aligner) (channel : Nat) :
    (a.closeChannel channel).aligner.inFlight = none ∨
      (a.closeChannel channel).aligner.inFlight = a.inFlight ∧
        (a.closeChannel channel).aligner.replay = a.replay := by
  simp only [closeChannel]
  split
  · split
    · simp
    · split
      · split
        · split <;> simp
        · simp
      · simp
  · simp

theorem closeEach_of_idle {a : Aligner} (h : a.inFlight = none) (cs : List Nat) :
    (a.closeEach cs).2.inFlight = none := by
  induction cs generalizing a with
  | nil => exact h
  | cons c cs ih =>
    refine ih ?_
    rcases closeChannel_replay a c with hc | hc
    · exact hc
    · exact hc.1.trans h

/-- Closing channels either ends the alignment in flight or leaves the replay as it was. -/
theorem closeEach_replay (a : Aligner) (cs : List Nat) :
    (a.closeEach cs).2.inFlight = none ∨ (a.closeEach cs).2.replay = a.replay := by
  induction cs generalizing a with
  | nil => exact .inr rfl
  | cons c cs ih =>
    rcases closeChannel_replay a c with hc | hc
    · exact .inl (closeEach_of_idle hc cs)
    · rcases ih (a.closeChannel c).aligner with h | h
      · exact .inl h
      · exact .inr (h.trans hc.2)

/-- An aligner without anything to replay has something only after an alignment ended. -/
theorem inFlight_closeAll {a : Aligner} (h : a.replay = []) (h' : a.closeAll.2.replay ≠ []) :
    a.closeAll.2.inFlight = none :=
  (closeEach_replay a _).resolve_right fun e => h' (e.trans h)

end Aligner

end StreamCheckpoint
