import StreamCheckpoint.Proofs.Alignment.Invariant

/-! What of an aligner matters to the protocol.  Barriers and ends of channels are dealt with in the
same way whatever is held back (`bare_offer`, `bare_closeAll`), and either leave what is held back
alone or release all of it (`Retains`). -/

namespace StreamCheckpoint

/-- The alignment with nothing held back. -/
def Alignment.bare (f : Alignment) : Alignment := { f with queue := [], bytes := 0 }

namespace Aligner

/-- The aligner with nothing held back and nothing waiting for replay. -/
def bare (a : Aligner) : Aligner :=
  { a with inFlight := a.inFlight.map (·.bare), replay := [] }

end Aligner

/-- The reaction of a bare aligner. -/
def Reaction.bare {β : Type} (r : Reaction β) : Reaction β :=
  { r with aligner := r.aligner.bare }

namespace Aligner

section Bare

variable {a : Aligner} {f : Alignment}

theorem bare_inFlight (h : a.inFlight = some f) : a.bare.inFlight = some f.bare := by
  simp [bare, h]

@[simp] theorem isAligning_bare (a : Aligner) : a.bare.isAligning = a.isAligning := by
  simp [isAligning, bare]

@[simp] theorem current_bare (a : Aligner) : a.bare.current = a.current := by
  cases h : a.inFlight with
  | none => simp [current, bare, h]
  | some f => simp [current, bare, h, Alignment.bare]

@[simp] theorem isBlocked_bare (a : Aligner) (c : Nat) : a.bare.isBlocked c = a.isBlocked c := by
  cases h : a.inFlight with
  | none => simp [isBlocked, bare, h]
  | some f => simp [isBlocked, bare, h, Alignment.bare]

@[simp] theorem alignedCount_bare (a : Aligner) : a.bare.alignedCount = a.alignedCount := by
  cases h : a.inFlight with
  | none => simp [alignedCount, bare, h]
  | some f => simp [alignedCount, bare, h, Alignment.bare]

@[simp] theorem items_bare (a : Aligner) : a.bare.items = [] := by
  cases h : a.inFlight with
  | none => simp [items, queue, bare, h]
  | some f => simp [items, queue, bare, h, Alignment.bare]

theorem bare_hold (h : a.inFlight = some f) (item : Item) :
    ({ a with inFlight := some (f.hold item) } : Aligner).bare = a.bare := by
  simp [bare, h, Alignment.hold, Alignment.bare]

theorem bare_abort (a : Aligner) (f : Alignment) (reason : AbortReason) :
    a.bare.abort f.bare reason = ((a.abort f reason).1, (a.abort f reason).2.bare) := rfl

theorem bare_start (a : Aligner) (channel : Nat) (b : Barrier) :
    a.bare.start channel b = ((a.start channel b).1, (a.start channel b).2.bare) := by
  by_cases hb : b.isCancel = true
  · simp only [start, if_pos hb]
    rfl
  simp only [start, if_neg hb]
  by_cases hr : requiredChannels a.closed (Alignment.first a.channels channel b).blocked ≤ 1
  · rw [Alignment.first] at hr
    rw [if_pos hr, if_pos (by exact hr)]
    rfl
  · rw [Alignment.first] at hr
    rw [if_neg hr, if_neg (by exact hr)]
    rfl

theorem bare_join (a : Aligner) (f : Alignment) (channel : Nat) (b : Barrier) :
    a.bare.join f.bare channel b = (a.join f channel b).bare := by
  by_cases hb : b.isCancel = true
  · rw [join, join, if_pos hb, if_pos hb]
    rfl
  by_cases hd : f.blocked.getD channel false = true
  · rw [join, join, if_neg hb, if_neg hb, if_pos hd, if_pos (by exact hd)]
    rfl
  rw [join, join, if_neg hb, if_neg hb, if_neg hd, if_neg (by exact hd)]
  by_cases hr : requiredChannels a.closed (f.blocked.set channel true) ≤ f.received + 1
  · simp only [if_pos hr]
    rw [if_pos (by exact hr)]
    rfl
  · simp only [if_neg hr]
    rw [if_neg (by exact hr)]
    rfl

theorem bare_offerBarrier (a : Aligner) (channel : Nat) (b : Barrier) :
    a.bare.offerBarrier channel b = (a.offerBarrier channel b).bare := by
  unfold offerBarrier
  cases h : a.inFlight with
  | none =>
    have hb : a.bare.inFlight = none := by simp [bare, h]
    simp only [hb]
    by_cases hl : a.latest.any (b.id ≤ ·) = true
    · rw [if_pos hl, if_pos (by exact hl)]
      rfl
    · rw [if_neg hl, if_neg (by exact hl), bare_start]
      rfl
  | some f =>
    simp only [bare_inFlight h]
    by_cases hs : b.id = f.barrier.id
    · rw [if_pos hs, if_pos (by exact hs), bare_join]
    rw [if_neg hs, if_neg (by exact hs)]
    by_cases hn : f.barrier.id < b.id
    · simp only [if_pos hn, bare_abort, bare_start]
      rw [if_pos (by exact hn)]
      rfl
    · rw [if_neg hn, if_neg (by exact hn)]
      rfl

theorem bare_offer (a : Aligner) (channel : Nat) (e : Event) :
    a.bare.offer channel e = (a.offer channel e).bare := by
  unfold offer
  by_cases hc : channel < a.channels
  · rw [if_pos hc, if_pos (by exact hc)]
    cases e with
    | barrier b =>
      simp only [bare_offerBarrier]
      rfl
    | _ => rfl
  · rw [if_neg hc, if_neg (by exact hc)]
    rfl

theorem bare_closeChannel (a : Aligner) (channel : Nat) :
    a.bare.closeChannel channel = (a.closeChannel channel).bare := by
  by_cases hc : channel < a.channels
  · by_cases hd : a.isClosed channel = true
    · rw [isClosed] at hd
      rw [closeChannel, closeChannel, if_pos hc, if_pos hd, if_pos (by exact hc),
        if_pos (by exact hd)]
      rfl
    · have fresh : a.isClosed channel = false := by simpa using hd
      rw [closeChannel_of_open hc fresh, closeChannel_of_open (by exact hc) (by exact fresh)]
      cases h : a.inFlight with
      | none =>
        have hb : a.bare.inFlight = none := by simp [bare, h]
        simp only [hb]
        simp [Reaction.bare, bare, mark, h]
      | some f =>
        simp only [bare_inFlight h]
        by_cases hr : requiredChannels (a.mark channel).closed f.blocked ≤ f.received
        · rw [if_pos hr, if_pos (by exact hr)]
          cases hp : a.settings.closePolicy with
          | complete =>
            simp only [show a.bare.settings.closePolicy = .complete from hp]
            rfl
          | abort =>
            simp only [show a.bare.settings.closePolicy = .abort from hp]
            rfl
        · rw [if_neg hr, if_neg (by exact hr)]
          rfl
  · rw [closeChannel, closeChannel, if_neg hc, if_neg (by exact hc)]
    rfl

theorem bare_closeEach (a : Aligner) (cs : List Nat) :
    a.bare.closeEach cs = ((a.closeEach cs).1, (a.closeEach cs).2.bare) := by
  induction cs generalizing a with
  | nil => rfl
  | cons c cs ih =>
    simp only [closeEach, bare_closeChannel]
    simp only [Reaction.bare, ih]

theorem bare_closeAll (a : Aligner) :
    a.bare.closeAll = (a.closeAll.1, a.closeAll.2.bare) := bare_closeEach a _

end Bare

/-- Marks every channel as ended if an alignment is in flight. -/
def settle (a : Aligner) : List Notice × Aligner :=
  if a.isAligning then a.closeAll else ([], a)

theorem bare_settle (a : Aligner) : a.bare.settle = (a.settle.1, a.settle.2.bare) := by
  unfold settle
  rw [isAligning_bare]
  split
  · exact a.bare_closeAll
  · rfl

theorem settle_spec {a : Aligner} (h : a.Sound) :
    a.settle.2.inFlight = none ∧ a.settle.2.replay = a.items := by
  unfold settle
  cases hf : a.isAligning with
  | true =>
    obtain ⟨hidle, hreplay, -⟩ := closeAll_spec h
    exact ⟨hidle, hreplay⟩
  | false =>
    have idle : a.inFlight = none := by simpa [isAligning] using hf
    refine ⟨idle, ?_⟩
    rw [items, queue_of_idle idle]
    rfl

/-- Either the same alignment is in flight as before, if any, and the same is held back for it, or
that alignment has ended and nothing is held back. -/
def Retains (a a' : Aligner) : Prop :=
  (a'.current = a.current ∧ a'.queue = a.queue ∧ a'.heldBytes = a.heldBytes) ∨
    (a'.current ≠ a.current ∧ a'.queue = [] ∧ a'.heldBytes = 0)

section Retains

variable {a a' : Aligner} {channel : Nat} {b : Barrier} {f : Alignment}
  {r : Reaction (Except AlignmentError Unit)}

theorem retains_of_same (h : a'.inFlight = a.inFlight) : a.Retains a' := by
  refine .inl ⟨?_, ?_, ?_⟩
  · rw [current, current, h]
  · rw [queue, queue, h]
  · rw [heldBytes, heldBytes, h]

theorem retains_of_ended (flight : a.inFlight = some f) (idle : a'.inFlight = none) :
    a.Retains a' := by
  refine .inr ⟨?_, queue_of_idle idle, ?_⟩
  · simp [current, flight, idle]
  · rw [heldBytes, idle, Option.elim_none]

theorem Clears.retains {ended : List Notice} (h : a.Clears b ended a') : a.Retains a' := by
  cases h with
  | idle => exact retains_of_same rfl
  | superseded flight => exact retains_of_ended flight rfl

theorem Clears.current_ne {ended : List Notice} (h : a.Clears b ended a') :
    some b.id ≠ a.current := by
  cases h with
  | idle idle => simp [current, idle]
  | superseded flight newer =>
    simp only [current, flight, Option.map_some, ne_eq, Option.some.injEq]
    omega

theorem Offers.retains (h : a.Offers channel b r) : a.Retains r.aligner := by
  cases h with
  | stale => exact retains_of_same rfl
  | duplicate => exact retains_of_same rfl
  | cancelled flight => exact retains_of_ended flight rfl
  | completed flight => exact retains_of_ended flight rfl
  | joined flight =>
    refine .inl ⟨?_, ?_, ?_⟩
    · rw [current, current, flight]
      rfl
    · rw [queue, queue, flight]
      rfl
    · rw [heldBytes, heldBytes, flight]
      rfl
  | refused clear => exact clear.retains
  | instant clear => exact clear.retains
  | begun clear => exact .inr ⟨clear.current_ne, rfl, rfl⟩

theorem Closes.retains (h : a.Closes channel r) : a.Retains r.aligner := by
  cases h with
  | completed _ flight => exact retains_of_ended flight rfl
  | aborted _ flight => exact retains_of_ended flight rfl
  | _ => exact retains_of_same rfl

theorem Clears.settings {ended : List Notice} (h : a.Clears b ended a') :
    a'.settings = a.settings := by
  cases h <;> rfl

theorem Offers.settings (h : a.Offers channel b r) : r.aligner.settings = a.settings := by
  cases h with
  | refused clear =>
    have h := clear.settings
    exact h
  | instant clear =>
    have h := clear.settings
    exact h
  | begun clear =>
    have h := clear.settings
    exact h
  | _ => rfl

theorem Closes.settings (h : a.Closes channel r) : r.aligner.settings = a.settings := by
  cases h <;> rfl

end Retains

end Aligner

end StreamCheckpoint
