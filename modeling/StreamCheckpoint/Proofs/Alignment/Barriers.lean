import StreamCheckpoint.Proofs.Alignment.Invariant
import StreamCheckpoint.Proofs.Channel.Contents

/-! What an aligner knows of the channels.  `seen c` is what `c` has delivered and was not held
back.  The aligner knows an upper bound of the checkpoints of which there was a barrier, and of the
checkpoint in flight it knows which channels delivered a barrier: nothing came after it on those,
and the others have not delivered one (`Aligner.Knows`).  So a checkpoint is complete only when
every open channel has just delivered its barrier (`Offers.complete`, `Closes.complete`). -/

namespace StreamCheckpoint

/-- The last of `xs` is a barrier of the checkpoint `k`, and there is no other. -/
def Delivered (k : Nat) (xs : List Content) : Prop :=
  ∃ before b, xs = before ++ [.event (.barrier b)] ∧ b.id = k ∧ ¬Carries k before

/-- What is seen once `channel` has delivered `x`. -/
def seeing (seen : Nat → List Content) (channel : Nat) (x : Content) (c : Nat) : List Content :=
  seen c ++ if channel = c then [x] else []

section Seeing

variable {seen : Nat → List Content} {channel c k : Nat} {x : Content}

@[simp] theorem seeing_self : seeing seen channel x channel = seen channel ++ [x] := by
  simp [seeing]

theorem seeing_of_ne (h : channel ≠ c) : seeing seen channel x c = seen c := by
  simp [seeing, h]

theorem carries_seeing : Carries k (seeing seen channel x c) ↔
    Carries k (seen c) ∨ (channel = c ∧ x.isBarrierOf k = true) := by
  by_cases hc : channel = c
  · simp [seeing, hc, Carries]
  · simp [seeing, hc, Carries]

theorem isBarrierOf_barrier {b : Barrier} :
    (Content.event (.barrier b)).isBarrierOf k = true ↔ b.id = k := by
  simp [Content.isBarrierOf]

theorem delivered_seeing {b : Barrier} (hb : b.id = k) (h : ¬Carries k (seen channel)) :
    Delivered k (seeing seen channel (.event (.barrier b)) channel) :=
  ⟨_, b, seeing_self, hb, h⟩

end Seeing

namespace Aligner

/-- What the aligner knows of what the channels have delivered. -/
structure Knows (a : Aligner) (seen : Nat → List Content) : Prop where
  latest : ∀ c k, Carries k (seen c) → ∃ l, a.latest = some l ∧ k ≤ l
  blocked : ∀ f c, a.inFlight = some f → f.blocked.getD c false = true →
    Delivered f.barrier.id (seen c)
  free : ∀ f c, a.inFlight = some f → f.blocked.getD c false = false →
    ¬Carries f.barrier.id (seen c)

section Knows

variable {a : Aligner} {seen : Nat → List Content} {channel : Nat} {b : Barrier}
  {r : Reaction (Except AlignmentError Unit)}

/-- Without an alignment in flight only the newest checkpoint matters. -/
theorem knows_of_idle (idle : a.inFlight = none)
    (latest : ∀ c k, Carries k (seen c) → ∃ l, a.latest = some l ∧ k ≤ l) : a.Knows seen := by
  refine ⟨latest, fun f c hf => ?_, fun f c hf => ?_⟩
  · rw [idle] at hf; cases hf
  · rw [idle] at hf; cases hf

theorem Knows.content (h : a.Knows seen) {x : Content} (free : a.isBlocked channel = false)
    (hx : ∀ b, x ≠ .event (.barrier b)) : a.Knows (seeing seen channel x) := by
  have hk : ∀ k c, Carries k (seeing seen channel x c) ↔ Carries k (seen c) := by
    intro k c
    rw [carries_seeing, or_iff_left]
    rintro ⟨-, hb⟩
    cases x with
    | buffer bytes => cases hb
    | event e => cases e with
      | barrier b => exact hx b rfl
      | _ => cases hb
  refine ⟨fun c k hc => h.latest c k ((hk k c).mp hc), fun f c hf hb => ?_, fun f c hf hb => ?_⟩
  · have hne : channel ≠ c := by
      rintro rfl
      rw [isBlocked_of_inFlight hf, hb] at free
      cases free
    rw [seeing_of_ne hne]
    exact h.blocked f c hf hb
  · rw [hk]
    exact h.free f c hf hb

/-- The checkpoint of a barrier that makes room for itself is newer than every one before. -/
theorem Knows.not_carries (h : a.Knows seen) (newer : ∀ l, a.latest = some l → l < b.id) (c : Nat) :
    ¬Carries b.id (seen c) := by
  intro hc
  obtain ⟨l, hl, hle⟩ := h.latest c _ hc
  exact Nat.not_le.mpr (newer l hl) hle

theorem Knows.latest_seeing (h : a.Knows seen) {l : Nat}
    (hl : ∀ l', a.latest = some l' → l' ≤ l) (hb : b.id ≤ l) (c k : Nat)
    (hc : Carries k (seeing seen channel (.event (.barrier b)) c)) : k ≤ l := by
  rcases carries_seeing.mp hc with hc | ⟨-, hk⟩
  · obtain ⟨l', hl', hle⟩ := h.latest c k hc
    exact Nat.le_trans hle (hl l' hl')
  · rw [isBarrierOf_barrier] at hk
    omega

theorem Knows.stale (h : a.Knows seen) (hs : a.Sound) (free : a.isBlocked channel = false) {l : Nat}
    (latest : (a.inFlight.elim a.latest fun f => some f.barrier.id) = some l) (old : b.id ≤ l)
    (other : a.current ≠ some b.id) :
    a.skipStale.Knows (seeing seen channel (.event (.barrier b))) := by
  have hl : a.latest = some l := hs.elim_latest ▸ latest
  refine ⟨fun c k hk => ⟨l, hl, h.latest_seeing (fun l' hl' => ?_) old c k hk⟩,
    fun f c hf hb => ?_, fun f c hf hb hk => ?_⟩
  · rw [hl] at hl'
    exact Nat.le_of_eq (Option.some.inj hl').symm
  · have hne : channel ≠ c := by
      rintro rfl
      rw [@isBlocked_of_inFlight a f hf, hb] at free
      cases free
    rw [seeing_of_ne hne]
    exact h.blocked f c hf hb
  · rcases carries_seeing.mp hk with hk | ⟨-, hk⟩
    · exact h.free f c hf hb hk
    · rw [isBarrierOf_barrier] at hk
      exact other (by rw [current, show a.inFlight = some f from hf, Option.map_some, hk])

theorem Knows.offers (h : a.Knows seen) (hs : a.Sound) (hc : channel < a.channels)
    (free : a.isBlocked channel = false) (ho : a.Offers channel b r) :
    r.aligner.Knows (seeing seen channel (.event (.barrier b))) := by
  have hflight : ∀ f, a.inFlight = some f → b.id = f.barrier.id →
      ∀ c k, Carries k (seeing seen channel (.event (.barrier b)) c) →
        ∃ l, a.latest = some l ∧ k ≤ l := by
    intro f hf hb c k hk
    have hl := (hs f hf).latest
    refine ⟨_, hl, h.latest_seeing (fun l' hl' => ?_) (Nat.le_of_eq hb) c k hk⟩
    rw [hl] at hl'
    exact Nat.le_of_eq (Option.some.inj hl').symm
  have hnewer : (∀ l, a.latest = some l → l < b.id) →
      ∀ c k, Carries k (seeing seen channel (.event (.barrier b)) c) →
        ∃ l, some b.id = some l ∧ k ≤ l := fun newer c k hk =>
    ⟨_, rfl, h.latest_seeing (fun l hl => Nat.le_of_lt (newer l hl)) (Nat.le_refl _) c k hk⟩
  cases ho with
  | @stale l latest old other => exact h.stale hs free latest old other
  | cancelled flight same => exact knows_of_idle rfl (hflight _ flight same)
  | duplicate flight same plain blocked =>
    rw [isBlocked_of_inFlight flight, blocked] at free
    cases free
  | completed flight same => exact knows_of_idle rfl (hflight _ flight same)
  | refused clear => exact knows_of_idle clear.closed.2 (hnewer (clear.newer hs))
  | instant clear => exact knows_of_idle clear.closed.2 (hnewer (clear.newer hs))
  | @joined f flight same plain fresh waiting =>
    have hlen := (hs f flight).lt_length hc
    refine ⟨hflight f flight same, fun f' c hf hb => ?_, fun f' c hf hb => ?_⟩
    · obtain rfl := Option.some.inj hf
      rw [Alignment.getD_add hlen] at hb
      by_cases he : channel = c
      · subst he
        exact delivered_seeing same (h.free f channel flight fresh)
      · rw [seeing_of_ne he]
        exact h.blocked f c flight (by simpa [Ne.symm he] using hb)
    · obtain rfl := Option.some.inj hf
      rw [Alignment.getD_add hlen, Bool.or_eq_false_iff] at hb
      rw [seeing_of_ne (ne_of_beq_false hb.2).symm]
      exact h.free f c flight hb.1
  | begun clear plain waiting =>
    have newer := clear.newer hs
    refine ⟨hnewer newer, fun f' c hf hb => ?_, fun f' c hf hb => ?_⟩
    · obtain rfl := Option.some.inj hf
      rw [Alignment.getD_first hc, beq_iff_eq] at hb
      subst hb
      exact delivered_seeing rfl (h.not_carries newer c)
    · obtain rfl := Option.some.inj hf
      rw [Alignment.getD_first hc] at hb
      rw [seeing_of_ne (ne_of_beq_false hb).symm]
      exact h.not_carries newer c

theorem Knows.closes (h : a.Knows seen) (hc : a.Closes channel r) : r.aligner.Knows seen := by
  refine ⟨fun c k hk => hc.latest ▸ h.latest c k hk, fun f c hf hb => ?_, fun f c hf hb => ?_⟩
  · rcases hc.inFlight with hi | hi
    · exact h.blocked f c (hi ▸ hf) hb
    · rw [hi] at hf; cases hf
  · rcases hc.inFlight with hi | hi
    · exact h.free f c (hi ▸ hf) hb
    · rw [hi] at hf; cases hf

theorem Knows.stores {item : Item} {kept : List Notice × Aligner} (h : a.Knows seen)
    (hk : a.Stores item kept) : kept.2.Knows seen := by
  cases hk with
  | idle none => exact knows_of_idle none h.latest
  | overflowed => exact knows_of_idle rfl h.latest
  | @held f flight =>
    refine ⟨h.latest, fun f' c hf hb => ?_, fun f' c hf hb => ?_⟩
    · obtain rfl := Option.some.inj hf
      exact h.blocked f c flight hb
    · obtain rfl := Option.some.inj hf
      exact h.free f c flight hb

theorem Knows.closeAll (h : a.Knows seen) (hs : a.Sound) : a.closeAll.2.Knows seen := by
  obtain ⟨hidle, -, hl, -⟩ := closeAll_spec hs
  exact knows_of_idle hidle fun c k hk => hl ▸ h.latest c k hk

section Complete

variable {x : Barrier}

/-- A barrier completes its own checkpoint, and only if every open channel has just delivered the
checkpoint's barrier. -/
theorem Offers.complete (ho : a.Offers channel b r) (h : a.Knows seen) (hs : a.Sound)
    (hc : channel < a.channels) (hx : .complete x ∈ r.notices) :
    x.id = b.id ∧ b.isCancel = false ∧ ∀ c < a.channels,
      Delivered b.id (seeing seen channel (.event (.barrier b)) c) ∨
        a.isClosed c = true ∧ ¬Carries b.id (seeing seen channel (.event (.barrier b)) c) := by
  cases ho with
  | stale => cases hx
  | cancelled => simp at hx
  | duplicate => cases hx
  | joined => cases hx
  | refused clear =>
    rcases List.mem_append.mp hx with hx | hx
    · exact absurd hx clear.not_complete
    · simp at hx
  | begun clear => exact absurd hx clear.not_complete
  | @completed f flight same plain fresh all =>
    -- the count is reached only if each channel is closed or delivered the barrier
    rw [add_complete_iff (hs f flight) hc fresh] at all
    obtain rfl : x = f.barrier := by simpa using hx
    refine ⟨same.symm, plain, fun c hcn => ?_⟩
    by_cases he : channel = c
    · subst he
      exact .inl (delivered_seeing rfl (same ▸ h.free f channel flight fresh))
    · rw [seeing_of_ne he, same]
      cases hb : f.blocked.getD c false with
      | true => exact .inl (h.blocked f c flight hb)
      | false =>
        refine .inr ⟨(all c hcn).resolve_right ?_, h.free f c flight hb⟩
        rintro (hb' | rfl)
        · exact Bool.false_ne_true (hb.symm.trans hb')
        · exact he rfl
  | instant clear plain all =>
    have newer := clear.newer hs
    rw [first_complete_iff hc] at all
    obtain rfl : x = b := by
      rcases List.mem_append.mp hx with hx | hx
      · exact absurd hx clear.not_complete
      · simpa using hx
    refine ⟨rfl, plain, fun c hcn => ?_⟩
    by_cases he : channel = c
    · subst he
      exact .inl (delivered_seeing rfl (h.not_carries newer channel))
    · rw [seeing_of_ne he]
      exact .inr ⟨(all c hcn).resolve_right (Ne.symm he), h.not_carries newer c⟩

/-- A channel that ends completes the checkpoint in flight only if every other open channel has just
delivered the checkpoint's barrier. -/
theorem Closes.complete (hcl : a.Closes channel r) (h : a.Knows seen) (hs : a.Sound)
    (hc : channel < a.channels) (hx : .complete x ∈ r.notices) :
    ∀ c < a.channels, Delivered x.id (seen c) ∨
      (a.isClosed c = true ∨ c = channel) ∧ ¬Carries x.id (seen c) := by
  cases hcl with
  | again => cases hx
  | idle => cases hx
  | waiting => cases hx
  | aborted => simp at hx
  | @completed f fresh flight all =>
    obtain rfl : x = f.barrier := by simpa using hx
    rw [mark_complete_iff (hs f flight) hc] at all
    intro c hcn
    cases hb : f.blocked.getD c false with
    | true => exact .inl (h.blocked f c flight hb)
    | false =>
      exact .inr ⟨(all c hcn).resolve_right (Bool.eq_false_iff.mp hb), h.free f c flight hb⟩

theorem complete_closeEach {cs : List Nat} (hx : .complete x ∈ (a.closeEach cs).1)
    (hc : ∀ c ∈ cs, c < a.channels) : ∃ f, a.inFlight = some f ∧ x = f.barrier := by
  induction cs generalizing a with
  | nil => cases hx
  | cons c cs ih =>
    have hcl := closes (hc c List.mem_cons_self)
    rcases List.mem_append.mp hx with hx | hx
    · cases hcl' : a.closeChannel c with
      | mk answer notices aligner =>
      rw [hcl'] at hx hcl
      cases hcl with
      | again => cases hx
      | idle => cases hx
      | waiting => cases hx
      | aborted => simp at hx
      | completed _ flight => exact ⟨_, flight, by simpa using hx⟩
    · obtain ⟨f, hf, rfl⟩ := ih hx fun c' hc' => by
        rw [hcl.channels]
        exact hc c' (List.mem_cons_of_mem _ hc')
      rcases hcl.inFlight with hi | hi
      · exact ⟨f, hi ▸ hf, rfl⟩
      · rw [hi] at hf; cases hf

/-- Closing every channel completes a checkpoint only if each channel has just delivered its barrier
or has not delivered one. -/
theorem complete_closeAll (h : a.Knows seen) (hx : .complete x ∈ a.closeAll.1) :
    ∃ f, a.inFlight = some f ∧ x = f.barrier ∧ ∀ c,
      f.blocked.getD c false = true ∧ Delivered x.id (seen c) ∨
        f.blocked.getD c false = false ∧ ¬Carries x.id (seen c) := by
  obtain ⟨f, hf, rfl⟩ := complete_closeEach hx (by simp)
  refine ⟨f, hf, rfl, fun c => ?_⟩
  cases hb : f.blocked.getD c false with
  | true => exact .inl ⟨rfl, h.blocked f c hf hb⟩
  | false => exact .inr ⟨rfl, h.free f c hf hb⟩

end Complete

end Knows

end Aligner

end StreamCheckpoint
