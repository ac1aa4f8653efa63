import StreamCheckpoint.Alignment.Held
import StreamCheckpoint.Proofs.Alignment.Transitions

/-! What holds of an aligner at any time.  The alignment in flight counts its blocked channels and
waits for an open one (`Aligner.Sound`), nothing held back is lost (`items_offer` and the like), and
closing every channel ends it (`closeAll_spec`). -/

namespace StreamCheckpoint

/-- What holds of an alignment in flight, given which channels are closed and the newest checkpoint:
the alignment counts the channels that are blocked, there is an open one that is not, and only items
of blocked channels are held back. -/
structure Alignment.Sound (closed : List Bool) (latest : Option Nat) (f : Alignment) : Prop where
  length : f.blocked.length = closed.length
  received : f.received = f.blocked.countP id
  waiting : ∃ c < closed.length, closed.getD c false = false ∧ f.blocked.getD c false = false
  latest : latest = some f.barrier.id
  plain : f.barrier.isCancel = false
  queued : ∀ i ∈ f.queue, f.blocked.getD i.channel false = true

theorem Alignment.Sound.lt_length {closed : List Bool} {latest : Option Nat} {f : Alignment}
    {channel : Nat} (h : f.Sound closed latest) (hc : channel < closed.length) :
    channel < f.blocked.length := by
  rw [h.length]
  exact hc

theorem exists_waiting {closed blocked : List Bool} (h : blocked.length = closed.length)
    (hr : ¬requiredChannels closed blocked ≤ blocked.countP id) :
    ∃ c < closed.length, closed.getD c false = false ∧ blocked.getD c false = false := by
  rw [requiredChannels_le_iff h] at hr
  simp only [Classical.not_forall, not_or, Bool.not_eq_true] at hr
  obtain ⟨c, hc, ho⟩ := hr
  exact ⟨c, hc, ho⟩

namespace Alignment

theorem getD_add {f : Alignment} {channel : Nat} (h : channel < f.blocked.length) (c : Nat) :
    (f.add channel).blocked.getD c false = (f.blocked.getD c false || c == channel) := by
  unfold add
  rw [getD_set]
  by_cases hc : channel = c
  · subst hc
    simp [h]
  · simp [hc, Ne.symm hc]

theorem getD_first {channels channel : Nat} (h : channel < channels) (b : Barrier) (c : Nat) :
    (first channels channel b).blocked.getD c false = (c == channel) := by
  unfold first
  rw [getD_set]
  by_cases hc : channel = c
  · subst hc
    simp [h]
  · have : (List.replicate channels false).getD c false = false := by
      simp only [List.getD_eq_getElem?_getD, List.getElem?_replicate]
      split <;> rfl
    rw [if_neg fun h => hc h.1, this]
    simpa using Ne.symm hc

theorem length_first (channels channel : Nat) (b : Barrier) :
    (first channels channel b).blocked.length = channels := by
  simp [first]

/-- Counting one more channel keeps an alignment sound that still waits for another. -/
theorem Sound.add {closed : List Bool} {latest : Option Nat} {f : Alignment} {channel : Nat}
    (h : f.Sound closed latest) (hc : channel < closed.length)
    (fresh : f.blocked.getD channel false = false)
    (waiting : ¬requiredChannels closed (f.add channel).blocked ≤ (f.add channel).received) :
    (f.add channel).Sound closed latest := by
  have hl := h.lt_length hc
  have hr : (f.add channel).received = (f.add channel).blocked.countP id := by
    unfold Alignment.add
    rw [countP_set_true hl fresh, h.received]
  have hlen : (f.add channel).blocked.length = closed.length := by
    unfold Alignment.add
    rw [List.length_set, h.length]
  refine ⟨hlen, hr, exists_waiting hlen (hr ▸ waiting), h.latest, h.plain, fun i hi => ?_⟩
  rw [getD_add hl, h.queued i hi, Bool.true_or]

theorem sound_first {closed : List Bool} {channel : Nat} {b : Barrier}
    (hc : channel < closed.length) (plain : b.isCancel = false)
    (waiting : ¬requiredChannels closed (first closed.length channel b).blocked ≤ 1) :
    (first closed.length channel b).Sound closed (some b.id) := by
  have hlen := length_first closed.length channel b
  have hr := countP_first hc b
  refine ⟨hlen, hr.symm, exists_waiting hlen (hr.symm ▸ waiting), rfl, plain, fun i hi => ?_⟩
  simp [first] at hi

end Alignment

namespace Aligner

/-- The alignment in flight is sound. -/
def Sound (a : Aligner) : Prop := ∀ f, a.inFlight = some f → f.Sound a.closed a.latest

theorem sound_of_idle {a : Aligner} (h : a.inFlight = none) : a.Sound := by
  intro f hf
  rw [h] at hf
  cases hf

theorem Sound.elim_latest {a : Aligner} (h : a.Sound) :
    (a.inFlight.elim a.latest fun f => some f.barrier.id) = a.latest := by
  cases hf : a.inFlight with
  | none => rfl
  | some f => exact (h f hf).latest.symm

/-- The items that are held back or wait for replay, oldest first. -/
def items (a : Aligner) : List Item := a.queue ++ a.replay

theorem queue_of_inFlight {a : Aligner} {f : Alignment} (h : a.inFlight = some f) :
    a.queue = f.queue := by
  simp [queue, h]

theorem queue_of_idle {a : Aligner} (h : a.inFlight = none) : a.queue = [] := by
  simp [queue, h]

theorem isBlocked_of_inFlight {a : Aligner} {f : Alignment} (h : a.inFlight = some f) (c : Nat) :
    a.isBlocked c = f.blocked.getD c false := by
  simp [isBlocked, h]

theorem isBlocked_of_idle {a : Aligner} (h : a.inFlight = none) (c : Nat) :
    a.isBlocked c = false := by
  simp [isBlocked, h]

/-- What a sound aligner holds back came on blocked channels. -/
theorem Sound.isBlocked_queue {a : Aligner} (h : a.Sound) {i : Item} (hi : i ∈ a.queue) :
    a.isBlocked i.channel = true := by
  cases hf : a.inFlight with
  | none => rw [queue_of_idle hf] at hi; cases hi
  | some f =>
    rw [queue_of_inFlight hf] at hi
    rw [isBlocked_of_inFlight hf]
    exact (h f hf).queued i hi

section Required

variable {a : Aligner} {f : Alignment} {latest : Option Nat} {channel : Nat}

/-- The first barrier of a checkpoint completes it if every other channel has ended. -/
theorem first_complete_iff (hc : channel < a.channels) (b : Barrier) :
    requiredChannels a.closed (Alignment.first a.channels channel b).blocked ≤ 1 ↔
      ∀ c < a.channels, a.isClosed c = true ∨ c = channel := by
  rw [← Alignment.countP_first hc b,
    requiredChannels_le_iff (Alignment.length_first a.channels channel b)]
  simp only [Alignment.getD_first hc, beq_iff_eq]
  rfl

/-- One more barrier completes the checkpoint in flight if every other channel is blocked or has
ended. -/
theorem add_complete_iff (h : f.Sound a.closed latest) (hc : channel < a.channels)
    (fresh : f.blocked.getD channel false = false) :
    requiredChannels a.closed (f.add channel).blocked ≤ (f.add channel).received ↔
      ∀ c < a.channels, a.isClosed c = true ∨ f.blocked.getD c false = true ∨ c = channel := by
  have hl := h.lt_length hc
  have hlen : (f.add channel).blocked.length = a.closed.length := by
    rw [Alignment.add, List.length_set, h.length]
  have hr : (f.add channel).received = (f.add channel).blocked.countP id := by
    rw [Alignment.add, countP_set_true hl fresh, h.received]
  rw [hr, requiredChannels_le_iff hlen]
  simp only [Alignment.getD_add hl, Bool.or_eq_true, beq_iff_eq]
  rfl

/-- The end of a channel completes the checkpoint in flight if every other channel is blocked or has
ended. -/
theorem mark_complete_iff (h : f.Sound a.closed latest) (hc : channel < a.channels) :
    requiredChannels (a.mark channel).closed f.blocked ≤ f.received ↔
      ∀ c < a.channels, (a.isClosed c = true ∨ c = channel) ∨ f.blocked.getD c false = true := by
  have hlen : f.blocked.length = (a.mark channel).closed.length := by
    rw [h.length]
    exact (channels_mark a channel).symm
  have hm : ∀ c, (a.mark channel).closed.getD c false = true ↔
      a.isClosed c = true ∨ c = channel := by
    intro c
    have := isClosed_mark hc c
    rw [isClosed] at this
    rw [this, Bool.or_eq_true, beq_iff_eq]
  rw [h.received, requiredChannels_le_iff hlen]
  simp only [hm]
  rw [show (a.mark channel).closed.length = a.channels from channels_mark a channel]

end Required

section Offers

variable {a : Aligner} {channel : Nat} {b : Barrier}

theorem Clears.items {a' : Aligner} {ended : List Notice} (h : a.Clears b ended a') :
    a'.items = a.items := by
  cases h with
  | idle => rfl
  | superseded flight newer => simp [Aligner.items, queue, flight, abort, release]

theorem Clears.newer {a' : Aligner} {ended : List Notice} (h : a.Clears b ended a')
    (hs : a.Sound) : ∀ l, a.latest = some l → l < b.id := by
  intro l hl
  cases h with
  | idle _ newer => exact newer l hl
  | superseded flight newer =>
    have := (hs _ flight).latest
    rw [hl] at this
    exact Option.some.inj this ▸ newer

theorem Clears.not_complete {x : Barrier} {a' : Aligner} {ended : List Notice}
    (h : a.Clears b ended a') : .complete x ∉ ended := by
  cases h <;> simp

variable {r : Reaction (Except AlignmentError Unit)}

theorem Offers.closed (h : a.Offers channel b r) : r.aligner.closed = a.closed := by
  cases h with
  | refused clear => exact clear.closed.1
  | instant clear => exact clear.closed.1
  | begun clear => exact clear.closed.1
  | _ => rfl

theorem Offers.items (h : a.Offers channel b r) : r.aligner.items = a.items := by
  cases h with
  | stale => rfl
  | duplicate => rfl
  | cancelled flight => simp [Aligner.items, queue, flight, abort, release]
  | joined flight => simp [Aligner.items, queue, flight, Alignment.add]
  | completed flight => simp [Aligner.items, queue, flight, complete, release, Alignment.add]
  | refused clear => exact clear.items
  | instant clear => exact clear.items
  | begun clear =>
    have hq : a.items = _ := clear.items.symm
    rw [hq]
    simp [Aligner.items, queue, clear.closed.2, Alignment.first]

theorem Offers.sound (h : a.Offers channel b r) (hs : a.Sound) (hc : channel < a.channels) :
    r.aligner.Sound := by
  cases h with
  | stale => exact hs
  | duplicate => exact hs
  | cancelled => exact sound_of_idle rfl
  | completed => exact sound_of_idle rfl
  | refused clear => exact sound_of_idle clear.closed.2
  | instant clear => exact sound_of_idle clear.closed.2
  | joined flight _ _ fresh waiting =>
    intro f' hf
    obtain rfl := Option.some.inj hf
    exact (hs _ flight).add hc fresh waiting
  | begun clear plain waiting =>
    intro f' hf
    obtain rfl := Option.some.inj hf
    simp only [clear.closed.1]
    exact Alignment.sound_first hc plain waiting

end Offers

section Closes

variable {a : Aligner} {channel : Nat} {r : Reaction (Except AlignmentError Unit)}

theorem Closes.items (h : a.Closes channel r) : r.aligner.items = a.items := by
  cases h with
  | completed _ flight => simp [Aligner.items, queue, flight, complete, release, mark]
  | aborted _ flight => simp [Aligner.items, queue, flight, abort, release, mark]
  | _ => rfl

theorem Closes.inFlight (h : a.Closes channel r) :
    r.aligner.inFlight = a.inFlight ∨ r.aligner.inFlight = none := by
  cases h with
  | completed => exact .inr rfl
  | aborted => exact .inr rfl
  | _ => exact .inl rfl

theorem Closes.free (h : a.Closes channel r) {c : Nat} (free : a.isBlocked c = false) :
    r.aligner.isBlocked c = false := by
  unfold isBlocked at free ⊢
  rcases h.inFlight with hi | hi
  · rw [hi]
    exact free
  · rw [hi]
    rfl

theorem Closes.latest (h : a.Closes channel r) : r.aligner.latest = a.latest := by
  cases h <;> rfl

theorem Closes.channels (h : a.Closes channel r) : r.aligner.channels = a.channels := by
  cases h with
  | again => rfl
  | _ => exact List.length_set

theorem Closes.isClosed (h : a.Closes channel r) (hc : channel < a.channels) (c : Nat) :
    r.aligner.isClosed c = (a.isClosed c || c == channel) := by
  cases h with
  | again closed =>
    by_cases he : c = channel
    · simp [he, closed]
    · simp [he]
  | _ => exact isClosed_mark hc c

theorem Closes.sound (h : a.Closes channel r) (hs : a.Sound) : r.aligner.Sound := by
  cases h with
  | again => exact hs
  | idle _ none => exact sound_of_idle none
  | completed => exact sound_of_idle rfl
  | aborted => exact sound_of_idle rfl
  | @waiting f _ flight waiting =>
    intro f' hf
    obtain rfl := Option.some.inj (flight.symm.trans hf)
    have h := hs f flight
    have hlen : f.blocked.length = (a.mark channel).closed.length := by
      rw [h.length]
      exact (channels_mark a channel).symm
    exact ⟨hlen, h.received, exists_waiting hlen (h.received ▸ waiting), h.latest, h.plain,
      h.queued⟩

end Closes

section Stores

variable {a : Aligner} {item : Item} {r : List Notice × Aligner}

theorem Stores.items (h : a.Stores item r) : r.2.items = a.queue ++ item :: a.replay ∨
    (a.inFlight = none ∧ r.2.items = a.items ++ [item]) := by
  cases h with
  | idle none => exact .inr ⟨none, by simp [Aligner.items, queue, none]⟩
  | held flight => exact .inl (by simp [Aligner.items, queue, flight, Alignment.hold])
  | overflowed flight =>
    exact .inl (by simp [Aligner.items, queue, flight, abort, release, Alignment.hold])

theorem Stores.same (h : a.Stores item r) : r.2.closed = a.closed ∧ r.2.latest = a.latest := by
  cases h <;> exact ⟨rfl, rfl⟩

theorem Stores.sound (h : a.Stores item r) (hs : a.Sound)
    (blocked : a.isBlocked item.channel = true) : r.2.Sound := by
  cases h with
  | idle none => exact sound_of_idle none
  | overflowed => exact sound_of_idle rfl
  | @held f flight =>
    intro f' hf
    obtain rfl := Option.some.inj hf
    rw [isBlocked_of_inFlight flight] at blocked
    have h := hs f flight
    refine ⟨h.length, h.received, h.waiting, h.latest, h.plain, fun i hi => ?_⟩
    rcases List.mem_append.mp hi with hi | hi
    · exact h.queued i hi
    · rwa [List.mem_singleton.mp hi]

end Stores

section CloseEach

@[simp] theorem items_offer (a : Aligner) (channel : Nat) (e : Event) :
    (a.offer channel e).aligner.items = a.items := by
  unfold offer
  split
  · split
    · exact (offers a channel _).items
    · rfl
  · rfl

@[simp] theorem items_closeChannel (a : Aligner) (channel : Nat) :
    (a.closeChannel channel).aligner.items = a.items := by
  by_cases hc : channel < a.channels
  · exact (closes hc).items
  · rw [closeChannel, if_neg hc]

@[simp] theorem items_closeEach (a : Aligner) (cs : List Nat) :
    (a.closeEach cs).2.items = a.items := by
  induction cs generalizing a with
  | nil => rfl
  | cons c cs ih => exact (ih _).trans (items_closeChannel a c)

@[simp] theorem items_closeAll (a : Aligner) : a.closeAll.2.items = a.items := items_closeEach a _

theorem closeEach_spec {a : Aligner} (hs : a.Sound) {cs : List Nat}
    (hc : ∀ c ∈ cs, c < a.channels) :
    (a.closeEach cs).2.Sound ∧ (a.closeEach cs).2.latest = a.latest ∧
      (a.closeEach cs).2.channels = a.channels ∧
      ∀ c, (a.closeEach cs).2.isClosed c = (a.isClosed c || cs.contains c) := by
  induction cs generalizing a with
  | nil => exact ⟨hs, rfl, rfl, by simp [closeEach]⟩
  | cons c cs ih =>
    have hcl := closes (hc c List.mem_cons_self)
    have hn := hcl.channels
    obtain ⟨h1, h2, h3, h4⟩ := ih (hcl.sound hs) fun c' hc' => by
      rw [hn]
      exact hc c' (List.mem_cons_of_mem _ hc')
    refine ⟨h1, h2.trans hcl.latest, h3.trans hn, fun c' => ?_⟩
    refine (h4 c').trans ?_
    rw [hcl.isClosed (hc c List.mem_cons_self), Bool.or_assoc, List.contains_cons]

theorem closeAll_spec {a : Aligner} (hs : a.Sound) :
    a.closeAll.2.inFlight = none ∧ a.closeAll.2.replay = a.items ∧
      a.closeAll.2.latest = a.latest ∧ a.closeAll.2.channels = a.channels ∧
      ∀ c < a.channels, a.closeAll.2.isClosed c = true := by
  obtain ⟨h1, h2, h3, h4⟩ := @closeEach_spec a hs (List.range a.channels) (by simp)
  have hall : ∀ c < a.channels, a.closeAll.2.isClosed c = true := by
    intro c hc
    refine (h4 c).trans ?_
    simp [hc]
  -- an alignment that survived would wait for an open channel
  have hidle : a.closeAll.2.inFlight = none := by
    cases hf : a.closeAll.2.inFlight with
    | none => rfl
    | some f =>
      obtain ⟨c, hc, ho, -⟩ := (h1 f hf).waiting
      have hcl := hall c (h3 ▸ hc)
      rw [isClosed, closeAll] at hcl
      rw [hcl] at ho
      cases ho
  refine ⟨hidle, ?_, h2, h3, hall⟩
  have hi := a.items_closeAll
  rw [items, queue_of_idle hidle, List.nil_append] at hi
  exact hi

end CloseEach

end Aligner

end StreamCheckpoint
