import StreamCheckpoint.Alignment.Aligner
import StreamCheckpoint.Proofs.Channel.Flags

/-! The transitions of an aligner.  `Offers` and `Closes` list everything that a barrier and the end
of a channel can do, and `Stores` what becomes of an item that is to be held back, so that what an
aligner preserves is a case for each of their constructors. -/

namespace StreamCheckpoint

theorem requiredChannels_eq {closed blocked : List Bool} (h : blocked.length = closed.length) :
    requiredChannels closed blocked =
      blocked.countP id + (closed.zip blocked).countP fun c => !c.1 && !c.2 := by
  unfold requiredChannels
  induction closed generalizing blocked with
  | nil => cases blocked with
    | nil => rfl
    | cons _ _ => simp at h
  | cons c closed ih => cases blocked with
    | nil => simp at h
    | cons b blocked =>
      have := ih (Nat.succ.inj h)
      cases c <;> cases b <;> simp_all <;> omega

theorem countP_waiting_eq_zero {closed blocked : List Bool} (h : blocked.length = closed.length) :
    ((closed.zip blocked).countP fun c => !c.1 && !c.2) = 0 ↔
      ∀ c < closed.length, closed.getD c false = true ∨ blocked.getD c false = true := by
  rw [← zip_all_iff_getD h.symm, List.countP_eq_zero, List.all_eq_true]
  refine forall₂_congr fun c _ => ?_
  cases c.1 <;> simp

/-- An alignment that counts the blocked channels waits for nobody exactly if every channel is
closed or blocked. -/
theorem requiredChannels_le_iff {closed blocked : List Bool} (h : blocked.length = closed.length) :
    requiredChannels closed blocked ≤ blocked.countP id ↔
      ∀ c < closed.length, closed.getD c false = true ∨ blocked.getD c false = true := by
  rw [requiredChannels_eq h, ← countP_waiting_eq_zero h]
  omega

theorem countP_set_true {xs : List Bool} {i : Nat} (hi : i < xs.length)
    (h : xs.getD i false = false) : (xs.set i true).countP id = xs.countP id + 1 := by
  induction xs generalizing i with
  | nil => simp at hi
  | cons x xs ih => cases i with
    | zero => simp_all
    | succ i =>
      have := ih (Nat.lt_of_succ_lt_succ hi) h
      cases x <;> simp_all

namespace Alignment

/-- The alignment with one more channel that has delivered the barrier. -/
def add (f : Alignment) (channel : Nat) : Alignment :=
  { f with blocked := f.blocked.set channel true, received := f.received + 1 }

/-- The alignment with one more item held back. -/
def hold (f : Alignment) (item : Item) : Alignment :=
  { f with queue := f.queue ++ [item], bytes := f.bytes + item.size }

/-- The alignment of `b` when its first barrier has arrived, on `channel`. -/
def first (channels channel : Nat) (b : Barrier) : Alignment :=
  { barrier := b
    blocked := (List.replicate channels false).set channel true
    received := 1
    queue := []
    bytes := 0 }

theorem countP_first {channels channel : Nat} (h : channel < channels) (b : Barrier) :
    (first channels channel b).blocked.countP id = 1 := by
  unfold first
  rw [countP_set_true (by simpa using h) (by simp [List.getD_eq_getElem?_getD, h])]
  simp

end Alignment

namespace Aligner

/-- Whether `channel` has ended. -/
def isClosed (a : Aligner) (channel : Nat) : Bool := a.closed.getD channel false

/-- The aligner with `channel` marked as ended, whatever comes of it. -/
def mark (a : Aligner) (channel : Nat) : Aligner :=
  { a with closed := a.closed.set channel true }

@[simp] theorem channels_mark (a : Aligner) (channel : Nat) :
    (a.mark channel).channels = a.channels := List.length_set

theorem isClosed_mark {a : Aligner} {channel : Nat} (h : channel < a.channels) (c : Nat) :
    (a.mark channel).isClosed c = (a.isClosed c || c == channel) := by
  unfold isClosed mark
  rw [getD_set]
  by_cases hc : channel = c
  · subst hc
    simp [show channel < a.closed.length from h]
  · simp [hc, Ne.symm hc]

/-- The ways to make room for the alignment of `b`: there is no alignment in flight and the
checkpoint is newer than every other, or an older alignment in flight is given up. -/
inductive Clears (a : Aligner) (b : Barrier) : List Notice → Aligner → Prop
  | idle (none : a.inFlight = none) (newer : ∀ l, a.latest = some l → l < b.id) : Clears a b [] a
  | superseded {f : Alignment} (flight : a.inFlight = some f) (newer : f.barrier.id < b.id) :
      Clears a b [.aborted f.barrier.id (.newerCheckpoint b.id)]
        (a.abort f (.newerCheckpoint b.id)).2

/-- The ways to deal with the barrier `b` on `channel`. -/
inductive Offers (a : Aligner) (channel : Nat) (b : Barrier) :
    Reaction (Except AlignmentError Unit) → Prop
  | stale {l : Nat} (latest : (a.inFlight.elim a.latest fun f => some f.barrier.id) = some l)
      (old : b.id ≤ l) (other : a.current ≠ some b.id) :
      Offers a channel b ⟨.ok (), [], a.skipStale⟩
  | cancelled {f : Alignment} (flight : a.inFlight = some f) (same : b.id = f.barrier.id)
      (cancel : b.isCancel = true) :
      Offers a channel b ⟨.ok (), [.aborted f.barrier.id .cancelled], (a.abort f .cancelled).2⟩
  | duplicate {f : Alignment} (flight : a.inFlight = some f) (same : b.id = f.barrier.id)
      (plain : b.isCancel = false) (blocked : f.blocked.getD channel false = true) :
      Offers a channel b ⟨.error (.duplicateBarrier channel b.id), [], a⟩
  | joined {f : Alignment} (flight : a.inFlight = some f) (same : b.id = f.barrier.id)
      (plain : b.isCancel = false) (fresh : f.blocked.getD channel false = false)
      (waiting : ¬requiredChannels a.closed (f.add channel).blocked ≤ (f.add channel).received) :
      Offers a channel b ⟨.ok (), [], { a with inFlight := some (f.add channel) }⟩
  | completed {f : Alignment} (flight : a.inFlight = some f) (same : b.id = f.barrier.id)
      (plain : b.isCancel = false) (fresh : f.blocked.getD channel false = false)
      (all : requiredChannels a.closed (f.add channel).blocked ≤ (f.add channel).received) :
      Offers a channel b ⟨.ok (), [.complete f.barrier], (a.complete (f.add channel)).2⟩
  | refused {ended : List Notice} {a' : Aligner} (clear : a.Clears b ended a')
      (cancel : b.isCancel = true) :
      Offers a channel b ⟨.ok (), ended ++ [.aborted b.id .cancelled],
        { a' with
          latest := some b.id
          counters := { a'.counters with aborted := a'.counters.aborted + 1 } }⟩
  | instant {ended : List Notice} {a' : Aligner} (clear : a.Clears b ended a')
      (plain : b.isCancel = false)
      (all : requiredChannels a.closed (Alignment.first a.channels channel b).blocked ≤ 1) :
      Offers a channel b ⟨.ok (), ended ++ [.complete b],
        { a' with
          latest := some b.id
          counters := { a'.counters with
            completed := a'.counters.completed + 1, lastWait := some .instant } }⟩
  | begun {ended : List Notice} {a' : Aligner} (clear : a.Clears b ended a')
      (plain : b.isCancel = false)
      (waiting : ¬requiredChannels a.closed (Alignment.first a.channels channel b).blocked ≤ 1) :
      Offers a channel b ⟨.ok (), ended,
        { a' with
          latest := some b.id
          inFlight := some (Alignment.first a.channels channel b) }⟩

theorem Clears.closed {a a' : Aligner} {b : Barrier} {ended : List Notice}
    (h : a.Clears b ended a') : a'.closed = a.closed ∧ a'.inFlight = none := by
  cases h with
  | idle none => exact ⟨rfl, none⟩
  | superseded => exact ⟨rfl, rfl⟩

theorem offers_start {a a' : Aligner} {b : Barrier} {ended : List Notice} (channel : Nat)
    (h : a.Clears b ended a') :
    a.Offers channel b
      ⟨.ok (), ended ++ (a'.start channel b).1, (a'.start channel b).2⟩ := by
  have hc : a'.channels = a.channels := congrArg List.length h.closed.1
  unfold start
  by_cases hb : b.isCancel = true
  · simp only [if_pos hb]
    exact .refused h hb
  have hb' : b.isCancel = false := by simpa using hb
  by_cases hr : requiredChannels a.closed (Alignment.first a.channels channel b).blocked ≤ 1
  · have hr' := hr
    rw [← hc, ← h.closed.1] at hr'
    unfold Alignment.first at hr'
    simp only [if_neg hb, if_pos hr']
    exact .instant h hb' hr
  · have hr' := hr
    rw [← hc, ← h.closed.1] at hr'
    unfold Alignment.first at hr'
    simp only [if_neg hb, if_neg hr', List.append_nil]
    rw [hc]
    exact .begun h hb' hr

theorem offers_join {a : Aligner} {f : Alignment} (flight : a.inFlight = some f) (channel : Nat)
    {b : Barrier} (same : b.id = f.barrier.id) : a.Offers channel b (a.join f channel b) := by
  unfold join
  by_cases hb : b.isCancel = true
  · rw [if_pos hb]
    exact .cancelled flight same hb
  rw [if_neg hb]
  have plain : b.isCancel = false := by simpa using hb
  by_cases hd : f.blocked.getD channel false = true
  · rw [if_pos hd]
    exact .duplicate flight same plain hd
  rw [if_neg hd]
  have fresh : f.blocked.getD channel false = false := by simpa using hd
  by_cases hr : requiredChannels a.closed (f.add channel).blocked ≤ (f.add channel).received
  · have hr' := hr
    unfold Alignment.add at hr'
    simp only [if_pos hr']
    exact .completed (f := f) flight same plain fresh hr
  · have hr' := hr
    unfold Alignment.add at hr'
    simp only [if_neg hr']
    exact .joined flight same plain fresh hr

/-- Whatever the barrier, it is dealt with in one of the ways of `Offers`. -/
theorem offers (a : Aligner) (channel : Nat) (b : Barrier) :
    a.Offers channel b (a.offerBarrier channel b) := by
  unfold offerBarrier
  cases hf : a.inFlight with
  | none =>
    simp only
    by_cases hl : ∃ l, a.latest = some l ∧ b.id ≤ l
    · obtain ⟨l, hl, hle⟩ := hl
      rw [if_pos (by simpa [hl] using hle)]
      refine .stale (l := l) ?_ hle (by simp [current, hf])
      rw [hf, ← hl]
      rfl
    · have newer : ∀ l, a.latest = some l → l < b.id := fun l h =>
        Nat.not_le.mp fun hle => hl ⟨l, h, hle⟩
      rw [if_neg (by cases h : a.latest <;> simp_all)]
      exact offers_start (a := a) channel (.idle hf newer)
  | some f =>
    simp only
    by_cases hs : b.id = f.barrier.id
    · rw [if_pos hs]
      exact offers_join hf channel hs
    rw [if_neg hs]
    by_cases hn : f.barrier.id < b.id
    · rw [if_pos hn]
      exact offers_start channel (.superseded hf hn)
    · rw [if_neg hn]
      refine .stale (l := f.barrier.id) ?_ (Nat.not_lt.mp hn) ?_
      · rw [hf]
        rfl
      · simp [current, hf]
        exact fun h => hs h.symm

/-- The ways to mark `channel` as ended. -/
inductive Closes (a : Aligner) (channel : Nat) :
    Reaction (Except AlignmentError Unit) → Prop
  | again (closed : a.isClosed channel = true) : Closes a channel ⟨.ok (), [], a⟩
  | idle (fresh : a.isClosed channel = false) (none : a.inFlight = none) :
      Closes a channel ⟨.ok (), [], a.mark channel⟩
  | waiting {f : Alignment} (fresh : a.isClosed channel = false) (flight : a.inFlight = some f)
      (waiting : ¬requiredChannels (a.mark channel).closed f.blocked ≤ f.received) :
      Closes a channel ⟨.ok (), [], a.mark channel⟩
  | completed {f : Alignment} (fresh : a.isClosed channel = false) (flight : a.inFlight = some f)
      (all : requiredChannels (a.mark channel).closed f.blocked ≤ f.received)
      (policy : a.settings.closePolicy = .complete) :
      Closes a channel ⟨.ok (), [.complete f.barrier], ((a.mark channel).complete f).2⟩
  | aborted {f : Alignment} (fresh : a.isClosed channel = false) (flight : a.inFlight = some f)
      (all : requiredChannels (a.mark channel).closed f.blocked ≤ f.received)
      (policy : a.settings.closePolicy = .abort) :
      Closes a channel ⟨.ok (), [.aborted f.barrier.id (.channelClosed channel)],
        ((a.mark channel).abort f (.channelClosed channel)).2⟩

/-- Closing an open channel marks it as ended, and then ends the alignment in flight if that does
not wait for another channel. -/
theorem closeChannel_of_open {a : Aligner} {channel : Nat} (hc : channel < a.channels)
    (fresh : a.isClosed channel = false) :
    a.closeChannel channel =
      match a.inFlight with
      | some f =>
        if requiredChannels (a.mark channel).closed f.blocked ≤ f.received then
          match a.settings.closePolicy with
          | .complete => ⟨.ok (), ((a.mark channel).complete f).1, ((a.mark channel).complete f).2⟩
          | .abort => ⟨.ok (), ((a.mark channel).abort f (.channelClosed channel)).1,
              ((a.mark channel).abort f (.channelClosed channel)).2⟩
        else ⟨.ok (), [], a.mark channel⟩
      | none => ⟨.ok (), [], a.mark channel⟩ := by
  unfold isClosed at fresh
  unfold closeChannel
  rw [if_pos hc, if_neg (by simpa using fresh)]
  unfold mark
  generalize a.inFlight = flight
  cases flight with
  | none => rfl
  | some f =>
    simp only
    split
    · cases a.settings.closePolicy <;> rfl
    · rfl

theorem closes {a : Aligner} {channel : Nat} (hc : channel < a.channels) :
    a.Closes channel (a.closeChannel channel) := by
  by_cases hd : a.isClosed channel = true
  · have e : a.closeChannel channel = ⟨.ok (), [], a⟩ := by
      unfold isClosed at hd
      rw [closeChannel, if_pos hc, if_pos hd]
    rw [e]
    exact .again hd
  have fresh : a.isClosed channel = false := by simpa using hd
  rw [closeChannel_of_open hc fresh]
  split
  · next f flight =>
    split
    · next all =>
      split
      · next policy => exact .completed fresh flight all policy
      · next policy => exact .aborted fresh flight all policy
    · next waiting => exact .waiting fresh flight waiting
  · next none => exact .idle fresh none

theorem Closes.answer {a : Aligner} {channel : Nat} {r : Reaction (Except AlignmentError Unit)}
    (h : a.Closes channel r) : r.answer = .ok () := by
  cases h <;> rfl

/-- The ways to hold an item back. -/
inductive Stores (a : Aligner) (item : Item) : List Notice × Aligner → Prop
  | idle (none : a.inFlight = none) : Stores a item ([], { a with replay := a.replay ++ [item] })
  | held {f : Alignment} (flight : a.inFlight = some f)
      (room : a.settings.byteLimit.any (· < (f.hold item).bytes) = false) :
      Stores a item ([], { a with inFlight := some (f.hold item) })
  | overflowed {f : Alignment} (flight : a.inFlight = some f)
      (full : a.settings.byteLimit.any (· < (f.hold item).bytes) = true) :
      Stores a item ([.aborted f.barrier.id .byteLimit], (a.abort (f.hold item) .byteLimit).2)

theorem stores (a : Aligner) (item : Item) : a.Stores item (a.store item) := by
  unfold store
  split
  · next f hf =>
    simp only
    split
    · next full => exact .overflowed hf full
    · next room => exact .held hf (Bool.eq_false_iff.mpr room)
  · next hf => exact .idle hf

end Aligner

end StreamCheckpoint
