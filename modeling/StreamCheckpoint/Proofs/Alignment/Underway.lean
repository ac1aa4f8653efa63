import StreamCheckpoint.Proofs.Alignment.Outcomes

/-! Which alignment is underway, said of the calls that were made and not of what an aligner keeps.
The alignment of a barrier is underway from the call that offers it until a notice or a `cleanup`
ends it (`Underway`).  An aligner keeps just enough to know it: which barrier that is, and on which
channels one of its checkpoint was offered since (`Remembers`). -/

namespace StreamCheckpoint

namespace Operation

/-- The barrier that the call offers on one of the `n` channels. -/
def barrier? (n : Nat) : Operation → Option Barrier
  | .offer channel (.barrier b) => if channel < n then some b else none
  | _ => none

/-- The call offers a barrier of the checkpoint `k` on `channel`, not one that abandons it. -/
def Brings (k channel : Nat) (op : Operation) : Prop :=
  ∃ b, op = .offer channel (.barrier b) ∧ b.id = k ∧ b.isCancel = false

end Operation

section History

variable {n c : Nat} {past ops since : List Operation} {op : Operation} {notices : List Notice}
  {b : Barrier}

/-- The barriers that were offered on the `n` channels. -/
def barriersOf (n : Nat) (ops : List Operation) : List Barrier := ops.filterMap (·.barrier? n)

/-- `op`, made after the calls `past`, begins the alignment of `b`: the checkpoint is newer than
every checkpoint of which there was a barrier. -/
structure Begins (n : Nat) (past : List Operation) (op : Operation) (b : Barrier) : Prop where
  offers : ∃ channel < n, op = .offer channel (.barrier b)
  plain : b.isCancel = false
  newest : ∀ x ∈ barriersOf n past, x.id < b.id

/-- `since` are those of the calls `ops` that were made since the alignment of `b` began, that one
included. -/
def Since (n : Nat) (ops : List Operation) (b : Barrier) (since : List Operation) : Prop :=
  ∃ past op after, ops = past ++ since ∧ since = op :: after ∧ Begins n past op b

/-- The alignment of `b` began before the calls `since`, and neither they nor `notices` ended it. -/
structure Underway (n : Nat) (ops : List Operation) (notices : List Notice) (b : Barrier)
    (since : List Operation) : Prop where
  begun : Since n ops b since
  kept : .cleanup ∉ since
  pending : ∀ x ∈ notices, x.checkpoint ≠ b.id

theorem barrier?_eq_some :
    op.barrier? n = some b ↔ ∃ channel < n, op = .offer channel (.barrier b) := by
  constructor
  · intro h
    unfold Operation.barrier? at h
    split at h
    · next channel b' =>
      split at h
      · next hc => exact ⟨channel, hc, by rw [Option.some.inj h]⟩
      · cases h
    · cases h
  · rintro ⟨channel, hc, rfl⟩
    simp [Operation.barrier?, hc]

theorem mem_barriersOf_snoc : b ∈ barriersOf n (past ++ [op]) ↔
    b ∈ barriersOf n past ∨ op.barrier? n = some b := by
  simp [barriersOf]

theorem since_snoc : Since n (past ++ [op]) b since ↔
    (∃ earlier, since = earlier ++ [op] ∧ Since n past b earlier) ∨
      since = [op] ∧ Begins n past op b := by
  constructor
  · rintro ⟨before, op', after, e, rfl, begins⟩
    rcases List.eq_nil_or_concat after with rfl | ⟨after, last, rfl⟩
    · obtain ⟨rfl, e⟩ := List.append_inj' e rfl
      obtain rfl : op = op' := by simpa using e
      exact .inr ⟨rfl, begins⟩
    · have e : past ++ [op] = (before ++ op' :: after) ++ [last] := by simpa using e
      obtain ⟨rfl, e⟩ := List.append_inj' e rfl
      obtain rfl : op = last := by simpa using e
      exact .inl ⟨op' :: after, by simp, before, op', after, rfl, rfl, begins⟩
  · rintro (⟨_, rfl, before, op', after, rfl, rfl, begins⟩ | ⟨rfl, begins⟩)
    · exact ⟨before, op', after ++ [op], by simp, rfl, begins⟩
    · exact ⟨past, op, [], rfl, rfl, begins⟩

/-- An alignment is underway after a call that does not drop it if it was underway before or the
call begins it. -/
theorem underway_snoc : (∃ since, Underway n (past ++ [op]) notices b since) ↔
    ((∃ since, Underway n past notices b since) ∨
      Begins n past op b ∧ ∀ x ∈ notices, x.checkpoint ≠ b.id) ∧ op ≠ .cleanup := by
  constructor
  · rintro ⟨since, begun, kept, pending⟩
    rcases since_snoc.mp begun with ⟨earlier, rfl, hs⟩ | ⟨rfl, begins⟩
    · simp only [List.mem_append, List.mem_singleton, not_or] at kept
      exact ⟨.inl ⟨earlier, hs, kept.1, pending⟩, fun e => kept.2 e.symm⟩
    · exact ⟨.inr ⟨begins, pending⟩, fun e => by simp [e] at kept⟩
  · rintro ⟨⟨earlier, hs, kept, pending⟩ | ⟨begins, pending⟩, hop⟩
    · exact ⟨earlier ++ [op], since_snoc.mpr (.inl ⟨earlier, rfl, hs⟩),
        by simp [kept, hop.symm], pending⟩
    · exact ⟨[op], since_snoc.mpr (.inr ⟨rfl, begins⟩), by simp [hop.symm], pending⟩

theorem underway_notices {more : List Notice} : Underway n ops (notices ++ more) b since ↔
    Underway n ops notices b since ∧ ∀ x ∈ more, x.checkpoint ≠ b.id := by
  constructor
  · rintro ⟨hs, kept, pending⟩
    rw [List.forall_mem_append] at pending
    exact ⟨⟨hs, kept, pending.1⟩, pending.2⟩
  · rintro ⟨⟨hs, kept, pending⟩, h⟩
    exact ⟨hs, kept, List.forall_mem_append.mpr ⟨pending, h⟩⟩

/-- No barrier of a checkpoint was offered before its alignment began. -/
theorem Since.brings_iff (h : Since n ops b since) (hc : c < n) :
    (∃ op ∈ since, op.Brings b.id c) ↔ ∃ op ∈ ops, op.Brings b.id c := by
  obtain ⟨past, op, after, rfl, rfl, begins⟩ := h
  simp only [List.mem_append, or_and_right, exists_or]
  -- an earlier barrier would not be older than the one with which the alignment began
  refine (or_iff_right ?_).symm
  rintro ⟨op', hop', x, rfl, hid, -⟩
  have hx : x ∈ barriersOf n past :=
    List.mem_filterMap.mpr ⟨_, hop', barrier?_eq_some.mpr ⟨c, hc, rfl⟩⟩
  have := begins.newest x hx
  omega

end History

namespace Aligner

/-- The first barrier of the checkpoint in flight. -/
def aligning (a : Aligner) : Option Barrier := a.inFlight.map (·.barrier)

/-- The call begins the alignment of `b`. -/
structure Starts (a : Aligner) (op : Operation) (b : Barrier) : Prop where
  offers : ∃ channel < a.channels, op = .offer channel (.barrier b)
  plain : b.isCancel = false
  newer : ¬a.Seen b.id

section Starts

variable {a : Aligner} {op : Operation} {n channel k c : Nat} {b x : Barrier} {f : Alignment}
  {ended : List Notice} {a' : Aligner} {o : Reaction (Except AlignmentError Unit)}
  {r : Reaction (Except AlignmentError Answer)}

theorem brings_offer : (Operation.offer channel (.barrier b)).Brings k c ↔
    c = channel ∧ b.id = k ∧ b.isCancel = false := by
  constructor
  · rintro ⟨b', e, hb, plain⟩
    cases e
    exact ⟨rfl, hb, plain⟩
  · rintro ⟨rfl, hb, plain⟩
    exact ⟨b, rfl, hb, plain⟩

theorem starts_offer (hc : channel < a.channels) :
    a.Starts (.offer channel (.barrier b)) x ↔ x = b ∧ b.isCancel = false ∧ ¬a.Seen b.id := by
  constructor
  · rintro ⟨⟨c, -, e⟩, plain, newer⟩
    cases e
    exact ⟨rfl, plain, newer⟩
  · rintro ⟨rfl, plain, newer⟩
    exact ⟨⟨channel, hc, rfl⟩, plain, newer⟩

theorem not_starts_close : ¬a.Starts (.close channel) x := fun h => by simpa using h.offers

theorem not_brings_close : ¬(Operation.close channel).Brings k c := by
  rintro ⟨b, e, -⟩
  cases e

theorem not_starts_of_quiet (quiet : op.Quiet a.channels) : ¬a.Starts op x := by
  rintro ⟨⟨c, hc, rfl⟩, -, -⟩
  exact quiet hc x rfl

theorem not_brings_of_quiet (quiet : op.Quiet n) (hc : c < n) : ¬op.Brings k c := by
  rintro ⟨b, rfl, -⟩
  exact quiet hc b rfl

theorem ne_cleanup_of_quiet (quiet : op.Quiet n) : op ≠ .cleanup := by
  rintro rfl
  exact quiet

theorem aligning_of_inFlight (h : a.inFlight = some f) : a.aligning = some f.barrier := by
  rw [aligning, h, Option.map_some]

theorem eq_of_aligning (h : a.inFlight = some f) (hb : a.aligning = some b) : b = f.barrier :=
  Option.some.inj (hb.symm.trans (aligning_of_inFlight h))

theorem aligning_of_idle (h : a.inFlight = none) : a.aligning = none := by
  rw [aligning, h, Option.map_none]

theorem aligning_ne_of_idle (h : a.inFlight = none) : a.aligning ≠ some b := by
  rw [aligning_of_idle h]
  exact nofun

theorem current_ne_of_idle (h : a.inFlight = none) : a.current ≠ some k := by
  rw [current_of_idle h]
  exact nofun

theorem current_of_aligning (h : a.aligning = some b) : a.current = some b.id := by
  obtain ⟨f, flight, rfl⟩ := Option.map_eq_some_iff.mp h
  exact current_of_inFlight flight

theorem Sound.seen_of_current (hs : a.Sound) (h : a.current = some k) : a.Seen k :=
  ⟨k, hs.latest_of_current h, Nat.le_refl k⟩

theorem Sound.seen_of_same (hs : a.Sound) (flight : a.inFlight = some f)
    (hb : b.id = f.barrier.id) : a.Seen b.id := by
  rw [hb]
  exact hs.seen_of_current (current_of_inFlight flight)

theorem Clears.ends (h : a.Clears b ended a') (hx : a.aligning = some x) :
    ∃ y ∈ ended, y.checkpoint = x.id := by
  cases h with
  | idle idle =>
    rw [aligning_of_idle idle] at hx
    cases hx
  | superseded flight =>
    obtain rfl := eq_of_aligning flight hx
    exact ⟨_, List.mem_singleton_self _, rfl⟩

theorem Clears.others (h : a.Clears b ended a') : ∀ y ∈ ended, y.checkpoint ≠ b.id := by
  cases h with
  | idle => exact nofun
  | superseded _ newer =>
    intro y hy
    obtain rfl := List.mem_singleton.mp hy
    exact Nat.ne_of_lt newer

/-- After a barrier was offered, the alignment of `x` is in flight if it was before or has begun,
and there was no notice of it. -/
theorem Offers.aligning_iff (h : a.Offers channel b o) (hs : a.Sound) :
    o.aligner.aligning = some x ↔
      (a.aligning = some x ∨ x = b ∧ b.isCancel = false ∧ ¬a.Seen b.id) ∧
        ∀ y ∈ o.notices, y.checkpoint ≠ x.id := by
  -- the barrier belongs to the checkpoint in flight, so it does not begin another one
  have ended : ∀ {f : Alignment} {y : Notice}, a.inFlight = some f → b.id = f.barrier.id →
      y.checkpoint = f.barrier.id →
      ¬((a.aligning = some x ∨ x = b ∧ b.isCancel = false ∧ ¬a.Seen b.id) ∧
        ∀ z ∈ [y], z.checkpoint ≠ x.id) := by
    rintro f y flight hb hy ⟨hx | ⟨-, -, newer⟩, hn⟩
    · obtain rfl := eq_of_aligning flight hx
      exact hn y (List.mem_singleton_self y) hy
    · exact newer (hs.seen_of_same flight hb)
  cases h with
  | @stale l latest old =>
    have : a.Seen b.id := ⟨l, hs.elim_latest ▸ latest, old⟩
    simp [this, aligning, skipStale]
  | duplicate flight hb => simp [hs.seen_of_same flight hb]
  | joined flight hb => simp [hs.seen_of_same flight hb, aligning, flight, Alignment.add]
  | cancelled flight hb => exact iff_of_false (aligning_ne_of_idle rfl) (ended flight hb rfl)
  | completed flight hb => exact iff_of_false (aligning_ne_of_idle rfl) (ended flight hb rfl)
  | refused clear cancel =>
    refine iff_of_false (aligning_ne_of_idle clear.closed.2) ?_
    rintro ⟨hx | ⟨-, plain, -⟩, hn⟩
    · obtain ⟨y, hy, e⟩ := clear.ends hx
      exact hn y (List.mem_append_left _ hy) e
    · rw [cancel] at plain
      cases plain
  | instant clear =>
    refine iff_of_false (aligning_ne_of_idle clear.closed.2) ?_
    rintro ⟨hx | ⟨rfl, -, -⟩, hn⟩
    · obtain ⟨y, hy, e⟩ := clear.ends hx
      exact hn y (List.mem_append_left _ hy) e
    · exact hn (.complete x) (by simp) rfl
  | begun clear plain =>
    constructor
    · intro e
      obtain rfl : b = x := Option.some.inj e
      exact ⟨.inr ⟨rfl, plain, not_seen_iff.mpr (clear.newer hs)⟩, clear.others⟩
    · rintro ⟨hx | ⟨rfl, -, -⟩, hn⟩
      · obtain ⟨y, hy, e⟩ := clear.ends hx
        exact absurd e (hn y hy)
      · rfl

theorem Closes.aligning_iff (h : a.Closes channel o) : o.aligner.aligning = some x ↔
    a.aligning = some x ∧ ∀ y ∈ o.notices, y.checkpoint ≠ x.id := by
  have ended : ∀ {f : Alignment} {y : Notice}, a.inFlight = some f →
      y.checkpoint = f.barrier.id →
      ¬(a.aligning = some x ∧ ∀ z ∈ [y], z.checkpoint ≠ x.id) := by
    rintro f y flight hy ⟨hx, hn⟩
    obtain rfl := eq_of_aligning flight hx
    exact hn y (List.mem_singleton_self y) hy
  cases h with
  | completed _ flight => exact iff_of_false (aligning_ne_of_idle rfl) (ended flight rfl)
  | aborted _ flight => exact iff_of_false (aligning_ne_of_idle rfl) (ended flight rfl)
  | _ => simp [aligning, mark]

theorem Performs.aligning_iff (h : a.Performs op r) (hs : a.Sound) :
    r.aligner.aligning = some x ↔ (a.aligning = some x ∨ a.Starts op x) ∧ op ≠ .cleanup ∧
      ∀ y ∈ r.notices, y.checkpoint ≠ x.id := by
  cases h with
  | offered range offers => simp [offers.aligning_iff hs, starts_offer range]
  | @closed channel o range closes =>
    simp [closes.aligning_iff, not_starts_close]
  | @overflowed item f flight =>
    refine iff_of_false (aligning_ne_of_idle rfl) ?_
    rintro ⟨hx | starts, -, hn⟩
    · obtain rfl := eq_of_aligning flight hx
      exact hn _ (List.mem_singleton_self _) rfl
    · simpa using starts.offers
  | dropped => simp [aligning, cleanup]
  | kept listener quiet =>
    simp [not_starts_of_quiet quiet, ne_cleanup_of_quiet quiet, aligning, setListener]

theorem Sound.exists_waiting (hs : a.Sound) (h : a.current = some k) :
    ∃ c < a.channels, a.isClosed c = false ∧ a.isBlocked c = false := by
  obtain ⟨f, flight, rfl⟩ := Option.map_eq_some_iff.mp h
  obtain ⟨c, hc, ho, hb⟩ := (hs f flight).waiting
  exact ⟨c, hc, ho, (isBlocked_of_inFlight flight c).trans hb⟩

theorem Offers.isBlocked_iff (h : a.Offers channel b o) (hs : a.Sound) (hc : channel < a.channels)
    (hk : o.aligner.current = some k) : o.aligner.isBlocked c = true ↔
      a.current = some k ∧ a.isBlocked c = true ∨ c = channel ∧ b.id = k ∧ b.isCancel = false := by
  cases h with
  | stale _ _ other =>
    have hk : a.current = some k := hk
    have hne : b.id ≠ k := fun e => other (e ▸ hk)
    simp [hk, hne, isBlocked, skipStale]
  | @duplicate f flight hb plain blocked =>
    have hk : a.current = some k := hk
    refine ⟨fun h => .inl ⟨hk, h⟩, ?_⟩
    rintro (⟨-, h⟩ | ⟨rfl, -, -⟩)
    · exact h
    · rw [isBlocked_of_inFlight flight]
      exact blocked
  | @joined f flight hb plain =>
    obtain rfl : f.barrier.id = k := Option.some.inj hk
    have hl := (hs f flight).lt_length hc
    rw [isBlocked_of_inFlight rfl, isBlocked_of_inFlight flight, Alignment.getD_add hl]
    simp [current_of_inFlight flight, hb, plain]
  | begun clear plain =>
    obtain rfl : b.id = k := Option.some.inj hk
    rw [isBlocked_of_inFlight rfl, Alignment.getD_first hc]
    simp [clear.current_ne.symm, plain]
  | refused clear => exact absurd hk (current_ne_of_idle clear.closed.2)
  | instant clear => exact absurd hk (current_ne_of_idle clear.closed.2)
  | _ => cases hk

theorem Closes.isBlocked_eq (h : a.Closes channel o) (hk : o.aligner.current = some k) :
    a.current = some k ∧ o.aligner.isBlocked c = a.isBlocked c := by
  cases h with
  | completed => cases hk
  | aborted => cases hk
  | _ => exact ⟨hk, rfl⟩

theorem Performs.isBlocked_iff (h : a.Performs op r) (hs : a.Sound) (hc : c < a.channels)
    (hk : r.aligner.current = some k) : r.aligner.isBlocked c = true ↔
      a.current = some k ∧ a.isBlocked c = true ∨ op.Brings k c := by
  cases h with
  | offered range offers => rw [offers.isBlocked_iff hs range hk, brings_offer]
  | closed range closes =>
    obtain ⟨hk, hb⟩ := closes.isBlocked_eq (c := c) hk
    simp [hk, hb, Operation.Brings]
  | overflowed => cases hk
  | dropped => cases hk
  | kept listener quiet =>
    have hk : a.current = some k := hk
    simp [hk, not_brings_of_quiet quiet hc, isBlocked, setListener]

theorem Performs.channels (h : a.Performs op r) : r.aligner.channels = a.channels := by
  cases h with
  | offered range offers => exact congrArg List.length offers.closed
  | closed range closes => exact closes.channels
  | _ => rfl

theorem Performs.settings (h : a.Performs op r) : r.aligner.settings = a.settings := by
  cases h with
  | offered range offers => exact offers.settings
  | closed range closes => exact closes.settings
  | _ => rfl

theorem Performs.isClosed_iff (h : a.Performs op r) (hc : c < a.channels) :
    r.aligner.isClosed c = true ↔ a.isClosed c = true ∨ op = .close c := by
  cases h with
  | offered range offers => simp [isClosed, offers.closed]
  | closed range closes =>
    rw [closes.isClosed range, Bool.or_eq_true, beq_iff_eq, Operation.close.injEq, eq_comm (a := c)]
  | overflowed => simp [isClosed, abort, release]
  | dropped => simp [isClosed, cleanup]
  | kept listener quiet =>
    have : op ≠ .close c := by
      rintro rfl
      exact Nat.not_lt.mpr quiet hc
    simp [isClosed, setListener, this]

theorem seen_of_old (old : a.Seen b.id) (latest : a'.latest = a.latest) :
    a'.Seen k ↔ a.Seen k ∨ k ≤ b.id := by
  unfold Seen
  rw [latest]
  refine ⟨.inl, fun h => h.elim id fun hk => ?_⟩
  obtain ⟨l, hl, hle⟩ := old
  exact ⟨l, hl, Nat.le_trans hk hle⟩

theorem Clears.seen_iff (h : a.Clears b ended a') (hs : a.Sound) {a'' : Aligner}
    (latest : a''.latest = some b.id) : a''.Seen k ↔ a.Seen k ∨ k ≤ b.id := by
  rw [Aligner.seen_iff latest]
  refine ⟨.inr, fun hk => hk.elim (fun ⟨l, hl, hle⟩ => ?_) id⟩
  have := h.newer hs l hl
  omega

theorem Offers.seen_iff (h : a.Offers channel b o) (hs : a.Sound) :
    o.aligner.Seen k ↔ a.Seen k ∨ k ≤ b.id := by
  cases h with
  | @stale l latest old => exact seen_of_old ⟨l, hs.elim_latest ▸ latest, old⟩ rfl
  | cancelled flight hb => exact seen_of_old (hs.seen_of_same flight hb) rfl
  | duplicate flight hb => exact seen_of_old (hs.seen_of_same flight hb) rfl
  | joined flight hb => exact seen_of_old (hs.seen_of_same flight hb) rfl
  | completed flight hb => exact seen_of_old (hs.seen_of_same flight hb) rfl
  | refused clear => exact clear.seen_iff hs rfl
  | instant clear => exact clear.seen_iff hs rfl
  | begun clear => exact clear.seen_iff hs rfl

theorem Performs.seen_iff (h : a.Performs op r) (hs : a.Sound) :
    r.aligner.Seen k ↔ a.Seen k ∨ ∃ x, op.barrier? a.channels = some x ∧ k ≤ x.id := by
  cases h with
  | offered range offers => simp [offers.seen_iff hs, Operation.barrier?, range]
  | closed range closes => simp [Seen, closes.latest, Operation.barrier?]
  | overflowed => simp [Seen, abort, release, Operation.barrier?]
  | dropped => simp [Seen, cleanup, Operation.barrier?]
  | kept listener quiet =>
    have : ∀ x, op.barrier? a.channels ≠ some x := by
      intro x hx
      obtain ⟨c, hc, rfl⟩ := barrier?_eq_some.mp hx
      exact quiet hc x rfl
    simp [Seen, setListener, this]

end Starts

/-- What the state `s` of an aligner says of the calls `past` that were made, and of the notices
that they sent. -/
structure Remembers (n : Nat) (policy : ClosePolicy) (past : List Operation)
    (notices : List Notice) (s : Aligner) : Prop where
  sound : s.Sound
  channels : s.channels = n
  policy : s.settings.closePolicy = policy
  closed : ∀ c < n, s.isClosed c = true ↔ .close c ∈ past
  newest : ∀ k, s.Seen k ↔ ∃ x ∈ barriersOf n past, k ≤ x.id
  told : ∀ x ∈ notices, s.Seen x.checkpoint
  aligning : ∀ b, s.aligning = some b ↔ ∃ since, Underway n past notices b since
  blocked : ∀ k, s.current = some k → ∀ c < n,
    (s.isBlocked c = true ↔ ∃ op ∈ past, op.Brings k c)

section Remembers

variable {n : Nat} {policy : ClosePolicy} {past : List Operation} {notices : List Notice}
  {s : Aligner} {op : Operation} {r : Reaction (Except AlignmentError Answer)} {x : Barrier}
  {k c : Nat}

theorem Remembers.starts_iff (h : Remembers n policy past notices s) :
    s.Starts op x ↔ Begins n past op x ∧ ∀ y ∈ notices, y.checkpoint ≠ x.id := by
  have newer : ¬s.Seen x.id ↔ ∀ y ∈ barriersOf n past, y.id < x.id := by
    simp [h.newest]
  constructor
  · rintro ⟨offers, plain, hn⟩
    refine ⟨⟨h.channels ▸ offers, plain, newer.mp hn⟩, fun y hy e => hn ?_⟩
    exact e ▸ h.told y hy
  · rintro ⟨⟨offers, plain, hn⟩, -⟩
    exact ⟨h.channels.symm ▸ offers, plain, newer.mpr hn⟩

theorem Remembers.about_iff (h : Remembers n policy past notices s) :
    (s.aligning = some x ∨ s.Starts op x) ∧ op ≠ .cleanup ↔
      ∃ since, Underway n (past ++ [op]) notices x since := by
  rw [underway_snoc, h.aligning, h.starts_iff]

theorem Remembers.brings_iff (h : Remembers n policy past notices s)
    (hk : s.current = some k ∨ ¬s.Seen k) (hc : c < n) :
    s.current = some k ∧ s.isBlocked c = true ↔ ∃ op ∈ past, op.Brings k c := by
  rcases hk with hk | hn
  · rw [and_iff_right hk, h.blocked k hk c hc]
  · -- a checkpoint that was not seen is not in flight, and there was no barrier of it
    refine iff_of_false (fun hk => hn (h.sound.seen_of_current hk.1)) ?_
    rintro ⟨op, hop, b, rfl, rfl, -⟩
    refine hn ((h.newest b.id).mpr ⟨b, ?_, Nat.le_refl _⟩)
    exact List.mem_filterMap.mpr ⟨_, hop, barrier?_eq_some.mpr ⟨c, hc, rfl⟩⟩

theorem Remembers.step (h : Remembers n policy past notices s) (hp : s.Performs op r) :
    Remembers n policy (past ++ [op]) (notices ++ r.notices) r.aligner := by
  have progress := hp.progress h.sound
  refine ⟨hp.sound h.sound, hp.channels.trans h.channels, ?_, fun c hc => ?_, fun k => ?_,
    fun x hx => ?_, fun b => ?_, fun k hk c hc => ?_⟩
  · rw [hp.settings]
    exact h.policy
  · rw [hp.isClosed_iff (h.channels.symm ▸ hc), h.closed c hc, List.mem_append,
      List.mem_singleton, eq_comm (a := op)]
  · rw [hp.seen_iff h.sound, h.newest, h.channels]
    simp [mem_barriersOf_snoc, or_and_right, exists_or]
  · rcases List.mem_append.mp hx with hx | hx
    · exact progress.seen _ (h.told x hx)
    · exact (progress.ended x hx).1
  · rw [hp.aligning_iff h.sound, ← and_assoc, h.about_iff]
    simp only [underway_notices, exists_and_right]
  · rw [hp.isBlocked_iff h.sound (h.channels.symm ▸ hc) hk,
      h.brings_iff (progress.current k hk) hc]
    simp [or_and_right, exists_or]

theorem remembers_run {settings : AlignmentSettings} {a : Aligner} (h : new n settings = .ok a)
    (past : List Operation) :
    Remembers n settings.closePolicy past (a.run past).1 (a.run past).2.bare := by
  obtain ⟨-, rfl⟩ := new_spec h
  refine run_induction ⟨sound_of_idle rfl, ?_, rfl, fun c hc => ?_, fun k => ?_, fun x hx => ?_,
    fun b => ?_, fun k hk => ?_⟩ (fun _ _ _ _ _ hs hp => hs.step hp) past
  · exact List.length_replicate
  · simp [isClosed, bare, List.getD_eq_getElem?_getD, hc]
  · simp [Seen, bare, barriersOf]
  · cases hx
  · refine iff_of_false (aligning_ne_of_idle rfl) ?_
    rintro ⟨since, ⟨before, op, after, e, rfl, -⟩, -, -⟩
    simp at e
  · cases hk

end Remembers

end Aligner

end StreamCheckpoint
