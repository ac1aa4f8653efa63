import StreamCheckpoint.Proofs.Alignment.Barriers
import StreamCheckpoint.Proofs.Alignment.Outcomes

/-! Channels that deliver the barriers of one plan, in its order, each as far as it goes.  If
nothing comes through a blocked channel or after the end of one, every barrier is the next one of
the plan for all channels that are open: no alignment is given up, and the checkpoints are completed
in the order of the plan (`OnPlan`). -/

namespace StreamCheckpoint

/-- The number that comes next in an ascending list is above all before. -/
theorem lt_of_next {plan made : List Nat} {k l : Nat} (ascending : plan.Pairwise (· < ·))
    (next : made ++ [k] <+: plan) (h : made.getLast? = some l) : l < k := by
  have hp := ascending.sublist next.sublist
  rw [List.pairwise_append] at hp
  exact hp.2.2 l (List.mem_of_getLast? h) k (List.mem_singleton_self k)

theorem eq_of_next {plan made : List Nat} {k l : Nat} (next : made ++ [k] <+: plan)
    (next' : made ++ [l] <+: plan) : k = l := by
  have h := List.prefix_of_prefix_length_le next next' (by simp)
  simpa using h.eq_of_length (by simp)

namespace Aligner

/-- The checkpoints `made` are complete, they and the one in flight are the first ones of the plan,
and every channel that has not ended has delivered the barriers of those before its next one. -/
structure OnPlan (plan made : List Nat) (seen : Nat → List Content) (a : Aligner) : Prop where
  unlimited : a.settings.byteLimit = none
  completing : a.settings.closePolicy = .complete
  stale : a.counters.stale = 0
  due : made ++ a.current.toList <+: plan
  latest : a.latest = (made ++ a.current.toList).getLast?
  behind : ∀ c < a.channels, checkpoints (seen c) <+: made ++ a.current.toList
  level : ∀ c < a.channels, a.isClosed c = false →
    checkpoints (seen c) = made ++ if a.isBlocked c then a.current.toList else []

section OnPlan

variable {plan made : List Nat} {seen seen' : Nat → List Content} {a a' : Aligner} {channel : Nat}
  {b : Barrier} {r : Reaction (Except AlignmentError Unit)}

/-- Only the barriers among what was delivered matter, and nothing that is held back does. -/
theorem OnPlan.congr (h : a.OnPlan plan made seen) (same : a'.bare = a.bare)
    (hc : ∀ c, checkpoints (seen' c) = checkpoints (seen c)) : a'.OnPlan plan made seen' := by
  have current : a'.current = a.current := by rw [← current_bare, same, current_bare]
  have closed : a'.closed = a.closed := show a'.bare.closed = a.bare.closed by rw [same]
  have blocked : a'.isBlocked = a.isBlocked := by
    funext c
    rw [← isBlocked_bare, same, isBlocked_bare]
  have isClosed : a'.isClosed = a.isClosed := by
    funext c
    rw [Aligner.isClosed, closed, Aligner.isClosed]
  have settings : a'.settings = a.settings := show a'.bare.settings = a.bare.settings by rw [same]
  have counters : a'.counters = a.counters := show a'.bare.counters = a.bare.counters by rw [same]
  have latest : a'.latest = a.latest := show a'.bare.latest = a.bare.latest by rw [same]
  obtain ⟨h1, h2, h3, h4, h5, h6, h7⟩ := h
  refine ⟨settings ▸ h1, settings ▸ h2, counters ▸ h3, ?_, ?_, ?_, ?_⟩
  · rwa [current]
  · rwa [current, latest]
  · simpa only [Aligner.channels, closed, hc, current] using h6
  · simpa only [Aligner.channels, closed, hc, current, isClosed, blocked] using h7

section Next

variable (h : a.OnPlan plan made seen) (hc : channel < a.channels)
  (opened : a.isClosed channel = false) (free : a.isBlocked channel = false)
  (fits : checkpoints (seen channel) ++ [b.id] <+: plan)
include h hc opened free

theorem OnPlan.seen_eq : checkpoints (seen channel) = made := by
  simpa [free] using h.level channel hc opened

theorem OnPlan.seeing_eq :
    checkpoints (seeing seen channel (.event (.barrier b)) channel) = made ++ [b.id] := by
  rw [seeing_self, checkpoints_append, checkpoints_barrier, h.seen_eq hc opened free]

include fits

theorem OnPlan.next : made ++ [b.id] <+: plan := h.seen_eq hc opened free ▸ fits

/-- The barrier belongs to the checkpoint in flight, if there is one. -/
theorem OnPlan.current_eq {k : Nat} (hk : a.current = some k) : k = b.id := by
  have due := h.due
  rw [hk] at due
  exact eq_of_next due (h.next hc opened free fits)

theorem OnPlan.newer (ascending : plan.Pairwise (· < ·)) (idle : a.current = none) {l : Nat}
    (hl : a.latest = some l) : l < b.id := by
  refine lt_of_next ascending (h.next hc opened free fits) ?_
  have latest := h.latest
  rw [idle, Option.toList_none, List.append_nil] at latest
  exact latest.symm.trans hl

theorem OnPlan.due_next : made ++ a.current.toList <+: made ++ [b.id] := by
  cases hk : a.current with
  | none => simp
  | some k =>
    rw [h.current_eq hc opened free fits hk]
    exact List.prefix_rfl

/-- What holds once the barrier was dealt with, however that was, if it was not too late. -/
theorem OnPlan.advance {made' : List Nat} (closed : a'.closed = a.closed)
    (settings : a'.settings = a.settings) (stale : a'.counters.stale = a.counters.stale)
    (latest : a'.latest = some b.id) (due : made' ++ a'.current.toList = made ++ [b.id])
    (level : ∀ c < a.channels, a.isClosed c = false →
      checkpoints (seeing seen channel (.event (.barrier b)) c) =
        made' ++ if a'.isBlocked c then a'.current.toList else []) :
    a'.OnPlan plan made' (seeing seen channel (.event (.barrier b))) := by
  have hn : a'.channels = a.channels := congrArg List.length closed
  refine ⟨settings ▸ h.unlimited, settings ▸ h.completing, stale.trans h.stale, ?_, ?_,
    fun c hcn => ?_, fun c hcn ho => ?_⟩
  · rw [due]
    exact h.next hc opened free fits
  · rw [due, latest]
    simp
  · rw [due]
    by_cases he : channel = c
    · subst he
      exact ⟨[], by rw [h.seeing_eq hc opened free, List.append_nil]⟩
    · rw [seeing_of_ne he]
      exact (h.behind c (hn ▸ hcn)).trans (h.due_next hc opened free fits)
  · rw [hn] at hcn
    rw [Aligner.isClosed, closed] at ho
    exact level c hcn ho

/-- The barrier joins the checkpoint in flight or begins its own, and completes it if every other
channel is blocked or has ended. -/
theorem OnPlan.offers (ascending : plan.Pairwise (· < ·)) (hs : a.Sound)
    (plain : b.isCancel = false) (ho : a.Offers channel b r) :
    ∃ bs : List Barrier, r.notices = bs.map .complete ∧ r.aligner.OnPlan plan
      (made ++ bs.map (·.id)) (seeing seen channel (.event (.barrier b))) := by
  have same : ∀ {f : Alignment}, a.inFlight = some f → f.barrier.id = b.id := fun flight =>
    h.current_eq hc opened free fits (current_of_inFlight flight)
  have seen_self := h.seeing_eq hc opened free (b := b)
  cases ho with
  | @stale l latest old other =>
    -- the next checkpoint of the plan is in flight or newer than every one seen
    have hl : a.latest = some l := hs.elim_latest ▸ latest
    cases hk : a.current with
    | none => exact absurd (h.newer hc opened free fits ascending hk hl) (Nat.not_lt.mpr old)
    | some k => exact absurd (h.current_eq hc opened free fits hk ▸ hk) other
  | cancelled _ _ cancel => simp [plain] at cancel
  | duplicate flight _ _ blocked =>
    rw [isBlocked_of_inFlight flight, blocked] at free
    cases free
  | @joined f flight =>
    have hlen := (hs f flight).lt_length hc
    have latest := (hs f flight).latest
    rw [same flight] at latest
    refine ⟨[], rfl, ?_⟩
    rw [List.map_nil, List.append_nil]
    refine h.advance hc opened free fits rfl rfl rfl latest ?_ fun c hcn ho => ?_
    · rw [current_of_inFlight rfl]
      simp [Alignment.add, same flight]
    · rw [isBlocked_of_inFlight rfl, Alignment.getD_add hlen, current_of_inFlight rfl]
      by_cases he : channel = c
      · subst he
        simpa [Alignment.add, same flight] using seen_self
      · have level := h.level c hcn ho
        rw [isBlocked_of_inFlight flight, current_of_inFlight flight] at level
        simpa [seeing_of_ne he, Ne.symm he, Alignment.add] using level
  | @completed f flight _ _ fresh all =>
    rw [add_complete_iff (hs f flight) hc fresh] at all
    have latest := (hs f flight).latest
    rw [same flight] at latest
    refine ⟨[f.barrier], rfl,
      h.advance hc opened free fits rfl rfl rfl latest ?_ fun c hcn ho => ?_⟩
    · rw [current_of_idle rfl]
      simp [same flight]
    · rw [current_of_idle rfl]
      by_cases he : channel = c
      · subst he
        simpa [same flight] using seen_self
      · have blocked := ((all c hcn).resolve_left (by simp [ho])).resolve_right (Ne.symm he)
        have level := h.level c hcn ho
        rw [isBlocked_of_inFlight flight, blocked, current_of_inFlight flight] at level
        simpa [seeing_of_ne he] using level
  | refused _ cancel => simp [plain] at cancel
  | instant clear _ all =>
    rw [first_complete_iff hc] at all
    cases clear with
    -- the checkpoint in flight is the one of the barrier, so it is not replaced
    | superseded flight newer => exact absurd (same flight) (Nat.ne_of_lt newer)
    | idle idle =>
      refine ⟨[b], rfl, h.advance hc opened free fits rfl rfl rfl rfl ?_ fun c hcn ho => ?_⟩
      · simp [current, idle]
      · obtain rfl := (all c hcn).resolve_left (by simp [ho])
        simpa [current, idle] using seen_self
  | begun clear =>
    cases clear with
    | superseded flight newer => exact absurd (same flight) (Nat.ne_of_lt newer)
    | idle idle =>
      refine ⟨[], rfl, ?_⟩
      rw [List.map_nil, List.append_nil]
      refine h.advance hc opened free fits rfl rfl rfl rfl ?_ fun c hcn ho => ?_
      · rw [current_of_inFlight rfl]
        rfl
      · rw [isBlocked_of_inFlight rfl, Alignment.getD_first hc, current_of_inFlight rfl]
        by_cases he : channel = c
        · subst he
          simpa [Alignment.first] using seen_self
        · have level := h.level c hcn ho
          rw [isBlocked_of_idle idle] at level
          simpa [seeing_of_ne he, Ne.symm he] using level

end Next

theorem OnPlan.closes (h : a.OnPlan plan made seen) (hs : a.Sound) (hc : channel < a.channels)
    (hcl : a.Closes channel r) : ∃ bs : List Barrier, r.notices = bs.map .complete ∧
      r.aligner.OnPlan plan (made ++ bs.map (·.id)) seen := by
  have opened : ∀ c, (a.mark channel).isClosed c = false → a.isClosed c = false := by
    intro c ho
    rw [isClosed_mark hc, Bool.or_eq_false_iff] at ho
    exact ho.1
  have marked : (a.mark channel).OnPlan plan made seen :=
    ⟨h.unlimited, h.completing, h.stale, h.due, h.latest,
      fun c hcn => h.behind c (channels_mark a channel ▸ hcn),
      fun c hcn ho => h.level c (channels_mark a channel ▸ hcn) (opened c ho)⟩
  have unchanged : ∃ bs : List Barrier, [] = bs.map Notice.complete ∧
      (a.mark channel).OnPlan plan (made ++ bs.map (·.id)) seen :=
    ⟨[], rfl, by rwa [List.map_nil, List.append_nil]⟩
  cases hcl with
  | again => exact ⟨[], rfl, by rwa [List.map_nil, List.append_nil]⟩
  | idle => exact unchanged
  | waiting => exact unchanged
  | aborted _ _ _ policy =>
    rw [h.completing] at policy
    cases policy
  | @completed f fresh flight all =>
    rw [mark_complete_iff (hs f flight) hc] at all
    have idle : ((a.mark channel).complete f).2.current = none := rfl
    have now : made ++ [f.barrier].map (·.id) ++
        ((a.mark channel).complete f).2.current.toList = made ++ a.current.toList := by
      rw [idle, current_of_inFlight flight]
      simp
    refine ⟨[f.barrier], rfl, h.unlimited, h.completing, h.stale, ?_, ?_, fun c hcn => ?_,
      fun c hcn ho => ?_⟩
    · rw [now]
      exact h.due
    · rw [now]
      exact h.latest
    · rw [now]
      exact h.behind c (channels_mark a channel ▸ hcn)
    · have hcn : c < a.channels := channels_mark a channel ▸ hcn
      have ho : (a.mark channel).isClosed c = false := ho
      have blocked : f.blocked.getD c false = true := by
        refine (all c hcn).resolve_left ?_
        simpa [isClosed_mark hc] using ho
      have level := h.level c hcn (opened c ho)
      rw [isBlocked_of_inFlight flight, blocked, current_of_inFlight flight] at level
      simpa [idle] using level

/-- As long as there is no limit, holding an item back is nothing to the protocol. -/
theorem OnPlan.stores {item : Item} {kept : List Notice × Aligner} (h : a.OnPlan plan made seen)
    (hk : a.Stores item kept) : kept.1 = [] ∧ kept.2.OnPlan plan made seen := by
  cases hk with
  | idle none => exact ⟨rfl, h.congr rfl fun _ => rfl⟩
  | held flight => exact ⟨rfl, h.congr (bare_hold flight item) fun _ => rfl⟩
  | overflowed _ full => simp [h.unlimited] at full

end OnPlan

end Aligner

end StreamCheckpoint
