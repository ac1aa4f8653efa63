import StreamCheckpoint.Proofs.Alignment.Underway

/-! When a checkpoint is complete.  Its alignment is over with the call after which every channel
has ended or was offered the barrier since it began (`Aligned`), and that call sends the notice of
it (`completes_exactly`). -/

namespace StreamCheckpoint

/-- The alignment of `b` is underway, and each of the `n` channels has ended or was offered a
barrier of the checkpoint since it began. -/
def Aligned (n : Nat) (ops : List Operation) (notices : List Notice) (b : Barrier) : Prop :=
  ∃ since, Underway n ops notices b since ∧
    ∀ c < n, .close c ∈ ops ∨ ∃ op ∈ since, op.Brings b.id c

/-- What an alignment comes to when `channel` has ended and every other channel is blocked. -/
def ClosePolicy.outcome (channel : Nat) (b : Barrier) : ClosePolicy → Notice
  | complete => .complete b
  | abort => .aborted b.id (.channelClosed channel)

namespace ClosePolicy

theorem outcome_eq_complete {p : ClosePolicy} {channel : Nat} {b x : Barrier} :
    p.outcome channel b = .complete x ↔ p = .complete ∧ b = x := by
  cases p <;> simp [outcome]

theorem outcome_eq_aborted {p : ClosePolicy} {channel c k : Nat} {b : Barrier} :
    p.outcome channel b = .aborted k (.channelClosed c) ↔ p = .abort ∧ b.id = k ∧ channel = c := by
  cases p <;> simp [outcome]

end ClosePolicy

namespace Aligner

/-- The call does not drop the alignment of `x`, which is in flight or begins with it, and after it
every channel has ended or delivered the barrier. -/
structure Gathers (a : Aligner) (op : Operation) (r : Reaction (Except AlignmentError Answer))
    (x : Barrier) : Prop where
  about : (a.aligning = some x ∨ a.Starts op x) ∧ op ≠ .cleanup
  all : ∀ c < a.channels, r.aligner.isClosed c = true ∨
    a.current = some x.id ∧ a.isBlocked c = true ∨ op.Brings x.id c

section Complete

variable {a : Aligner} {op : Operation} {channel k c : Nat} {b x : Barrier}
  {o : Reaction (Except AlignmentError Unit)} {r : Reaction (Except AlignmentError Answer)}

/-- A barrier completes a checkpoint if it belongs to it and every other channel is blocked or has
ended. -/
theorem Offers.complete_iff (h : a.Offers channel b o) (hs : a.Sound) (hc : channel < a.channels) :
    .complete x ∈ o.notices ↔
      (b.id = x.id ∧ b.isCancel = false ∧ o.answer = .ok ()) ∧
      (a.aligning = some x ∨ x = b ∧ b.isCancel = false ∧ ¬a.Seen b.id) ∧
      ∀ c < a.channels, a.isClosed c = true ∨
        a.current = some x.id ∧ a.isBlocked c = true ∨ c = channel := by
  cases h with
  | @stale l latest old other =>
    refine iff_of_false nofun ?_
    rintro ⟨⟨hb, -⟩, hx | ⟨-, -, newer⟩, -⟩
    · exact other (hb ▸ current_of_aligning hx)
    · exact newer ⟨l, hs.elim_latest ▸ latest, old⟩
  | cancelled _ _ cancel => simp [cancel]
  | duplicate => simp
  | @joined f flight hb plain fresh waiting =>
    -- if no channel is missing, the alignment does not go on
    refine iff_of_false nofun ?_
    rintro ⟨-, -, all⟩
    refine waiting ((add_complete_iff (hs f flight) hc fresh).mpr fun c hcn => ?_)
    rcases all c hcn with h | ⟨-, h⟩ | h
    · exact .inl h
    · exact .inr (.inl (isBlocked_of_inFlight flight c ▸ h))
    · exact .inr (.inr h)
  | @completed f flight hb plain fresh all =>
    rw [add_complete_iff (hs f flight) hc fresh] at all
    constructor
    · intro hx
      obtain rfl : x = f.barrier := by simpa using hx
      refine ⟨⟨hb, plain, rfl⟩, .inl (aligning_of_inFlight flight), fun c hcn => ?_⟩
      rw [isBlocked_of_inFlight flight, and_iff_right (current_of_inFlight flight)]
      exact all c hcn
    · rintro ⟨-, hx | ⟨-, -, newer⟩, -⟩
      · obtain rfl := eq_of_aligning flight hx
        exact List.mem_singleton_self _
      · exact absurd (hs.seen_of_current (current_of_inFlight flight)) (hb ▸ newer)
  | refused clear cancel =>
    refine iff_of_false ?_ fun h => ?_
    · simp [clear.not_complete]
    · simp [cancel] at h
  | instant clear plain all =>
    rw [first_complete_iff hc] at all
    constructor
    · intro hx
      obtain rfl : x = b := by simpa [clear.not_complete] using hx
      exact ⟨⟨rfl, plain, rfl⟩, .inr ⟨rfl, plain, not_seen_iff.mpr (clear.newer hs)⟩,
        fun c hcn => (all c hcn).imp_right .inr⟩
    · rintro ⟨⟨hb, -⟩, hx | ⟨rfl, -⟩, -⟩
      · exact absurd (hb ▸ (current_of_aligning hx).symm) clear.current_ne
      · simp
  | begun clear plain waiting =>
    refine iff_of_false clear.not_complete ?_
    rintro ⟨⟨hb, -⟩, -, all⟩
    refine waiting ((first_complete_iff hc b).mpr fun c hcn => ?_)
    rcases all c hcn with h | ⟨h, -⟩ | h
    · exact .inl h
    · exact absurd (hb ▸ h.symm) clear.current_ne
    · exact .inr h

/-- The end of a channel ends the alignment in flight if every channel is blocked or has ended by
then, and in the way of the policy. -/
theorem Closes.mem_notices_iff (h : a.Closes channel o) (hs : a.Sound) (hc : channel < a.channels)
    {y : Notice} : y ∈ o.notices ↔ ∃ x, a.aligning = some x ∧
      a.settings.closePolicy.outcome channel x = y ∧
      ∀ c < a.channels, o.aligner.isClosed c = true ∨ a.isBlocked c = true := by
  have same : ∀ {f : Alignment}, a.inFlight = some f →
      (requiredChannels (a.mark channel).closed f.blocked ≤ f.received ↔
        ∀ c < a.channels, o.aligner.isClosed c = true ∨ a.isBlocked c = true) := by
    intro f flight
    simp only [h.isClosed hc, isBlocked_of_inFlight flight, Bool.or_eq_true, beq_iff_eq]
    exact mark_complete_iff (hs f flight) hc
  cases h with
  | again =>
    -- nothing changes, and the alignment in flight still waits
    refine iff_of_false nofun ?_
    rintro ⟨x, hx, -, all⟩
    obtain ⟨c, hcn, ho, hb⟩ := hs.exists_waiting (current_of_aligning hx)
    simpa [ho, hb] using all c hcn
  | idle _ idle => simp [aligning_of_idle idle]
  | waiting _ flight waiting =>
    refine iff_of_false nofun ?_
    rintro ⟨x, -, -, all⟩
    exact waiting ((same flight).mpr all)
  | completed _ flight all policy
  | aborted _ flight all policy =>
    have all := (same flight).mp all
    rw [List.mem_singleton, aligning_of_inFlight flight, policy]
    constructor
    · rintro rfl
      exact ⟨_, rfl, rfl, all⟩
    · rintro ⟨x, hx, rfl, -⟩
      obtain rfl := Option.some.inj hx
      rfl

theorem gathers_close : a.Gathers (.close channel) r x ↔ a.aligning = some x ∧
    ∀ c < a.channels, r.aligner.isClosed c = true ∨ a.isBlocked c = true := by
  constructor
  · rintro ⟨⟨about, -⟩, all⟩
    refine ⟨about.resolve_right not_starts_close, fun c hc => (all c hc).imp_right ?_⟩
    exact fun h => (h.resolve_right not_brings_close).2
  · rintro ⟨hx, all⟩
    exact ⟨⟨.inl hx, nofun⟩, fun c hc => (all c hc).imp_right fun h =>
      .inl ⟨current_of_aligning hx, h⟩⟩

theorem not_gathers_of_quiet (hs : a.Sound) (quiet : op.Quiet a.channels)
    (same : r.aligner.closed = a.closed) : ¬a.Gathers op r x := by
  rintro ⟨⟨hx | starts, -⟩, all⟩
  · obtain ⟨c, hc, ho, hb⟩ := hs.exists_waiting (current_of_aligning hx)
    rcases all c hc with h | ⟨-, h⟩ | h
    · rw [isClosed, same] at h
      exact Bool.false_ne_true (ho.symm.trans h)
    · exact Bool.false_ne_true (hb.symm.trans h)
    · exact not_brings_of_quiet quiet hc h
  · exact not_starts_of_quiet quiet starts

theorem Performs.mem_notices_close (h : a.Performs (.close channel) r) (hs : a.Sound) {y : Notice} :
    y ∈ r.notices ↔ ∃ x, a.settings.closePolicy.outcome channel x = y ∧
      a.Gathers (.close channel) r x := by
  cases h with
  | closed range closes =>
    rw [closes.mem_notices_iff hs range]
    simp only [gathers_close]
    exact exists_congr fun x => and_left_comm
  | kept listener quiet =>
    refine iff_of_false nofun ?_
    rintro ⟨x, -, h⟩
    exact not_gathers_of_quiet hs quiet rfl h

/-- A call completes a checkpoint if no channel is missing after it, and it is a barrier that was
accepted or the end of a channel. -/
theorem Performs.complete_iff (h : a.Performs op r) (hs : a.Sound) :
    .complete x ∈ r.notices ↔ a.Gathers op r x ∧
      ((∃ c, op.Brings x.id c) ∧ r.answer = .ok (.offered .consumed) ∨
        (∃ c, op = .close c) ∧ a.settings.closePolicy = .complete) := by
  cases h with
  | @offered channel b o range offers =>
    have hclosed : ∀ c, o.aligner.isClosed c = a.isClosed c := fun c => by
      rw [isClosed, isClosed, offers.closed]
    have accepted : (o.answer.map fun _ => Answer.offered .consumed) = .ok (.offered .consumed) ↔
        o.answer = .ok () := by
      cases o.answer <;> simp [Except.map]
    simp only [offers.complete_iff hs range, accepted]
    constructor
    · rintro ⟨⟨hb, plain, answer⟩, about, all⟩
      refine ⟨⟨⟨about.imp_right (starts_offer range).mpr, by simp⟩, fun c hc => ?_⟩,
        .inl ⟨⟨channel, b, rfl, hb, plain⟩, answer⟩⟩
      rw [hclosed]
      exact (all c hc).imp_right (.imp_right fun e => brings_offer.mpr ⟨e, hb, plain⟩)
    · rintro ⟨⟨⟨about, -⟩, all⟩, ⟨⟨_, brings⟩, answer⟩ | ⟨⟨_, e⟩, -⟩⟩
      · obtain ⟨-, hb, plain⟩ := brings_offer.mp brings
        refine ⟨⟨hb, plain, answer⟩, about.imp_right (starts_offer range).mp, fun c hc => ?_⟩
        rw [← hclosed]
        exact (all c hc).imp_right (.imp_right fun h => (brings_offer.mp h).1)
      · cases e
  | @closed channel o range closes =>
    rw [Performs.mem_notices_close (.closed range closes) hs]
    simp only [ClosePolicy.outcome_eq_complete]
    constructor
    · rintro ⟨_, ⟨policy, rfl⟩, gathers⟩
      exact ⟨gathers, .inr ⟨⟨channel, rfl⟩, policy⟩⟩
    · rintro ⟨gathers, ⟨⟨c, brings⟩, -⟩ | ⟨-, policy⟩⟩
      · exact absurd brings not_brings_close
      · exact ⟨x, ⟨policy, rfl⟩, gathers⟩
  | overflowed => simp [Operation.Brings]
  | dropped => simp [Operation.Brings]
  | kept listener quiet =>
    exact iff_of_false List.not_mem_nil fun h => not_gathers_of_quiet hs quiet rfl h.1

theorem Offers.not_channelClosed (h : a.Offers channel b o) :
    .aborted k (.channelClosed c) ∉ o.notices := fun hk => by
  simpa using h.reason_eq hk

theorem Performs.channelClosed_iff (h : a.Performs op r) (hs : a.Sound) :
    .aborted k (.channelClosed c) ∈ r.notices ↔ op = .close c ∧ a.settings.closePolicy = .abort ∧
      ∃ x, x.id = k ∧ a.Gathers op r x := by
  cases h with
  | offered range offers => exact iff_of_false offers.not_channelClosed nofun
  | @closed channel o range closes =>
    rw [Performs.mem_notices_close (.closed range closes) hs]
    simp only [ClosePolicy.outcome_eq_aborted]
    constructor
    · rintro ⟨x, ⟨policy, hk, rfl⟩, gathers⟩
      exact ⟨rfl, policy, x, hk, gathers⟩
    · rintro ⟨e, policy, x, hk, gathers⟩
      cases e
      exact ⟨x, ⟨policy, hk, rfl⟩, gathers⟩
  | overflowed => simp
  | dropped => simp
  | kept listener quiet =>
    refine iff_of_false nofun ?_
    rintro ⟨-, -, x, -, gathers⟩
    exact not_gathers_of_quiet hs quiet rfl gathers

theorem Remembers.gathers_iff {n : Nat} {policy : ClosePolicy} {past : List Operation}
    {notices : List Notice} {s : Aligner} (h : Remembers n policy past notices s)
    (hp : s.Performs op r) : s.Gathers op r x ↔ Aligned n (past ++ [op]) notices x := by
  have closed : ∀ c < n, r.aligner.isClosed c = true ↔ .close c ∈ past ++ [op] := by
    intro c hc
    rw [hp.isClosed_iff (h.channels.symm ▸ hc), h.closed c hc, List.mem_append,
      List.mem_singleton, eq_comm (a := op)]
  have brings : s.aligning = some x ∨ s.Starts op x → ∀ c < n,
      (s.current = some x.id ∧ s.isBlocked c = true ∨ op.Brings x.id c ↔
        ∃ op' ∈ past ++ [op], op'.Brings x.id c) := by
    intro about c hc
    rw [h.brings_iff (about.imp current_of_aligning Starts.newer) hc]
    simp [or_and_right, exists_or]
  constructor
  · rintro ⟨about, all⟩
    obtain ⟨since, underway⟩ := h.about_iff.mp about
    refine ⟨since, underway, fun c hc => ?_⟩
    rw [underway.begun.brings_iff hc, ← closed c hc, ← brings about.1 c hc]
    exact all c (h.channels.symm ▸ hc)
  · rintro ⟨since, underway, all⟩
    have about := h.about_iff.mpr ⟨since, underway⟩
    refine ⟨about, fun c hc => ?_⟩
    rw [h.channels] at hc
    rw [closed c hc, brings about.1 c hc, ← underway.begun.brings_iff hc]
    exact all c hc

end Complete

theorem Sound.alignedCount_eq {a : Aligner} (hs : a.Sound) (h : a.isAligning = true) :
    a.alignedCount = (List.range a.channels).countP a.isBlocked := by
  obtain ⟨f, flight⟩ := Option.isSome_iff_exists.mp h
  have hb : a.isBlocked = (f.blocked.getD · false) := funext (isBlocked_of_inFlight flight)
  rw [alignedCount, flight, Option.elim_some, (hs f flight).received, hb, countP_eq_range,
    (hs f flight).length]
  rfl

/-- While an alignment is in flight, it counts the blocked channels and waits for one that is
neither blocked nor ended.  A call completes the checkpoint of `b` exactly if after it the alignment
of `b`, begun and not ended before, waits for no channel, and the call is a barrier of the
checkpoint that was accepted, or the end of a channel where that completes a checkpoint.  Where the
end of a channel gives a checkpoint up instead, it does so on the same condition. -/
theorem completes_exactly {n : Nat} {settings : AlignmentSettings} {a : Aligner}
    (h : new n settings = .ok a) (past : List Operation) :
    let notices := (a.run past).1
    let s := (a.run past).2
    (s.isAligning = true → s.alignedCount = (List.range n).countP s.isBlocked ∧
      ∃ c < n, s.isClosed c = false ∧ s.isBlocked c = false) ∧
    ∀ op, let r := s.perform op
      (∀ b, .complete b ∈ r.notices ↔ Aligned n (past ++ [op]) notices b ∧
        ((∃ c, op.Brings b.id c) ∧ r.answer = .ok (.offered .consumed) ∨
          (∃ c, op = .close c) ∧ settings.closePolicy = .complete)) ∧
      ∀ k c, .aborted k (.channelClosed c) ∈ r.notices ↔
        op = .close c ∧ settings.closePolicy = .abort ∧
          ∃ b, b.id = k ∧ Aligned n (past ++ [op]) notices b := by
  intro notices s
  have remembers : Remembers n settings.closePolicy past notices s.bare := remembers_run h past
  refine ⟨fun hal => ?_, fun op => ?_⟩
  · rw [← isAligning_bare] at hal
    obtain ⟨k, hk⟩ : ∃ k, s.bare.current = some k := by
      obtain ⟨f, flight⟩ := Option.isSome_iff_exists.mp hal
      exact ⟨_, current_of_inFlight flight⟩
    have count := remembers.sound.alignedCount_eq hal
    have waiting := remembers.sound.exists_waiting hk
    rw [remembers.channels] at count waiting
    have hb : s.bare.isBlocked = s.isBlocked := funext s.isBlocked_bare
    rw [alignedCount_bare, hb] at count
    rw [hb] at waiting
    exact ⟨count, waiting⟩
  · have hp := s.performs op
    refine ⟨fun b => ?_, fun k c => ?_⟩
    · have := hp.complete_iff (x := b) remembers.sound
      rw [remembers.gathers_iff hp, remembers.policy] at this
      exact this
    · have := hp.channelClosed_iff (k := k) (c := c) remembers.sound
      simp only [remembers.gathers_iff hp, remembers.policy] at this
      exact this

/-- The second channel ends after the first one delivered the barrier, and the third is missing. -/
def missingCalls : List Operation :=
  [.offer 0 (.barrier (.plain 1 0)), .offer 0 (.barrier (.plain 1 1)), .close 1]

theorem completes_exactly_missing :
    let a : Aligner := { closed := List.replicate 3 false }
    let b : Barrier := .plain 1 0
    let last : Operation := .offer 2 (.barrier (.plain 1 2))
    new 3 = .ok a ∧ Aligned 3 (missingCalls ++ [last]) (a.run missingCalls).1 b ∧
      Aligned 3 (missingCalls ++ [.close 2]) (a.run missingCalls).1 b ∧
      ¬Aligned 3 (missingCalls ++ [.close 1]) (a.run missingCalls).1 b := by
  intro a b last
  obtain ⟨-, exactly⟩ := completes_exactly (show new 3 = .ok a from rfl) missingCalls
  have offered := ((exactly last).1 b).mp (by decide)
  have closed := ((exactly (.close 2)).1 b).mp (by decide)
  refine ⟨rfl, offered.1, closed.1, fun aligned => ?_⟩
  have complete := ((exactly (.close 1)).1 b).mpr ⟨aligned, .inr ⟨⟨1, rfl⟩, rfl⟩⟩
  exact absurd complete (by decide)

end Aligner

end StreamCheckpoint
