import StreamCheckpoint.Proofs.Alignment.Conservation

/-! What the counters of an aligner count.  A call adds to them what it sends, and every checkpoint
that it begins, and the one in flight before it, is completed, given up or dropped by it, or is in
flight after it (`Accounted`).  Over a run that adds up: no checkpoint is forgotten and none is
counted twice (`counters_account`). -/

namespace StreamCheckpoint

/-- The numbers of `ks` that are greater than `top`, if there is one, and than every one before
them. -/
def peaks (top : Option Nat) : List Nat → List Nat
  | [] => []
  | k :: ks => if top.any (k ≤ ·) then peaks top ks else k :: peaks (some k) ks

/-- The checkpoints that are begun by calls of an aligner of `n` channels that has seen none: those
of which a barrier comes when no barrier of the same checkpoint or a newer one has come before. -/
def begun (n : Nat) (ops : List Operation) : List Nat :=
  peaks none ((barriersOf n ops).map (·.id))

namespace Aligner

/-- The barrier comes too late to matter: the checkpoint in flight is newer, or, if there is none,
the barrier is not newer than every one before it. -/
def isLate (a : Aligner) (b : Barrier) : Bool :=
  match a.current with
  | some k => b.id < k
  | none => a.latest.any (b.id ≤ ·)

/-- The barrier that the call offers too late. -/
def late (a : Aligner) (op : Operation) : List Barrier :=
  (op.barrier? a.channels).toList.filter a.isLate

/-- The checkpoint that the call begins. -/
def beginning (a : Aligner) (op : Operation) : List Nat :=
  peaks a.latest ((op.barrier? a.channels).toList.map (·.id))

/-- The checkpoint in flight that the call drops. -/
def abandoning (a : Aligner) (op : Operation) : List Nat :=
  if op = .cleanup then a.current.toList else []

/-- The barriers that the calls offer too late, in order. -/
def lateBarriers (a : Aligner) (ops : List Operation) : List Barrier := a.collect late ops

/-- The checkpoints that the calls drop while they are in flight, in order. -/
def abandoned (a : Aligner) (ops : List Operation) : List Nat := a.collect abandoning ops

/-- What a call adds to the counters, and what becomes of the checkpoints that it begins and of the
one that is in flight before it. -/
structure Accounted (a : Aligner) (op : Operation) (r : Reaction (Except AlignmentError Answer)) :
    Prop where
  completed : r.aligner.counters.completed =
    a.counters.completed + r.notices.countP (·.isComplete)
  aborted : r.aligner.counters.aborted = a.counters.aborted + r.notices.countP (!·.isComplete)
  stale : r.aligner.counters.stale = a.counters.stale + (a.late op).length
  latest : ∀ ks, peaks a.latest (((op.barrier? a.channels).toList.map (·.id)) ++ ks) =
    a.beginning op ++ peaks r.aligner.latest ks
  fates : (a.beginning op ++ a.current.toList).Perm
    (r.notices.map (·.checkpoint) ++ (r.aligner.current.toList ++ a.abandoning op))

section Step

variable {a a' : Aligner} {op : Operation} {channel : Nat} {b : Barrier} {f : Alignment}
  {ended : List Notice} {r : Reaction (Except AlignmentError Answer)}
  {o : Reaction (Except AlignmentError Unit)}

theorem peaks_of_newer {top : Option Nat} {k : Nat} (newer : ∀ l, top = some l → l < k)
    (ks : List Nat) : peaks top (k :: ks) = k :: peaks (some k) ks := by
  have : top.any (k ≤ ·) = false := by
    cases top with
    | none => rfl
    | some l => simpa using newer l rfl
  rw [peaks, this]
  simp

theorem peaks_of_old {top : Option Nat} {k l : Nat} (h : top = some l) (old : k ≤ l)
    (ks : List Nat) : peaks top (k :: ks) = peaks top ks := by
  rw [peaks, h]
  simp [old]

theorem isLate_of_same (h : a.current = some b.id) : a.isLate b = false := by
  simp [isLate, h]

theorem isLate_of_newer (hs : a.Sound) (newer : ∀ l, a.latest = some l → l < b.id) :
    a.isLate b = false := by
  cases hc : a.current with
  | none =>
    cases hl : a.latest with
    | none => simp [isLate, hc, hl]
    | some l => simpa [isLate, hc, hl] using newer l hl
  | some k =>
    have := newer k (hs.latest_of_current hc)
    simp only [isLate, hc, decide_eq_false_iff_not]
    omega

theorem isLate_of_stale {l : Nat} (hs : a.Sound)
    (latest : (a.inFlight.elim a.latest fun f => some f.barrier.id) = some l) (old : b.id ≤ l)
    (other : a.current ≠ some b.id) : a.isLate b = true := by
  rw [hs.elim_latest] at latest
  cases hc : a.current with
  | none => simpa [isLate, hc, latest] using old
  | some k =>
    have hk := hs.latest_of_current hc
    rw [latest] at hk
    obtain rfl := Option.some.inj hk
    have hne : b.id ≠ l := fun e => other (e ▸ hc)
    simp only [isLate, hc, decide_eq_true_eq]
    omega

/-- What is given up to make room for a newer checkpoint is the one in flight. -/
theorem Clears.accounted (h : a.Clears b ended a') :
    a'.counters.completed = a.counters.completed + ended.countP (·.isComplete) ∧
      a'.counters.aborted = a.counters.aborted + ended.countP (!·.isComplete) ∧
      a'.counters.stale = a.counters.stale ∧
      ended.map (·.checkpoint) = a.current.toList := by
  cases h with
  | idle idle => simp [current_of_idle idle]
  | superseded flight => simp [current_of_inFlight flight, abort, release, Notice.isComplete,
      Notice.checkpoint]

theorem late_offer (hc : channel < a.channels) :
    a.late (.offer channel (.barrier b)) = if a.isLate b then [b] else [] := by
  simp [late, Operation.barrier?, hc, List.filter_singleton]

/-- A barrier that is not newer than every one before it begins no checkpoint. -/
theorem accounted_of_old {l : Nat} (hc : channel < a.channels) (latest : a.latest = some l)
    (old : b.id ≤ l) (same : r.aligner.latest = a.latest)
    (completed : r.aligner.counters.completed =
      a.counters.completed + r.notices.countP (·.isComplete))
    (aborted : r.aligner.counters.aborted = a.counters.aborted + r.notices.countP (!·.isComplete))
    (stale : r.aligner.counters.stale = a.counters.stale + if a.isLate b then 1 else 0)
    (ended : a.current.toList = r.notices.map (·.checkpoint) ++ r.aligner.current.toList) :
    a.Accounted (.offer channel (.barrier b)) r := by
  have hb : (Operation.offer channel (.barrier b)).barrier? a.channels = some b := by
    simp [Operation.barrier?, hc]
  have none : a.beginning (.offer channel (.barrier b)) = [] := by
    rw [beginning, hb]
    exact peaks_of_old latest old []
  refine ⟨completed, aborted, ?_, fun ks => ?_, ?_⟩
  · rw [stale, late_offer hc]
    split <;> rfl
  · rw [none, hb, same]
    exact peaks_of_old latest old ks
  · rw [none, ended]
    simp [abandoning]

/-- A barrier of the checkpoint in flight comes neither too late nor first. -/
theorem accounted_of_same (hs : a.Sound) (hc : channel < a.channels) (hk : a.current = some b.id)
    (same : r.aligner.latest = a.latest)
    (completed : r.aligner.counters.completed =
      a.counters.completed + r.notices.countP (·.isComplete))
    (aborted : r.aligner.counters.aborted = a.counters.aborted + r.notices.countP (!·.isComplete))
    (stale : r.aligner.counters.stale = a.counters.stale)
    (ended : [b.id] = r.notices.map (·.checkpoint) ++ r.aligner.current.toList) :
    a.Accounted (.offer channel (.barrier b)) r := by
  refine accounted_of_old hc (hs.latest_of_current hk) (Nat.le_refl _) same completed aborted ?_ ?_
  · rw [stale, isLate_of_same hk]
    rfl
  · rw [← ended, hk]
    rfl

/-- A barrier that is newer than every one before it begins its checkpoint, once the one in flight
is given up. -/
theorem accounted_of_newer (hs : a.Sound) (hc : channel < a.channels) (clear : a.Clears b ended a')
    {begun : List Notice} (notices : r.notices = ended ++ begun)
    (latest : r.aligner.latest = some b.id)
    (completed : r.aligner.counters.completed =
      a'.counters.completed + begun.countP (·.isComplete))
    (aborted : r.aligner.counters.aborted = a'.counters.aborted + begun.countP (!·.isComplete))
    (stale : r.aligner.counters.stale = a'.counters.stale)
    (outcome : [b.id] = begun.map (·.checkpoint) ++ r.aligner.current.toList) :
    a.Accounted (.offer channel (.barrier b)) r := by
  have newer := clear.newer hs
  obtain ⟨hcompleted, haborted, hstale, hended⟩ := clear.accounted
  have hb : (Operation.offer channel (.barrier b)).barrier? a.channels = some b := by
    simp [Operation.barrier?, hc]
  have one : a.beginning (.offer channel (.barrier b)) = [b.id] := by
    rw [beginning, hb]
    exact peaks_of_newer newer []
  refine ⟨?_, ?_, ?_, fun ks => ?_, ?_⟩
  · rw [completed, hcompleted, notices, List.countP_append, Nat.add_assoc]
  · rw [aborted, haborted, notices, List.countP_append, Nat.add_assoc]
  · rw [stale, hstale, late_offer hc, isLate_of_newer hs newer]
    rfl
  · rw [one, hb, latest]
    exact peaks_of_newer newer ks
  · rw [one, outcome, notices, List.map_append, hended]
    simp only [abandoning, reduceCtorEq, if_false, List.append_nil]
    exact List.perm_append_comm.trans (.of_eq (List.append_assoc _ _ _).symm)

theorem Offers.accounted (h : a.Offers channel b o) (hs : a.Sound) (hc : channel < a.channels)
    (answer : Except AlignmentError Answer) :
    a.Accounted (.offer channel (.barrier b)) ⟨answer, o.notices, o.aligner⟩ := by
  have same : ∀ {f : Alignment}, a.inFlight = some f → b.id = f.barrier.id →
      a.current = some b.id := fun flight hb => hb ▸ current_of_inFlight flight
  cases h with
  | @stale l latest old other =>
    refine accounted_of_old hc (hs.elim_latest ▸ latest) old rfl rfl rfl ?_ rfl
    rw [isLate_of_stale hs latest old other]
    rfl
  | cancelled flight hb =>
    refine accounted_of_same hs hc (same flight hb) rfl rfl rfl rfl ?_
    simp [current, hb, Notice.checkpoint]
  | duplicate flight hb =>
    refine accounted_of_same hs hc (same flight hb) rfl rfl rfl rfl ?_
    simp [same flight hb]
  | joined flight hb =>
    refine accounted_of_same hs hc (same flight hb) rfl rfl rfl rfl ?_
    simp [current, hb, Alignment.add]
  | completed flight hb =>
    refine accounted_of_same hs hc (same flight hb) rfl rfl rfl rfl ?_
    simp [current, hb, Notice.checkpoint]
  | refused clear =>
    refine accounted_of_newer hs hc clear rfl rfl rfl rfl rfl ?_
    simp [current, clear.closed.2, Notice.checkpoint]
  | instant clear =>
    refine accounted_of_newer hs hc clear rfl rfl rfl rfl rfl ?_
    simp [current, clear.closed.2, Notice.checkpoint]
  | begun clear =>
    exact accounted_of_newer hs hc clear (List.append_nil _).symm rfl rfl rfl rfl rfl

/-- A call that offers no barrier ends the checkpoint in flight, or drops it, or leaves it alone. -/
theorem accounted_of_none (none : op.barrier? a.channels = none)
    (latest : r.aligner.latest = a.latest)
    (completed : r.aligner.counters.completed =
      a.counters.completed + r.notices.countP (·.isComplete))
    (aborted : r.aligner.counters.aborted = a.counters.aborted + r.notices.countP (!·.isComplete))
    (stale : r.aligner.counters.stale = a.counters.stale)
    (fate : a.current.toList =
      r.notices.map (·.checkpoint) ++ (r.aligner.current.toList ++ a.abandoning op)) :
    a.Accounted op r := by
  refine ⟨completed, aborted, ?_, fun ks => ?_, ?_⟩
  · rw [stale, late, none]
    rfl
  · rw [beginning, none, latest]
    rfl
  · rw [beginning, none, fate]
    rfl

theorem Closes.accounted (h : a.Closes channel o) :
    a.Accounted (.close channel) ⟨.ok .done, o.notices, o.aligner⟩ := by
  cases h with
  | completed _ flight =>
    refine accounted_of_none rfl rfl rfl rfl rfl ?_
    rw [current_of_inFlight flight]
    rfl
  | aborted _ flight =>
    refine accounted_of_none rfl rfl rfl rfl rfl ?_
    rw [current_of_inFlight flight]
    rfl
  | _ => exact accounted_of_none rfl rfl rfl rfl rfl (List.append_nil _).symm

theorem Performs.accounted (h : a.Performs op r) (hs : a.Sound) : a.Accounted op r := by
  cases h with
  | offered range offers => exact offers.accounted hs range _
  | closed range closes => exact closes.accounted
  | overflowed flight =>
    refine accounted_of_none rfl rfl rfl rfl rfl ?_
    rw [current_of_inFlight flight]
    rfl
  | dropped => exact accounted_of_none rfl rfl rfl rfl rfl rfl
  | kept listener quiet =>
    have none : op.barrier? a.channels = none := by
      refine Option.eq_none_iff_forall_ne_some.mpr fun x hx => ?_
      obtain ⟨c, hc, rfl⟩ := barrier?_eq_some.mp hx
      exact quiet hc x rfl
    refine accounted_of_none none rfl rfl rfl rfl ?_
    rw [abandoning, if_neg (ne_cleanup_of_quiet quiet)]
    exact (List.append_nil _).symm

theorem isLate_bare (a : Aligner) : a.bare.isLate = a.isLate := by
  funext b
  simp only [isLate, current_bare]
  rfl

theorem accounted (hs : a.bare.Sound) (op : Operation) : a.Accounted op (a.perform op) := by
  have h := (a.performs op).accounted hs
  have late : a.bare.late op = a.late op := by
    rw [late, isLate_bare]
    rfl
  have abandoning : a.bare.abandoning op = a.abandoning op := by
    simp only [abandoning, current_bare]
  obtain ⟨completed, aborted, stale, latest, fates⟩ := h
  simp only [Reaction.bare, current_bare, abandoning] at fates
  rw [late] at stale
  exact ⟨completed, aborted, stale, latest, fates⟩

/-- What the calls of a run add to the counters, and what has become of every checkpoint by the
end of it. -/
theorem accounted_run (hs : a.bare.Sound) (ops : List Operation) :
    (a.run ops).2.counters.completed =
        a.counters.completed + (a.run ops).1.countP (·.isComplete) ∧
      (a.run ops).2.counters.aborted =
        a.counters.aborted + (a.run ops).1.countP (!·.isComplete) ∧
      (a.run ops).2.counters.stale = a.counters.stale + (a.lateBarriers ops).length ∧
      (peaks a.latest ((barriersOf a.channels ops).map (·.id)) ++ a.current.toList).Perm
        ((a.run ops).1.map (·.checkpoint) ++
          ((a.run ops).2.current.toList ++ a.abandoned ops)) := by
  induction ops generalizing a with
  | nil => simp [lateBarriers, abandoned, collect, barriersOf, peaks]
  | cons op ops ih =>
    obtain ⟨completed, aborted, stale, latest, fates⟩ := accounted hs op
    have hn : (a.perform op).aligner.channels = a.channels := (a.performs op).channels
    obtain ⟨hcompleted, haborted, hstale, hfates⟩ := ih ((a.performs op).sound hs)
    rw [run_cons]
    refine ⟨?_, ?_, ?_, ?_⟩
    · rw [hcompleted, completed, List.countP_append, Nat.add_assoc]
    · rw [haborted, aborted, List.countP_append, Nat.add_assoc]
    · rw [hstale, stale, Nat.add_assoc, ← List.length_append]
      rfl
    · have hids : (barriersOf a.channels (op :: ops)).map (·.id) =
          (op.barrier? a.channels).toList.map (·.id) ++ (barriersOf a.channels ops).map (·.id) := by
        cases hb : op.barrier? a.channels <;> simp [barriersOf, hb]
      rw [hn] at hfates
      have habandoned : a.abandoned (op :: ops) =
          a.abandoning op ++ (a.perform op).aligner.abandoned ops := rfl
      rw [hids, latest, habandoned]
      refine List.perm_iff_count.mpr fun k => ?_
      have h := fates.count_eq k
      have h' := hfates.count_eq k
      simp only [List.map_append, List.count_append] at h h' ⊢
      omega

/-- A barrier that comes too late changes nothing but the counter of such barriers. -/
theorem offerBarrier_of_late (late : a.isLate b = true) (channel : Nat) :
    a.offerBarrier channel b = ⟨.ok (), [], a.skipStale⟩ := by
  unfold offerBarrier
  cases flight : a.inFlight with
  | none =>
    rw [isLate, current_of_idle flight] at late
    simp only [if_pos late]
  | some f =>
    rw [isLate, current_of_inFlight flight] at late
    have older : b.id < f.barrier.id := by simpa using late
    simp only
    rw [if_neg (Nat.ne_of_lt older), if_neg (Nat.lt_asymm older)]

end Step

section Counters

variable {n : Nat} {settings : AlignmentSettings} {a : Aligner}

/-- Every checkpoint that is begun is completed or given up, or is in flight, or is dropped while it
is. -/
theorem begun_perm (h : new n settings = .ok a) (ops : List Operation) :
    (begun n ops).Perm ((a.run ops).1.map (·.checkpoint) ++
      ((a.run ops).2.current.toList ++ a.abandoned ops)) := by
  have hs : a.bare.Sound := (remembers_run h []).sound
  obtain ⟨-, -, -, fates⟩ := accounted_run hs ops
  have hn : a.channels = n := (remembers_run h []).channels
  obtain ⟨-, e⟩ := new_spec h
  have hlatest : a.latest = none := congrArg Aligner.latest e
  have hcurrent : a.current = none := congrArg Aligner.current e
  rw [hn, hlatest, hcurrent] at fates
  simpa [begun] using fates

/-- The counters tell what was done.  Those of completed and of given up checkpoints count the
notices of either kind, and that of stale barriers the ones that were offered too late, which change
nothing else.  With the checkpoint in flight and those that were dropped while they were, they
account for every checkpoint that was begun. -/
theorem counters_account (h : new n settings = .ok a) (ops : List Operation) :
    let s := (a.run ops).2
    s.counters.completed = (a.run ops).1.countP (·.isComplete) ∧
    s.counters.aborted = (a.run ops).1.countP (!·.isComplete) ∧
    s.counters.stale = (a.lateBarriers ops).length ∧
    (begun n ops).length = s.counters.completed + s.counters.aborted +
      (if s.isAligning then 1 else 0) + (a.abandoned ops).length ∧
    ∀ channel b, channel < n → s.isLate b = true →
      s.perform (.offer channel (.barrier b)) = ⟨.ok (.offered .consumed), [],
        { s with counters := { s.counters with stale := s.counters.stale + 1 } }⟩ := by
  intro s
  have hn : s.channels = n := (remembers_run h ops).channels
  have hs : a.bare.Sound := (remembers_run h []).sound
  obtain ⟨completed, aborted, stale, -⟩ := accounted_run hs ops
  obtain ⟨-, e⟩ := new_spec h
  have hcounters : a.counters = {} := congrArg Aligner.counters e
  rw [hcounters, Nat.zero_add] at completed aborted stale
  refine ⟨completed, aborted, stale, ?_, fun channel b hc late => ?_⟩
  · have hlength := (begun_perm h ops).length_eq
    have hkinds := List.length_eq_countP_add_countP (·.isComplete) (l := (a.run ops).1)
    have hflight : (a.run ops).2.current.toList.length = if s.isAligning then 1 else 0 := by
      rw [current, isAligning]
      cases s.inFlight <;> rfl
    simp only [List.length_append, List.length_map] at hlength
    simp only [Bool.not_eq_true, Bool.decide_eq_false] at hkinds
    rw [hlength, ← hflight, completed, aborted, hkinds]
    omega
  · have hc' : channel < s.channels := hn.symm ▸ hc
    simp only [perform, offer, if_pos hc', offerBarrier_of_late late]
    rfl

/-- The second checkpoint takes the place of the first and is abandoned at once; the third is
dropped, the fourth completed, and the fifth in flight.  Four barriers come too late, one of them
while the third checkpoint is in flight. -/
def mixedCalls : List Operation :=
  [.offer 0 (.barrier (.plain 1 0)), .offer 1 (.barrier ⟨2, 0, Barrier.cancelBit⟩),
    .offer 0 (.barrier (.plain 1 0)), .offer 0 (.barrier (.plain 3 0)),
    .offer 1 (.barrier (.plain 2 0)), .cleanup, .offer 1 (.barrier (.plain 3 0)), .cleanup,
    .offer 0 (.barrier (.plain 4 0)), .offer 1 (.barrier (.plain 4 0)),
    .offer 1 (.barrier (.plain 5 0)), .offer 0 (.barrier (.plain 4 0)),
    .offer 7 (.barrier (.plain 6 0))]

theorem counters_account_mixed :
    let a : Aligner := { closed := [false, false] }
    let s := (a.run mixedCalls).2
    let r := s.perform (.offer 1 (.barrier (.plain 4 0)))
    new 2 = .ok a ∧ begun 2 mixedCalls = [1, 2, 3, 4, 5] ∧ a.abandoned mixedCalls = [3] ∧
      s.counters.completed = 1 ∧ s.counters.aborted = 2 ∧ s.counters.stale = 4 ∧
      (1 < 2 ∧ s.isLate (.plain 4 0) = true) ∧
      r.answer = .ok (.offered .consumed) ∧ r.notices = [] := by
  intro a s r
  obtain ⟨completed, aborted, stale, -, late⟩ :=
    counters_account (show new 2 = .ok a from rfl) mixedCalls
  have old : s.isLate (.plain 4 0) = true := by decide
  have same := late 1 (.plain 4 0) (by decide) old
  have hstale : s.counters.stale = 4 := by
    rw [stale]
    decide
  refine ⟨rfl, by decide, by decide, ?_, ?_, hstale, ⟨by decide, old⟩, ?_, ?_⟩
  · rw [completed]
    decide
  · rw [aborted]
    decide
  · exact congrArg (·.answer) same
  · exact congrArg (·.notices) same

end Counters

end Aligner

end StreamCheckpoint
