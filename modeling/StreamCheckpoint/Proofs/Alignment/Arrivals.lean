import Mathlib.Data.List.Induction
import StreamCheckpoint.Proofs.Alignment.Queue

/-! The order in which barriers of one checkpoint arrive does not matter, nor that of the channels
that end meanwhile.  What has come of them depends only on which channels they arrived on
(`Gathered`): nothing as long as all of these have ended, then an alignment that waits for the other
channels, and the completion of the checkpoint once there is none left.  That completion happens on
the first barrier, on a later one or on the end of a channel (`arrivals_commute`). -/

namespace StreamCheckpoint

namespace Aligner

/-- What arrives on the channel `c`: the barrier `b`, or the end of the channel. -/
def arrival (b : Barrier) (ends : Nat → Bool) (c : Nat) : Operation :=
  if ends c then .close c else .offer c (.barrier b)

/-- No open channel is missing. -/
def Covers (a : Aligner) (cs : List Nat) : Prop :=
  ∀ c < a.channels, a.isClosed c = false → c ∈ cs

instance (a : Aligner) (cs : List Nat) : Decidable (a.Covers cs) :=
  inferInstanceAs (Decidable (∀ c < a.channels, a.isClosed c = false → c ∈ cs))

/-- The aligner with those of the channels `cs` marked that end. -/
def markEnds (a : Aligner) (ends : Nat → Bool) (cs : List Nat) : Aligner :=
  { a with closed := raised a.closed fun c => cs.contains c && ends c }

/-- The alignment of `b` when it has arrived on those of the channels `cs` that do not end. -/
def gathering (a : Aligner) (b : Barrier) (ends : Nat → Bool) (cs : List Nat) : Alignment :=
  let blocked := raised (List.replicate a.channels false) fun c => cs.contains c && !ends c
  { barrier := b, blocked, received := blocked.countP id, queue := [], bytes := 0 }

/-- What has come of the arrivals on the channels `cs`. -/
inductive Gathered (a : Aligner) (b : Barrier) (ends : Nat → Bool) (cs : List Nat) :
    List Notice × Aligner → Prop
  | silent (ended : ∀ c ∈ cs, ends c = true) : Gathered a b ends cs ([], a.markEnds ends cs)
  | waiting {c : Nat} (mem : c ∈ cs) (barrier : ends c = false) (missing : ¬a.Covers cs) :
      Gathered a b ends cs ([], { a.markEnds ends cs with
        latest := some b.id, inFlight := some (a.gathering b ends cs) })
  | complete {c : Nat} (mem : c ∈ cs) (barrier : ends c = false) (covers : a.Covers cs)
      (wait : Wait) :
      Gathered a b ends cs ([.complete b], { a.markEnds ends cs with
        latest := some b.id
        inFlight := none
        counters := { a.counters with
          completed := a.counters.completed + 1, lastWait := some wait } })

section Gathered

variable {a : Aligner} {b : Barrier} {ends : Nat → Bool} {cs cs' : List Nat} {c : Nat}

theorem among_of_true {p : Nat → Bool} (h : p c = true) :
    (fun i => (cs ++ [c]).contains i && p i) = fun i => (cs.contains i && p i) || i == c := by
  funext i
  by_cases hi : i = c
  · simp [hi, h]
  · simp [hi]

theorem among_of_false {p : Nat → Bool} (h : p c = false) :
    (fun i => (cs ++ [c]).contains i && p i) = fun i => cs.contains i && p i := by
  funext i
  by_cases hi : i = c
  · simp [hi, h]
  · simp [hi]

@[simp] theorem channels_markEnds (a : Aligner) (ends : Nat → Bool) (cs : List Nat) :
    (a.markEnds ends cs).channels = a.channels := length_raised _ _

theorem isClosed_markEnds (hc : c < a.channels) :
    (a.markEnds ends cs).isClosed c = (a.isClosed c || (cs.contains c && ends c)) :=
  getD_raised hc _

theorem mark_markEnds (he : ends c = true) :
    (a.markEnds ends cs).mark c = a.markEnds ends (cs ++ [c]) := by
  rw [mark, markEnds, markEnds, set_raised, among_of_true he]

theorem markEnds_concat (he : ends c = false) :
    a.markEnds ends (cs ++ [c]) = a.markEnds ends cs := by
  rw [markEnds, markEnds, among_of_false he]

theorem length_gathering : (a.gathering b ends cs).blocked.length = a.channels := by
  simp [gathering]

theorem getD_gathering (hc : c < a.channels) :
    (a.gathering b ends cs).blocked.getD c false = (cs.contains c && !ends c) := by
  have free : (List.replicate a.channels false).getD c false = false := by
    rw [getD_of_lt (by simpa using hc), List.getElem_replicate]
  rw [gathering, getD_raised (by simpa using hc), free, Bool.false_or]

theorem free_gathering (hc : c < a.channels) (fresh : c ∉ cs) :
    (a.gathering b ends cs).blocked.getD c false = false := by
  rw [getD_gathering hc]
  simp [fresh]

theorem gathering_concat (he : ends c = true) :
    a.gathering b ends (cs ++ [c]) = a.gathering b ends cs := by
  have stays : (!ends c) = false := by rw [he, Bool.not_true]
  rw [gathering, gathering, among_of_false stays]

theorem blocked_concat (he : ends c = false) : (a.gathering b ends cs).blocked.set c true =
    (a.gathering b ends (cs ++ [c])).blocked := by
  have arrives : (!ends c) = true := by rw [he, Bool.not_false]
  simp only [gathering]
  rw [set_raised, among_of_true arrives]

theorem add_gathering (hc : c < a.channels) (fresh : c ∉ cs) (he : ends c = false) :
    (a.gathering b ends cs).add c = a.gathering b ends (cs ++ [c]) := by
  have received := calc (a.gathering b ends cs).received + 1
    _ = ((a.gathering b ends cs).blocked.set c true).countP id :=
        (countP_set_true (by rwa [length_gathering]) (free_gathering hc fresh)).symm
    _ = (a.gathering b ends (cs ++ [c])).received := by
        rw [blocked_concat he]
        rfl
  rw [Alignment.add, blocked_concat he, received]
  rfl

theorem gathering_of_ends (ended : ∀ i ∈ cs, ends i = true) :
    a.gathering b ends cs = ⟨b, List.replicate a.channels false, 0, [], 0⟩ := by
  have nobody : (fun i => cs.contains i && !ends i) = fun _ => false := by
    funext i
    by_cases hi : i ∈ cs
    · simp [ended i hi]
    · simp [hi]
  have free : (List.replicate a.channels false).countP id = 0 := by simp
  rw [gathering, nobody, raised_false, free]

theorem first_gathering (hc : c < a.channels) (ended : ∀ i ∈ cs, ends i = true)
    (he : ends c = false) : Alignment.first a.channels c b = a.gathering b ends (cs ++ [c]) := by
  have fresh : c ∉ cs := fun hi => Bool.false_ne_true (he.symm.trans (ended c hi))
  rw [← add_gathering hc fresh he, gathering_of_ends ended]
  rfl

/-- Nobody else is missing when something arrives on `c`. -/
theorem covers_concat (b : Barrier) (ends : Nat → Bool) :
    a.Covers (cs ++ [c]) ↔ ∀ i < a.channels, (a.markEnds ends cs).isClosed i = true ∨
      (a.gathering b ends cs).blocked.getD i false = true ∨ i = c := by
  refine forall₂_congr fun i hi => ?_
  rw [isClosed_markEnds hi, getD_gathering hi]
  cases a.isClosed i <;> cases ends i <;> simp

theorem sound_gathering (plain : b.isCancel = false) (missing : ¬a.Covers cs) :
    (a.gathering b ends cs).Sound (a.markEnds ends cs).closed (some b.id) := by
  rw [Covers] at missing
  simp only [Classical.not_forall] at missing
  obtain ⟨m, hm, opened, absent⟩ := missing
  have channels : (a.markEnds ends cs).closed.length = a.channels := channels_markEnds a ends cs
  refine ⟨?_, rfl, ⟨m, ?_, ?_, ?_⟩, rfl, plain, nofun⟩
  · rw [length_gathering, channels]
  · rwa [channels]
  · refine (isClosed_markEnds hm).trans ?_
    simp [opened, absent]
  · exact free_gathering hm absent

/-- Whether the barrier is the first one or a later one, or the channel ends, the checkpoint is
complete if nobody else is missing. -/
theorem first_completes_iff (hc : c < a.channels) (ended : ∀ i ∈ cs, ends i = true) :
    requiredChannels (a.markEnds ends cs).closed (Alignment.first a.channels c b).blocked ≤ 1 ↔
      a.Covers (cs ++ [c]) := by
  have first := first_complete_iff (a := a.markEnds ends cs) (by rwa [channels_markEnds]) b
  rw [channels_markEnds] at first
  rw [first, covers_concat b ends]
  refine forall₂_congr fun i hi => ?_
  rw [gathering_of_ends ended]
  simp [List.getD_eq_getElem?_getD, hi]

theorem add_completes_iff (plain : b.isCancel = false) (missing : ¬a.Covers cs)
    (hc : c < a.channels) (fresh : c ∉ cs) :
    requiredChannels (a.markEnds ends cs).closed ((a.gathering b ends cs).add c).blocked ≤
      ((a.gathering b ends cs).add c).received ↔ a.Covers (cs ++ [c]) := by
  rw [add_complete_iff (sound_gathering plain missing) (by rwa [channels_markEnds])
    (free_gathering hc fresh), channels_markEnds, covers_concat b ends]

theorem mark_completes_iff (plain : b.isCancel = false) (missing : ¬a.Covers cs)
    (hc : c < a.channels) :
    requiredChannels ((a.markEnds ends cs).mark c).closed (a.gathering b ends cs).blocked ≤
      (a.gathering b ends cs).received ↔ a.Covers (cs ++ [c]) := by
  rw [mark_complete_iff (sound_gathering plain missing) (by rwa [channels_markEnds]),
    channels_markEnds, covers_concat b ends]
  refine forall₂_congr fun i _ => ?_
  tauto

section Step

variable {r : List Notice × Aligner} {o : Reaction (Except AlignmentError Unit)}
  (h : Gathered a b ends cs r) (idle : a.inFlight = none)
  (policy : a.settings.closePolicy = .complete) (newer : ∀ l, a.latest = some l → l < b.id)
  (plain : b.isCancel = false) (hc : c < a.channels) (opened : a.isClosed c = false)
  (fresh : c ∉ cs)
include h idle plain hc opened fresh

include policy in
/-- An open channel ends. -/
theorem Gathered.closes (he : ends c = true) (closes : r.2.Closes c o) :
    Gathered a b ends (cs ++ [c]) (r.1 ++ o.notices, o.aligner) := by
  have stillOpen : (a.markEnds ends cs).isClosed c = false := by
    rw [isClosed_markEnds hc]
    simp [opened, fresh]
  cases h with
  | silent ended =>
    cases closes with
    | again closed => exact absurd (stillOpen.symm.trans closed) Bool.false_ne_true
    | idle =>
      have silent : Gathered a b ends (cs ++ [c]) ([], a.markEnds ends (cs ++ [c])) :=
        .silent (by simpa [or_imp, forall_and, he] using ended)
      rwa [← mark_markEnds he] at silent
    | _ _ flight => exact absurd (idle.symm.trans flight) nofun
  | @waiting i mem barrier missing =>
    have mem : i ∈ cs ++ [c] := List.mem_append_left _ mem
    cases closes with
    | again closed => exact absurd (stillOpen.symm.trans closed) Bool.false_ne_true
    | idle _ none => cases none
    | waiting _ flight waiting =>
      cases flight
      have waiting := Gathered.waiting (b := b) mem barrier
        (mt (mark_completes_iff plain missing hc).mpr waiting)
      rwa [← mark_markEnds he, gathering_concat he] at waiting
    | completed _ flight all =>
      cases flight
      have complete := Gathered.complete (b := b) mem barrier
        ((mark_completes_iff plain missing hc).mp all) .measured
      rwa [← mark_markEnds he] at complete
    | aborted _ _ _ abort => exact absurd (policy.symm.trans abort) nofun
  | complete mem barrier covers => exact absurd (covers c hc opened) fresh

include newer in
/-- The barrier arrives on an open channel. -/
theorem Gathered.offers (he : ends c = false) (offers : r.2.Offers c b o) :
    Gathered a b ends (cs ++ [c]) (r.1 ++ o.notices, o.aligner) := by
  have mem : c ∈ cs ++ [c] := List.mem_append_right _ (List.mem_singleton_self c)
  cases h with
  | silent ended =>
    have clears : ∀ {ns : List Notice} {a' : Aligner},
        (a.markEnds ends cs).Clears b ns a' → ns = [] ∧ a' = a.markEnds ends cs := by
      rintro _ _ (_ | flight)
      · exact ⟨rfl, rfl⟩
      · exact absurd (idle.symm.trans flight) nofun
    cases offers with
    | stale latest old =>
      rw [show (a.markEnds ends cs).inFlight = none from idle] at latest
      exact absurd (newer _ latest) (Nat.not_lt.mpr old)
    | refused _ cancel => exact absurd (plain.symm.trans cancel) Bool.false_ne_true
    | instant clear _ all =>
      obtain ⟨rfl, rfl⟩ := clears clear
      rw [channels_markEnds, first_completes_iff hc ended] at all
      have complete := Gathered.complete (b := b) mem he all .instant
      rwa [markEnds_concat he, ← idle] at complete
    | begun clear _ waiting =>
      obtain ⟨rfl, rfl⟩ := clears clear
      rw [channels_markEnds, first_completes_iff hc ended] at waiting
      rw [channels_markEnds, first_gathering hc ended he]
      have waiting := Gathered.waiting (b := b) mem he waiting
      rwa [markEnds_concat he] at waiting
    | _ flight => exact absurd (idle.symm.trans flight) nofun
  | waiting _ _ missing =>
    cases offers with
    | stale _ _ other => exact absurd rfl other
    | cancelled _ _ cancel => exact absurd (plain.symm.trans cancel) Bool.false_ne_true
    | duplicate flight _ _ blocked =>
      cases flight
      exact absurd ((free_gathering hc fresh).symm.trans blocked) Bool.false_ne_true
    | joined flight _ _ _ waiting =>
      cases flight
      have waiting := Gathered.waiting (b := b) mem he
        (mt (add_completes_iff plain missing hc fresh).mpr waiting)
      rwa [markEnds_concat he, ← add_gathering hc fresh he] at waiting
    | completed flight _ _ _ all =>
      cases flight
      have complete := Gathered.complete (b := b) mem he
        ((add_completes_iff plain missing hc fresh).mp all) .measured
      rwa [markEnds_concat he] at complete
    | refused clear => exact absurd rfl clear.current_ne
    | instant clear => exact absurd rfl clear.current_ne
    | begun clear => exact absurd rfl clear.current_ne
  | complete _ _ covers => exact absurd (covers c hc opened) fresh

end Step

theorem Gathered.channels {r : List Notice × Aligner} (h : Gathered a b ends cs r) :
    r.2.channels = a.channels := by
  cases h <;> exact channels_markEnds a ends cs

theorem gathered_nil : Gathered a b ends [] ([], a) := by
  have same : a.markEnds ends [] = a := by simp [markEnds]
  have silent : Gathered a b ends [] ([], a.markEnds ends []) := .silent nofun
  rwa [same] at silent

theorem gathered_run (idle : a.inFlight = none) (policy : a.settings.closePolicy = .complete)
    (newer : ∀ l, a.latest = some l → l < b.id) (plain : b.isCancel = false)
    (distinct : cs.Nodup) (opened : ∀ c ∈ cs, c < a.channels ∧ a.isClosed c = false) :
    Gathered a b ends cs (a.run (cs.map (arrival b ends))) := by
  induction cs using List.reverseRecOn with
  | nil => exact gathered_nil
  | append_singleton cs c ih =>
    rw [List.nodup_append] at distinct
    have fresh : c ∉ cs := fun hc =>
      distinct.2.2 c hc c (List.mem_singleton_self c) rfl
    have earlier := ih distinct.1 fun i hi => opened i (List.mem_append_left _ hi)
    obtain ⟨hc, open'⟩ := opened c (List.mem_append_right _ (List.mem_singleton_self c))
    have hc' : c < (a.run (cs.map (arrival b ends))).2.channels := by rwa [earlier.channels]
    rw [List.map_append, List.map_singleton, run_concat]
    cases he : ends c with
    | true =>
      have arrives : arrival b ends c = .close c := by simp [arrival, he]
      rw [arrives]
      exact earlier.closes idle policy plain hc open' fresh he (Aligner.closes hc')
    | false =>
      have arrives : arrival b ends c = .offer c (.barrier b) := by simp [arrival, he]
      have next := earlier.offers idle newer plain hc open' fresh he (Aligner.offers _ c b)
      rw [arrives]
      simp only [perform, offer, if_pos hc']
      exact next

theorem Gathered.perm {r : List Notice × Aligner} (h : Gathered a b ends cs r)
    (perm : cs.Perm cs') : Gathered a b ends cs' r := by
  have contains : cs.contains = cs'.contains := by
    funext c
    exact perm.contains_eq
  have marked : a.markEnds ends cs = a.markEnds ends cs' := by
    rw [markEnds, contains, markEnds]
  have gathering' : a.gathering b ends cs = a.gathering b ends cs' := by
    rw [gathering, contains, gathering]
  have covers : a.Covers cs ↔ a.Covers cs' := by
    simp only [Covers, perm.mem_iff]
  cases h with
  | silent ended =>
    rw [marked]
    exact .silent fun c hc => ended c (perm.mem_iff.mpr hc)
  | waiting mem barrier missing =>
    rw [marked, gathering']
    exact .waiting (perm.mem_iff.mp mem) barrier (mt covers.mpr missing)
  | complete mem barrier all wait =>
    rw [marked]
    exact .complete (perm.mem_iff.mp mem) barrier (covers.mp all) wait

end Gathered

/-- The aligner without how long its last alignment took, but with whether there was one. -/
def untimed (a : Aligner) : Aligner :=
  { a with counters := { a.counters with lastWait := a.counters.lastWait.map fun _ => .measured } }

section Arrivals

variable {a : Aligner} {b : Barrier} {ends : Nat → Bool} {cs cs' : List Nat}

/-- A channel that ends does not bring the barrier. -/
theorem not_ends {c : Nat} (mem : c ∈ cs) (barrier : ends c = false) :
    ¬∀ c ∈ cs, ends c = true := fun ended =>
  Bool.false_ne_true (barrier.symm.trans (ended c mem))

theorem Gathered.unique {r r' : List Notice × Aligner} (h : Gathered a b ends cs r)
    (h' : Gathered a b ends cs r') : r.1 = r'.1 ∧ r.2.untimed = r'.2.untimed := by
  cases h with
  | silent ended =>
    cases h' with
    | silent => exact ⟨rfl, rfl⟩
    | waiting mem barrier => exact absurd ended (not_ends mem barrier)
    | complete mem barrier => exact absurd ended (not_ends mem barrier)
  | waiting mem barrier missing =>
    cases h' with
    | silent ended => exact absurd ended (not_ends mem barrier)
    | waiting => exact ⟨rfl, rfl⟩
    | complete _ _ covers => exact absurd covers missing
  | complete mem barrier covers =>
    cases h' with
    | silent ended => exact absurd ended (not_ends mem barrier)
    | waiting _ _ missing => exact absurd covers missing
    | complete => exact ⟨rfl, rfl⟩

theorem Gathered.notices_eq {r : List Notice × Aligner} (h : Gathered a b ends cs r) :
    r.1 = if (∃ c ∈ cs, ends c = false) ∧ a.Covers cs then [Notice.complete b] else [] := by
  cases h with
  | silent ended =>
    rw [if_neg]
    rintro ⟨⟨c, mem, barrier⟩, -⟩
    exact not_ends mem barrier ended
  | waiting _ _ missing => rw [if_neg fun h => missing h.2]
  | complete mem barrier covers => rw [if_pos ⟨⟨_, mem, barrier⟩, covers⟩]

/-- On each of the channels `cs`, which are open, the barrier `b` arrives or the channel ends.  An
aligner that has nothing in flight and has seen no checkpoint as new as `b`'s is in the same state
afterwards whatever the order, and sends the same notices: it completes the checkpoint once if the
barrier arrived and no open channel is missing, and nothing otherwise. -/
theorem arrivals_commute (idle : a.inFlight = none) (policy : a.settings.closePolicy = .complete)
    (newer : ∀ l, a.latest = some l → l < b.id) (plain : b.isCancel = false)
    (distinct : cs.Nodup) (opened : ∀ c ∈ cs, c < a.channels ∧ a.isClosed c = false)
    (perm : cs.Perm cs') :
    let r := a.run (cs.map (arrival b ends))
    let r' := a.run (cs'.map (arrival b ends))
    r.2.untimed = r'.2.untimed ∧ r.1 = r'.1 ∧
      r.1 = if (∃ c ∈ cs, ends c = false) ∧ a.Covers cs then [Notice.complete b] else [] := by
  intro r r'
  have gathered : Gathered a b ends cs r := gathered_run idle policy newer plain distinct opened
  have gathered' : Gathered a b ends cs' r' :=
    gathered_run idle policy newer plain (perm.nodup_iff.mp distinct) fun c hc =>
      opened c (perm.mem_iff.mpr hc)
  obtain ⟨notices, state⟩ := gathered.unique (gathered'.perm perm.symm)
  exact ⟨state, notices, gathered.notices_eq⟩

/-- One channel has ended and the checkpoint 3 was given up, with an item still to be replayed. -/
def idleCalls : List Operation :=
  [.close 2, .store (.buffer 0 [1]), .offer 1 (.barrier (.plain 3 0)),
    .offer 0 (.barrier ⟨3, 0, Barrier.cancelBit⟩)]

/-- The barrier of the checkpoint 5 arrives on the channel 0, and two others end.  If they end
first, the barrier completes the checkpoint at once. -/
theorem arrivals_commute_ending :
    let a := (Aligner.run { closed := List.replicate 4 false } idleCalls).2
    let ends : Nat → Bool := fun c => c != 0
    let r := a.run ([1, 3, 0].map (arrival (.plain 5 0) ends))
    let r' := a.run ([0, 1, 3].map (arrival (.plain 5 0) ends))
    r.2.counters.lastWait = some .instant ∧ r'.2.counters.lastWait = some .measured ∧
      r.2.untimed = r'.2.untimed ∧ r.1 = r'.1 ∧ r.1 = [.complete (.plain 5 0)] := by
  intro a ends r r'
  have order : [1, 3, 0].Perm [0, 1, 3] := by decide
  obtain ⟨state, same, notices⟩ := arrivals_commute (a := a) (b := .plain 5 0)
    (show a.inFlight = none by decide) (by decide) (by decide) rfl (by decide) (by decide) order
  exact ⟨by decide, by decide, state, same, notices⟩

end Arrivals

end Aligner

end StreamCheckpoint
