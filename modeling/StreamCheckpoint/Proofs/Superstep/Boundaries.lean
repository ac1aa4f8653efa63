import StreamCheckpoint.Proofs.Superstep.Tracker

/-! How many ends of supersteps a tracker reports.  Each of `n` channels delivers `S` ends of
supersteps and then ends, and the channels interleave in any way.  The tracker ends a superstep as
soon as no channel is missing, so it reports as many ends as the events can be divided into pieces
to each of which every channel contributes.  That is at most `S`, and less when a channel runs
ahead: a flag remembers one end of a superstep, not two (`boundaries_eq_iff`). -/

namespace StreamCheckpoint

/-- What `channel` delivers, in order. -/
def eventsOf (channel : Nat) (events : List (Nat × Event)) : List Event :=
  (events.filter (·.1 == channel)).map (·.2)

section EventsOf

variable {c : Nat} {e : Event} {xs ys : List (Nat × Event)}

@[simp] theorem eventsOf_append : eventsOf c (xs ++ ys) = eventsOf c xs ++ eventsOf c ys := by
  simp [eventsOf]

@[simp] theorem mem_eventsOf : e ∈ eventsOf c xs ↔ (c, e) ∈ xs := by
  simp [eventsOf]

end EventsOf

/-- Each of the channels `0 … n - 1` delivers the ends of `S` supersteps and then ends. -/
structure Interleaves (n S : Nat) (events : List (Nat × Event)) : Prop where
  range : ∀ x ∈ events, x.1 < n
  delivered : ∀ c < n,
    eventsOf c events = List.replicate S .endOfSuperstep ++ [.endOfPartition]

namespace Interleaves

variable {n S c : Nat} {events before after : List (Nat × Event)}

theorem kind (h : Interleaves n S events) {x : Nat × Event} (hx : x ∈ events) :
    x.2 = .endOfSuperstep ∨ x.2 = .endOfPartition := by
  have hm : x.2 ∈ eventsOf x.1 events := mem_eventsOf.mpr hx
  rw [h.delivered _ (h.range x hx), List.mem_append, List.mem_singleton] at hm
  exact hm.imp_left List.eq_of_mem_replicate

/-- A channel delivers nothing after its end. -/
theorem eventsOf_eq_nil (h : Interleaves n S (before ++ after)) (hc : c < n)
    (hend : (c, .endOfPartition) ∈ before) : eventsOf c after = [] := by
  refine Classical.byContradiction fun hne => ?_
  have hdrop := congrArg List.dropLast (h.delivered c hc)
  rw [eventsOf_append, List.dropLast_append_of_ne_nil hne, List.dropLast_concat] at hdrop
  have hm : .endOfPartition ∈ List.replicate S Event.endOfSuperstep := by
    rw [← hdrop]
    exact List.mem_append_left _ (mem_eventsOf.mpr hend)
  cases List.eq_of_mem_replicate hm

/-- All channels have ended after the last event, and not before it. -/
theorem allEnded_iff (h : Interleaves n S (before ++ after)) :
    SuperstepTracker.AllEnded n before ↔ after = [] := by
  constructor
  · intro hall
    cases after with
    | nil => rfl
    | cons x rest =>
      have hx : x.1 < n := h.range x (by simp)
      have hm : x.2 ∈ eventsOf x.1 (x :: rest) := mem_eventsOf.mpr List.mem_cons_self
      rw [h.eventsOf_eq_nil hx (hall _ hx)] at hm
      cases hm
  · rintro rfl c hc
    rw [List.append_nil] at h
    rw [← mem_eventsOf, h.delivered c hc]
    exact List.mem_append_right _ (List.mem_singleton_self _)

/-- Some channel is open until the last event. -/
theorem exists_last (h : Interleaves n S events) (hne : events ≠ []) : ∃ c < n,
    ∀ before after, events = before ++ after → after ≠ [] → (c, .endOfPartition) ∉ before := by
  obtain ⟨init, x, rfl⟩ := (List.eq_nil_or_concat events).resolve_left hne
  rw [List.concat_eq_append] at h
  have hopen : ¬SuperstepTracker.AllEnded n init := by simp [h.allEnded_iff]
  simp only [SuperstepTracker.AllEnded, Classical.not_forall] at hopen
  obtain ⟨c, hc, hinit⟩ := hopen
  refine ⟨c, hc, fun before after e hafter hend => hinit ?_⟩
  have hdrop := congrArg List.dropLast e
  rw [List.concat_eq_append, List.dropLast_concat, List.dropLast_append_of_ne_nil hafter] at hdrop
  rw [hdrop]
  exact List.mem_append_left _ hend

end Interleaves

namespace SuperstepTracker

/-- The tracker after an event: the next superstep begins right after the end of one. -/
def advance (t : SuperstepTracker) (x : Nat × Event) : SuperstepTracker :=
  match (t.handle x.1 x.2).answer with
  | .ok .endOfSuperstep => (t.handle x.1 x.2).tracker.startNext
  | _ => (t.handle x.1 x.2).tracker

/-- What is answered to the events, one after the other. -/
def answers : SuperstepTracker → List (Nat × Event) → List (Except AlignmentError EventOutcome)
  | _, [] => []
  | t, x :: events => (t.handle x.1 x.2).answer :: (t.advance x).answers events

/-- After `past`, the events divide into `k` complete pieces and a rest that is not empty. -/
def Divides (n : Nat) : Nat → List (Nat × Event) → List (Nat × Event) → Prop
  | 0, _, _ => True
  | k + 1, past, events => ∃ piece rest, events = piece ++ rest ∧ rest ≠ [] ∧
      Complete n past piece ∧ Divides n k (past ++ piece) rest

section Divides

variable {n k c : Nat} {past piece events rest : List (Nat × Event)} {x : Nat × Event}

theorem Divides.cons (hcomplete : Complete n past piece) (hrest : rest ≠ [])
    (h : Divides n k (past ++ piece) rest) : Divides n (k + 1) past (piece ++ rest) :=
  ⟨piece, rest, rfl, hrest, hcomplete, h⟩

/-- A first piece may begin earlier. -/
theorem Divides.extend (h : Divides n k (past ++ piece) rest) :
    Divides n k past (piece ++ rest) := by
  cases k with
  | zero => trivial
  | succ k =>
    obtain ⟨first, after, rfl, hafter, hcomplete, hdiv⟩ := h
    rw [← List.append_assoc]
    refine .cons (fun c hc => ?_) hafter (by rwa [← List.append_assoc])
    rw [← List.append_assoc]
    exact (hcomplete c hc).imp_left (List.mem_append_right _)

/-- Ending the first piece as early as possible loses nothing. -/
theorem Divides.shorten (hshort : ¬Complete n past piece)
    (h : Divides n (k + 1) past (piece ++ x :: rest)) :
    rest ≠ [] ∧ Divides n k (past ++ (piece ++ [x])) rest := by
  obtain ⟨first, after, heq, hafter, hcomplete, hdiv⟩ := h
  obtain ⟨more, hfirst, hx⟩ | ⟨more, hpiece, -⟩ := List.append_eq_append_iff.mp heq
  · cases more with
    | nil =>
      rw [List.append_nil] at hfirst
      exact absurd (hfirst ▸ hcomplete) hshort
    | cons y more =>
      obtain ⟨rfl, rfl⟩ := List.cons.inj hx
      refine ⟨fun e => hafter (List.append_eq_nil_iff.mp e).2, .extend ?_⟩
      rw [hfirst] at hdiv
      simpa using hdiv
  · exact absurd (hpiece ▸ hcomplete.mono more) hshort

/-- A channel that is open until the last event takes part in every piece. -/
theorem Divides.le_count (h : Divides n k past events) (hc : c < n)
    (hopen : ∀ before after, events = before ++ after → after ≠ [] →
      (c, .endOfPartition) ∉ past ++ before) :
    k ≤ (eventsOf c events).count .endOfSuperstep := by
  induction k generalizing past events with
  | zero => exact Nat.zero_le _
  | succ k ih =>
    obtain ⟨piece, rest, rfl, hrest, hcomplete, hdiv⟩ := h
    have hpiece : 0 < (eventsOf c piece).count .endOfSuperstep := by
      rw [List.count_pos_iff, mem_eventsOf]
      exact (hcomplete c hc).resolve_right (hopen _ _ rfl hrest)
    have hle := ih hdiv fun before after e hafter => by
      rw [List.append_assoc]
      exact hopen (piece ++ before) after (by rw [e, List.append_assoc]) hafter
    rw [eventsOf_append, List.count_append]
    omega

end Divides

/-- The channel that is open until the last event delivers the ends of `S` supersteps. -/
theorem Divides.le_of_interleaves {n S k : Nat} {events : List (Nat × Event)}
    (hdiv : Divides n k [] events) (h : Interleaves n S events) : k ≤ S := by
  cases k with
  | zero => exact Nat.zero_le _
  | succ k =>
    have hne : events ≠ [] := by
      obtain ⟨piece, rest, rfl, hrest, -⟩ := hdiv
      exact List.append_ne_nil_of_right_ne_nil _ hrest
    obtain ⟨c, hc, hopen⟩ := h.exists_last hne
    have hle := hdiv.le_count hc hopen
    rw [h.delivered c hc] at hle
    simpa using hle

section Run

variable {t : SuperstepTracker} {n c : Nat} {e : Event} {past piece : List (Nat × Event)}

/-- What one event does while some channel goes on: either no channel is missing, and the next
superstep begins, or the current one goes on. -/
theorem Recalls.advance_of_open (h : t.Recalls n past piece) (hc : c < n)
    (he : e = .endOfSuperstep ∨ e = .endOfPartition)
    (hopen : ¬AllEnded n (past ++ (piece ++ [(c, e)]))) :
    (Complete n past (piece ++ [(c, e)]) ∧ (t.handle c e).answer = .ok .endOfSuperstep ∧
      (t.advance (c, e)).Recalls n (past ++ (piece ++ [(c, e)])) []) ∨
    (¬Complete n past (piece ++ [(c, e)]) ∧ (t.handle c e).answer = .ok .proceed ∧
      (t.advance (c, e)).Recalls n past (piece ++ [(c, e)])) := by
  have hafter := h.handle c e
  obtain ⟨outcome, hanswer, hfinished, hiff⟩ := h.answer_of_open hc he hopen
  unfold advance
  cases outcome with
  | endOfSuperstep =>
    rw [hanswer]
    exact .inl ⟨hiff.mp rfl, rfl, hafter.startNext⟩
  | proceed =>
    rw [hanswer]
    exact .inr ⟨fun hcomplete => (nomatch hiff.mpr hcomplete), rfl, hafter⟩
  | finished => exact absurd rfl hfinished

/-- From any point on, the superstep being incomplete and the input ending with its last event, the
tracker reports the end of a superstep as often as the rest can be divided, and then that the input
is finished. -/
theorem Recalls.answers_eq {events : List (Nat × Event)} (h : t.Recalls n past piece)
    (hpiece : ¬Complete n past piece)
    (hkind : ∀ x ∈ events, x.1 < n ∧ (x.2 = .endOfSuperstep ∨ x.2 = .endOfPartition))
    (hend : ∀ before after, events = before ++ after →
      (AllEnded n (past ++ (piece ++ before)) ↔ after = [])) :
    ∃ outcomes : List EventOutcome, t.answers events = outcomes.map .ok ++ [.ok .finished] ∧
      .finished ∉ outcomes ∧
      Divides n (outcomes.count .endOfSuperstep) past (piece ++ events) ∧
      ∀ k, Divides n k past (piece ++ events) → k ≤ outcomes.count .endOfSuperstep := by
  induction events generalizing t past piece with
  | nil =>
    have hall := (hend [] [] rfl).mpr rfl
    rw [List.append_nil] at hall
    exact absurd (fun c hc => .inr (hall c hc)) hpiece
  | cons x rest ih =>
    obtain ⟨c, e⟩ := x
    obtain ⟨⟨hc, he⟩, hkinds⟩ := List.forall_mem_cons.mp hkind
    have hnow : AllEnded n (past ++ (piece ++ [(c, e)])) ↔ rest = [] := hend [(c, e)] rest rfl
    have hlater : ∀ before after, rest = before ++ after →
        (AllEnded n (past ++ (piece ++ [(c, e)] ++ before)) ↔ after = []) := by
      rintro before after rfl
      rw [List.append_assoc piece]
      exact hend ((c, e) :: before) after rfl
    by_cases hrest : rest = []
    · subst hrest
      obtain rfl | rfl := he
      · have hbefore : ¬AllEnded n (past ++ piece) := by simpa using hend [] _ rfl
        refine absurd (fun d hd => ?_) hbefore
        have hd' := hnow.mpr rfl d hd
        rwa [← List.append_assoc, mem_concat_of_ne (by simp)] at hd'
      · refine ⟨[], ?_, List.not_mem_nil, trivial, fun k hk => ?_⟩
        · rw [answers, answers, h.answer_of_allEnded hc (hnow.mpr rfl)]
          rfl
        · cases k with
          | zero => exact Nat.zero_le _
          | succ k => exact absurd rfl (hk.shorten hpiece).1
    · obtain ⟨hcomplete, hanswer, hrecalls⟩ | ⟨hnot, hanswer, hrecalls⟩ :=
        h.advance_of_open hc he (mt hnow.mp hrest)
      · obtain ⟨outcomes, hans, hfin, hdiv, hmax⟩ := ih hrecalls
          (by rw [complete_nil]; exact mt hnow.mp hrest) hkinds
          (by simpa only [List.append_assoc, List.nil_append] using hlater)
        refine ⟨.endOfSuperstep :: outcomes, ?_, by simpa using hfin, ?_, fun k hk => ?_⟩
        · rw [answers, hanswer, hans]
          rfl
        · rw [List.count_cons_self, List.append_cons]
          exact .cons hcomplete hrest hdiv
        · rw [List.count_cons_self]
          cases k with
          | zero => exact Nat.zero_le _
          | succ k => exact Nat.succ_le_succ (hmax k (hk.shorten hpiece).2)
      · obtain ⟨outcomes, hans, hfin, hdiv, hmax⟩ := ih hrecalls hnot hkinds hlater
        rw [← List.append_cons] at hdiv hmax
        refine ⟨.proceed :: outcomes, ?_, by simpa using hfin, ?_, ?_⟩
        · rw [answers, hanswer, hans]
          rfl
        · rwa [List.count_cons_of_ne (by decide)]
        · rwa [List.count_cons_of_ne (by decide)]

end Run

/-- For every interleaving of `n` channels with `S` supersteps each, the tracker answers every
event without an error, and says that the input is finished at the last one and not before.  It
reports at most `S` ends of supersteps, and all of them exactly if the events divide into `S`
pieces, and a rest, such that in each piece every channel reaches the end of a superstep or has
ended. -/
theorem boundaries_eq_iff {n S : Nat} {events : List (Nat × Event)} (hn : 0 < n)
    (h : Interleaves n S events) :
    ∃ outcomes : List EventOutcome,
      (new n).answers events = outcomes.map .ok ++ [.ok .finished] ∧ .finished ∉ outcomes ∧
      outcomes.count .endOfSuperstep ≤ S ∧
      (outcomes.count .endOfSuperstep = S ↔ Divides n S [] events) := by
  have hnothing : ¬Complete n [] [] := fun hcomplete => by simpa using hcomplete 0 hn
  obtain ⟨outcomes, hanswers, hfinished, hdiv, hmax⟩ := (recalls_new n).answers_eq hnothing
    (fun x hx => ⟨h.range x hx, h.kind hx⟩) (by rintro before after rfl; exact h.allEnded_iff)
  have hle := hdiv.le_of_interleaves h
  refine ⟨outcomes, hanswers, hfinished, hle, fun hS => hS ▸ hdiv, fun hS => ?_⟩
  exact Nat.le_antisymm hle (hmax S hS)

/-- Two channels with two supersteps each.  Neither reaches the end of the second before the other
reaches the end of the first. -/
def inStep : List (Nat × Event) :=
  [(0, .endOfSuperstep), (1, .endOfSuperstep), (1, .endOfSuperstep), (0, .endOfSuperstep),
    (1, .endOfPartition), (0, .endOfPartition)]

theorem boundaries_eq_iff_inStep : (0 < 2 ∧ Interleaves 2 2 inStep) ∧
    ∃ outcomes : List EventOutcome,
      (new 2).answers inStep = outcomes.map .ok ++ [.ok .finished] ∧ .finished ∉ outcomes ∧
      outcomes.count .endOfSuperstep ≤ 2 ∧
      (outcomes.count .endOfSuperstep = 2 ↔ Divides 2 2 [] inStep) := by
  have h : Interleaves 2 2 inStep := ⟨by decide, by decide⟩
  exact ⟨⟨by decide, h⟩, boundaries_eq_iff (by decide) h⟩

/-- The same channels, but the first reaches the end of its second superstep before the other
reaches the end of the first. -/
def runsAhead : List (Nat × Event) :=
  [(0, .endOfSuperstep), (0, .endOfSuperstep), (1, .endOfSuperstep), (1, .endOfSuperstep),
    (1, .endOfPartition), (0, .endOfPartition)]

/-- Of two supersteps that both channels have reached the end of, one is reported. -/
theorem endOfSuperstep_lost : Interleaves 2 2 inStep ∧ Interleaves 2 2 runsAhead ∧
    (new 2).answers inStep = [.ok .proceed, .ok .endOfSuperstep, .ok .proceed, .ok .endOfSuperstep,
      .ok .proceed, .ok .finished] ∧
    (new 2).answers runsAhead = [.ok .proceed, .ok .proceed, .ok .endOfSuperstep, .ok .proceed,
      .ok .proceed, .ok .finished] :=
  ⟨⟨by decide, by decide⟩, ⟨by decide, by decide⟩, rfl, rfl⟩

end SuperstepTracker

end StreamCheckpoint
