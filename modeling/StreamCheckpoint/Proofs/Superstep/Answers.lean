import Mathlib.Data.List.DropRight
import Mathlib.Data.List.Induction
import StreamCheckpoint.Proofs.Superstep.Tracker

/-! What a tracker answers to an event, after any calls.  The two flags of a channel do not last
equally long: that it has ended stays, and that it has reached the end of the superstep is forgotten
when the next one begins.  So every answer can be read off the calls, those since the last superstep
began apart (`handle_reports`). -/

namespace StreamCheckpoint

/-- A call of a tracker. -/
inductive TrackerCall
  | handle (channel : Nat) (e : Event)
  | startNext
  | subscribe (kind : Nat)
deriving DecidableEq, Repr

namespace TrackerCall

/-- The event of a call, and the channel that it is said to have arrived on. -/
def event? : TrackerCall → Option (Nat × Event)
  | handle c e => some (c, e)
  | _ => none

def kind? : TrackerCall → Option Nat
  | subscribe kind => some kind
  | _ => none

/-- The calls since the current superstep began. -/
def current (calls : List TrackerCall) : List TrackerCall := calls.rtakeWhile (· != .startNext)

/-- The calls before the current superstep began. -/
def earlier (calls : List TrackerCall) : List TrackerCall := calls.rdropWhile (· != .startNext)

/-- The kinds that were subscribed to, in order. -/
def subscribed (calls : List TrackerCall) : List Nat := calls.filterMap (·.kind?)

def events (calls : List TrackerCall) : List (Nat × Event) := calls.filterMap (·.event?)

/-- Every one of `n` channels has ended. -/
def InputOver (n : Nat) (calls : List TrackerCall) : Prop :=
  ∀ c < n, handle c .endOfPartition ∈ calls

/-- Some channel has reached the end of the current superstep, and every other one has too or has
ended at some time. -/
def SuperstepOver (n : Nat) (calls : List TrackerCall) : Prop :=
  (∃ c < n, handle c .endOfSuperstep ∈ current calls) ∧
    ∀ c < n, handle c .endOfPartition ∈ calls ∨ handle c .endOfSuperstep ∈ current calls

section Lists

variable {calls : List TrackerCall} {call : TrackerCall} {c : Nat} {e : Event}

theorem mem_events : (c, e) ∈ events calls ↔ handle c e ∈ calls := by
  rw [events, List.mem_filterMap]
  constructor
  · rintro ⟨call, hmem, hcall⟩
    cases call with
    | handle => cases hcall; exact hmem
    | _ => cases hcall
  · exact fun hmem => ⟨_, hmem, rfl⟩

theorem events_concat (calls : List TrackerCall) (call : TrackerCall) :
    events (calls ++ [call]) = events calls ++ call.event?.toList := by
  cases h : call.event? <;> simp [events, h]

theorem subscribed_concat (calls : List TrackerCall) (call : TrackerCall) :
    subscribed (calls ++ [call]) = subscribed calls ++ call.kind?.toList := by
  cases h : call.kind? <;> simp [subscribed, h]

theorem events_split (calls : List TrackerCall) :
    events (earlier calls) ++ events (current calls) = events calls := by
  rw [events, events, ← List.filterMap_append, earlier, current, List.rdropWhile_append_rtakeWhile]
  rfl

theorem current_concat (h : call ≠ .startNext) :
    current (calls ++ [call]) = current calls ++ [call] :=
  List.rtakeWhile_concat_pos _ _ _ (by simpa using h)

theorem earlier_concat (h : call ≠ .startNext) : earlier (calls ++ [call]) = earlier calls :=
  List.rdropWhile_concat_pos _ _ _ (by simpa using h)

theorem current_startNext (calls : List TrackerCall) : current (calls ++ [.startNext]) = [] :=
  List.rtakeWhile_concat_neg _ _ _ (by simp)

theorem earlier_startNext (calls : List TrackerCall) :
    earlier (calls ++ [.startNext]) = calls ++ [.startNext] :=
  List.rdropWhile_concat_neg _ _ _ (by simp)

end Lists

end TrackerCall

namespace SuperstepTracker

open TrackerCall

/-- Makes a call. -/
def perform (t : SuperstepTracker) : TrackerCall → SuperstepTracker
  | .handle c e => (t.handle c e).tracker
  | .startNext => t.startNext
  | .subscribe kind => t.subscribe kind

/-- A new tracker of `n` channels after some calls. -/
def after (n : Nat) (calls : List TrackerCall) : SuperstepTracker := calls.foldl perform (new n)

theorem after_concat (n : Nat) (calls : List TrackerCall) (call : TrackerCall) :
    after n (calls ++ [call]) = (after n calls).perform call := by
  rw [after, List.foldl_append]
  rfl

/-! ### Flags -/

theorem recalls_after (n : Nat) (calls : List TrackerCall) :
    (after n calls).Recalls n (events (earlier calls)) (events (current calls)) := by
  induction calls using List.reverseRecOn with
  | nil => exact recalls_new n
  | append_singleton calls call ih =>
    rw [after_concat]
    cases call with
    | handle c e =>
      have hne : TrackerCall.handle c e ≠ .startNext := nofun
      rw [earlier_concat hne, current_concat hne, events_concat]
      exact ih.handle c e
    | startNext =>
      have hevents : events (calls ++ [.startNext]) =
          events (earlier calls) ++ events (current calls) := by
        rw [events_concat, events_split]
        exact List.append_nil _
      rw [earlier_startNext, current_startNext, hevents]
      exact ih.startNext
    | subscribe kind =>
      have hne : TrackerCall.subscribe kind ≠ .startNext := nofun
      have hevents : events (current calls ++ [.subscribe kind]) = events (current calls) := by
        rw [events_concat]
        exact List.append_nil _
      rw [earlier_concat hne, current_concat hne, hevents]
      exact ⟨ih.partitions, ih.supersteps, ih.ended, ih.arrived⟩

theorem channels_after (n : Nat) (calls : List TrackerCall) : (after n calls).channels = n :=
  (recalls_after n calls).partitions

theorem isFinished_after {n : Nat} {calls : List TrackerCall} :
    (after n calls).isFinished = true ↔ InputOver n calls := by
  rw [(recalls_after n calls).isFinished_iff, events_split]
  exact forall₂_congr fun c _ => mem_events

theorem isSuperstepOver_after {n : Nat} {calls : List TrackerCall} :
    (after n calls).isSuperstepOver = true ↔ SuperstepOver n calls := by
  rw [(recalls_after n calls).isSuperstepOver_iff, Complete, events_split]
  simp only [mem_events, SuperstepOver, or_comm]

/-! ### Subscribers -/

theorem subscriptions_handle (t : SuperstepTracker) (c : Nat) (e : Event) :
    (t.handle c e).tracker.subscriptions = t.subscriptions := by
  unfold handle
  split
  · cases e <;> rfl
  · rfl

/-- Subscribers are numbered in the order in which they came. -/
theorem subscriptions_after (n : Nat) (calls : List TrackerCall) :
    (after n calls).subscriptions = (subscribed calls).zipIdx.map fun k => ⟨k.1, k.2⟩ := by
  induction calls using List.reverseRecOn with
  | nil => rfl
  | append_singleton calls call ih =>
    rw [after_concat, subscribed_concat]
    cases call with
    | handle c e =>
      show ((after n calls).handle c e).tracker.subscriptions = _
      rw [subscriptions_handle, ih]
      simp [kind?]
    | startNext =>
      show (after n calls).subscriptions = _
      rw [ih]
      simp [kind?]
    | subscribe kind =>
      show (after n calls).subscriptions ++ [⟨kind, (after n calls).subscriptions.length⟩] = _
      rw [ih]
      simp [kind?, List.zipIdx_append]

/-- The subscribers of a kind are given its events in the order in which they subscribed, each of
them once. -/
theorem deliveries_after (n : Nat) (calls : List TrackerCall) (c kind : Nat) (payload : Bytes) :
    (((after n calls).deliveries c kind payload).map (·.subscriber)).Pairwise (· < ·) ∧
      ∀ d, d ∈ (after n calls).deliveries c kind payload ↔
        ∃ i, (subscribed calls)[i]? = some kind ∧ d = ⟨i, kind, c, payload⟩ := by
  have hdeliveries : (after n calls).deliveries c kind payload =
      ((subscribed calls).zipIdx.filter (·.1 == kind)).map fun k => ⟨k.2, kind, c, payload⟩ := by
    rw [deliveries, subscriptions_after, List.filter_map, List.map_map]
    rfl
  rw [hdeliveries]
  constructor
  · have hnumbers : ((subscribed calls).zipIdx.map Prod.snd).Pairwise (· < ·) := by
      rw [List.zipIdx_map_snd]
      exact List.pairwise_lt_range'
    rw [List.map_map]
    exact hnumbers.sublist (List.filter_sublist.map _)
  · intro d
    simp only [List.mem_map, List.mem_filter, Prod.exists, List.mk_mem_zipIdx_iff_getElem?,
      beq_iff_eq]
    constructor
    · rintro ⟨_, i, ⟨hi, rfl⟩, rfl⟩
      exact ⟨i, hi, rfl⟩
    · rintro ⟨i, hi, rfl⟩
      exact ⟨kind, i, ⟨hi, rfl⟩, rfl⟩

/-! ### Answers -/

section InRange

variable {t : SuperstepTracker} {c : Nat} (hc : c < t.channels) (e : Event)
include hc

theorem answer_of_lt : (t.handle c e).answer = .ok (match e with
    | .endOfPartition =>
      if (t.handle c e).tracker.isFinished then .finished
      else if (t.handle c e).tracker.isSuperstepOver then .endOfSuperstep else .proceed
    | .endOfSuperstep =>
      if (t.handle c e).tracker.isSuperstepOver then .endOfSuperstep else .proceed
    | _ => .proceed) := by
  unfold handle
  rw [if_pos hc]
  cases e <;> rfl

theorem deliveries_of_lt : (t.handle c e).deliveries = match e with
    | .custom kind payload => t.deliveries c kind payload
    | _ => [] := by
  unfold handle
  rw [if_pos hc]
  cases e <;> rfl

end InRange

theorem handle_of_le {t : SuperstepTracker} {c : Nat} (hc : t.channels ≤ c) (e : Event) :
    t.handle c e = ⟨.error (.channelOutOfRange c t.channels), [], t⟩ := by
  unfold handle
  exact if_neg (Nat.not_lt.2 hc)

/-- Only the ends of channels and of supersteps are kept track of. -/
theorem tracker_of_other (t : SuperstepTracker) (c : Nat) {e : Event} (hp : e ≠ .endOfPartition)
    (hs : e ≠ .endOfSuperstep) : (t.handle c e).tracker = t := by
  unfold handle
  split
  · cases e with
    | endOfPartition => exact absurd rfl hp
    | endOfSuperstep => exact absurd rfl hs
    | _ => rfl
  · rfl

section Reports

variable {n : Nat} (calls : List TrackerCall) {c : Nat} (e : Event)

/-- What the answer to an event is, the event counted. -/
theorem outcome_after (hc : c < n) :
    ∃ outcome, ((after n calls).handle c e).answer = .ok outcome ∧
      (outcome = .finished ↔ e = .endOfPartition ∧ InputOver n (calls ++ [.handle c e])) ∧
      (outcome = .endOfSuperstep ↔
        (e = .endOfSuperstep ∨ e = .endOfPartition ∧ ¬InputOver n (calls ++ [.handle c e])) ∧
          SuperstepOver n (calls ++ [.handle c e])) := by
  have hnow : ((after n calls).handle c e).tracker = after n (calls ++ [.handle c e]) :=
    (after_concat n calls (.handle c e)).symm
  have hanswer := answer_of_lt (t := after n calls) (by rwa [channels_after]) e
  rw [hnow] at hanswer
  refine ⟨_, hanswer, ?_⟩
  generalize calls ++ [TrackerCall.handle c e] = now
  cases e with
  | endOfPartition =>
    by_cases hinput : InputOver n now <;> by_cases hover : SuperstepOver n now <;>
      simp [isFinished_after, isSuperstepOver_after, hinput, hover]
  | endOfSuperstep =>
    by_cases hover : SuperstepOver n now <;> simp [isSuperstepOver_after, hover]
  | _ => simp

theorem mem_deliveries_handle (hc : c < n) (d : Delivery) :
    d ∈ ((after n calls).handle c e).deliveries ↔ ∃ kind payload i, e = .custom kind payload ∧
      (subscribed calls)[i]? = some kind ∧ d = ⟨i, kind, c, payload⟩ := by
  rw [deliveries_of_lt (t := after n calls) (by rwa [channels_after]) e]
  cases e with
  | custom kind payload =>
    rw [(deliveries_after n calls c kind payload).2]
    constructor
    · rintro ⟨i, hi, hd⟩
      exact ⟨kind, payload, i, rfl, hi, hd⟩
    · rintro ⟨_, _, i, he, hi, hd⟩
      cases he
      exact ⟨i, hi, hd⟩
  | _ => simp

theorem pairwise_deliveries_handle (hc : c < n) :
    (((after n calls).handle c e).deliveries.map (·.subscriber)).Pairwise (· < ·) := by
  rw [deliveries_of_lt (t := after n calls) (by rwa [channels_after]) e]
  cases e with
  | custom kind payload => exact (deliveries_after n calls c kind payload).1
  | _ => exact .nil

end Reports

/-- After any calls, a tracker of `n` channels answers an event on one of them as follows, the event
counted.  The input is finished if the event ends a channel and every channel has ended.  The
superstep is over if the event ends a channel, the input not being finished, or brings a channel to
the end of the superstep, and since the last superstep began some channel has reached its end, and
every other one has too or has ended at some time.  An event of the application is given to the
subscribers of its kind, to each once and in the order in which they came, and to nobody else, and
it leaves the tracker as it was.  An event on any other channel is refused, and nothing changes. -/
theorem handle_reports (n : Nat) (calls : List TrackerCall) (c : Nat) (e : Event) :
    let t := after n calls
    let r := t.handle c e
    let now := calls ++ [.handle c e]
    (n ≤ c → r = ⟨.error (.channelOutOfRange c n), [], t⟩) ∧
    (c < n →
      (∃ outcome, r.answer = .ok outcome ∧
        (outcome = .finished ↔ e = .endOfPartition ∧ InputOver n now) ∧
        (outcome = .endOfSuperstep ↔
          (e = .endOfSuperstep ∨ e = .endOfPartition ∧ ¬InputOver n now) ∧
            SuperstepOver n now)) ∧
      (r.deliveries.map (·.subscriber)).Pairwise (· < ·) ∧
      (∀ d, d ∈ r.deliveries ↔ ∃ kind payload i, e = .custom kind payload ∧
        (subscribed calls)[i]? = some kind ∧ d = ⟨i, kind, c, payload⟩) ∧
      (e ≠ .endOfPartition → e ≠ .endOfSuperstep → r.tracker = t)) := by
  intro t r now
  have hchannels : t.channels = n := channels_after n calls
  refine ⟨fun hc => ?_, fun hc => ⟨outcome_after calls e hc, pairwise_deliveries_handle calls e hc,
    mem_deliveries_handle calls e hc, fun hp hs => tracker_of_other t c hp hs⟩⟩
  show t.handle c e = _
  rw [handle_of_le (hchannels.symm ▸ hc), hchannels]

end SuperstepTracker

end StreamCheckpoint
