import StreamCheckpoint.Proofs.Alignment.Queue
import StreamCheckpoint.Proofs.Reading.WellFormed

/-! Reading with one list.  A scheduler keeps all that is to be dealt with in the order in which the
gate delivers it, and again and again deals with the first item of a channel that is not blocked.
It neither stores an item nor releases one: passing over an item of a blocked channel leaves it
where it is and only counts its size.  A scheduler shares decoders, alignment protocol and handler
with a reader, and is what a reader should look like from outside. -/

namespace StreamCheckpoint

variable {α : Type}

/-- Reads from a list. -/
structure Scheduler (α : Type) where
  /-- Decoders, alignment protocol and handler.  Nothing is held back in it. -/
  reader : Reader α
  /-- What is to be dealt with, in the order of the gate. -/
  pending : List Item
  /-- How many items were passed over since the alignment in flight began; they are the first
  ones of `pending`. -/
  passed : Nat := 0
  /-- What they count against the byte limit. -/
  counter : Nat := 0
  sound : reader.aligner.Sound

/-- What a turn of a scheduler did. -/
structure Scheduled (α : Type) where
  answer : Option (Except ReadError (Reading α))
  activity : List (Activity α)
  scheduler : Scheduler α

section Sound

theorem Aligner.Sound.offer {a : Aligner} (h : a.Sound) (channel : Nat) (e : Event) :
    (a.offer channel e).aligner.Sound := by
  unfold Aligner.offer
  split
  · next hc =>
    split
    · exact (a.offers channel _).sound h hc
    · exact h
  · exact h

theorem Aligner.Sound.closeChannel {a : Aligner} (h : a.Sound) (channel : Nat) :
    (a.closeChannel channel).aligner.Sound := by
  by_cases hc : channel < a.channels
  · exact (Aligner.closes hc).sound h
  · rw [Aligner.closeChannel, if_neg hc]
    exact h

namespace Reader

variable {r : Reader α}

theorem sound_dispatchEvent (h : r.aligner.Sound) (channel : Nat) (e : Event) :
    (r.dispatchEvent channel e).reader.aligner.Sound := by
  have hhandle : ∀ {q : Reader α}, q.aligner.Sound → (q.handle channel e).reader.aligner.Sound := by
    intro q hq
    rw [(q.handle_reader channel e).2]
    exact hq
  unfold dispatchEvent
  split
  · simp only
    split
    · exact h.offer _ _
    · exact h.offer _ _
  · simp only
    split
    · exact h.closeChannel _
    · exact hhandle (h.closeChannel _)
  · exact hhandle h

theorem sound_dispatch (h : r.aligner.Sound) (item : Item) :
    (r.dispatch item).reader.aligner.Sound := by
  unfold dispatch
  split
  · split
    · next hb => exact (r.aligner.stores item).sound h hb
    · split
      · exact h
      · exact sound_dispatchEvent h _ _
  · exact h

end Reader

end Sound

namespace Scheduler

/-- The items that have to be passed over to come to one of a channel that is not blocked. -/
def front (s : Scheduler α) : List Item :=
  s.pending.takeWhile fun i => s.reader.aligner.isBlocked i.channel

/-- The rest of the list, which begins with the first item that can be dealt with. -/
def behind (s : Scheduler α) : List Item :=
  s.pending.dropWhile fun i => s.reader.aligner.isBlocked i.channel

/-- The counter when they are passed over; those that were passed over before count only once. -/
def total (s : Scheduler α) : Nat := s.counter + sizes (s.front.drop s.passed)

/-- The alignment in flight, if passing over the front counts more than the limit allows. -/
def overflow? (s : Scheduler α) : Option Alignment :=
  if s.reader.aligner.settings.byteLimit.any (· < s.total) then s.reader.aligner.inFlight else none

/-- Gives the alignment `f` up.  The scan restarts from the front. -/
def giveUp (s : Scheduler α) (f : Alignment) : Scheduled α :=
  let ended := s.reader.aligner.abort f .byteLimit
  ⟨none, ended.1.map .notice,
    { reader := { s.reader with aligner := ended.2 }
      pending := s.pending
      sound := Aligner.sound_of_idle rfl }⟩

/-- Deals with `item`, which comes between the front and `rest`.  What was passed over stays
passed over as long as the same alignment is in flight. -/
def process (s : Scheduler α) (item : Item) (rest : List Item) : Scheduled α :=
  let t := s.reader.dispatch item
  let stays := t.reader.aligner.current = s.reader.aligner.current
  ⟨t.answer, t.activity,
    { reader := t.reader
      pending := s.front ++ rest
      passed := if stays then s.front.length else 0
      counter := if stays then s.total else 0
      sound := Reader.sound_dispatch s.sound item }⟩

/-- Closes the channels when nothing can be dealt with.  The scan restarts from the front, unless
nothing is pending. -/
def settle (s : Scheduler α) : Scheduled α :=
  let c := s.reader.aligner.settle
  let reader := { s.reader with aligner := c.2 }
  if s.pending.isEmpty then
    ⟨some (.ok .finished), c.1.map .notice,
      { reader := { reader with isFinished := true }
        pending := s.pending
        sound := Aligner.sound_of_idle (Aligner.settle_spec s.sound).1 }⟩
  else
    ⟨none, c.1.map .notice,
      { reader
        pending := s.pending
        sound := Aligner.sound_of_idle (Aligner.settle_spec s.sound).1 }⟩

/-- Scans the list for an item that can be dealt with. -/
def advance (s : Scheduler α) : Scheduled α :=
  match s.overflow? with
  | some f => s.giveUp f
  | none =>
    match s.behind with
    | item :: rest => s.process item rest
    | [] => s.settle

/-- Asks the decoder of the current channel for a record. -/
def decode [Record α] (s : Scheduler α) : Scheduler α :=
  { s with
    reader := s.reader.decodeCurrent.reader
    sound := by rw [s.reader.decodeCurrent_reader.2]; exact s.sound }

/-- One turn: the decoder of the current channel is asked first. -/
def turn [Record α] (s : Scheduler α) : Scheduled α :=
  match s.reader.decodeCurrent.answer with
  | some answer => ⟨some answer, s.reader.decodeCurrent.activity, s.decode⟩
  | none => s.decode.advance

section Work

/-- A bound on the number of turns without an answer. -/
def work (s : Scheduler α) : Nat :=
  2 * s.pending.length + if s.reader.aligner.isAligning then 1 else 0

theorem work_bounds (s : Scheduler α) :
    2 * s.pending.length ≤ s.work ∧ s.work ≤ 2 * s.pending.length + 1 := by
  unfold work
  split <;> omega

theorem front_append_behind (s : Scheduler α) : s.front ++ s.behind = s.pending :=
  List.takeWhile_append_dropWhile

/-- Only an alignment in flight keeps items from being dealt with. -/
theorem pending_eq_nil (s : Scheduler α) (idle : s.reader.aligner.isAligning = false)
    (h : s.behind = []) : s.pending = [] := by
  have hidle : s.reader.aligner.inFlight = none := by simpa [Aligner.isAligning] using idle
  cases hp : s.pending with
  | nil => rfl
  | cons item rest =>
    rw [behind, hp, List.dropWhile_cons_of_neg (by simp [Aligner.isBlocked_of_idle hidle])] at h
    cases h

theorem work_settle (s : Scheduler α) (hb : s.behind = []) (h : s.settle.answer = none) :
    s.settle.scheduler.work < s.work := by
  unfold settle at h ⊢
  cases hp : s.pending.isEmpty with
  | true => simp [hp] at h
  | false =>
    cases ha : s.reader.aligner.isAligning with
    | false =>
      rw [s.pending_eq_nil ha hb] at hp
      cases hp
    | true =>
      have hclosed : s.reader.aligner.settle.2.isAligning = false := by
        rw [Aligner.isAligning, (Aligner.settle_spec s.sound).1]
        rfl
      simp [work, ha, hclosed]

theorem work_advance (s : Scheduler α) (h : s.advance.answer = none) :
    s.advance.scheduler.work < s.work := by
  have hpending := congrArg List.length s.front_append_behind
  unfold advance at h ⊢
  cases ho : s.overflow? with
  | some f =>
    have hf : s.reader.aligner.isAligning = true := by
      unfold overflow? at ho
      split at ho
      · rw [Aligner.isAligning, ho, Option.isSome_some]
      · cases ho
    simp only [work, hf, if_true]
    show 2 * s.pending.length + 0 < _
    omega
  | none =>
    simp only [ho] at h ⊢
    cases hb : s.behind with
    | cons item rest =>
      rw [hb, List.length_append, List.length_cons] at hpending
      have hp : (s.process item rest).scheduler.pending.length = s.front.length + rest.length :=
        List.length_append
      have hnew := (s.process item rest).scheduler.work_bounds
      have hold := s.work_bounds
      show (s.process item rest).scheduler.work < s.work
      omega
    | nil =>
      simp only [hb] at h ⊢
      exact s.work_settle hb h

theorem work_turn [Record α] (s : Scheduler α) (h : s.turn.answer = none) :
    s.turn.scheduler.work < s.work := by
  have hw : s.decode.work = s.work := by
    simp only [work, decode, s.reader.decodeCurrent_reader.2]
  unfold turn at h ⊢
  cases ha : s.reader.decodeCurrent.answer with
  | some answer => simp [ha] at h
  | none =>
    simp only [ha] at h ⊢
    rw [← hw]
    exact s.decode.work_advance h

end Work

/-- Reads, turn after turn, until there is an answer. -/
def read [Record α] (s : Scheduler α) : Reply α × Scheduler α :=
  match h : s.turn.answer with
  | some answer => (⟨answer, s.turn.activity⟩, s.turn.scheduler)
  | none =>
    have : s.turn.scheduler.work < s.work := s.work_turn h
    let (reply, last) := s.turn.scheduler.read
    (⟨reply.answer, s.turn.activity ++ reply.activity⟩, last)
termination_by s.work

theorem read_of_some [Record α] {s : Scheduler α} {answer : Except ReadError (Reading α)}
    (h : s.turn.answer = some answer) :
    s.read = (⟨answer, s.turn.activity⟩, s.turn.scheduler) := by
  rw [read]
  split
  · next h' => rw [Option.some.inj (h.symm.trans h')]
  · next h' => rw [h] at h'; cases h'

theorem read_of_none [Record α] {s : Scheduler α} (h : s.turn.answer = none) :
    s.read = (⟨s.turn.scheduler.read.1.answer,
      s.turn.activity ++ s.turn.scheduler.read.1.activity⟩, s.turn.scheduler.read.2) := by
  rw [read]
  split
  · next h' => rw [h] at h'; cases h'
  · rfl

/-- The next record or boundary.  After the end of the input nothing more is read. -/
def next [Record α] (s : Scheduler α) : Reply α × Scheduler α :=
  if s.reader.isFinished then (⟨.ok .finished, []⟩, s) else s.read

/-- Begins the next superstep, after the end of one. -/
def startNextSuperstep (s : Scheduler α) : Scheduler α :=
  { s with
    reader := s.reader.startNextSuperstep
    sound := by rw [Reader.aligner_startNextSuperstep]; exact s.sound }

/-- Answers calls, one after the other. -/
def serve [Record α] (s : Scheduler α) : List Call → List (Reply α) × Scheduler α
  | [] => ([], s)
  | .next :: calls =>
    let (replies, last) := s.next.2.serve calls
    (s.next.1 :: replies, last)
  | .startNextSuperstep :: calls => s.startNextSuperstep.serve calls

/-- `s'` is where a scheduler can be in the middle of a call, and `t` is what happened since the
call was made. -/
inductive Turns [Record α] : Scheduler α → List (Activity α) → Scheduler α → Prop
  | here (s : Scheduler α) : Turns s [] s
  | more {s s' : Scheduler α} {t : List (Activity α)} (unfinished : s.reader.isFinished = false)
      (quiet : s.turn.answer = none) (later : Turns s.turn.scheduler t s') :
      Turns s (s.turn.activity ++ t) s'

theorem sound_new {channels : Nat} {settings : ReaderSettings} {listener : Listener}
    {r : Reader α} (h : Reader.new (.ofScript channels []) settings listener = .ok r) :
    r.aligner.Sound := by
  obtain ⟨-, rfl⟩ := Reader.new_spec h
  exact Aligner.sound_of_idle rfl

/-- A scheduler for the items of `script`, with a tracker of supersteps. -/
def new (channels : Nat) (script : List Item) (settings : ReaderSettings := {})
    (listener : Listener := .silent) : Except ReadError (Scheduler α) :=
  match h : Reader.new (.ofScript channels []) settings listener with
  | .error e => .error e
  | .ok reader => .ok { reader, pending := script, sound := sound_new h }

end Scheduler

end StreamCheckpoint
