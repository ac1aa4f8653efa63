import StreamCheckpoint.Alignment.Notice
import StreamCheckpoint.Channel.Item
import StreamCheckpoint.ErrorCode

/-! Alignment of checkpoint barriers over the channels of one task.  Between a channel's barrier and
the moment when every live channel has delivered it, what the channel delivers belongs to a later
snapshot and is held back.  When the alignment ends, complete or given up, everything held back is
released for replay, in front of what an earlier alignment released and the task has not read yet:
the task reads its gate only when nothing waits for replay, so whatever is held back during a replay
came from the front of it and is older than the rest.

Every operation returns what it answers, the notices that it sends, in order, and the next state. -/

namespace StreamCheckpoint

/-- What an alignment comes to when a channel ends and every other live channel is blocked. -/
inductive ClosePolicy
  /-- The ended channel counts as aligned, and the checkpoint is complete. -/
  | complete
  | abort
deriving DecidableEq, Repr

structure AlignmentSettings where
  /-- The most bytes that one alignment may hold back, if there is a limit. -/
  byteLimit : Option Nat := none
  /-- What becomes of an alignment whose last missing channel ends. -/
  closePolicy : ClosePolicy := .complete
deriving DecidableEq, Repr

/-- A violation of the channel protocol. -/
inductive AlignmentError
  /-- The index is not below the number of channels. -/
  | channelOutOfRange (channel channels : Nat)
  /-- The channel delivered the barrier of the alignment in flight a second time. -/
  | duplicateBarrier (channel checkpoint : Nat)
  /-- An aligner was asked for without channels. -/
  | noChannels
deriving DecidableEq, Repr

def AlignmentError.message : AlignmentError → String
  | channelOutOfRange channel channels =>
    ErrorCode.channelOutOfRange.label
      s!"channel index {channel} out of range for {channels} channels"
  | duplicateBarrier channel checkpoint =>
    ErrorCode.duplicateBarrier.label s!"channel {channel} delivered barrier {checkpoint} twice"
  | noChannels =>
    ErrorCode.invalidChannelCount.label "barrier buffer requires at least one channel"

/-- An alignment in flight. -/
structure Alignment where
  barrier : Barrier
  /-- For each channel, whether it has delivered the barrier. -/
  blocked : List Bool
  received : Nat
  /-- What blocked channels delivered since, oldest first. -/
  queue : List Item
  /-- The bytes that the queue counts against the limit. -/
  bytes : Nat
deriving DecidableEq, Repr

/-- How long the last completed alignment took. -/
inductive Wait
  /-- No time: it was complete when its first barrier arrived. -/
  | instant
  /-- The time between two readings of a clock, which is not kept here. -/
  | measured
deriving DecidableEq, Repr

structure AlignmentCounters where
  completed : Nat := 0
  /-- Checkpoints that were given up. -/
  aborted : Nat := 0
  /-- Barriers that came too late to matter. -/
  stale : Nat := 0
  lastWait : Option Wait := none
deriving DecidableEq, Repr

/-- Aligns the barriers of one task's channels. -/
structure Aligner where
  /-- For each channel, whether it has ended. -/
  closed : List Bool
  settings : AlignmentSettings := {}
  listener : Listener := .silent
  inFlight : Option Alignment := none
  /-- What ended alignments released and the task has not read yet, oldest first. -/
  replay : List Item := []
  /-- The newest checkpoint of which a barrier was seen. -/
  latest : Option Nat := none
  counters : AlignmentCounters := {}
deriving DecidableEq, Repr

/-- What an operation on an aligner did. -/
structure Reaction (α : Type) where
  answer : α
  notices : List Notice
  aligner : Aligner

/-- What becomes of an event that was offered to an aligner. -/
inductive Offered
  /-- It is no barrier; the task handles it. -/
  | forward
  /-- It is a barrier, and the aligner has dealt with it. -/
  | consumed
deriving DecidableEq, Repr

/-- The number of channels whose barrier an alignment needs: those that are open, and those that
delivered it before they ended. -/
def requiredChannels (closed blocked : List Bool) : Nat :=
  (closed.zip blocked).countP fun c => !c.1 || c.2

namespace Aligner

/-- An aligner for `channels` channels, which has seen nothing yet. -/
def new (channels : Nat) (settings : AlignmentSettings := {}) : Except AlignmentError Aligner :=
  if channels = 0 then .error .noChannels
  else .ok { closed := List.replicate channels false, settings }

def channels (a : Aligner) : Nat := a.closed.length

/-- The number of channels that have not ended. -/
def openChannels (a : Aligner) : Nat := a.closed.countP (!·)

def isAligning (a : Aligner) : Bool := a.inFlight.isSome

/-- The checkpoint that is being aligned. -/
def current (a : Aligner) : Option Nat := a.inFlight.map (·.barrier.id)

/-- The number of channels that delivered the barrier of the alignment in flight. -/
def alignedCount (a : Aligner) : Nat := a.inFlight.elim 0 (·.received)

def heldBytes (a : Aligner) : Nat := a.inFlight.elim 0 (·.bytes)

def queue (a : Aligner) : List Item := a.inFlight.elim [] (·.queue)

/-- Whether the channel delivered the barrier that is being aligned, so that what it delivers is
to be held back. -/
def isBlocked (a : Aligner) (channel : Nat) : Bool :=
  a.inFlight.elim false (·.blocked.getD channel false)

def setListener (a : Aligner) (listener : Listener) : Aligner := { a with listener }

/-- Ends the alignment `f` in flight: its queue goes in front of what waits for replay. -/
def release (a : Aligner) (f : Alignment) : Aligner :=
  { a with inFlight := none, replay := f.queue ++ a.replay }

/-- Ends the alignment `f` in flight with its checkpoint complete. -/
def complete (a : Aligner) (f : Alignment) : List Notice × Aligner :=
  ([.complete f.barrier],
    { a.release f with
      counters := { a.counters with
        completed := a.counters.completed + 1, lastWait := some .measured } })

/-- Ends the alignment `f` in flight with its checkpoint given up. -/
def abort (a : Aligner) (f : Alignment) (reason : AbortReason) : List Notice × Aligner :=
  ([.aborted f.barrier.id reason],
    { a.release f with counters := { a.counters with aborted := a.counters.aborted + 1 } })

/-- Begins the alignment of `b`, which arrived on `channel` while no alignment was in flight.  It
ends at once if `b` abandons its checkpoint or no other channel is open. -/
def start (a : Aligner) (channel : Nat) (b : Barrier) : List Notice × Aligner :=
  let blocked := (List.replicate a.channels false).set channel true
  if b.isCancel then
    ([.aborted b.id .cancelled],
      { a with
        latest := some b.id
        counters := { a.counters with aborted := a.counters.aborted + 1 } })
  else if requiredChannels a.closed blocked ≤ 1 then
    ([.complete b],
      { a with
        latest := some b.id
        counters := { a.counters with
          completed := a.counters.completed + 1, lastWait := some .instant } })
  else
    ([], { a with
      latest := some b.id
      inFlight := some { barrier := b, blocked, received := 1, queue := [], bytes := 0 } })

/-- Adds `channel`, which delivered the barrier `b` of the alignment `f` in flight.  The alignment
ends if `b` abandons the checkpoint or no other channel is missing. -/
def join (a : Aligner) (f : Alignment) (channel : Nat) (b : Barrier) :
    Reaction (Except AlignmentError Unit) :=
  if b.isCancel then
    let (notices, a) := a.abort f .cancelled
    ⟨.ok (), notices, a⟩
  else if f.blocked.getD channel false then
    ⟨.error (.duplicateBarrier channel b.id), [], a⟩
  else
    let f := { f with blocked := f.blocked.set channel true, received := f.received + 1 }
    if requiredChannels a.closed f.blocked ≤ f.received then
      let (notices, a) := a.complete f
      ⟨.ok (), notices, a⟩
    else ⟨.ok (), [], { a with inFlight := some f }⟩

def skipStale (a : Aligner) : Aligner :=
  { a with counters := { a.counters with stale := a.counters.stale + 1 } }

/-- Deals with the barrier `b` on `channel`.  A barrier of the checkpoint in flight joins it, one of
a newer checkpoint replaces it, and one that is not newer than every checkpoint seen is skipped. -/
def offerBarrier (a : Aligner) (channel : Nat) (b : Barrier) :
    Reaction (Except AlignmentError Unit) :=
  match a.inFlight with
  | some f =>
    if b.id = f.barrier.id then a.join f channel b
    else if f.barrier.id < b.id then
      let (ended, a) := a.abort f (.newerCheckpoint b.id)
      let (begun, a) := a.start channel b
      ⟨.ok (), ended ++ begun, a⟩
    else ⟨.ok (), [], a.skipStale⟩
  | none =>
    if a.latest.any (b.id ≤ ·) then ⟨.ok (), [], a.skipStale⟩
    else
      let (notices, a) := a.start channel b
      ⟨.ok (), notices, a⟩

/-- Offers an event that arrived on `channel`: a barrier is dealt with, and any other event is the
task's to handle. -/
def offer (a : Aligner) (channel : Nat) (e : Event) : Reaction (Except AlignmentError Offered) :=
  if channel < a.channels then
    match e with
    | .barrier b =>
      let r := a.offerBarrier channel b
      ⟨r.answer.map fun _ => .consumed, r.notices, r.aligner⟩
    | _ => ⟨.ok .forward, [], a⟩
  else ⟨.error (.channelOutOfRange channel a.channels), [], a⟩

/-- Holds back an item of a blocked channel, and gives the checkpoint up if that is more than the
limit allows.  Without an alignment in flight the item waits for replay, so that it is not lost. -/
def store (a : Aligner) (item : Item) : List Notice × Aligner :=
  match a.inFlight with
  | some f =>
    let f := { f with queue := f.queue ++ [item], bytes := f.bytes + item.size }
    if a.settings.byteLimit.any (· < f.bytes) then a.abort f .byteLimit
    else ([], { a with inFlight := some f })
  | none => ([], { a with replay := a.replay ++ [item] })

def replayNext (a : Aligner) : Option Item × Aligner :=
  match a.replay with
  | [] => (none, a)
  | item :: rest => (some item, { a with replay := rest })

def replayAll (a : Aligner) : List Item × Aligner := (a.replay, { a with replay := [] })

/-- Marks `channel` as ended.  It no longer counts towards an alignment, so the one in flight ends
if every other open channel is blocked. -/
def closeChannel (a : Aligner) (channel : Nat) : Reaction (Except AlignmentError Unit) :=
  if channel < a.channels then
    if a.closed.getD channel false then ⟨.ok (), [], a⟩
    else
      let a := { a with closed := a.closed.set channel true }
      match a.inFlight with
      | some f =>
        if requiredChannels a.closed f.blocked ≤ f.received then
          let (notices, a) :=
            match a.settings.closePolicy with
            | .complete => a.complete f
            | .abort => a.abort f (.channelClosed channel)
          ⟨.ok (), notices, a⟩
        else ⟨.ok (), [], a⟩
      | none => ⟨.ok (), [], a⟩
  else ⟨.error (.channelOutOfRange channel a.channels), [], a⟩

/-- Marks the channels `cs` as ended, one after the other. -/
def closeEach (a : Aligner) : List Nat → List Notice × Aligner
  | [] => ([], a)
  | c :: cs =>
    let r := a.closeChannel c
    let (notices, a) := r.aligner.closeEach cs
    (r.notices ++ notices, a)

/-- Marks every channel as ended, in the order of the indices. -/
def closeAll (a : Aligner) : List Notice × Aligner := a.closeEach (List.range a.channels)

/-- Drops everything that is held back or waits for replay, and the alignment in flight with it,
without a notice. -/
def cleanup (a : Aligner) : Aligner := { a with inFlight := none, replay := [] }

end Aligner

end StreamCheckpoint
