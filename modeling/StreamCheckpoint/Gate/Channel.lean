import StreamCheckpoint.Channel.Item
import StreamCheckpoint.ErrorCode

/-! An input gate within a process.  Every channel has a writer, and all writers share one queue of
bounded length, from which the task reads.  A call that has to wait for somebody else is not made;
it answers `wouldBlock` and changes nothing. -/

namespace StreamCheckpoint

/-- Why an input gate did not deliver. -/
inductive GateError
  /-- Every writer is gone, with `openChannels` channels that never ended. -/
  | disconnected (openChannels : Nat)
  /-- The channel delivered something after its end of partition. -/
  | channelClosed (channel : Nat)
  /-- The reading side is gone. -/
  | receiverDropped
  | noChannels
  /-- The transport below the gate failed. -/
  | transport (detail : String)
deriving DecidableEq, Repr

def GateError.message : GateError → String
  | disconnected openChannels =>
    ErrorCode.gateFailure.label
      s!"all writers disconnected with {openChannels} channel(s) still open"
  | channelClosed channel =>
    ErrorCode.gateChannelClosed.label s!"channel {channel} delivered data after end of partition"
  | receiverDropped => ErrorCode.gateFailure.label "input gate receiver dropped"
  | noChannels => ErrorCode.invalidChannelCount.label "input gate requires at least one channel"
  | transport detail => ErrorCode.gateFailure.label s!"I/O error: {detail}"

/-- What a gate answers when it is asked for the next item. -/
inductive Arrival
  | item (i : Item)
  /-- There will be no more items. -/
  | exhausted
  /-- The gate failed. -/
  | failed (e : GateError)
deriving DecidableEq, Repr

/-- A gate and its writers. -/
structure ChannelGate where
  /-- The most items that the queue holds. -/
  capacity : Nat
  /-- What was written and not read yet, oldest first. -/
  queue : List Item := []
  /-- For each channel, whether its end of partition was read. -/
  finished : List Bool
  /-- For each channel, whether somebody has its writer. -/
  writers : List Bool
  /-- Whether the task has the reading side. -/
  isOpen : Bool := true
deriving DecidableEq, Repr

/-- What an attempt to write comes to. -/
inductive Sent
  | sent
  /-- The gate refused. -/
  | refused (e : GateError)
  /-- The queue is full, so the writer would have to wait for the task. -/
  | wouldBlock
  /-- Nobody has the channel's writer. -/
  | noWriter
deriving DecidableEq, Repr

/-- What an attempt to read comes to. -/
inductive Received
  | arrival (a : Arrival)
  /-- The queue is empty, so the task would have to wait for a writer. -/
  | wouldBlock
  /-- The reading side is gone. -/
  | noGate
deriving DecidableEq, Repr

/-- What a gate answers when it takes `item` from its queue, and which channels are finished then.
An item after its channel's end of partition is lost. -/
def receive (finished : List Bool) (item : Item) : Arrival × List Bool :=
  if finished.getD item.channel false then (.failed (.channelClosed item.channel), finished)
  else if item.content = .event .endOfPartition then
    (.item item, finished.set item.channel true)
  else (.item item, finished)

namespace ChannelGate

/-- A gate with a writer for each channel and room for `capacity` items, or for one if `capacity`
is zero. -/
def new (channels capacity : Nat) : Except GateError ChannelGate :=
  if channels = 0 then .error .noChannels
  else .ok {
    capacity := max capacity 1
    finished := List.replicate channels false
    writers := List.replicate channels true }

def channels (g : ChannelGate) : Nat := g.finished.length

/-- Whether the end of partition of every channel was read. -/
def isFinished (g : ChannelGate) : Bool := g.finished.all id

def openChannels (g : ChannelGate) : Nat := g.finished.countP (!·)

def hasWriter (g : ChannelGate) (channel : Nat) : Bool := g.writers.getD channel false

/-- Writes `content` on `channel`. -/
def send (g : ChannelGate) (channel : Nat) (content : Content) : Sent × ChannelGate :=
  if !g.hasWriter channel then (.noWriter, g)
  else if !g.isOpen then (.refused .receiverDropped, g)
  else if g.capacity ≤ g.queue.length then (.wouldBlock, g)
  else (.sent, { g with queue := g.queue ++ [⟨channel, content⟩] })

/-- Gives up the writer of `channel`. -/
def dropWriter (g : ChannelGate) (channel : Nat) : ChannelGate :=
  { g with writers := g.writers.set channel false }

/-- Writes the end of partition on `channel` and gives up its writer, also when the gate refuses. -/
def close (g : ChannelGate) (channel : Nat) : Sent × ChannelGate :=
  let (s, g) := g.send channel (.event .endOfPartition)
  if s = .wouldBlock then (s, g) else (s, g.dropWriter channel)

def dropReader (g : ChannelGate) : ChannelGate := { g with isOpen := false, queue := [] }

def next (g : ChannelGate) : Received × ChannelGate :=
  if !g.isOpen then (.noGate, g)
  else if g.isFinished then (.arrival .exhausted, g)
  else
    match g.queue with
    | item :: queue =>
      let (arrival, finished) := receive g.finished item
      (.arrival arrival, { g with queue, finished })
    | [] =>
      if g.writers.any id then (.wouldBlock, g)
      else (.arrival (.failed (.disconnected g.openChannels)), g)

end ChannelGate

end StreamCheckpoint
