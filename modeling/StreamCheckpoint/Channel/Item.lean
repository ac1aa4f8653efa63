import StreamCheckpoint.Bytes
import StreamCheckpoint.Channel.Barrier

/-! What travels on a channel: buffers of record bytes and control events, in an order that is kept
from end to end.  Nothing is said about the order of items of different channels. -/

namespace StreamCheckpoint

/-- A control event. -/
inductive Event
  | barrier (b : Barrier)
  /-- The channel's producer is done. -/
  | endOfPartition
  /-- The channel's producer reached the end of the current superstep. -/
  | endOfSuperstep
  /-- An event of the application, for the subscribers of its kind. -/
  | custom (kind : Nat) (payload : Bytes)
deriving DecidableEq, Repr

namespace Event

def barrier? : Event → Option Barrier
  | barrier b => some b
  | _ => none

def isBarrier (e : Event) : Bool := e.barrier?.isSome

end Event

/-- A buffer of record bytes or a control event. -/
inductive Content
  /-- Bytes of framed records; a record may begin or end in another buffer. -/
  | buffer (bytes : Bytes)
  | event (e : Event)
deriving DecidableEq, Repr

/-- What a gate delivers: content and the index of the channel that it came on. -/
structure Item where
  channel : Nat
  content : Content
deriving DecidableEq, Repr

namespace Item

def buffer (channel : Nat) (bytes : Bytes) : Item := ⟨channel, .buffer bytes⟩

def event (channel : Nat) (e : Event) : Item := ⟨channel, .event e⟩

def isBuffer (i : Item) : Bool :=
  match i.content with
  | .buffer _ => true
  | .event _ => false

def event? (i : Item) : Option Event :=
  match i.content with
  | .buffer _ => none
  | .event e => some e

/-- What an event without a payload counts: a barrier's number, timestamp and flags, of eight
bytes each. -/
def eventSize : Nat := 24

/-- What the item counts against the byte limit of an alignment: the bytes that it carries, or
`eventSize` if it is an event without a payload. -/
def size (i : Item) : Nat :=
  match i.content with
  | .buffer bytes => bytes.length
  | .event (.custom _ payload) => payload.length
  | .event _ => eventSize

end Item

end StreamCheckpoint
