import StreamCheckpoint.Alignment.Aligner
import StreamCheckpoint.Summary

/-! Events other than barriers.  An iterative job runs in supersteps, and a superstep ends when
every channel has reached its end or has ended altogether; the input is finished when every channel
has ended.  Events of the application go to the subscribers of their kind. -/

namespace StreamCheckpoint

/-- What handling an event means for the task. -/
inductive EventOutcome
  /-- Nothing: the task reads on. -/
  | proceed
  /-- Every live channel has reached the end of the superstep. -/
  | endOfSuperstep
  | finished
deriving DecidableEq, Repr

/-- A subscriber's interest in the events of a kind. -/
structure Subscription where
  kind : Nat
  subscriber : Nat
deriving DecidableEq, Repr

/-- A custom event that is handed to a subscriber. -/
structure Delivery where
  subscriber : Nat
  kind : Nat
  channel : Nat
  payload : Bytes
deriving DecidableEq, Repr

/-- Keeps track of which channels have reached the end of the superstep and which have ended. -/
structure SuperstepTracker where
  /-- For each channel, whether it has ended. -/
  partitionEnded : List Bool
  /-- For each channel, whether it has reached the end of the current superstep. -/
  superstepEnded : List Bool
  superstep : Nat := 0
  subscriptions : List Subscription := []
deriving DecidableEq, Repr

/-- What handling an event did. -/
structure Handled where
  answer : Except AlignmentError EventOutcome
  /-- What subscribers were given, in order. -/
  deliveries : List Delivery
  tracker : SuperstepTracker

namespace SuperstepTracker

/-- A tracker of `channels` channels in the first superstep. -/
def new (channels : Nat) : SuperstepTracker :=
  { partitionEnded := List.replicate channels false
    superstepEnded := List.replicate channels false }

def channels (t : SuperstepTracker) : Nat := t.partitionEnded.length

/-- Whether every channel has ended. -/
def isFinished (t : SuperstepTracker) : Bool := t.partitionEnded.all id

/-- Whether some channel has reached the end of the superstep, and every other one has too or has
ended. -/
def isSuperstepOver (t : SuperstepTracker) : Bool :=
  t.superstepEnded.any id &&
    (t.superstepEnded.zip t.partitionEnded).all fun ended => ended.1 || ended.2

/-- Adds a subscriber to the events of `kind`.  Subscribers are numbered in the order in which they
come. -/
def subscribe (t : SuperstepTracker) (kind : Nat) : SuperstepTracker :=
  { t with subscriptions := t.subscriptions ++ [⟨kind, t.subscriptions.length⟩] }

/-- The number of kinds that have subscribers. -/
def subscribedKinds (t : SuperstepTracker) : Nat :=
  (t.subscriptions.map (·.kind)).eraseDups.length

/-- What the subscribers are given when a custom event of `kind` arrives on `channel`. -/
def deliveries (t : SuperstepTracker) (channel kind : Nat) (payload : Bytes) : List Delivery :=
  (t.subscriptions.filter (·.kind == kind)).map fun s => ⟨s.subscriber, kind, channel, payload⟩

/-- Handles an event that arrived on `channel`. -/
def handle (t : SuperstepTracker) (channel : Nat) (e : Event) : Handled :=
  if channel < t.channels then
    match e with
    | .endOfPartition =>
      let t := { t with partitionEnded := t.partitionEnded.set channel true }
      ⟨.ok (if t.isFinished then .finished
        else if t.isSuperstepOver then .endOfSuperstep else .proceed), [], t⟩
    | .endOfSuperstep =>
      let t := { t with superstepEnded := t.superstepEnded.set channel true }
      ⟨.ok (if t.isSuperstepOver then .endOfSuperstep else .proceed), [], t⟩
    | .custom kind payload => ⟨.ok .proceed, t.deliveries channel kind payload, t⟩
    | .barrier _ => ⟨.ok .proceed, [], t⟩
  else ⟨.error (.channelOutOfRange channel t.channels), [], t⟩

/-- Begins the next superstep. -/
def startNext (t : SuperstepTracker) : SuperstepTracker :=
  { t with
    superstepEnded := t.superstepEnded.map fun _ => false
    superstep := t.superstep + 1 }

def summary (t : SuperstepTracker) : String :=
  StreamCheckpoint.summary "ReaderEventHandler" [
    .flags "end_of_partition" t.partitionEnded,
    .flags "end_of_superstep" t.superstepEnded,
    .number "superstep" t.superstep,
    .number "subscribed_kinds" t.subscribedKinds]

end SuperstepTracker

end StreamCheckpoint
