import StreamCheckpoint.Gate.Channel

/-! What a task gets out of its gate, seen from the task: a finite sequence of answers, and one
answer that the gate gives for ever after. -/

namespace StreamCheckpoint

/-- The answers of a gate. -/
structure Feed where
  channels : Nat
  arrivals : List Arrival
  /-- The failure that the gate reports after the last of them, or `none` if it is exhausted. -/
  failure : Option GateError := none
deriving DecidableEq, Repr

namespace Feed

def next (f : Feed) : Arrival × Feed :=
  match f.arrivals with
  | a :: arrivals => (a, { f with arrivals })
  | [] =>
    match f.failure with
    | none => (.exhausted, f)
    | some e => (.failed e, f)

end Feed

/-- What a gate without writers answers until its queue is empty or every channel is finished, and
which channels are finished then. -/
def ChannelGate.drainQueue (finished : List Bool) : List Item → List Arrival × List Bool
  | [] => ([], finished)
  | item :: queue =>
    if finished.all id then ([], finished)
    else
      let (arrival, finished) := receive finished item
      let (arrivals, finished) := drainQueue finished queue
      (arrival :: arrivals, finished)

/-- The answers of a gate whose writers are gone: what is in its queue, and then, for ever, that it
is exhausted if every channel is finished or disconnected if not. -/
def ChannelGate.toFeed (g : ChannelGate) : Feed :=
  let (arrivals, finished) := drainQueue g.finished g.queue
  { channels := g.channels
    arrivals
    failure := if finished.all id then none else some (.disconnected (finished.countP (!·))) }

end StreamCheckpoint
