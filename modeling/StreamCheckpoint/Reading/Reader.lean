import StreamCheckpoint.Alignment.Aligner
import StreamCheckpoint.Gate.Feed
import StreamCheckpoint.Record.Decoder
import StreamCheckpoint.Superstep

/-! The reader of a task: items from the gate go in, records come out, and barriers are aligned on
the way.  Reading goes in turns.  In a turn the reader first asks the decoder of the current channel
for a record; if there is none, it takes the next item, from what waits for replay or else from the
gate, and deals with it.  A new item is taken only when the current buffer is used up, so no barrier
overtakes data that came before it on its channel.

Every turn also lists its activity, in order: what was handed to decoders, to the aligner and to the
event handler, and what came back from them. -/

namespace StreamCheckpoint

/-- Why a reader could not go on. -/
inductive ReadError
  | alignment (e : AlignmentError)
  | gate (e : GateError)
  | decode (e : DecodeError)
deriving DecidableEq, Repr

def ReadError.message : ReadError → String
  | alignment e => s!"alignment error: {e.message}"
  | gate e => s!"input gate error: {e.message}"
  | decode e => s!"decode error: {e.message}"

/-- What reading comes to. -/
inductive Reading (α : Type)
  | record (value : α)
  /-- Every live channel has reached the end of the superstep. -/
  | endOfSuperstep
  /-- The input is exhausted. -/
  | finished
deriving DecidableEq, Repr

/-- Who handles the events that are no barriers. -/
inductive Handler
  | tracker (t : SuperstepTracker)
  /-- An observer, which looks at every event and lets the task read on. -/
  | observer
deriving DecidableEq, Repr

structure ReaderSettings where
  alignment : AlignmentSettings := {}
  decoder : DecoderSettings := {}
deriving DecidableEq, Repr

/-- Something that happens while a reader reads. -/
inductive Activity (α : Type)
  /-- The decoder of `channel` got a buffer. -/
  | fed (channel : Nat) (bytes : Bytes)
  | record (channel : Nat) (value : α)
  /-- The decoder of `channel` refused a record. -/
  | refused (channel : Nat) (e : DecodeError)
  /-- The aligner was offered a barrier of `channel`. -/
  | offered (channel : Nat) (b : Barrier)
  | notice (n : Notice)
  | handled (channel : Nat) (e : Event)
  | delivered (d : Delivery)
deriving DecidableEq, Repr

/-- Reads records of type `α` from a gate. -/
structure Reader (α : Type) where
  feed : Feed
  /-- A decoder for each channel, since parts of records of different channels never mix. -/
  decoders : List (Decoder α)
  aligner : Aligner
  handler : Handler
  /-- The channel whose decoder has a buffer. -/
  current : Option Nat := none
  /-- Whether the reader has answered that the input is exhausted. -/
  isFinished : Bool := false
deriving DecidableEq, Repr

/-- What a turn of a reader did. -/
structure Turn (α : Type) where
  /-- What reading came to, or `none` if it takes another turn. -/
  answer : Option (Except ReadError (Reading α))
  activity : List (Activity α)
  reader : Reader α

namespace Reader

variable {α : Type}

/-- A reader made of the given parts.  There must be as many decoders as the gate has channels, and
the aligner must have as many. -/
def ofParts (feed : Feed) (decoders : List (Decoder α)) (aligner : Aligner) (handler : Handler) :
    Except ReadError (Reader α) :=
  match [decoders.length, aligner.channels].find? (· != feed.channels) with
  | some n =>
    .error (.alignment (.channelOutOfRange (min n feed.channels) (max n feed.channels)))
  | none => .ok { feed, decoders, aligner, handler }

/-- A reader for the channels of a gate, with a tracker of supersteps. -/
def new (feed : Feed) (settings : ReaderSettings := {}) (listener : Listener := .silent) :
    Except ReadError (Reader α) :=
  match Aligner.new feed.channels settings.alignment with
  | .error e => .error (.alignment e)
  | .ok aligner =>
    ofParts feed (List.replicate feed.channels (.new settings.decoder))
      (aligner.setListener listener) (.tracker (.new feed.channels))

/-- Asks the decoder of the current channel for a record. -/
def decodeCurrent [Record α] (r : Reader α) : Turn α :=
  match r.current with
  | none => ⟨none, [], r⟩
  | some channel =>
    match r.decoders[channel]? with
    | none => ⟨none, [], r⟩
    | some d =>
      let (answer, d) := d.next
      let r := { r with decoders := r.decoders.set channel d }
      match answer with
      | .error e => ⟨some (.error (.decode e)), [.refused channel e], r⟩
      | .ok (.record v) => ⟨some (.ok (.record v)), [.record channel v], r⟩
      | .ok (.lastRecord v) =>
        ⟨some (.ok (.record v)), [.record channel v], { r with current := none }⟩
      | .ok .bufferEnd => ⟨none, [], { r with current := none }⟩
      | .ok .noBuffer => ⟨none, [], r⟩

/-- Lets the handler handle an event of `channel`. -/
def handle (r : Reader α) (channel : Nat) (e : Event) : Turn α :=
  match r.handler with
  | .observer => ⟨none, [.handled channel e], r⟩
  | .tracker t =>
    let h := t.handle channel e
    let activity := .handled channel e :: h.deliveries.map .delivered
    let r := { r with handler := .tracker h.tracker }
    match h.answer with
    | .error e => ⟨some (.error (.alignment e)), activity, r⟩
    | .ok .proceed => ⟨none, activity, r⟩
    | .ok .endOfSuperstep => ⟨some (.ok .endOfSuperstep), activity, r⟩
    | .ok .finished => ⟨some (.ok .finished), activity, { r with isFinished := true }⟩

/-- Deals with an event of a channel that is not blocked: the aligner takes a barrier, and the
handler gets any other event, after the aligner has learned of the end of a channel. -/
def dispatchEvent (r : Reader α) (channel : Nat) (e : Event) : Turn α :=
  match e with
  | .barrier b =>
    let o := r.aligner.offer channel e
    let activity := .offered channel b :: o.notices.map .notice
    let r := { r with aligner := o.aligner }
    match o.answer with
    | .error err => ⟨some (.error (.alignment err)), activity, r⟩
    | .ok _ => ⟨none, activity, r⟩
  | .endOfPartition =>
    let c := r.aligner.closeChannel channel
    let activity := c.notices.map .notice
    let r := { r with aligner := c.aligner }
    match c.answer with
    | .error err => ⟨some (.error (.alignment err)), activity, r⟩
    | .ok _ =>
      let t := r.handle channel e
      { t with activity := activity ++ t.activity }
  | _ => r.handle channel e

/-- Deals with an item: it is held back if its channel is blocked, and otherwise a buffer goes to
the channel's decoder and an event is dispatched. -/
def dispatch (r : Reader α) (item : Item) : Turn α :=
  if item.channel < r.decoders.length then
    if r.aligner.isBlocked item.channel then
      let (notices, aligner) := r.aligner.store item
      ⟨none, notices.map .notice, { r with aligner }⟩
    else
      match item.content with
      | .buffer bytes =>
        ⟨none, [.fed item.channel bytes],
          { r with
            decoders := r.decoders.modify item.channel (·.setBuffer bytes)
            current := some item.channel }⟩
      | .event e => r.dispatchEvent item.channel e
  else ⟨some (.error (.alignment (.channelOutOfRange item.channel r.decoders.length))), [], r⟩

/-- Deals with an exhausted gate.  The alignment in flight cannot be completed by channels that
never ended, so every channel is marked as ended; the input is exhausted if that releases nothing
for replay. -/
def settle (r : Reader α) : Turn α :=
  let (notices, aligner) := if r.aligner.isAligning then r.aligner.closeAll else ([], r.aligner)
  let r := { r with aligner }
  if aligner.replay.isEmpty then
    ⟨some (.ok .finished), notices.map .notice, { r with isFinished := true }⟩
  else ⟨none, notices.map .notice, r⟩

/-- Takes the next item, from what waits for replay or else from the gate, and deals with it. -/
def advance (r : Reader α) : Turn α :=
  match r.aligner.replay with
  | item :: rest => { r with aligner := { r.aligner with replay := rest } }.dispatch item
  | [] =>
    let (arrival, feed) := r.feed.next
    let r := { r with feed }
    match arrival with
    | .item item => r.dispatch item
    | .exhausted => r.settle
    | .failed e => ⟨some (.error (.gate e)), [], r⟩

def turn [Record α] (r : Reader α) : Turn α :=
  let t := r.decodeCurrent
  match t.answer with
  | some _ => t
  | none => t.reader.advance

/-- Begins the next superstep, after the end of one. -/
def startNextSuperstep (r : Reader α) : Reader α :=
  match r.handler with
  | .tracker t => { r with handler := .tracker t.startNext }
  | .observer => r

/-- Adds a subscriber to the custom events of `kind`.  An observer has no subscribers. -/
def subscribe (r : Reader α) (kind : Nat) : Reader α :=
  match r.handler with
  | .tracker t => { r with handler := .tracker (t.subscribe kind) }
  | .observer => r

/-- Drops what decoders have read and what is held back, as when a task is cancelled. -/
def clearBuffers (r : Reader α) : Reader α :=
  { r with
    decoders := r.decoders.map (·.clear)
    current := none
    aligner := r.aligner.cleanup }

end Reader

end StreamCheckpoint
