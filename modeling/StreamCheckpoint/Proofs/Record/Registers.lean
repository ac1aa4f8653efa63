import StreamCheckpoint.Record.Decoder

/-! A decoder in registers.  The length of a record is read, byte by byte, into four cells that are
filled again and again, and nothing ever empties them: only how many of them are filled is set back,
so that they hold bytes of lengths that were read long ago.  `Registers.decoder` is what matters of
the registers, and a call for a record does to it what it does to a decoder (`decoder_next`).  The
bytes that are left over are never read, also after the decoder was cleared (`answers_clear`). -/

namespace StreamCheckpoint

/-- A call of a decoder. -/
inductive DecoderCall
  | setBuffer (bytes : Bytes)
  | next
  /-- What is left of the buffer. -/
  | buffer
  | isUnfinished
  | clear
deriving DecidableEq, Repr

/-- What a decoder answers to a call. -/
inductive DecoderAnswer (α : Type)
  | fetched (answer : Except DecodeError (Fetch α))
  | buffer (bytes : Option Bytes)
  | unfinished (answer : Bool)

/-- A decoder as it is kept in memory. -/
structure Registers (α : Type) where
  /-- The most bytes that a record may have. -/
  limit : Nat
  buffer : Option Bytes := none
  /-- The cells for the bytes of a length, in which bytes of earlier lengths may be. -/
  cells : Bytes := List.replicate lengthBytes 0
  /-- The number of cells that are filled with the bytes of the length that is being read. -/
  filled : Nat := 0
  /-- The length of the record that is being read, if its length is known. -/
  length : Option Nat := none
  /-- The bytes of that record that came in earlier buffers. -/
  seen : Bytes := []
deriving DecidableEq, Repr

namespace Decoder

variable {α : Type} [Record α]

/-- Makes the calls one after the other, and lists what is answered. -/
def answers (d : Decoder α) : List DecoderCall → List (DecoderAnswer α)
  | [] => []
  | .setBuffer bytes :: calls => (d.setBuffer bytes).answers calls
  | .next :: calls => .fetched d.next.1 :: d.next.2.answers calls
  | .buffer :: calls => .buffer d.buffer :: d.answers calls
  | .isUnfinished :: calls => .unfinished d.isUnfinished :: d.answers calls
  | .clear :: calls => d.clear.answers calls

theorem limit_nextBody (d : Decoder α) (length : Nat) (seen bytes : Bytes) :
    (d.nextBody length seen bytes).2.limit = d.limit := by
  unfold nextBody
  simp only
  split
  · rfl
  · split <;> rfl

theorem limit_next (d : Decoder α) : d.next.2.limit = d.limit := by
  unfold next
  split
  · rfl
  · split
    · exact d.limit_nextBody _ _ _
    · simp only
      split
      · rfl
      · split
        · rfl
        · exact d.limit_nextBody _ _ _

end Decoder

namespace Registers

variable {α : Type}

def new (settings : DecoderSettings := {}) : Registers α := { limit := settings.maxRecordSize }

def setBuffer (d : Registers α) (bytes : Bytes) : Registers α := { d with buffer := some bytes }

/-- Drops the buffer and whatever of a frame has been read; the cells stay as they are. -/
def clear (d : Registers α) : Registers α :=
  { d with buffer := none, filled := 0, length := none, seen := [] }

def isUnfinished (d : Registers α) : Bool := decide (0 < d.filled) || d.length.isSome

/-- Moves bytes from the front of a buffer into the cells from the one with the number `filled` on,
until all are filled.  The result is the cells, how many are filled, and the rest of the buffer. -/
def fill (cells : Bytes) (filled : Nat) : Bytes → Bytes × Nat × Bytes
  | [] => (cells, filled, [])
  | b :: bytes =>
    if filled < lengthBytes then fill (cells.set filled b) (filled + 1) bytes
    else (cells, filled, b :: bytes)

/-- Reads the rest of a record of `length` bytes from the buffer `bytes`. -/
def nextBody [Record α] (d : Registers α) (length : Nat) (bytes : Bytes) :
    Except DecodeError (Fetch α) × Registers α :=
  let missing := length - d.seen.length
  if bytes.length < missing then
    (.ok .bufferEnd, { d with buffer := none, length := some length, seen := d.seen ++ bytes })
  else
    let rest := bytes.drop missing
    let record := d.seen ++ bytes.take missing
    let d := { d with
      buffer := if rest.isEmpty then none else some rest
      length := none
      seen := [] }
    match Record.decode record with
    | .ok v => (.ok (if rest.isEmpty then .lastRecord v else .record v), d)
    | .error e => (.error e, d)

/-- Reads the rest of a length, and then a record of that length, from the buffer `bytes`. -/
def nextLength [Record α] (d : Registers α) (bytes : Bytes) :
    Except DecodeError (Fetch α) × Registers α :=
  let (cells, filled, rest) := fill d.cells d.filled bytes
  if filled < lengthBytes then (.ok .bufferEnd, { d with buffer := none, cells, filled })
  else
    let d := { d with buffer := some rest, cells, filled := 0 }
    let length := bigEndian cells
    if d.limit < length then (.error (.tooLarge length d.limit), d)
    else d.nextBody length rest

/-- Goes on to the end of the record or of the buffer. -/
def next [Record α] (d : Registers α) : Except DecodeError (Fetch α) × Registers α :=
  match d.buffer with
  | none => (.ok .noBuffer, d)
  | some bytes =>
    match d.length with
    | some length => d.nextBody length bytes
    | none => d.nextLength bytes

/-- The registers after the calls. -/
def run [Record α] (d : Registers α) : List DecoderCall → Registers α
  | [] => d
  | .setBuffer bytes :: calls => (d.setBuffer bytes).run calls
  | .next :: calls => d.next.2.run calls
  | .buffer :: calls => d.run calls
  | .isUnfinished :: calls => d.run calls
  | .clear :: calls => d.clear.run calls

/-- Makes the calls one after the other, and lists what is answered. -/
def answers [Record α] (d : Registers α) : List DecoderCall → List (DecoderAnswer α)
  | [] => []
  | .setBuffer bytes :: calls => (d.setBuffer bytes).answers calls
  | .next :: calls => .fetched d.next.1 :: d.next.2.answers calls
  | .buffer :: calls => .buffer d.buffer :: d.answers calls
  | .isUnfinished :: calls => .unfinished d.isUnfinished :: d.answers calls
  | .clear :: calls => d.clear.answers calls

/-- What matters of the registers. -/
def decoder (d : Registers α) : Decoder α where
  limit := d.limit
  buffer := d.buffer
  frame := match d.length with
    | some length => .body length d.seen
    | none => .length (d.cells.take d.filled)

/-- There are cells for a length, one of which is still to be filled.  A record is read once its
length is known, and the next length once the record is read. -/
structure Valid (d : Registers α) : Prop where
  cells : d.cells.length = lengthBytes
  filled : d.filled < lengthBytes
  unknown : d.length = none → d.seen = []
  known : ∀ length, d.length = some length → d.filled = 0

section Filling

variable {cells : Bytes} {filled : Nat}

/-- The cells that are filled are the bytes that were there and as many as there is room for from
the buffer. -/
theorem fill_spec (hc : cells.length = lengthBytes) (hf : filled ≤ lengthBytes) (bytes : Bytes) :
    (fill cells filled bytes).1.length = lengthBytes ∧
      (fill cells filled bytes).2.1 = filled + min (lengthBytes - filled) bytes.length ∧
      (fill cells filled bytes).1.take (fill cells filled bytes).2.1 =
        cells.take filled ++ bytes.take (lengthBytes - filled) ∧
      (fill cells filled bytes).2.2 = bytes.drop (lengthBytes - filled) := by
  induction bytes generalizing cells filled with
  | nil => simp [fill, hc]
  | cons b bytes ih =>
    unfold fill
    by_cases room : filled < lengthBytes
    · rw [if_pos room]
      obtain ⟨length, number, taken, rest⟩ :=
        ih (show (cells.set filled b).length = lengthBytes from List.length_set.trans hc) room
      have more : lengthBytes - filled = (lengthBytes - (filled + 1)) + 1 := by omega
      have written : (cells.set filled b).take (filled + 1) = cells.take filled ++ [b] := by
        rw [List.take_succ_eq_append_getElem (by simpa [hc] using room),
          List.take_set_of_le (Nat.le_refl _)]
        simp
      refine ⟨length, ?_, ?_, ?_⟩
      · rw [number, List.length_cons]
        omega
      · rw [taken, written, more, List.take_succ_cons, List.append_assoc, List.singleton_append]
      · rw [rest, more, List.drop_succ_cons]
    · have full : lengthBytes - filled = 0 := by omega
      rw [if_neg room, full]
      simp [hc]

end Filling

section Simulation

variable {d : Registers α}

theorem decoder_setBuffer (d : Registers α) (bytes : Bytes) :
    (d.setBuffer bytes).decoder = d.decoder.setBuffer bytes := rfl

theorem lengthBytes_pos : 0 < lengthBytes := by decide

theorem isUnfinished_decoder (h : d.Valid) : d.decoder.isUnfinished = d.isUnfinished := by
  unfold Decoder.isUnfinished isUnfinished decoder
  cases known : d.length with
  | some len => simp
  | none =>
    have cells := h.cells
    cases number : d.filled with
    | zero => simp
    | succ i =>
      have read : d.cells.take (i + 1) ≠ [] := by
        rw [ne_eq, List.take_eq_nil_iff, not_or, ← List.length_eq_zero_iff, cells]
        exact ⟨Nat.succ_ne_zero _, by decide⟩
      simp [read]

theorem Valid.clear (h : d.Valid) : d.clear.Valid :=
  ⟨h.cells, lengthBytes_pos, fun _ => rfl, fun _ _ => rfl⟩

theorem Valid.setBuffer (h : d.Valid) (bytes : Bytes) : (d.setBuffer bytes).Valid :=
  ⟨h.cells, h.filled, h.unknown, h.known⟩

theorem valid_new (settings : DecoderSettings) : (new settings : Registers α).Valid :=
  ⟨rfl, lengthBytes_pos, fun _ => rfl, nofun⟩

variable [Record α]

theorem decoder_nextBody (h : d.Valid) (idle : d.filled = 0) (length : Nat) (bytes : Bytes) :
    d.decoder.nextBody length d.seen bytes =
        ((d.nextBody length bytes).1, (d.nextBody length bytes).2.decoder) ∧
      (d.nextBody length bytes).2.Valid := by
  unfold nextBody Decoder.nextBody
  by_cases more : bytes.length < length - d.seen.length
  · simp only [if_pos more]
    exact ⟨rfl, h.cells, h.filled, by simp, fun _ _ => idle⟩
  · simp only [if_neg more]
    generalize (Record.decode (d.seen ++ bytes.take (length - d.seen.length)) :
      Except DecodeError α) = record
    cases record with
    | ok v => exact ⟨by simp [decoder, idle], h.cells, h.filled, fun _ => rfl, by simp⟩
    | error e => exact ⟨by simp [decoder, idle], h.cells, h.filled, fun _ => rfl, by simp⟩

theorem decoder_nextLength (h : d.Valid) (known : d.length = none) {bytes : Bytes}
    (buffer : d.buffer = some bytes) :
    d.decoder.next = ((d.nextLength bytes).1, (d.nextLength bytes).2.decoder) ∧
      (d.nextLength bytes).2.Valid := by
  have given : d.decoder.buffer = some bytes := buffer
  have frame : d.decoder.frame = .length (d.cells.take d.filled) := by simp only [decoder, known]
  have number : (d.cells.take d.filled).length = d.filled := by
    rw [List.length_take, h.cells]
    exact Nat.min_eq_left (Nat.le_of_lt h.filled)
  have below := h.filled
  obtain ⟨hcells, hfilled, htaken, hrest⟩ :=
    fill_spec h.cells (Nat.le_of_lt below) bytes
  unfold nextLength Decoder.next
  simp only [given, frame, number]
  generalize fill d.cells d.filled bytes = f at hcells hfilled htaken hrest
  obtain ⟨cells, filled, rest⟩ := f
  simp only at hcells hfilled htaken hrest ⊢
  by_cases short : bytes.length < lengthBytes - d.filled
  · have room : filled < lengthBytes := by omega
    rw [if_pos short, if_pos room]
    refine ⟨?_, hcells, room, h.unknown, fun len e => ?_⟩
    · rw [List.take_of_length_le (Nat.le_of_lt short)] at htaken
      simp only [decoder, known, htaken]
    · cases known.symm.trans e
  · obtain rfl : filled = lengthBytes := by omega
    rw [List.take_of_length_le (Nat.le_of_eq hcells)] at htaken
    rw [if_neg short, if_neg (Nat.lt_irrefl _), ← htaken, ← hrest]
    let d' : Registers α := { d with buffer := some rest, cells, filled := 0 }
    have valid : d'.Valid := ⟨hcells, lengthBytes_pos, h.unknown, fun _ _ => rfl⟩
    have between : d'.decoder = ⟨d.limit, some rest, .length []⟩ := by
      simp only [d', decoder, known, List.take_zero]
    by_cases large : d.limit < bigEndian cells
    · rw [if_pos (show d.decoder.limit < _ from large), if_pos large]
      exact ⟨Prod.ext rfl between.symm, valid⟩
    · rw [if_neg (show ¬d.decoder.limit < _ from large), if_neg large]
      have body := decoder_nextBody valid rfl (bigEndian cells) rest
      have fresh : d'.seen = [] := h.unknown known
      rw [fresh] at body
      exact body

/-- The registers answer as the decoder does, and what matters of them is the decoder then. -/
theorem decoder_next (h : d.Valid) :
    d.decoder.next = (d.next.1, d.next.2.decoder) ∧ d.next.2.Valid := by
  unfold next
  cases buffer : d.buffer with
  | none =>
    have empty : d.decoder.buffer = none := buffer
    exact ⟨by rw [Decoder.next, empty], h⟩
  | some bytes =>
    cases known : d.length with
    | none => exact decoder_nextLength h known buffer
    | some len =>
      have body := decoder_nextBody h (h.known len known) len bytes
      have frame : d.decoder.frame = .body len d.seen := by simp only [decoder, known]
      have given : d.decoder.buffer = some bytes := buffer
      unfold Decoder.next
      simp only [given, frame]
      exact body

theorem answers_eq_of_valid (h : d.Valid) (calls : List DecoderCall) :
    d.answers calls = d.decoder.answers calls := by
  induction calls generalizing d with
  | nil => rfl
  | cons call calls ih =>
    cases call with
    | setBuffer bytes => exact ih (h.setBuffer bytes)
    | next =>
      obtain ⟨same, valid⟩ := decoder_next h
      rw [answers, Decoder.answers, same, ih valid]
    | buffer => exact congrArg (List.cons _) (ih h)
    | isUnfinished => rw [answers, Decoder.answers, isUnfinished_decoder h, ih h]
    | clear => exact ih h.clear

theorem valid_run (h : d.Valid) (calls : List DecoderCall) :
    (d.run calls).Valid ∧ (d.run calls).limit = d.limit := by
  induction calls generalizing d with
  | nil => exact ⟨h, rfl⟩
  | cons call calls ih =>
    cases call with
    | setBuffer bytes => exact ih (h.setBuffer bytes)
    | next =>
      obtain ⟨answer, valid⟩ := decoder_next h
      have same : d.next.2.limit = d.limit := by
        have kept := d.decoder.limit_next
        rwa [answer] at kept
      obtain ⟨valid, limit⟩ := ih valid
      exact ⟨valid, limit.trans same⟩
    | buffer => exact ih h
    | isUnfinished => exact ih h
    | clear => exact ih h.clear

/-- Registers answer every call as a decoder does, and once they are cleared as a new decoder does,
whatever is left over in their cells. -/
theorem answers_clear (settings : DecoderSettings) (past later : List DecoderCall) :
    (new settings : Registers α).answers past = (Decoder.new settings).answers past ∧
      ((new settings : Registers α).run past).clear.answers later =
        (Decoder.new settings).answers later := by
  have start : (new settings : Registers α).decoder = .new settings := rfl
  refine ⟨start ▸ answers_eq_of_valid (valid_new settings) past, ?_⟩
  obtain ⟨valid, limit⟩ := valid_run (valid_new (α := α) settings) past
  have cleared : ((new settings : Registers α).run past).clear.decoder =
      { limit := ((new settings : Registers α).run past).limit } := rfl
  rw [answers_eq_of_valid valid.clear, cleared, limit]
  rfl

end Simulation

end Registers

end StreamCheckpoint
