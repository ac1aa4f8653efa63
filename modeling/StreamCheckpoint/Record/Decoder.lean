import StreamCheckpoint.Record.Basic

/-! Reading framed records from buffers.  A frame is the length of a record in four bytes, most
significant first, and then the record.  Producers cut the stream of frames into buffers anywhere,
so a record, or the length before it, may begin in one buffer and end in a later one.

Calling `next` again and again comes to an end: every call with a buffer either gives the buffer
back or leaves less to do (`work_next`). -/

namespace StreamCheckpoint

/-- The number of bytes in which a frame writes the length of its record. -/
def lengthBytes : Nat := 4

/-- How far a decoder is in the frame that it reads. -/
inductive FrameState
  /-- It has read the first bytes of the length. -/
  | length (seen : Bytes)
  /-- It has read the length and the first bytes of the record. -/
  | body (length : Nat) (seen : Bytes)
deriving DecidableEq, Repr

/-- Puts the records of type `α` of one channel together. -/
structure Decoder (α : Type) where
  /-- The most bytes that a record may have. -/
  limit : Nat
  buffer : Option Bytes := none
  frame : FrameState := .length []
deriving DecidableEq, Repr

/-- What a call for the next record comes to. -/
inductive Fetch (α : Type)
  | record (value : α)
  /-- A record, with which the buffer ends. -/
  | lastRecord (value : α)
  /-- The buffer ended before the record did. -/
  | bufferEnd
  | noBuffer
deriving DecidableEq, Repr

namespace Fetch

def record? {α : Type} : Fetch α → Option α
  | record v => some v
  | lastRecord v => some v
  | bufferEnd => none
  | noBuffer => none

def isRecord {α : Type} (f : Fetch α) : Bool := f.record?.isSome

/-- Whether the buffer is used up, so that the next one is due. -/
def isBufferUsed {α : Type} : Fetch α → Bool
  | record _ => false
  | lastRecord _ => true
  | bufferEnd => true
  | noBuffer => false

end Fetch

structure DecoderSettings where
  /-- The most bytes that a record may have: 64 MiB unless told otherwise. -/
  maxRecordSize : Nat := 64 * 1024 * 1024
deriving DecidableEq, Repr

namespace Decoder

variable {α : Type}

def new (settings : DecoderSettings := {}) : Decoder α := { limit := settings.maxRecordSize }

def setBuffer (d : Decoder α) (bytes : Bytes) : Decoder α := { d with buffer := some bytes }

/-- Drops the buffer and whatever of a frame has been read. -/
def clear (d : Decoder α) : Decoder α := { d with buffer := none, frame := .length [] }

def isUnfinished (d : Decoder α) : Bool :=
  match d.frame with
  | .length seen => !seen.isEmpty
  | .body _ _ => true

/-- Reads the rest of a record of `length` bytes, of which `seen` came in earlier buffers, from the
buffer `bytes`. -/
def nextBody [Record α] (d : Decoder α) (length : Nat) (seen bytes : Bytes) :
    Except DecodeError (Fetch α) × Decoder α :=
  let missing := length - seen.length
  if bytes.length < missing then
    (.ok .bufferEnd, { d with buffer := none, frame := .body length (seen ++ bytes) })
  else
    let rest := bytes.drop missing
    let d := { d with buffer := if rest.isEmpty then none else some rest, frame := .length [] }
    match Record.decode (seen ++ bytes.take missing) with
    | .ok v => (.ok (if rest.isEmpty then .lastRecord v else .record v), d)
    | .error e => (.error e, d)

/-- Goes on to the end of the record or of the buffer.  A length above the limit is read and
refused, and reading goes on after it; a record that is malformed is read and refused. -/
def next [Record α] (d : Decoder α) : Except DecodeError (Fetch α) × Decoder α :=
  match d.buffer with
  | none => (.ok .noBuffer, d)
  | some bytes =>
    match d.frame with
    | .body length seen => d.nextBody length seen bytes
    | .length seen =>
      let missing := lengthBytes - seen.length
      if bytes.length < missing then
        (.ok .bufferEnd, { d with buffer := none, frame := .length (seen ++ bytes) })
      else
        let length := bigEndian (seen ++ bytes.take missing)
        let rest := bytes.drop missing
        if d.limit < length then
          (.error (.tooLarge length d.limit), { d with buffer := some rest, frame := .length [] })
        else d.nextBody length [] rest

/-- The work ahead: the bytes of the buffer, and the part of a frame that could be complete without
reading another byte. -/
def work (d : Decoder α) : Nat :=
  2 * (d.buffer.elim 0 (·.length)) +
    match d.frame with
    | .length seen => if seen.length < lengthBytes then 0 else 1
    | .body _ _ => 1

theorem work_between (limit : Nat) (bytes : Bytes) :
    (⟨limit, some bytes, .length []⟩ : Decoder α).work = 2 * bytes.length := rfl

theorem nextBody_ends [Record α] (d : Decoder α) (length : Nat) (seen bytes : Bytes) :
    (d.nextBody length seen bytes).2.buffer = none ∨
      (d.nextBody length seen bytes).2.work ≤ 2 * bytes.length := by
  simp only [nextBody]
  split
  · exact .inl rfl
  · split <;>
    · by_cases h : (bytes.drop (length - seen.length)).isEmpty
      · exact .inl (by simp [h])
      · refine .inr ?_
        simp only [h, Bool.false_eq_true, if_false, work_between, List.length_drop]
        omega

/-- A call with a buffer gives the buffer back or leaves less work. -/
theorem work_next [Record α] (d : Decoder α) (h : d.buffer ≠ none) :
    d.next.2.buffer = none ∨ d.next.2.work < d.work := by
  obtain ⟨bytes, hb⟩ := Option.ne_none_iff_exists'.1 h
  cases hf : d.frame with
  | body length seen =>
    have e : d.next = d.nextBody length seen bytes := by simp [next, hb, hf]
    rw [e]
    refine (d.nextBody_ends length seen bytes).imp_right fun hw => ?_
    simp only [work, hb, hf, Option.elim_some] at hw ⊢
    omega
  | length seen =>
    simp only [next, hb, hf]
    by_cases hm : bytes.length < lengthBytes - seen.length
    · exact .inl (by simp [hm])
    · have hw : 2 * (bytes.drop (lengthBytes - seen.length)).length < d.work := by
        simp only [work, hb, hf, Option.elim_some, List.length_drop, lengthBytes] at hm ⊢
        by_cases hs : seen.length < 4 <;> simp only [hs, if_true, if_false] <;> omega
      rw [if_neg hm]
      split
      · refine .inr ?_
        simpa [work, lengthBytes] using hw
      · exact (d.nextBody_ends _ _ _).imp_right fun h => by omega

/-- A record with which the buffer does not end leaves a buffer. -/
theorem buffer_of_record [Record α] {d d' : Decoder α} {v : α}
    (h : d.next = (.ok (.record v), d')) : d.buffer ≠ none ∧ d'.buffer ≠ none := by
  have body : ∀ {length seen bytes}, d.nextBody length seen bytes = (.ok (.record v), d') →
      d'.buffer ≠ none := by
    intro length seen bytes hd
    simp only [nextBody] at hd
    split at hd
    · simp at hd
    · split at hd
      · simp only [Prod.mk.injEq, Except.ok.injEq] at hd
        obtain ⟨hv, rfl⟩ := hd
        by_cases he : (bytes.drop (length - seen.length)).isEmpty
        · simp [he] at hv
        · simp [he]
      · simp at hd
  cases hb : d.buffer with
  | none => simp [next, hb] at h
  | some bytes =>
    refine ⟨by simp, ?_⟩
    simp only [next, hb] at h
    split at h
    · exact body h
    · split at h
      · simp at h
      · split at h
        · simp at h
        · exact body h

theorem work_of_record [Record α] {d d' : Decoder α} {v : α}
    (h : d.next = (.ok (.record v), d')) : d'.work < d.work := by
  obtain ⟨hd, hd'⟩ := buffer_of_record h
  have hw := d.work_next hd
  rw [h] at hw
  exact hw.resolve_left hd'

/-- Calls `next` while it answers with a record and the buffer has more bytes; the last answer is
the first one of another kind. -/
def nextAll [Record α] (d : Decoder α) : List (Except DecodeError (Fetch α)) × Decoder α :=
  match h : d.next with
  | (.ok (.record v), d') =>
    have : d'.work < d.work := work_of_record h
    let (answers, last) := d'.nextAll
    (.ok (.record v) :: answers, last)
  | (answer, d') => ([answer], d')
termination_by d.work

def outcome? : Except DecodeError (Fetch α) → Option (Except DecodeError α)
  | .ok f => f.record?.map .ok
  | .error e => some (.error e)

/-- Calls `next` until the buffer is used up, errors or not, and lists the records and errors. -/
def drain [Record α] (d : Decoder α) : List (Except DecodeError α) × Decoder α :=
  if h : d.buffer = none then ([], d)
  else
    let r := d.next
    if h' : r.2.buffer = none then ((outcome? r.1).toList, r.2)
    else
      have : r.2.work < d.work := (d.work_next h).resolve_left h'
      let (outcomes, last) := r.2.drain
      ((outcome? r.1).toList ++ outcomes, last)
termination_by d.work

/-- Hands over the buffers one after the other, each when the one before is used up, and lists the
records and errors. -/
def readBuffers [Record α] (d : Decoder α) : List Bytes → List (Except DecodeError α) × Decoder α
  | [] => ([], d)
  | bytes :: rest =>
    let (outcomes, d) := (d.setBuffer bytes).drain
    let (more, d) := d.readBuffers rest
    (outcomes ++ more, d)

end Decoder

end StreamCheckpoint
