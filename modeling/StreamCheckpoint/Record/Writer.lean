import StreamCheckpoint.Record.Decoder

/-! Writing framed records into buffers of a fixed size, without regard to where records begin and
end. -/

namespace StreamCheckpoint

/-- The frame of a record with the form `body`: its length in four bytes, then `body`. -/
def frame (body : Bytes) : Bytes := toBigEndian lengthBytes body.length ++ body

/-- The number of lengths that `lengthBytes` bytes can write. -/
def lengthBound : Nat := 0x100000000

/-- Frames records and cuts the frames into buffers. -/
structure FrameWriter where
  /-- The number of bytes of a full buffer. -/
  size : Nat
  /-- The bytes that do not fill a buffer yet. -/
  pending : Bytes := []
deriving DecidableEq, Repr

namespace FrameWriter

/-- A writer of buffers of `size` bytes, or of one byte if `size` is zero. -/
def new (size : Nat) : FrameWriter := { size := max size 1 }

/-- Cuts the buffers of `size` bytes off the front of `bytes`, and returns what is left.  Buffers
without bytes would fill for ever, so with `size` zero nothing is cut off. -/
def cut (size : Nat) (bytes : Bytes) : List Bytes × Bytes :=
  if 0 < size ∧ size ≤ bytes.length then
    let (buffers, rest) := cut size (bytes.drop size)
    (bytes.take size :: buffers, rest)
  else ([], bytes)
termination_by bytes.length
decreasing_by
  rw [List.length_drop]
  omega

/-- Writes a record, and returns the buffers that it fills.  A record whose length does not fit
into the bytes of a length is refused. -/
def write {α : Type} [Record α] (w : FrameWriter) (record : α) :
    Except DecodeError (List Bytes) × FrameWriter :=
  let body := Record.encode record
  if body.length < lengthBound then
    let (buffers, rest) := cut w.size (w.pending ++ frame body)
    (.ok buffers, { w with pending := rest })
  else (.error (.tooLarge body.length (lengthBound - 1)), w)

/-- Gives out the bytes that do not fill a buffer, if there are any. -/
def flush (w : FrameWriter) : Option Bytes × FrameWriter :=
  (if w.pending.isEmpty then none else some w.pending, { w with pending := [] })

end FrameWriter

end StreamCheckpoint
