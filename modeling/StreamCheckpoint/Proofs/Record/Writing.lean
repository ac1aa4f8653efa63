import StreamCheckpoint.Proofs.Record.Codecs
import StreamCheckpoint.Proofs.Record.Frames
import StreamCheckpoint.Record.Writer

/-! A writer against a decoder.  What a writer has given out, followed by what it keeps back, is the
string of the frames of its records, wherever it was cut and flushed (`run_flatten`); the frames of
that string are the records again (`frames_framed`).  So a decoder that gets the buffers one after
the other reads what was written (`readBuffers_run`). -/

namespace StreamCheckpoint

variable {α : Type}

inductive WriterCall (α : Type)
  | write (record : α)
  | flush
deriving DecidableEq, Repr

namespace WriterCall

def record? : WriterCall α → Option α
  | write record => some record
  | flush => none

/-- The bytes with which a call continues the string of frames.  A record whose length does not fit
into the bytes of a length has no frame. -/
def framed [Record α] : WriterCall α → Bytes
  | write record =>
    if (Record.encode record).length < lengthBound then frame (Record.encode record) else []
  | flush => []

theorem framed_write [Record α] {record : α} (h : (Record.encode record).length < lengthBound) :
    (write record).framed = frame (Record.encode record) := if_pos h

theorem framed_refused [Record α] {record : α} (h : ¬(Record.encode record).length < lengthBound) :
    (write record).framed = [] := if_neg h

@[simp] theorem framed_flush [Record α] : (flush : WriterCall α).framed = [] := rfl

end WriterCall

def recordsOf (calls : List (WriterCall α)) : List α := calls.filterMap (·.record?)

theorem lengthBound_eq : lengthBound = 256 ^ lengthBytes := rfl

theorem bigEndian_length {body : Bytes} (h : body.length < lengthBound) :
    bigEndian (toBigEndian lengthBytes body.length) = body.length := by
  rw [bigEndian_toBigEndian, Nat.mod_eq_of_lt (lengthBound_eq ▸ h)]

theorem frames_frame [Record α] [LawfulRecord α] {limit : Nat} {v : α}
    (hlimit : (Record.encode v).length ≤ limit) (hbound : (Record.encode v).length < lengthBound)
    (rest : Bytes) :
    frames (α := α) limit (frame (Record.encode v) ++ rest) =
      (.ok v :: (frames limit rest).1, (frames (α := α) limit rest).2) := by
  have hl := bigEndian_length hbound
  rw [frame, frames_record (length_toBigEndian _ _) (by rw [hl]; exact hlimit) hl.symm,
    LawfulRecord.decode_encode]

/-- The frames of the string that some calls write are their records, and nothing is left over. -/
theorem frames_framed [Record α] [LawfulRecord α] {limit : Nat} {calls : List (WriterCall α)}
    (fits : ∀ v ∈ recordsOf calls,
      (Record.encode v).length ≤ limit ∧ (Record.encode v).length < lengthBound) :
    frames limit (calls.flatMap (·.framed)) = ((recordsOf calls).map .ok, []) := by
  induction calls with
  | nil => exact frames_nil
  | cons call calls ih =>
    cases call with
    | flush => exact ih fits
    | write v =>
      obtain ⟨hlimit, hbound⟩ := fits v (by simp [recordsOf, WriterCall.record?])
      have hrest := ih fun u hu => fits u (List.mem_cons_of_mem _ hu)
      rw [List.flatMap_cons, WriterCall.framed_write hbound, frames_frame hlimit hbound, hrest]
      rfl

namespace FrameWriter

/-- Makes a call, and returns the buffers that it gives out: none if the record is refused. -/
def call [Record α] (w : FrameWriter) : WriterCall α → List Bytes × FrameWriter
  | .write record =>
    match w.write record with
    | (.ok buffers, w) => (buffers, w)
    | (.error _, w) => ([], w)
  | .flush => (w.flush.1.toList, w.flush.2)

/-- Makes some calls one after the other, and returns the buffers that they give out, in order. -/
def run [Record α] (w : FrameWriter) : List (WriterCall α) → List Bytes × FrameWriter
  | [] => ([], w)
  | c :: calls =>
    let (buffers, w) := w.call c
    let (more, w) := w.run calls
    (buffers ++ more, w)

theorem cut_flatten (size : Nat) (bytes : Bytes) :
    (cut size bytes).1.flatten ++ (cut size bytes).2 = bytes := by
  fun_induction cut size bytes with
  | case1 bytes h buffers rest hcut ih =>
    rw [hcut] at ih
    simp only [List.flatten_cons, List.append_assoc, ih, List.take_append_drop]
  | case2 bytes h => simp

/-- A call gives out bytes from the front of what is kept back and what it writes, and keeps back
the rest. -/
theorem call_flatten [Record α] (w : FrameWriter) (c : WriterCall α) :
    (w.call c).1.flatten ++ (w.call c).2.pending = w.pending ++ c.framed := by
  cases c with
  | write v =>
    by_cases h : (Record.encode v).length < lengthBound
    · simpa [call, write, h, WriterCall.framed_write h] using
        cut_flatten w.size (w.pending ++ frame (Record.encode v))
    · simp [call, write, h, WriterCall.framed_refused h]
  | flush => by_cases h : w.pending = [] <;> simp [call, flush, h]

theorem run_flatten [Record α] (w : FrameWriter) (calls : List (WriterCall α)) :
    (w.run calls).1.flatten ++ (w.run calls).2.pending =
      w.pending ++ calls.flatMap (·.framed) := by
  induction calls generalizing w with
  | nil => simp [run]
  | cons c calls ih =>
    simp only [run, List.flatten_append, List.append_assoc, ih, List.flatMap_cons]
    rw [← List.append_assoc, call_flatten, List.append_assoc]

theorem run_append [Record α] (w : FrameWriter) (calls more : List (WriterCall α)) :
    w.run (calls ++ more) =
      ((w.run calls).1 ++ ((w.run calls).2.run more).1, ((w.run calls).2.run more).2) := by
  induction calls generalizing w with
  | nil => rfl
  | cons c calls ih => simp [run, ih]

/-- After a last flush everything that was written has been given out. -/
theorem run_flush [Record α] (w : FrameWriter) (calls : List (WriterCall α)) :
    (w.run (calls ++ [.flush])).1.flatten = w.pending ++ calls.flatMap (·.framed) := by
  have h := w.run_flatten (calls ++ [.flush])
  have hpending : (w.run (calls ++ [.flush])).2.pending = [] := by
    rw [run_append]
    rfl
  simpa [hpending] using h

/-- Records that are written and flushed in any order, the last call being a flush, are read back by
a decoder that gets the buffers one after the other: every record, in order and without an error,
and neither a buffer nor a part of a frame is left. -/
theorem readBuffers_run [Record α] [LawfulRecord α] (size : Nat) (settings : DecoderSettings)
    (calls : List (WriterCall α))
    (fits : ∀ v ∈ recordsOf calls,
      (Record.encode v).length ≤ settings.maxRecordSize ∧ (Record.encode v).length < lengthBound) :
    let emitted := ((FrameWriter.new size).run (calls ++ [.flush])).1
    let read := (Decoder.new settings : Decoder α).readBuffers emitted
    read.1 = (recordsOf calls).map .ok ∧ read.2.isUnfinished = false ∧ read.2.buffer = none := by
  intro emitted read
  have hemitted : emitted.flatten = calls.flatMap (·.framed) :=
    run_flush (FrameWriter.new size) calls
  obtain ⟨hread, -, hbuffer, hframe⟩ := Decoder.readBuffers_eq_frames
    (d := (Decoder.new settings : Decoder α)) rfl (Decoder.holds_between _) emitted
  -- the decoder has seen the whole string, wherever it was cut
  have hframes : frames settings.maxRecordSize ([] ++ emitted.flatten) =
      ((recordsOf calls).map .ok, []) := by
    rw [List.nil_append, hemitted, frames_framed fits]
  have hunfinished := Decoder.isUnfinished_iff hframe
  refine ⟨hread.trans (congrArg Prod.fst hframes), ?_, hbuffer⟩
  rw [← Bool.not_eq_true, hunfinished]
  exact not_not_intro (congrArg Prod.snd hframes)

/-- Texts in buffers of one byte, the longest of them as long as the limit admits. -/
theorem readBuffers_run_texts :
    let calls : List (WriterCall String) := [.write "é", .flush, .write "", .write "a"]
    let emitted := ((FrameWriter.new 0).run (calls ++ [.flush])).1
    let read := (Decoder.new ⟨2⟩ : Decoder String).readBuffers emitted
    (∀ v ∈ recordsOf calls,
      (Record.encode v).length ≤ 2 ∧ (Record.encode v).length < lengthBound) ∧
    read.1 = [.ok "é", .ok "", .ok "a"] ∧ read.2.isUnfinished = false ∧ read.2.buffer = none := by
  intro calls emitted read
  have fits : ∀ v ∈ recordsOf calls,
      (Record.encode v).length ≤ 2 ∧ (Record.encode v).length < lengthBound := by decide
  exact ⟨fits, readBuffers_run 0 ⟨2⟩ calls fits⟩

end FrameWriter

end StreamCheckpoint
