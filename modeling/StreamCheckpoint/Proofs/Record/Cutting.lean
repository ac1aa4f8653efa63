import StreamCheckpoint.Proofs.Record.Writing

/-! Where a writer cuts the string of frames.  A write gives out full buffers as long as there are
any, which comes to an end because a buffer has at least one byte (`cuts_cut`), and keeps back less
than a buffer.  So the only buffers that are not full are those that a flush gives out, wherever it
falls (`run_cuts`). -/

namespace StreamCheckpoint

namespace FrameWriter

/-- The rounds in which `bytes` are cut: as long as they fill a buffer of `size` bytes, one is split
off the front.  The rounds come to an end with bytes that do not fill a buffer, which for a `size` of
zero never happens. -/
inductive Cuts (size : Nat) : Bytes → List Bytes → Bytes → Prop
  | stop {bytes : Bytes} (short : bytes.length < size) : Cuts size bytes [] bytes
  | split {buffer rest left : Bytes} {buffers : List Bytes} (full : buffer.length = size)
      (more : Cuts size rest buffers left) : Cuts size (buffer ++ rest) (buffer :: buffers) left

section Cuts

variable {size : Nat} {bytes left : Bytes} {buffers : List Bytes}

theorem Cuts.length_eq (h : Cuts size bytes buffers left) : ∀ b ∈ buffers, b.length = size := by
  induction h with
  | stop => exact List.forall_mem_nil _
  | split full _ ih => exact List.forall_mem_cons.2 ⟨full, ih⟩

theorem Cuts.length_lt (h : Cuts size bytes buffers left) : left.length < size := by
  induction h with
  | stop short => exact short
  | split _ _ ih => exact ih

/-- Buffers that have bytes are cut in finitely many rounds. -/
theorem cuts_cut (hsize : 0 < size) (bytes : Bytes) :
    Cuts size bytes (cut size bytes).1 (cut size bytes).2 := by
  fun_induction cut size bytes with
  | case1 bytes h buffers rest hcut ih =>
    have hfull : (bytes.take size).length = size := by
      rw [List.length_take]
      omega
    have hsplit := Cuts.split hfull ih
    rw [List.take_append_drop, hcut] at hsplit
    exact hsplit
  | case2 bytes h => exact .stop (by omega)

end Cuts

section Calls

variable {α : Type} [Record α] {w : FrameWriter}

theorem write_of_fits {v : α} (fits : (Record.encode v).length < lengthBound) :
    w.write v = (.ok (cut w.size (w.pending ++ frame (Record.encode v))).1,
      { w with pending := (cut w.size (w.pending ++ frame (Record.encode v))).2 }) := by
  rw [write]
  simp only [if_pos fits]

theorem size_call (w : FrameWriter) (c : WriterCall α) : (w.call c).2.size = w.size := by
  cases c with
  | write v => by_cases fits : (Record.encode v).length < lengthBound <;> simp [call, write, fits]
  | flush => rfl

/-- No call leaves as much as a buffer behind. -/
theorem pending_call (h : w.pending.length < w.size) (c : WriterCall α) :
    (w.call c).2.pending.length < w.size := by
  cases c with
  | write v =>
    by_cases fits : (Record.encode v).length < lengthBound
    · have hsize : 0 < w.size := by omega
      have hcut := cuts_cut hsize (w.pending ++ frame (Record.encode v))
      rw [call, write_of_fits fits]
      exact hcut.length_lt
    · simpa [call, write, fits] using h
  | flush => exact Nat.lt_of_le_of_lt (Nat.zero_le _) h

theorem size_run (w : FrameWriter) (calls : List (WriterCall α)) :
    (w.run calls).2.size = w.size := by
  induction calls generalizing w with
  | nil => rfl
  | cons c calls ih => exact (ih _).trans (w.size_call c)

theorem pending_run (h : w.pending.length < w.size) (calls : List (WriterCall α)) :
    (w.run calls).2.pending.length < w.size := by
  induction calls generalizing w with
  | nil => exact h
  | cons c calls ih =>
    rw [← w.size_call c]
    exact ih ((w.size_call c).symm ▸ pending_call h c)

/-- Records that all have a frame are written as their frames. -/
theorem flatMap_framed {calls : List (WriterCall α)}
    (fits : ∀ v ∈ recordsOf calls, (Record.encode v).length < lengthBound) :
    calls.flatMap (·.framed) = (recordsOf calls).flatMap fun v => frame (Record.encode v) := by
  induction calls with
  | nil => rfl
  | cons c calls ih =>
    cases c with
    | write v =>
      obtain ⟨hv, hrest⟩ := List.forall_mem_cons.1 fits
      show (WriterCall.write v).framed ++ calls.flatMap (·.framed) = _
      rw [WriterCall.framed_write hv, ih hrest]
      rfl
    | flush => exact ih fits

/-- The frame of a record: its length in four bytes, the most significant first, and its form. -/
theorem frame_eq {body : Bytes} (fits : body.length < lengthBound) :
    ∃ p : Bytes, p.length = 4 ∧ bigEndian p = body.length ∧ frame body = p ++ body :=
  ⟨toBigEndian lengthBytes body.length, length_toBigEndian _ _, bigEndian_length fits, rfl⟩

/-- A flush gives out what is kept back, unless that is nothing. -/
theorem flush_eq_some {b : Bytes} : w.flush.1 = some b ↔ b ≠ [] ∧ b = w.pending := by
  by_cases h : w.pending = []
  · simp [flush, h]
  · simp only [flush, List.isEmpty_iff, if_neg h, Option.some.injEq]
    constructor
    · rintro rfl
      exact ⟨h, rfl⟩
    · exact fun hb => hb.2.symm

theorem flush_eq_none : w.flush.1 = none ↔ w.pending = [] := by
  by_cases h : w.pending = [] <;> simp [flush, h]

/-- A writer cuts the string of the frames exactly.  After any calls, what was given out and what is
kept back are the frames of the records that were written, and less than a buffer is kept back.  A
further write comes to an end and gives out full buffers only; a flush gives out what is kept back,
which is shorter than a buffer, or nothing if there is none. -/
theorem run_cuts (size : Nat) (calls : List (WriterCall α))
    (fits : ∀ v ∈ recordsOf calls, (Record.encode v).length < lengthBound) :
    let emitted := ((FrameWriter.new size).run calls).1
    let w := ((FrameWriter.new size).run calls).2
    emitted.flatten ++ w.pending = (recordsOf calls).flatMap (fun v => frame (Record.encode v)) ∧
    (∀ v ∈ recordsOf calls, ∃ p : Bytes, p.length = 4 ∧ bigEndian p = (Record.encode v).length ∧
      frame (Record.encode v) = p ++ Record.encode v) ∧
    w.pending.length < max size 1 ∧
    (∀ v : α, (Record.encode v).length < lengthBound → ∃ buffers : List Bytes,
      (w.write v).1 = .ok buffers ∧
      Cuts (max size 1) (w.pending ++ frame (Record.encode v)) buffers (w.write v).2.pending ∧
      (∀ b ∈ buffers, b.length = max size 1)) ∧
    (w.flush.1 = none ↔ w.pending = []) ∧
    (∀ b : Bytes, w.flush.1 = some b → b ≠ [] ∧ b = w.pending ∧ b.length < max size 1) := by
  intro emitted w
  have hsize : w.size = max size 1 := (FrameWriter.new size).size_run calls
  have hpos : 0 < max size 1 := by omega
  have hpending : w.pending.length < max size 1 :=
    pending_run (w := FrameWriter.new size) hpos calls
  refine ⟨?_, fun v hv => frame_eq (fits v hv), hpending, ?_, flush_eq_none, ?_⟩
  · rw [← flatMap_framed fits]
    exact (FrameWriter.new size).run_flatten calls
  · intro v hv
    have hcuts := cuts_cut hpos (w.pending ++ frame (Record.encode v))
    rw [write_of_fits hv, hsize]
    exact ⟨_, rfl, hcuts, hcuts.length_eq⟩
  · intro b hb
    obtain ⟨hne, rfl⟩ := flush_eq_some.1 hb
    exact ⟨hne, rfl, hpending⟩

/-- A record that ends with a buffer, a flush that has nothing to give out, and a record that is
flushed in the middle of a buffer. -/
theorem run_cuts_flushed :
    let calls : List (WriterCall String) := [.write "é", .flush, .write "", .write "a", .flush]
    let w := ((FrameWriter.new 3).run calls).2
    (∀ v ∈ recordsOf calls, (Record.encode v).length < lengthBound) ∧
    ((FrameWriter.new 3).run calls).1.flatten ++ w.pending =
      [0, 0, 0, 2, 195, 169, 0, 0, 0, 0, 0, 0, 0, 1, 97] ∧
    w.pending.length < 3 := by
  intro calls w
  have fits : ∀ v ∈ recordsOf calls, (Record.encode v).length < lengthBound := by decide
  obtain ⟨hframes, -, hpending, -⟩ := run_cuts 3 calls fits
  refine ⟨fits, hframes.trans ?_, hpending⟩
  decide

end Calls

end FrameWriter

end StreamCheckpoint
