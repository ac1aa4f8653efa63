import Mathlib.Data.Nat.PSub
import Mathlib.Logic.Function.Iterate
import StreamCheckpoint.Proofs.Record.Registers

/-! What the registers of a decoder hold between calls, and why draining a buffer comes to an end.
Between calls fewer bytes of a length have been read than it has, and fewer bytes of a record whose
length is known than that length, which is within the limit (`Bounded`).  So a call never takes away
more than there is: `next?` stops where `next` would, and it never stops.  And because something is
always missing, a call takes at least one byte of the buffer or gives the buffer back
(`advances_next`), whether it comes to a record, to an error or to the end of the buffer. -/

namespace StreamCheckpoint

namespace Registers

variable {α : Type}

/-- A record whose length is known is within the limit, and some of its bytes are still to come. -/
structure Bounded (d : Registers α) : Prop extends d.Valid where
  missing : ∀ length, d.length = some length → d.seen.length < length
  admitted : ∀ length, d.length = some length → length ≤ d.limit

section Stopping

/-- The first `n` bytes and the rest, unless there are fewer than `n`. -/
def split? (n : Nat) (bytes : Bytes) : Option (Bytes × Bytes) :=
  if n ≤ bytes.length then some (bytes.take n, bytes.drop n) else none

/-- As `fill`, but stopped by the lack of a cell. -/
def fill? (cells : Bytes) (filled : Nat) : Bytes → Option (Bytes × Nat × Bytes)
  | [] => some (cells, filled, [])
  | b :: bytes =>
    if filled < lengthBytes then
      if filled < cells.length then fill? (cells.set filled b) (filled + 1) bytes else none
    else some (cells, filled, b :: bytes)

variable [Record α]

/-- As `nextBody`, but stopped by a difference below zero and by a split past the end. -/
def nextBody? (d : Registers α) (length : Nat) (bytes : Bytes) :
    Option (Except DecodeError (Fetch α) × Registers α) := do
  let missing ← length.psub d.seen.length
  if bytes.length < missing then
    return (.ok .bufferEnd,
      { d with buffer := none, length := some length, seen := d.seen ++ bytes })
  let (chunk, rest) ← split? missing bytes
  let record := d.seen ++ chunk
  let d := { d with
    buffer := if rest.isEmpty then none else some rest
    length := none
    seen := [] }
  match Record.decode record with
  | .ok v => return (.ok (if rest.isEmpty then .lastRecord v else .record v), d)
  | .error e => return (.error e, d)

/-- As `nextLength`, but stopped by what stops `fill?` and `nextBody?`. -/
def nextLength? (d : Registers α) (bytes : Bytes) :
    Option (Except DecodeError (Fetch α) × Registers α) := do
  let (cells, filled, rest) ← fill? d.cells d.filled bytes
  if filled < lengthBytes then return (.ok .bufferEnd, { d with buffer := none, cells, filled })
  let d := { d with buffer := some rest, cells, filled := 0 }
  let length := bigEndian cells
  if d.limit < length then return (.error (.tooLarge length d.limit), d)
  d.nextBody? length rest

/-- As `next`, but stopped by a difference below zero, by a split past the end of the buffer and by
the lack of a cell. -/
def next? (d : Registers α) : Option (Except DecodeError (Fetch α) × Registers α) :=
  match d.buffer with
  | none => some (.ok .noBuffer, d)
  | some bytes =>
    match d.length with
    | some length => d.nextBody? length bytes
    | none => d.nextLength? bytes

end Stopping

theorem split?_of_le {n : Nat} {bytes : Bytes} (h : n ≤ bytes.length) :
    split? n bytes = some (bytes.take n, bytes.drop n) := if_pos h

/-- The cells for a length are as many as its bytes. -/
theorem fill?_eq_some {cells : Bytes} {filled : Nat} (hc : cells.length = lengthBytes)
    (bytes : Bytes) : fill? cells filled bytes = some (fill cells filled bytes) := by
  induction bytes generalizing cells filled with
  | nil => rfl
  | cons b bytes ih =>
    unfold fill? fill
    by_cases room : filled < lengthBytes
    · rw [if_pos room, if_pos room, if_pos (hc ▸ room)]
      exact ih (List.length_set.trans hc)
    · rw [if_neg room, if_neg room]

/-- What a call with the buffer `bytes` comes to: nothing stops it, the registers are within their
bounds again, and the buffer is given back or shorter. -/
structure Advances (bytes : Bytes)
    (attempt : Option (Except DecodeError (Fetch α) × Registers α))
    (result : Except DecodeError (Fetch α) × Registers α) : Prop where
  unstopped : attempt = some result
  bounded : result.2.Bounded
  shorter : ∀ rest, result.2.buffer = some rest → rest.length < bytes.length

section Calls

variable {d : Registers α} {length : Nat} {bytes : Bytes}

theorem Bounded.clear (h : d.Bounded) : d.clear.Bounded :=
  ⟨h.toValid.clear, nofun, nofun⟩

theorem Bounded.setBuffer (h : d.Bounded) (bytes : Bytes) : (d.setBuffer bytes).Bounded :=
  ⟨h.toValid.setBuffer bytes, h.missing, h.admitted⟩

theorem bounded_new (settings : DecoderSettings) : (new settings : Registers α).Bounded :=
  ⟨valid_new settings, nofun, nofun⟩

variable [Record α]

theorem nextBody?_eq_some (read : d.seen.length ≤ length) (bytes : Bytes) :
    d.nextBody? length bytes = some (d.nextBody length bytes) := by
  unfold nextBody? nextBody
  simp only [Nat.psub_eq_sub read, Option.bind_eq_bind, Option.bind_some]
  by_cases more : bytes.length < length - d.seen.length
  · simp only [if_pos more]
    rfl
  · simp only [if_neg more, split?_of_le (Nat.not_lt.1 more), Option.bind_some]
    cases (Record.decode (d.seen ++ bytes.take (length - d.seen.length)) :
      Except DecodeError α) <;> rfl

/-- The buffer ends before the record, or what is missing of the record is taken from it and the
next length is due, whether the record is malformed or not. -/
theorem nextBody_cases (d : Registers α) (length : Nat) (bytes : Bytes) :
    (bytes.length < length - d.seen.length ∧ d.nextBody length bytes =
      (.ok .bufferEnd,
        { d with buffer := none, length := some length, seen := d.seen ++ bytes })) ∨
    (length - d.seen.length ≤ bytes.length ∧
      let rest := bytes.drop (length - d.seen.length)
      (d.nextBody length bytes).2 =
        { d with
          buffer := if rest.isEmpty then none else some rest
          length := none
          seen := [] }) := by
  unfold nextBody
  by_cases more : bytes.length < length - d.seen.length
  · exact .inl ⟨more, if_pos more⟩
  · refine .inr ⟨Nat.not_lt.1 more, ?_⟩
    simp only [if_neg more]
    cases (Record.decode (d.seen ++ bytes.take (length - d.seen.length)) :
      Except DecodeError α) <;> rfl

theorem bounded_nextBody (h : d.Valid) (idle : d.filled = 0) (admitted : length ≤ d.limit)
    (bytes : Bytes) : (d.nextBody length bytes).2.Bounded := by
  have valid := (decoder_nextBody h idle length bytes).2
  obtain ⟨more, e⟩ | ⟨-, e⟩ := d.nextBody_cases length bytes
  · rw [e] at valid ⊢
    refine ⟨valid, ?_, ?_⟩
    · rintro _ ⟨rfl⟩
      rw [List.length_append]
      omega
    · rintro _ ⟨rfl⟩
      exact admitted
  · rw [e] at valid ⊢
    exact ⟨valid, nofun, nofun⟩

/-- What was missing of a record is what is taken from the buffer. -/
theorem buffer_nextBody {rest : Bytes} (h : (d.nextBody length bytes).2.buffer = some rest) :
    rest.length + (length - d.seen.length) = bytes.length := by
  obtain ⟨-, e⟩ | ⟨enough, e⟩ := d.nextBody_cases length bytes
  · rw [e] at h
    cases h
  · rw [e] at h
    simp only at h
    split at h
    · cases h
    · obtain rfl := Option.some.inj h
      rw [List.length_drop]
      omega

theorem advances_nextLength (h : d.Bounded) (known : d.length = none) (bytes : Bytes) :
    Advances bytes (d.nextLength? bytes) (d.nextLength bytes) := by
  have below := h.filled
  obtain ⟨hcells, hfilled, -, hrest⟩ := fill_spec h.cells (Nat.le_of_lt below) bytes
  unfold nextLength? nextLength
  rw [fill?_eq_some h.cells]
  simp only [Option.bind_eq_bind, Option.bind_some]
  generalize fill d.cells d.filled bytes = f at hcells hfilled hrest
  obtain ⟨cells, filled, rest⟩ := f
  simp only at hcells hfilled hrest ⊢
  by_cases room : filled < lengthBytes
  · rw [if_pos room, if_pos room]
    have valid : ({ d with buffer := none, cells, filled } : Registers α).Valid :=
      ⟨hcells, room, h.unknown, fun _ e => nomatch known.symm.trans e⟩
    exact ⟨rfl, ⟨valid, h.missing, h.admitted⟩, nofun⟩
  rw [if_neg room, if_neg room]
  -- at least one byte of the length was missing
  have less : rest.length < bytes.length := by
    rw [hrest, List.length_drop]
    omega
  let d' : Registers α := { d with buffer := some rest, cells, filled := 0 }
  have valid : d'.Valid := ⟨hcells, lengthBytes_pos, h.unknown, fun _ _ => rfl⟩
  by_cases large : d.limit < bigEndian cells
  · rw [if_pos large, if_pos large]
    refine ⟨rfl, ⟨valid, h.missing, h.admitted⟩, ?_⟩
    rintro _ ⟨rfl⟩
    exact less
  · rw [if_neg large, if_neg large]
    have fresh : d'.seen.length ≤ bigEndian cells := by
      rw [show d'.seen = [] from h.unknown known]
      exact Nat.zero_le _
    refine ⟨nextBody?_eq_some fresh rest,
      bounded_nextBody valid rfl (Nat.not_lt.1 large) rest, fun left e => ?_⟩
    have taken := buffer_nextBody e
    omega

/-- A call with a buffer goes well, and takes at least a byte of it. -/
theorem advances_next (h : d.Bounded) (buffer : d.buffer = some bytes) :
    Advances bytes d.next? d.next := by
  unfold next? next
  simp only [buffer]
  cases known : d.length with
  | none => exact advances_nextLength h known bytes
  | some length =>
    have missing := h.missing length known
    refine ⟨nextBody?_eq_some (Nat.le_of_lt missing) bytes,
      bounded_nextBody h.toValid (h.known length known) (h.admitted length known) bytes,
      fun rest e => ?_⟩
    have taken := buffer_nextBody e
    omega

theorem next_of_none (h : d.buffer = none) : d.next = (.ok .noBuffer, d) := by
  rw [next, h]

theorem bounded_next (h : d.Bounded) : d.next.2.Bounded := by
  cases buffer : d.buffer with
  | none => rwa [next_of_none buffer]
  | some bytes => exact (advances_next h buffer).bounded

theorem next?_eq_some (h : d.Bounded) : d.next? = some d.next := by
  cases buffer : d.buffer with
  | none => rw [next_of_none buffer, next?, buffer]
  | some bytes => exact (advances_next h buffer).unstopped

/-- More bytes of a record than it has would stop a call. -/
example : (next? (⟨9, some [1], [0, 0, 0, 0], 0, some 1, [0, 0]⟩ : Registers Bytes)).isNone := by
  decide

theorem bounded_run (h : d.Bounded) (calls : List DecoderCall) : (d.run calls).Bounded := by
  induction calls generalizing d with
  | nil => exact h
  | cons call calls ih =>
    cases call with
    | setBuffer bytes => exact ih (h.setBuffer bytes)
    | next => exact ih (bounded_next h)
    | buffer => exact ih h
    | isUnfinished => exact ih h
    | clear => exact ih h.clear

/-- More calls than the buffer has bytes use it up. -/
theorem buffer_iterate_next (h : d.Bounded) {n : Nat}
    (enough : ∀ bytes, d.buffer = some bytes → bytes.length < n) :
    ((fun d => d.next.2)^[n] d).buffer = none := by
  induction n generalizing d with
  | zero =>
    cases buffer : d.buffer with
    | none => exact buffer
    | some bytes => exact absurd (enough bytes buffer) (Nat.not_lt_zero _)
  | succ n ih =>
    rw [Function.iterate_succ_apply]
    refine ih (bounded_next h) fun rest left => ?_
    cases buffer : d.buffer with
    | none => rw [next_of_none buffer, buffer] at left; cases left
    | some bytes =>
      have shorter := (advances_next h buffer).shorter rest left
      have := enough bytes buffer
      omega

/-- After any calls of a new decoder, errors or not: fewer than four bytes of a length have been
read; as long as the length is not known, nothing of a record has; once it is known, it is within
the limit, no byte of another length has been read, and bytes of the record are missing.  The next
call takes no more away than there is.  If it has a buffer, it gives the buffer back or shortens it,
whatever it answers, so that more calls than the buffer has bytes use it up.  (The registers answer
as the decoder of this library.) -/
theorem run_bounded (settings : DecoderSettings) (calls : List DecoderCall) :
    let d := (new settings : Registers α).run calls
    (new settings : Registers α).answers calls = (Decoder.new settings).answers calls ∧
    d.filled < 4 ∧
    (d.length = none → d.seen = []) ∧
    (∀ length, d.length = some length →
      d.filled = 0 ∧ d.seen.length < length ∧ length ≤ settings.maxRecordSize) ∧
    d.next? = some d.next ∧
    ∀ bytes, d.buffer = some bytes →
      (d.next.2.buffer = none ∨
        ∃ rest, d.next.2.buffer = some rest ∧ rest.length < bytes.length) ∧
      ∀ n, bytes.length < n → ((fun d => d.next.2)^[n] d).buffer = none := by
  intro d
  have same := (answers_clear (α := α) settings calls []).1
  have limit : d.limit = settings.maxRecordSize := (valid_run (valid_new settings) calls).2
  have bounded : d.Bounded := bounded_run (bounded_new settings) calls
  refine ⟨same, bounded.filled, bounded.unknown, fun length known => ?_, next?_eq_some bounded,
    fun bytes buffer => ⟨?_, fun n enough => ?_⟩⟩
  · exact ⟨bounded.known length known, bounded.missing length known,
      limit ▸ bounded.admitted length known⟩
  · cases left : d.next.2.buffer with
    | none => exact .inl rfl
    | some rest => exact .inr ⟨rest, rfl, (advances_next bounded buffer).shorter rest left⟩
  · refine buffer_iterate_next bounded fun other given => ?_
    obtain rfl := Option.some.inj (buffer.symm.trans given)
    exact enough

end Calls

end Registers

end StreamCheckpoint
