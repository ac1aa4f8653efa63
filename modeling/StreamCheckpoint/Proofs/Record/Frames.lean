import StreamCheckpoint.Record.Decoder

/-! The records of a stream as a function of its bytes.  `frames` reads a string of bytes that is
there as a whole.  A decoder gets the string in buffers, cut anywhere, and comes to the same records
and errors (`readBuffers_eq_frames`): what it has read of a frame and what is left of the buffer are
together the part of the string that `frames` has still to read. -/

namespace StreamCheckpoint

variable {α : Type}

/-- The records and errors in `bs`, and the bytes of the frame in the middle of which `bs` ends. -/
def frames [Record α] (limit : Nat) (bs : Bytes) : List (Except DecodeError α) × Bytes :=
  if bs.length < lengthBytes then ([], bs)
  else
    let length := bigEndian (bs.take lengthBytes)
    let rest := bs.drop lengthBytes
    if limit < length then
      let (outcomes, last) := frames limit rest
      (.error (.tooLarge length limit) :: outcomes, last)
    else if rest.length < length then ([], bs)
    else
      let (outcomes, last) := frames limit (rest.drop length)
      (Record.decode (rest.take length) :: outcomes, last)
termination_by bs.length
decreasing_by all_goals simp only [List.length_drop, lengthBytes] at *; omega

section Equations

variable [Record α] {limit : Nat} {bs p body : Bytes}

theorem frames_short (h : bs.length < lengthBytes) : frames (α := α) limit bs = ([], bs) := by
  rw [frames, if_pos h]

@[simp] theorem frames_nil : frames (α := α) limit [] = ([], []) :=
  frames_short (by decide)

theorem frames_tooLarge (hp : p.length = lengthBytes) (h : limit < bigEndian p) (rest : Bytes) :
    frames (α := α) limit (p ++ rest) =
      (.error (.tooLarge (bigEndian p) limit) :: (frames limit rest).1,
        (frames (α := α) limit rest).2) := by
  rw [frames, if_neg (by simp [hp])]
  simp only [← hp, List.take_left, List.drop_left, if_pos h]

theorem frames_partial (hp : p.length = lengthBytes) (hl : bigEndian p ≤ limit)
    (h : body.length < bigEndian p) : frames (α := α) limit (p ++ body) = ([], p ++ body) := by
  rw [frames, if_neg (by simp [hp])]
  simp only [← hp, List.take_left, List.drop_left, if_neg (Nat.not_lt.mpr hl), if_pos h]

theorem frames_record (hp : p.length = lengthBytes) (hl : bigEndian p ≤ limit)
    (h : body.length = bigEndian p) (rest : Bytes) :
    frames (α := α) limit (p ++ body ++ rest) =
      (Record.decode body :: (frames limit rest).1, (frames (α := α) limit rest).2) := by
  rw [List.append_assoc, frames, if_neg (by simp [hp])]
  simp only [← hp, List.take_left, List.drop_left, if_neg (Nat.not_lt.mpr hl)]
  simp only [← h, List.take_left, List.drop_left, List.length_append,
    if_neg (Nat.not_lt.mpr (Nat.le_add_right _ _))]

end Equations

/-- A string of at least four bytes is a length followed by the rest. -/
theorem exists_prefix {bs : Bytes} (h : ¬bs.length < lengthBytes) :
    ∃ p rest, p.length = lengthBytes ∧ bs = p ++ rest :=
  ⟨bs.take lengthBytes, bs.drop lengthBytes, by simp only [List.length_take]; omega,
    (List.take_append_drop _ _).symm⟩

/-- Reading a string is reading its first part, and then the frame in the middle of which that
part ends together with the second part. -/
theorem frames_append [Record α] (limit : Nat) (a b : Bytes) :
    frames (α := α) limit (a ++ b) =
      ((frames limit a).1 ++ (frames limit ((frames (α := α) limit a).2 ++ b)).1,
        (frames (α := α) limit ((frames (α := α) limit a).2 ++ b)).2) := by
  induction hn : a.length using Nat.strongRecOn generalizing a with
  | ind n ih =>
    subst hn
    by_cases hs : a.length < lengthBytes
    · simp [frames_short hs]
    obtain ⟨p, rest, hp, rfl⟩ := exists_prefix hs
    by_cases hl : limit < bigEndian p
    · rw [List.append_assoc, frames_tooLarge hp hl, frames_tooLarge hp hl,
        ih rest.length (by simp [hp, lengthBytes]) rest rfl]
      simp
    have hl' := Nat.not_lt.mp hl
    by_cases hr : rest.length < bigEndian p
    · simp [frames_partial hp hl' hr]
    have hb : (rest.take (bigEndian p)).length = bigEndian p := by
      simp only [List.length_take]
      omega
    have e : p ++ rest = p ++ rest.take (bigEndian p) ++ rest.drop (bigEndian p) := by simp
    rw [e, List.append_assoc _ _ b, frames_record hp hl' hb, frames_record hp hl' hb,
      ih (rest.drop (bigEndian p)).length (by simp [hp, lengthBytes]; omega) _ rfl]
    simp

/-- `bs` is what a decoder in the state `f` has read of the frame that it is in. -/
def FrameState.Holds (limit : Nat) : FrameState → Bytes → Prop
  | .length seen, bs => bs = seen ∧ seen.length < lengthBytes
  | .body size seen, bs => ∃ p, p.length = lengthBytes ∧ bigEndian p = size ∧ size ≤ limit ∧
      seen.length < size ∧ bs = p ++ seen

namespace Decoder

/-- Between two frames a decoder has read nothing. -/
theorem holds_between (limit : Nat) : (FrameState.length []).Holds limit [] :=
  ⟨rfl, by decide⟩

/-- A decoder is in the middle of a frame if it has read anything of it. -/
theorem isUnfinished_iff {d : Decoder α} {limit : Nat} {bs : Bytes} (h : d.frame.Holds limit bs) :
    d.isUnfinished = true ↔ bs ≠ [] := by
  unfold isUnfinished
  cases hf : d.frame with
  | length seen =>
    rw [hf] at h
    obtain ⟨rfl, -⟩ := h
    simp
  | body length seen =>
    rw [hf] at h
    obtain ⟨p, hp, -, -, -, rfl⟩ := h
    have : p ++ seen ≠ [] := by
      rintro e
      simp [(List.append_eq_nil_iff.mp e).1, lengthBytes] at hp
    simp [this]

/-- What a call for the next record does to the bytes `bs` that are still to be read: it reads all
of them without coming to the end of a frame, or it comes to a record or an error and leaves
`rest`. -/
inductive Progress [Record α] (limit : Nat) (bs : Bytes) :
    Except DecodeError (Fetch α) × Decoder α → Prop
  | through {f : FrameState} (hold : f.Holds limit bs)
      (open_ : frames (α := α) limit bs = ([], bs)) :
      Progress limit bs (.ok .bufferEnd, ⟨limit, none, f⟩)
  | last {answer : Except DecodeError (Fetch α)} {o : Except DecodeError α}
      (outcome : outcome? answer = some o) (one : frames limit bs = ([o], [])) :
      Progress limit bs (answer, ⟨limit, none, .length []⟩)
  | more {answer : Except DecodeError (Fetch α)} {o : Except DecodeError α} {rest : Bytes}
      (outcome : outcome? answer = some o)
      (cons : frames limit bs = (o :: (frames limit rest).1, (frames (α := α) limit rest).2)) :
      Progress limit bs (answer, ⟨limit, some rest, .length []⟩)

theorem progress_nextBody [Record α] (d : Decoder α) {p : Bytes} (seen bytes : Bytes)
    (hp : p.length = lengthBytes) (hl : bigEndian p ≤ d.limit) (hs : seen.length ≤ bigEndian p) :
    Progress d.limit (p ++ seen ++ bytes) (d.nextBody (bigEndian p) seen bytes) := by
  simp only [nextBody]
  by_cases hm : bytes.length < bigEndian p - seen.length
  · have hb : (seen ++ bytes).length < bigEndian p := by
      rw [List.length_append]
      omega
    rw [if_pos hm]
    refine .through ⟨p, hp, rfl, hl, hb, List.append_assoc _ _ _⟩ ?_
    rw [List.append_assoc, frames_partial hp hl hb]
  rw [if_neg hm]
  have hb : (seen ++ bytes.take (bigEndian p - seen.length)).length = bigEndian p := by
    rw [List.length_append, List.length_take]
    omega
  have hf := frames_record (α := α) hp hl hb (bytes.drop (bigEndian p - seen.length))
  simp only [List.append_assoc, List.take_append_drop] at hf
  rw [← List.append_assoc] at hf
  cases hr : bytes.drop (bigEndian p - seen.length) with
  | nil =>
    rw [hr, frames_nil] at hf
    cases hd : Record.decode (α := α) (seen ++ bytes.take (bigEndian p - seen.length)) with
    | ok v => exact .last rfl (by rw [hf, hd])
    | error e => exact .last rfl (by rw [hf, hd])
  | cons b rest =>
    rw [hr] at hf
    cases hd : Record.decode (α := α) (seen ++ bytes.take (bigEndian p - seen.length)) with
    | ok v => exact .more rfl (by rw [hf, hd])
    | error e => exact .more rfl (by rw [hf, hd])

theorem progress_next [Record α] {d : Decoder α} {bs bytes : Bytes} (hb : d.buffer = some bytes)
    (hf : d.frame.Holds d.limit bs) : Progress d.limit (bs ++ bytes) d.next := by
  obtain ⟨limit, buffer, frame⟩ := d
  simp only at hb hf
  subst hb
  cases frame with
  | body length seen =>
    obtain ⟨p, hp, rfl, hl, hs, rfl⟩ := hf
    exact progress_nextBody ⟨limit, some bytes, .body (bigEndian p) seen⟩ seen bytes hp hl
      (Nat.le_of_lt hs)
  | length seen =>
    obtain ⟨rfl, hs⟩ := hf
    simp only [next]
    by_cases hm : bytes.length < lengthBytes - bs.length
    · have hlt : (bs ++ bytes).length < lengthBytes := by
        rw [List.length_append]
        omega
      rw [if_pos hm]
      exact .through ⟨rfl, hlt⟩ (frames_short hlt)
    rw [if_neg hm]
    have hp : (bs ++ bytes.take (lengthBytes - bs.length)).length = lengthBytes := by
      rw [List.length_append, List.length_take]
      omega
    have e : bs ++ bytes = bs ++ bytes.take (lengthBytes - bs.length) ++
        bytes.drop (lengthBytes - bs.length) := by simp
    rw [e]
    generalize bs ++ bytes.take (lengthBytes - bs.length) = p at hp
    by_cases hl : limit < bigEndian p
    · rw [if_pos hl]
      exact .more rfl (frames_tooLarge (α := α) hp hl _)
    · rw [if_neg hl]
      have h := progress_nextBody (⟨limit, some bytes, .length bs⟩ : Decoder α) []
        (bytes.drop (lengthBytes - bs.length)) hp (Nat.not_lt.mp hl) (Nat.zero_le _)
      rwa [List.append_nil] at h

@[simp] theorem drain_of_none [Record α] {d : Decoder α} (h : d.buffer = none) :
    d.drain = ([], d) := by
  rw [drain, dif_pos h]

/-- Draining a decoder is calling it once and draining it again. -/
theorem drain_of_buffer [Record α] {d : Decoder α} (h : d.buffer ≠ none) :
    d.drain = ((outcome? d.next.1).toList ++ d.next.2.drain.1, d.next.2.drain.2) := by
  rw [drain, dif_neg h]
  by_cases h' : d.next.2.buffer = none
  · simp [h']
  · simp [h']

theorem drain_eq_frames [Record α] {d : Decoder α} {bs bytes : Bytes}
    (hb : d.buffer = some bytes) (hf : d.frame.Holds d.limit bs) :
    d.drain.1 = (frames d.limit (bs ++ bytes)).1 ∧ d.drain.2.limit = d.limit ∧
      d.drain.2.buffer = none ∧
      d.drain.2.frame.Holds d.limit (frames (α := α) d.limit (bs ++ bytes)).2 := by
  -- a call gives the buffer back or leaves less work, and the next frame begins with no bytes
  induction hw : d.work using Nat.strongRecOn generalizing d bs bytes with
  | ind n ih =>
    subst hw
    have hn : d.buffer ≠ none := by simp [hb]
    rw [drain_of_buffer hn]
    have hwork := d.work_next hn
    have hp := progress_next hb hf
    generalize d.next = r at hwork hp
    cases hp with
    | through hold open_ =>
      rw [drain_of_none rfl, open_]
      exact ⟨rfl, rfl, rfl, hold⟩
    | last outcome one =>
      rw [drain_of_none rfl, one]
      exact ⟨by simp [outcome], rfl, rfl, holds_between _⟩
    | @more answer o rest outcome cons =>
      obtain ⟨h1, h2, h3, h4⟩ := ih _ (hwork.resolve_left (by simp))
        (d := ⟨d.limit, some rest, .length []⟩) rfl (holds_between _) rfl
      rw [List.nil_append] at h1 h4
      rw [cons]
      refine ⟨?_, h2, h3, h4⟩
      simp only [h1, outcome, Option.toList_some, List.singleton_append]

/-- Feeding buffers to a decoder gives the records and errors in their concatenation, after what
the decoder had read of a frame before. -/
theorem readBuffers_eq_frames [Record α] {d : Decoder α} {bs : Bytes} (hb : d.buffer = none)
    (hf : d.frame.Holds d.limit bs) (buffers : List Bytes) :
    (d.readBuffers buffers).1 = (frames d.limit (bs ++ buffers.flatten)).1 ∧
      (d.readBuffers buffers).2.limit = d.limit ∧
      (d.readBuffers buffers).2.buffer = none ∧
      (d.readBuffers buffers).2.frame.Holds d.limit
        (frames (α := α) d.limit (bs ++ buffers.flatten)).2 := by
  induction buffers generalizing d bs with
  | nil =>
    have hs : frames (α := α) d.limit bs = ([], bs) := by
      cases hd : d.frame with
      | length seen =>
        rw [hd] at hf
        obtain ⟨rfl, hs⟩ := hf
        exact frames_short hs
      | body length seen =>
        rw [hd] at hf
        obtain ⟨p, hp, rfl, hl, hs, rfl⟩ := hf
        exact frames_partial hp hl hs
    simp only [readBuffers, List.flatten_nil, List.append_nil, hs]
    exact ⟨trivial, trivial, hb, hf⟩
  | cons bytes rest ih =>
    obtain ⟨h1, h2, h3, h4⟩ := drain_eq_frames (d := d.setBuffer bytes) rfl hf
    simp only [setBuffer] at h1 h2 h3 h4
    obtain ⟨i1, i2, i3, i4⟩ := ih h3 (by rw [h2]; exact h4)
    rw [h2] at i1 i2 i4
    rw [List.flatten_cons, ← List.append_assoc, frames_append]
    simp only [readBuffers, setBuffer] at *
    exact ⟨by rw [h1, i1], i2, i3, i4⟩

/-- A new decoder comes to the same records and errors whether it gets some buffers one after the
other or all their bytes in one. -/
theorem readBuffers_new [Record α] (settings : DecoderSettings) (buffers : List Bytes) :
    ((Decoder.new settings : Decoder α).readBuffers buffers).1 =
      ((Decoder.new settings).setBuffer buffers.flatten).drain.1 := by
  rw [(readBuffers_eq_frames rfl (holds_between _) buffers).1,
    (drain_eq_frames rfl (holds_between _)).1]
  rfl

/-- However a string is cut into buffers, a new decoder comes to the records and errors of the whole
string, gives every buffer back, and is left in the middle of a frame exactly if the string is. -/
theorem readBuffers_parses [Record α] (settings : DecoderSettings) (buffers : List Bytes) :
    let read := (Decoder.new settings : Decoder α).readBuffers buffers
    let parsed := frames (α := α) settings.maxRecordSize buffers.flatten
    read.1 = parsed.1 ∧ read.2.buffer = none ∧ (read.2.isUnfinished = true ↔ parsed.2 ≠ []) := by
  intro read parsed
  obtain ⟨hr, -, hb, hf⟩ :=
    readBuffers_eq_frames (d := (Decoder.new settings : Decoder α)) rfl (holds_between _) buffers
  exact ⟨hr, hb, isUnfinished_iff hf⟩

end Decoder

end StreamCheckpoint
