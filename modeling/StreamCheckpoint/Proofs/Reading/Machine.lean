import StreamCheckpoint.Proofs.Reading.Commands

/-! A reader whose decoders are kept in registers, in which bytes of earlier lengths are left over.
Whatever a task asks of it, it answers what the reader answers that has decoders instead
(`obey_view`): a decoder is given its buffers, asked for records and cleared, and no more. -/

namespace StreamCheckpoint

variable {α : Type}

/-- The buffer that a decoder got, with its channel. -/
def Activity.fed? : Activity α → Option (Nat × Bytes)
  | .fed channel bytes => some (channel, bytes)
  | _ => none

/-- The buffers that decoders got in `t`, in order. -/
def buffers (t : List (Activity α)) : List (Nat × Bytes) := t.filterMap (·.fed?)

/-- Gives the buffers to what `ds` has for their channels. -/
def give {δ : Type} (set : δ → Bytes → δ) (ds : List δ) : List (Nat × Bytes) → List δ
  | [] => ds
  | (channel, bytes) :: rest => give set (ds.modify channel (set · bytes)) rest

/-- A reader with its decoders in registers. -/
structure Machine (α : Type) where
  /-- Everything but the decoders; those that it has are not used. -/
  frame : Reader α
  registers : List (Registers α)

/-- What a part of a turn of a machine did. -/
structure Machine.Step (α : Type) where
  /-- What reading came to, or `none` if it goes on. -/
  answer : Option (Except ReadError (Reading α))
  activity : List (Activity α)
  machine : Machine α

section Buffers

@[simp] theorem buffers_append (t u : List (Activity α)) :
    buffers (t ++ u) = buffers t ++ buffers u :=
  List.filterMap_append

@[simp] theorem buffers_notices (ns : List Notice) :
    buffers (ns.map (.notice (α := α))) = [] := by
  simp [buffers, Activity.fed?]

theorem map_give {δ ε : Type} {set : δ → Bytes → δ} {set' : ε → Bytes → ε} {f : δ → ε}
    (h : ∀ d bytes, f (set d bytes) = set' (f d) bytes) (ds : List δ) (bs : List (Nat × Bytes)) :
    (give set ds bs).map f = give set' (ds.map f) bs := by
  induction bs generalizing ds with
  | nil => rfl
  | cons b bs ih =>
    obtain ⟨channel, bytes⟩ := b
    rw [give, give, ih]
    congr 1
    refine List.ext_getElem? fun c => ?_
    simp only [List.getElem?_map, List.getElem?_modify]
    cases ds[c]? with
    | none => rfl
    | some d =>
      simp only [Option.map_eq_map, Option.map_some]
      split
      · rw [h]
      · rfl

theorem mem_give {δ : Type} {set : δ → Bytes → δ} {P : δ → Prop}
    (h : ∀ d bytes, P d → P (set d bytes)) {ds : List δ} {bs : List (Nat × Bytes)}
    (all : ∀ d ∈ ds, P d) : ∀ d ∈ give set ds bs, P d := by
  induction bs generalizing ds with
  | nil => exact all
  | cons b bs ih =>
    obtain ⟨channel, bytes⟩ := b
    refine ih fun d hd => ?_
    obtain ⟨c, hc⟩ := List.getElem?_of_mem hd
    rw [List.getElem?_modify] at hc
    obtain ⟨d', hd', rfl⟩ := Option.map_eq_some_iff.mp hc
    have old := all d' (List.mem_of_getElem? hd')
    split
    · exact h d' bytes old
    · exact old

namespace Reader

theorem buffers_handle (r : Reader α) (channel : Nat) (e : Event) :
    buffers (r.handle channel e).activity = [] := by
  obtain ⟨ds, same⟩ := r.activity_handle channel e
  rw [same]
  simp [buffers, Activity.fed?]

theorem buffers_dispatchEvent (r : Reader α) (channel : Nat) (e : Event) :
    buffers (r.dispatchEvent channel e).activity = [] := by
  have offered : ∀ b (ns : List Notice),
      buffers ((.offered channel b : Activity α) :: ns.map .notice) = [] :=
    fun _ ns => buffers_notices ns
  unfold dispatchEvent
  split
  · simp only
    split <;> exact offered _ _
  · simp only
    split
    · exact buffers_notices _
    · rw [buffers_append, buffers_notices, buffers_handle, List.append_nil]
  · exact buffers_handle _ _ _

/-- Taking an item gives decoders the buffers that its activity says, and nothing else. -/
theorem Advances.decoders {r : Reader α} {t : Turn α} (h : r.Advances t) :
    t.reader.decoders = give Decoder.setBuffer r.decoders (buffers t.activity) := by
  cases h with
  | held take =>
    rw [buffers_notices]
    exact take.decoders
  | fed take => rw [take.decoders]; rfl
  | @dispatched channel e s take =>
    rw [buffers_dispatchEvent, (s.dispatchEvent_reader channel e).2.2]
    exact take.decoders
  | stray take => exact take.decoders
  | settled _ settle =>
    obtain ⟨same, -, ns, told⟩ := settle.same
    rw [told, buffers_notices]
    exact same
  | failed => rfl

end Reader

end Buffers

namespace Machine

/-- The reader that has decoders instead. -/
def view (m : Machine α) : Reader α :=
  { m.frame with decoders := m.registers.map (·.decoder) }

/-- The turn that a part of a turn is for the reader that has decoders instead. -/
def Step.view (s : Step α) : Turn α := ⟨s.answer, s.activity, s.machine.view⟩

/-- The registers are in states in which they can be. -/
def Valid (m : Machine α) : Prop := ∀ d ∈ m.registers, d.Valid

/-- Deals with the next item as the reader does.  The registers get the buffers. -/
def advance (m : Machine α) : Step α :=
  let t := m.view.advance
  ⟨t.answer, t.activity, ⟨t.reader, give Registers.setBuffer m.registers (buffers t.activity)⟩⟩

/-- Drops what has been read and what is held back; what is in the cells stays there. -/
def clearBuffers (m : Machine α) : Machine α :=
  ⟨m.frame.clearBuffers, m.registers.map (·.clear)⟩

variable [Record α]

/-- Asks the decoder of the current channel for a record. -/
def decodeCurrent (m : Machine α) : Step α :=
  match m.frame.current with
  | none => ⟨none, [], m⟩
  | some channel =>
    match m.registers[channel]? with
    | none => ⟨none, [], m⟩
    | some d =>
      let (answer, d) := d.next
      let registers := m.registers.set channel d
      match answer with
      | .error e => ⟨some (.error (.decode e)), [.refused channel e], ⟨m.frame, registers⟩⟩
      | .ok (.record v) => ⟨some (.ok (.record v)), [.record channel v], ⟨m.frame, registers⟩⟩
      | .ok (.lastRecord v) =>
        ⟨some (.ok (.record v)), [.record channel v],
          ⟨{ m.frame with current := none }, registers⟩⟩
      | .ok .bufferEnd => ⟨none, [], ⟨{ m.frame with current := none }, registers⟩⟩
      | .ok .noBuffer => ⟨none, [], ⟨m.frame, registers⟩⟩

def turn (m : Machine α) : Step α :=
  let t := m.decodeCurrent
  match t.answer with
  | some _ => t
  | none => t.machine.advance

theorem budget_decodeCurrent (m : Machine α) :
    m.decodeCurrent.machine.view.budget = m.view.budget := by
  unfold decodeCurrent
  split
  · rfl
  · split
    · rfl
    · simp only
      split <;> rfl

theorem budget_turn (m : Machine α) (h : m.turn.answer = none) :
    m.turn.machine.view.budget < m.view.budget := by
  rw [← m.budget_decodeCurrent]
  unfold turn at h ⊢
  cases ha : m.decodeCurrent.answer with
  | some answer => simp [ha] at h
  | none =>
    simp only [ha] at h ⊢
    exact m.decodeCurrent.machine.view.budget_advance h

/-- Reads, turn after turn, until there is an answer. -/
def read (m : Machine α) : Reply α × Machine α :=
  match h : m.turn.answer with
  | some answer => (⟨answer, m.turn.activity⟩, m.turn.machine)
  | none =>
    have : m.turn.machine.view.budget < m.view.budget := m.budget_turn h
    let s := m.turn.machine.read
    (⟨s.1.answer, m.turn.activity ++ s.1.activity⟩, s.2)
termination_by m.view.budget

/-- Does what the task asks.  What is neither reading nor dropping does not concern decoders. -/
def carryOut (m : Machine α) (command : Command) : List (Reply α) × Machine α :=
  match command with
  | .next =>
    if m.frame.isFinished then ([⟨.ok .finished, []⟩], m)
    else
      let (reply, m) := m.read
      ([reply], m)
  | .clearBuffers => ([], m.clearBuffers)
  | command =>
    let (replies, frame) := m.frame.carryOut command
    (replies, ⟨frame, m.registers⟩)

/-- Does what the task asks, one after the other. -/
def obey (m : Machine α) : List Command → List (Reply α) × Machine α
  | [] => ([], m)
  | command :: commands =>
    let (replies, m) := m.carryOut command
    let (more, last) := m.obey commands
    (replies ++ more, last)

section Simulation

variable {m : Machine α}

omit [Record α] in
theorem advance_view (valid : m.Valid) :
    m.view.advance = m.advance.view ∧ m.advance.machine.Valid := by
  have decoders : m.view.advance.reader.decoders =
      (give Registers.setBuffer m.registers (buffers m.view.advance.activity)).map (·.decoder) := by
    rw [map_give Registers.decoder_setBuffer, m.view.advances.decoders]
    rfl
  have advanced : m.advance.view = ⟨m.view.advance.answer, m.view.advance.activity,
      { m.view.advance.reader with
        decoders := (give Registers.setBuffer m.registers
          (buffers m.view.advance.activity)).map (·.decoder) }⟩ := rfl
  rw [advanced, ← decoders]
  exact ⟨rfl, mem_give (fun _ bytes h => h.setBuffer bytes) valid⟩

theorem decodeCurrent_view (valid : m.Valid) :
    m.view.decodeCurrent = m.decodeCurrent.view ∧ m.decodeCurrent.machine.Valid := by
  unfold decodeCurrent Reader.decodeCurrent
  cases current : m.frame.current with
  | none =>
    have idle : m.view.current = none := current
    simp only [idle]
    exact ⟨rfl, valid⟩
  | some channel =>
    have busy : m.view.current = some channel := current
    cases kept : m.registers[channel]? with
    | none =>
      have missing : m.view.decoders[channel]? = none := by simp [view, kept]
      simp only [busy, kept, missing]
      exact ⟨rfl, valid⟩
    | some d =>
      have present : m.view.decoders[channel]? = d.decoder := by simp [view, kept]
      obtain ⟨same, valid'⟩ := Registers.decoder_next (valid d (List.mem_of_getElem? kept))
      have decoders : m.view.decoders.set channel d.next.2.decoder =
          (m.registers.set channel d.next.2).map (·.decoder) := List.map_set.symm
      have all : ∀ d' ∈ m.registers.set channel d.next.2, d'.Valid := fun d' hd' =>
        (List.mem_or_eq_of_mem_set hd').elim (valid d') fun e => e ▸ valid'
      simp only [busy, kept, present, same, decoders]
      generalize d.next.1 = answer
      cases answer with
      | error e => exact ⟨by simp [Step.view, view, current], all⟩
      | ok f => cases f <;> exact ⟨by simp [Step.view, view, current], all⟩

theorem turn_view (valid : m.Valid) : m.view.turn = m.turn.view ∧ m.turn.machine.Valid := by
  obtain ⟨decodes, valid⟩ := decodeCurrent_view valid
  unfold turn Reader.turn
  rw [decodes]
  have same : m.decodeCurrent.view.answer = m.decodeCurrent.answer := rfl
  simp only [same]
  cases m.decodeCurrent.answer with
  | some answer => exact ⟨rfl, valid⟩
  | none => exact advance_view valid

theorem read_of_some {answer : Except ReadError (Reading α)} (h : m.turn.answer = some answer) :
    m.read = (⟨answer, m.turn.activity⟩, m.turn.machine) := by
  rw [read]
  split
  · next h' => rw [Option.some.inj (h.symm.trans h')]
  · next h' => rw [h] at h'; cases h'

theorem read_of_none (h : m.turn.answer = none) :
    m.read = (⟨m.turn.machine.read.1.answer, m.turn.activity ++ m.turn.machine.read.1.activity⟩,
      m.turn.machine.read.2) := by
  rw [read]
  split
  · next h' => rw [h] at h'; cases h'
  · rfl

theorem read_view (valid : m.Valid) :
    m.view.read = ⟨m.read.1.answer, m.read.1.activity, m.read.2.view⟩ ∧ m.read.2.Valid := by
  induction m using read.induct with
  | case1 m answer h =>
    obtain ⟨turn, valid⟩ := turn_view valid
    have same : m.view.turn.answer = m.turn.answer := congrArg Turn.answer turn
    rw [read_of_some h, Reader.read_of_some (same.trans h), turn]
    exact ⟨rfl, valid⟩
  | case2 m h _ ih =>
    obtain ⟨turn, valid⟩ := turn_view valid
    have same : m.view.turn.answer = m.turn.answer := congrArg Turn.answer turn
    obtain ⟨read, valid⟩ := ih valid
    have later : m.turn.view.reader.read = _ := read
    rw [read_of_none h, Reader.read_of_none (same.trans h), turn, later]
    exact ⟨rfl, valid⟩

omit [Record α] in
theorem clearBuffers_view (m : Machine α) : m.view.clearBuffers = m.clearBuffers.view := by
  have cleared : m.view.decoders.map (·.clear) =
      (m.registers.map (·.clear)).map (·.decoder) := by
    rw [view, List.map_map, List.map_map]
    rfl
  unfold Reader.clearBuffers
  rw [cleared]
  rfl

omit [Record α] in
theorem Valid.clearBuffers (valid : m.Valid) : m.clearBuffers.Valid := by
  intro d hd
  obtain ⟨d', hd', rfl⟩ := List.mem_map.mp hd
  exact (valid d' hd').clear

theorem carryOut_view (valid : m.Valid) (command : Command) :
    m.view.carryOut command = ((m.carryOut command).1, (m.carryOut command).2.view) ∧
      (m.carryOut command).2.Valid := by
  by_cases reads : command = .next
  · subst reads
    have finished : m.view.isFinished = m.frame.isFinished := rfl
    unfold carryOut Reader.carryOut
    simp only
    rw [Reader.next, finished]
    by_cases ended : m.frame.isFinished = true
    · rw [if_pos ended, if_pos ended]
      exact ⟨rfl, valid⟩
    · obtain ⟨read, valid⟩ := read_view valid
      rw [if_neg ended, if_neg ended, read]
      exact ⟨rfl, valid⟩
  · by_cases drops : command = .clearBuffers
    · subst drops
      exact ⟨congrArg (Prod.mk []) m.clearBuffers_view, valid.clearBuffers⟩
    · cases command with
      | next => exact absurd rfl reads
      | clearBuffers => exact absurd rfl drops
      | listen listener => exact ⟨rfl, valid⟩
      | setHandler handler => exact ⟨rfl, valid⟩
      | startNextSuperstep =>
        obtain ⟨⟨feed, decoders, aligner, handler, current, isFinished⟩, registers⟩ := m
        cases handler <;> exact ⟨rfl, valid⟩
      | subscribe kind =>
        obtain ⟨⟨feed, decoders, aligner, handler, current, isFinished⟩, registers⟩ := m
        cases handler <;> exact ⟨rfl, valid⟩

/-- Whatever the task asks, it cannot tell registers from decoders. -/
theorem obey_view (valid : m.Valid) (commands : List Command) :
    m.view.obey commands = ((m.obey commands).1, (m.obey commands).2.view) ∧
      (m.obey commands).2.Valid := by
  induction commands generalizing m with
  | nil => exact ⟨rfl, valid⟩
  | cons command commands ih =>
    obtain ⟨first, valid⟩ := carryOut_view valid command
    obtain ⟨rest, valid⟩ := ih valid
    exact ⟨by simp only [obey, Reader.obey, first, rest], valid⟩

/-- Machines that are seen as the same reader do the same. -/
theorem obey_congr {m' : Machine α} (valid : m.Valid) (valid' : m'.Valid) (same : m.view = m'.view)
    (commands : List Command) :
    (m.obey commands).1 = (m'.obey commands).1 ∧
      (m.obey commands).2.view = (m'.obey commands).2.view := by
  have seen := (obey_view valid commands).1
  rw [same, (obey_view valid' commands).1] at seen
  exact ⟨(Prod.mk.inj seen).1.symm, (Prod.mk.inj seen).2.symm⟩

end Simulation

end Machine

namespace Reader

/-- The machine with the same settings of its decoders, whose registers have read nothing yet. -/
def inRegisters (r : Reader α) : Machine α := ⟨r, r.decoders.map fun d => .new ⟨d.limit⟩⟩

theorem valid_inRegisters (r : Reader α) : r.inRegisters.Valid := by
  intro d hd
  obtain ⟨d', -, rfl⟩ := List.mem_map.mp hd
  exact Registers.valid_new _

theorem inRegisters_view {r : Reader α} {decoders : List DecoderSettings}
    (fresh : r.decoders = decoders.map fun d => .new d) : r.inRegisters.view = r := by
  have same : r.inRegisters.registers.map (·.decoder) = r.decoders := by
    rw [inRegisters, fresh, List.map_map, List.map_map]
    rfl
  unfold Machine.view
  rw [same]
  rfl

end Reader

end StreamCheckpoint
