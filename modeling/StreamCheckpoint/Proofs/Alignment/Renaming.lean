import StreamCheckpoint.Proofs.Alignment.Limit

/-! An aligner does not look at the channels of the items that it is given to store, only at their
sizes.  So a call does the same for items whose channels are renamed (`perform_rename`), and so does
a run (`run_rename`). -/

namespace StreamCheckpoint

/-- The item with `f` applied to its channel. -/
def Item.rename (f : Nat → Nat) (i : Item) : Item := { i with channel := f i.channel }

@[simp] theorem Item.size_rename (f : Nat → Nat) (i : Item) : (i.rename f).size = i.size := rfl

def Alignment.rename (f : Nat → Nat) (g : Alignment) : Alignment :=
  { g with queue := g.queue.map (·.rename f) }

/-- The call with `f` applied to the channel of the item that it stores. -/
def Operation.rename (f : Nat → Nat) : Operation → Operation
  | .store item => .store (item.rename f)
  | op => op

def Answer.rename (f : Nat → Nat) : Answer → Answer
  | .replayed item => .replayed (item.map (·.rename f))
  | answer => answer

namespace Aligner

/-- The aligner with `f` applied to the channels of its items. -/
def rename (f : Nat → Nat) (a : Aligner) : Aligner :=
  { a with inFlight := a.inFlight.map (·.rename f), replay := a.replay.map (·.rename f) }

section Rename

variable {a a' a'' : Aligner} {f : Nat → Nat} {op : Operation}

theorem ext_bare (bare : a.bare = a'.bare) (queue : a.queue = a'.queue)
    (bytes : a.heldBytes = a'.heldBytes) (replay : a.replay = a'.replay) : a = a' := by
  obtain ⟨_, _, _, inFlight, _, _, _⟩ := a
  obtain ⟨_, _, _, inFlight', _, _, _⟩ := a'
  cases inFlight with
  | none => cases inFlight' <;> simp_all [Aligner.bare]
  | some g =>
    cases inFlight' with
    | none => simp [Aligner.bare] at bare
    | some g' =>
      obtain ⟨_, _, _, _, _⟩ := g
      obtain ⟨_, _, _, _, _⟩ := g'
      simp_all [Aligner.bare, Alignment.bare, Aligner.queue, heldBytes]

@[simp] theorem bare_rename (f : Nat → Nat) (a : Aligner) : (a.rename f).bare = a.bare := by
  cases h : a.inFlight <;> simp [bare, rename, h, Alignment.bare, Alignment.rename]

@[simp] theorem current_rename (f : Nat → Nat) (a : Aligner) :
    (a.rename f).current = a.current := by
  rw [← current_bare, bare_rename, current_bare]

@[simp] theorem queue_rename (f : Nat → Nat) (a : Aligner) :
    (a.rename f).queue = a.queue.map (·.rename f) := by
  cases h : a.inFlight <;> simp [queue, rename, h, Alignment.rename]

@[simp] theorem heldBytes_rename (f : Nat → Nat) (a : Aligner) :
    (a.rename f).heldBytes = a.heldBytes := by
  cases h : a.inFlight <;> simp [heldBytes, rename, h, Alignment.rename]

@[simp] theorem items_rename (f : Nat → Nat) (a : Aligner) :
    (a.rename f).items = a.items.map (·.rename f) := by
  rw [items, items, queue_rename, List.map_append]
  rfl

theorem bare_perform (passive : op.Passive) (a : Aligner) :
    (a.perform op).bare = a.bare.perform op := by
  cases op with
  | offer channel e => simp [perform, bare_offer, Reaction.bare]
  | close channel => simp [perform, bare_closeChannel, Reaction.bare]
  | setListener listener => rfl
  | _ => exact passive.elim

/-- A passive call does the same whatever the channels of the items. -/
theorem Shifts.rename (passive : op.Passive) (h : a.Shifts op a')
    (h' : (a.rename f).Shifts op a'') (bare : a''.bare = a'.bare) : a'' = a'.rename f := by
  have current : a''.current = a'.current := by rw [← current_bare, bare, current_bare]
  cases h with
  | kept _ same queue bytes replay =>
    cases h' with
    | kept _ _ queue' bytes' replay' =>
      refine ext_bare (by rw [bare, bare_rename]) ?_ ?_ ?_
      · rw [queue', queue_rename, queue_rename, queue]
      · rw [bytes', heldBytes_rename, heldBytes_rename, bytes]
      · rw [replay']
        exact congrArg (List.map _) replay.symm
    | released _ ne =>
      rw [current_rename, current] at ne
      exact absurd same ne
    | _ => exact passive.elim
  | released _ ne queue bytes replay =>
    cases h' with
    | kept _ same =>
      rw [current_rename, current] at same
      exact absurd same ne
    | released _ _ queue' bytes' replay' =>
      refine ext_bare (by rw [bare, bare_rename]) ?_ ?_ ?_
      · rw [queue', queue_rename, queue, List.map_nil]
      · rw [bytes', heldBytes_rename, bytes]
      · rw [replay', items_rename]
        exact congrArg (List.map _) replay.symm
    | _ => exact passive.elim
  | _ => exact passive.elim

theorem store_rename (f : Nat → Nat) (a : Aligner) (item : Item) :
    (a.rename f).store (item.rename f) = ((a.store item).1, (a.store item).2.rename f) := by
  cases flight : a.inFlight with
  | none =>
    have flight' : (a.rename f).inFlight = none := by simp [rename, flight]
    rw [store_of_idle flight, store_of_idle flight']
    simp [rename, flight]
  | some g =>
    have flight' : (a.rename f).inFlight = some (g.rename f) := by simp [rename, flight]
    by_cases exceeded : a.settings.Exceeded (g.bytes + item.size)
    · have exceeded' : (a.rename f).settings.Exceeded
          ((g.rename f).bytes + (item.rename f).size) := exceeded
      rw [store_of_exceeded flight exceeded, store_of_exceeded flight' exceeded']
      simp [rename, abort, release, Alignment.hold, Alignment.rename]
    · have room : ¬(a.rename f).settings.Exceeded
          ((g.rename f).bytes + (item.rename f).size) := exceeded
      rw [store_of_room flight exceeded, store_of_room flight' room]
      simp [rename, Alignment.hold, Alignment.rename]

theorem replayNext_rename (f : Nat → Nat) (a : Aligner) : (a.rename f).replayNext =
    (a.replayNext.1.map (·.rename f), a.replayNext.2.rename f) := by
  obtain ⟨_, _, _, _, replay, _, _⟩ := a
  cases replay <;> rfl

/-- A passive call gives nothing back. -/
theorem answer_of_passive (passive : op.Passive) (a : Aligner) (item : Option Item) :
    (a.perform op).answer ≠ .ok (.replayed item) := by
  cases op with
  | offer channel e =>
    simp only [perform]
    cases (a.offer channel e).answer <;> simp [Except.map]
  | close channel =>
    simp only [perform]
    cases (a.closeChannel channel).answer <;> simp [Except.map]
  | setListener listener => simp [perform]
  | _ => exact passive.elim

theorem answer_rename (passive : op.Passive) (f : Nat → Nat) (a : Aligner) :
    (a.perform op).answer.map (·.rename f) = (a.perform op).answer := by
  have quiet := answer_of_passive passive a
  generalize (a.perform op).answer = answer at quiet
  cases answer with
  | error => rfl
  | ok answer =>
    cases answer with
    | replayed item => exact absurd rfl (quiet item)
    | _ => rfl

theorem rename_of_passive (passive : op.Passive) (f : Nat → Nat) : op.rename f = op := by
  cases op with
  | store => exact passive.elim
  | _ => rfl

/-- An aligner does not look at the channels of its items. -/
theorem perform_rename (f : Nat → Nat) (a : Aligner) (op : Operation) :
    (a.rename f).perform (op.rename f) =
      ⟨(a.perform op).answer.map (·.rename f), (a.perform op).notices,
        (a.perform op).aligner.rename f⟩ := by
  by_cases passive : op.Passive
  · have bare : ((a.rename f).perform op).bare = (a.perform op).bare := by
      rw [bare_perform passive, bare_perform passive, bare_rename]
    have aligner := Shifts.rename passive (a.shifts op) ((a.rename f).shifts op)
      (congrArg Reaction.aligner bare)
    have answer := congrArg Reaction.answer bare
    have notices := congrArg Reaction.notices bare
    simp only [Reaction.bare] at answer notices
    rw [rename_of_passive passive, answer_rename passive, ← answer, ← notices, ← aligner]
  · cases op with
    | store item =>
      simp only [perform, Operation.rename, store_rename]
      rfl
    | replayNext =>
      simp only [perform, Operation.rename, replayNext_rename]
      rfl
    | cleanup => rfl
    | _ => exact absurd trivial passive

theorem run_rename (f : Nat → Nat) (a : Aligner) (ops : List Operation) :
    (a.rename f).run (ops.map (·.rename f)) = ((a.run ops).1, (a.run ops).2.rename f) := by
  induction ops generalizing a with
  | nil => rfl
  | cons op ops ih => rw [List.map_cons, run_cons, perform_rename, ih, run_cons]

end Rename

end Aligner

end StreamCheckpoint
