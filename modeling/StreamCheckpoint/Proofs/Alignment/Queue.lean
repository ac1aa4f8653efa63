import Mathlib.Algebra.GroupWithZero.Nat
import StreamCheckpoint.Proofs.Alignment.Underway

/-! What a call does to the items that an aligner has.  `Shifts` lists it for every call: what is
held back stays as it is, or grows by the item that is stored, or goes in front of what waits for
replay because the alignment has ended. -/

namespace StreamCheckpoint

/-- What `items` count against a byte limit. -/
def sizes (items : List Item) : Nat := (items.map (·.size)).sum

@[simp] theorem sizes_nil : sizes [] = 0 := rfl

theorem sizes_cons (item : Item) (items : List Item) :
    sizes (item :: items) = item.size + sizes items := by
  simp [sizes]

@[simp] theorem sizes_append (items more : List Item) :
    sizes (items ++ more) = sizes items + sizes more := by
  simp [sizes]

@[simp] theorem sizes_singleton (item : Item) : sizes [item] = item.size := by
  simp [sizes]

namespace Operation

/-- The item that the call stores. -/
def stored? : Operation → Option Item
  | .store item => some item
  | _ => none

/-- The call neither stores an item nor takes or drops any. -/
def Passive : Operation → Prop
  | .offer _ _ | .close _ | .setListener _ => True
  | .store _ | .replayNext | .cleanup => False

theorem Passive.stored?_eq {op : Operation} (h : op.Passive) : op.stored? = none := by
  cases op with
  | store => exact h.elim
  | _ => rfl

theorem Passive.ne_cleanup {op : Operation} (h : op.Passive) : op ≠ .cleanup := by
  rintro rfl
  exact h

end Operation

/-- The items that the calls store, in order. -/
def storedBy (ops : List Operation) : List Item := ops.filterMap (·.stored?)

@[simp] theorem storedBy_append (ops more : List Operation) :
    storedBy (ops ++ more) = storedBy ops ++ storedBy more :=
  List.filterMap_append

theorem storedBy_singleton (op : Operation) : storedBy [op] = op.stored?.toList := by
  cases op <;> rfl

namespace Aligner

theorem run_append (a : Aligner) (ops more : List Operation) :
    a.run (ops ++ more) =
      ((a.run ops).1 ++ ((a.run ops).2.run more).1, ((a.run ops).2.run more).2) := by
  induction ops generalizing a with
  | nil => rfl
  | cons op ops ih => simp [ih]

theorem run_concat (a : Aligner) (ops : List Operation) (op : Operation) :
    a.run (ops ++ [op]) = ((a.run ops).1 ++ ((a.run ops).2.perform op).notices,
      ((a.run ops).2.perform op).aligner) := by
  rw [run_append, run_cons, run_nil, List.append_nil]

/-- What a call does to the items that are held back and to those that wait for replay. -/
inductive Shifts (a : Aligner) : Operation → Aligner → Prop
  | kept {op : Operation} {a' : Aligner} (passive : op.Passive)
      (current : a'.current = a.current) (queue : a'.queue = a.queue)
      (bytes : a'.heldBytes = a.heldBytes) (replay : a'.replay = a.replay) : Shifts a op a'
  | released {op : Operation} {a' : Aligner} (passive : op.Passive)
      (current : a'.current ≠ a.current) (queue : a'.queue = []) (bytes : a'.heldBytes = 0)
      (replay : a'.replay = a.items) : Shifts a op a'
  | stored {item : Item} {r : List Notice × Aligner} (stores : a.Stores item r) :
      Shifts a (.store item) r.2
  | taken : Shifts a .replayNext { a with replay := a.replay.tail }
  | dropped : Shifts a .cleanup a.cleanup

theorem shifts_of_retains {a a' : Aligner} {op : Operation} (passive : op.Passive)
    (h : a.Retains a') (items : a'.items = a.items) : a.Shifts op a' := by
  rcases h with ⟨current, queue, bytes⟩ | ⟨current, queue, bytes⟩
  · refine .kept passive current queue bytes ?_
    rw [Aligner.items, Aligner.items, queue] at items
    exact List.append_cancel_left items
  · refine .released passive current queue bytes ?_
    rw [Aligner.items, queue, List.nil_append] at items
    exact items

theorem retains_offer (a : Aligner) (channel : Nat) (e : Event) :
    a.Retains (a.offer channel e).aligner := by
  unfold offer
  split
  · split
    · exact (offers a channel _).retains
    · exact retains_of_same rfl
  · exact retains_of_same rfl

theorem retains_closeChannel (a : Aligner) (channel : Nat) :
    a.Retains (a.closeChannel channel).aligner := by
  by_cases hc : channel < a.channels
  · exact (closes hc).retains
  · rw [closeChannel, if_neg hc]
    exact retains_of_same rfl

theorem replayNext_snd (a : Aligner) : a.replayNext.2 = { a with replay := a.replay.tail } := by
  obtain ⟨_, _, _, _, replay, _, _⟩ := a
  cases replay <;> rfl

/-- Every call shifts the items in one of the ways of `Shifts`. -/
theorem shifts (a : Aligner) (op : Operation) : a.Shifts op (a.perform op).aligner := by
  cases op with
  | offer channel e =>
    exact shifts_of_retains trivial (a.retains_offer channel e) (a.items_offer channel e)
  | store item => exact .stored (a.stores item)
  | replayNext =>
    have h := Shifts.taken (a := a)
    rwa [← a.replayNext_snd] at h
  | close channel =>
    exact shifts_of_retains trivial (a.retains_closeChannel channel) (a.items_closeChannel channel)
  | cleanup => exact .dropped
  | setListener listener => exact .kept trivial rfl rfl rfl rfl

theorem heldBytes_of_inFlight {a : Aligner} {f : Alignment} (h : a.inFlight = some f) :
    a.heldBytes = f.bytes := by
  rw [heldBytes, h, Option.elim_some]

theorem settings_perform (a : Aligner) (op : Operation) :
    (a.perform op).aligner.settings = a.settings :=
  (a.performs op).settings

theorem aligning_bare (a : Aligner) : a.bare.aligning = a.aligning := by
  cases h : a.inFlight with
  | none => simp [aligning, bare, h]
  | some f => simp [aligning, bare, h, Alignment.bare]

end Aligner

end StreamCheckpoint
