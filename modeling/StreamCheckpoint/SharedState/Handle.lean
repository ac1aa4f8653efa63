import StreamCheckpoint.Bytes
import StreamCheckpoint.Storage.Basic

/-! State handles.  A handle points at one piece of checkpointed state, which never changes once it
is written. -/

namespace StreamCheckpoint

/-- The name under which a piece of state is shared. -/
abbrev SharedKey := String

/-- A piece of checkpointed state. -/
inductive StateHandle
  /-- A file of `size` bytes. -/
  | file (path : Path) (size : Nat)
  /-- Bytes that are kept with the checkpoint itself, under a name. -/
  | memory (name : String) (data : Bytes)
  /-- Stands for state that was shared in an earlier checkpoint. -/
  | placeholder
deriving Repr

/-- The piece of state that a handle describes, however the handle writes its path. -/
inductive StateIdentity
  | file (parts : List PathPart) (size : Nat)
  | memory (name : String) (data : Bytes)
  | placeholder
deriving DecidableEq, Repr

namespace StateHandle

/-- The piece of state that the handle describes. -/
def identity : StateHandle → StateIdentity
  | file path size => .file path.parts size
  | memory name data => .memory name data
  | placeholder => .placeholder

/-- Two handles are equal if they describe the same state. -/
instance : BEq StateHandle where
  beq h h' := h.identity == h'.identity

theorem beq_iff {h h' : StateHandle} : (h == h') = true ↔ h.identity = h'.identity := by
  show (h.identity == h'.identity) = true ↔ _
  exact beq_iff_eq

instance : EquivBEq StateHandle where
  rfl := beq_iff.2 rfl
  symm e := beq_iff.2 (beq_iff.1 e).symm
  trans e e' := beq_iff.2 ((beq_iff.1 e).trans (beq_iff.1 e'))

def isPlaceholder : StateHandle → Bool
  | placeholder => true
  | _ => false

/-- Equal handles are both placeholders, or neither is. -/
theorem isPlaceholder_congr {h h' : StateHandle} (e : (h == h') = true) :
    h.isPlaceholder = h'.isPlaceholder := by
  have hid := beq_iff.1 e
  cases h <;> cases h' <;> first | rfl | cases hid

/-- The bytes of the state, of which a placeholder has none. -/
def size : StateHandle → Nat
  | file _ size => size
  | memory _ data => data.length
  | placeholder => 0

/-- The bytes of the state that some handles point at, which 64 bits can say below `2 ^ 64`. -/
def totalSize (hs : List StateHandle) : Nat := hs.foldr (fun h n => h.size + n) 0

def text : StateHandle → String
  | file path size => s!"file:{path.text} ({size} bytes)"
  | memory name data => s!"memory:{name} ({data.length} bytes)"
  | placeholder => "placeholder"

variable {σ : Type} [Storage σ]

/-- Removes the state for good.  Only files have anything outside the checkpoint to remove. -/
def discard (h : StateHandle) (s : σ) : Except IoError Unit × σ :=
  match h with
  | file path _ =>
    let (removal, s) := Storage.remove s path
    (removal.result, s)
  | _ => (.ok (), s)

/-- Removes the state of each handle and lets failures pass: nobody waits for them. -/
def dispose (s : σ) (hs : List StateHandle) : σ := hs.foldl (fun s h => (h.discard s).2) s

/-- Removes the state of each handle, and returns the first failure; the others are removed all the
same. -/
def discardEach (s : σ) : List StateHandle → Option IoError × σ
  | [] => (none, s)
  | h :: hs =>
    let (result, s) := h.discard s
    let (later, s) := discardEach s hs
    match result with
    | .ok () => (later, s)
    | .error e => (some e, s)

end StateHandle

end StreamCheckpoint
