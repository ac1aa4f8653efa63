import StreamCheckpoint.ErrorCode
import StreamCheckpoint.SharedState.Handle
import StreamCheckpoint.Table

/-! Shared state by key, with the number of references to each piece.  The first handle that is
registered under a key stays until the last reference is released; a different handle under the
same key is a duplicate.  Every change says which handles it retired: duplicates, and what lost its
last reference. -/

namespace StreamCheckpoint

/-- Why the registry could not do what it was asked for. -/
inductive SharedStateError
  /-- A key was released that nobody has registered. -/
  | notRegistered (key : SharedKey)
  /-- The registry is closed. -/
  | registryClosed
  /-- State could not be removed from storage. -/
  | io (e : IoError)
deriving DecidableEq, Repr

namespace SharedStateError

def message : SharedStateError → String
  | notRegistered key =>
    ErrorCode.sharedStateNotRegistered.label
      s!"cannot unregister shared state {key}: not registered"
  | registryClosed => ErrorCode.registryClosed.label "shared state registry is closed"
  | io e => s!"I/O error: {e.message}"

/-- Whether the caller broke the rules of the registry. -/
def isProtocolViolation : SharedStateError → Bool
  | notRegistered _ => true
  | registryClosed => true
  | io _ => false

/-- Whether another attempt may succeed. -/
def isTransient : SharedStateError → Bool
  | io _ => true
  | _ => false

end SharedStateError

/-- A piece of shared state. -/
structure CatalogEntry where
  state : StateHandle
  /-- The number of references.  It stands for a counter of 32 bits, and is what such a counter
  shows as long as a key has fewer than `2 ^ 32` references at a time. -/
  count : Nat
  count_pos : 0 < count
deriving Repr

/-- The pieces of shared state that are referenced. -/
structure Catalog where
  entries : Table CatalogEntry := .empty
deriving Repr

/-- What is known of a key after one of its references was taken or released. -/
structure Registration where
  /-- The handle to go on with, unless nothing refers to the key any more. -/
  reference : Option StateHandle
  /-- The number of references that the key has now; below `2 ^ 32`, like `CatalogEntry.count`. -/
  count : Nat
deriving Repr

/-- What a change of a catalog did. -/
structure Change (α : Type) where
  answer : α
  /-- The handles that the catalog does not keep, in order. -/
  retired : List StateHandle
  catalog : Catalog

namespace Catalog

def get? (c : Catalog) (key : SharedKey) : Option StateHandle :=
  (c.entries.get? key).map (·.state)

/-- The number of references to a key, if there are any. -/
def count? (c : Catalog) (key : SharedKey) : Option Nat := (c.entries.get? key).map (·.count)

def size (c : Catalog) : Nat := c.entries.size

/-- The keys with the numbers of their references. -/
def counts (c : Catalog) : List (SharedKey × Nat) :=
  c.entries.entries.map fun e => (e.1, e.2.count)

/-- Takes a reference to a key.  The handle becomes the one that is kept, or is retired if a
different one is kept already. -/
def register (c : Catalog) (key : SharedKey) (h : StateHandle) : Change Registration :=
  match c.entries.get? key with
  | some e =>
    { answer := ⟨some e.state, e.count + 1⟩
      retired := if e.state == h then [] else [h]
      catalog := ⟨c.entries.insert key ⟨e.state, e.count + 1, Nat.succ_pos _⟩⟩ }
  | none =>
    { answer := ⟨some h, 1⟩
      retired := []
      catalog := ⟨c.entries.insert key ⟨h, 1, Nat.one_pos⟩⟩ }

/-- Releases a reference to a key.  With the last one the handle is retired. -/
def release (c : Catalog) (key : SharedKey) : Change (Except SharedStateError Registration) :=
  match c.entries.get? key with
  | none => ⟨.error (.notRegistered key), [], c⟩
  | some e =>
    if h : 1 < e.count then
      { answer := .ok ⟨some e.state, e.count - 1⟩
        retired := []
        catalog := ⟨c.entries.insert key ⟨e.state, e.count - 1, Nat.sub_pos_of_lt h⟩⟩ }
    else
      { answer := .ok ⟨none, 0⟩
        retired := [e.state]
        catalog := ⟨c.entries.erase key⟩ }

/-- Takes a reference to a key, and returns the handle to go on with. -/
def adopt (c : Catalog) (key : SharedKey) (h : StateHandle) : Change StateHandle :=
  let r := c.register key h
  { r with answer := r.answer.reference.getD h }

/-- Makes a change for each of some values, one after the other. -/
def forEach {α β : Type} (c : Catalog) (change : Catalog → α → Change β) :
    List α → Change (List β)
  | [] => ⟨[], [], c⟩
  | x :: xs =>
    let r := change c x
    let rs := r.catalog.forEach change xs
    ⟨r.answer :: rs.answer, r.retired ++ rs.retired, rs.catalog⟩

/-- Releases a reference to each key, one after the other, up to the first key that is not
registered.  What was released before stays released. -/
def releaseEach (c : Catalog) : List SharedKey → Change (Except SharedStateError Unit)
  | [] => ⟨.ok (), [], c⟩
  | key :: keys =>
    let r := c.release key
    match r.answer with
    | .error e => { r with answer := .error e }
    | .ok _ =>
      let rs := r.catalog.releaseEach keys
      { rs with retired := r.retired ++ rs.retired }

end Catalog

end StreamCheckpoint
