import StreamCheckpoint.SharedState.Snapshot
import StreamCheckpoint.Summary

/-! The registry of shared state: a catalog that can be closed, after which it refuses every change.
Handles that the catalog does not keep are to be disposed of, in order; placeholders stand for
nothing of their own, so they never are. -/

namespace StreamCheckpoint

/-- A registry of shared state. -/
structure Registry where
  catalog : Catalog := {}
  isClosed : Bool := false
deriving Repr

structure RegistryChange (α : Type) where
  answer : Except SharedStateError α
  /-- The handles to dispose of, in order. -/
  disposed : List StateHandle
  registry : Registry

namespace Registry

def get? (r : Registry) (key : SharedKey) : Option StateHandle := r.catalog.get? key

def count? (r : Registry) (key : SharedKey) : Option Nat := r.catalog.count? key

def size (r : Registry) : Nat := r.catalog.size

/-- Changes the catalog, unless the registry is closed. -/
def change {α : Type} (r : Registry) (f : Catalog → Change (Except SharedStateError α)) :
    RegistryChange α :=
  if r.isClosed then ⟨.error .registryClosed, [], r⟩
  else
    let c := f r.catalog
    ⟨c.answer, c.retired.filter (!·.isPlaceholder), { r with catalog := c.catalog }⟩

/-- Takes a reference to a key.  The caller goes on with the handle in the answer. -/
def register (r : Registry) (key : SharedKey) (h : StateHandle) : RegistryChange Registration :=
  r.change fun c =>
    let d := c.register key h
    { d with answer := .ok d.answer }

def unregister (r : Registry) (key : SharedKey) : RegistryChange Registration :=
  r.change (·.release key)

/-- Takes a reference to every shared file of the snapshots, and returns them with the handles to go
on with. -/
def registerAll (r : Registry) (snapshots : List Snapshot) : RegistryChange (List Snapshot) :=
  r.change fun c =>
    let d := c.forEach Snapshot.register snapshots
    { d with answer := .ok d.answer }

/-- Releases a reference to every shared file of the snapshots, up to the first one that is not
registered. -/
def unregisterAll (r : Registry) (snapshots : List Snapshot) : RegistryChange Unit :=
  r.change (·.releaseEach (snapshots.flatMap (·.keys)))

/-- Forgets every key, and disposes of nothing. -/
def clear (r : Registry) : Registry := { r with catalog := {} }

/-- Closes the registry for good. -/
def close (r : Registry) : Registry := { r with isClosed := true }

def summary (r : Registry) : String :=
  StreamCheckpoint.summary "SharedStateRegistry"
    [.number "entries" r.size, .flag "closed" r.isClosed] true

end Registry

end StreamCheckpoint
