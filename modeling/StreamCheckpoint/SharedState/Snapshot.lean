import StreamCheckpoint.SharedState.Catalog
import StreamCheckpoint.SharedState.KeyGroups

/-! Snapshots: what the parts of one subtask wrote for one checkpoint.  A part shares some of its
files with the snapshots of other checkpoints; those are registered in a catalog, under keys made of
the backend's name and the file's.  The rest belongs to the snapshot alone. -/

namespace StreamCheckpoint

/-- What one keyed backend wrote. -/
structure KeyedSnapshot where
  backend : String
  checkpoint : Nat
  range : KeyGroupRange
  /-- The files that other snapshots may share, by name. -/
  sharedFiles : Table StateHandle
  /-- The files that belong to this snapshot, by name. -/
  privateFiles : Table StateHandle
  /-- The description of the snapshot, which belongs to it. -/
  metadata : StateHandle
deriving BEq, Repr

/-- The key under which a file of a backend is shared. -/
def sharedKey (backend file : String) : SharedKey := backend ++ "-" ++ file

/-- Takes a reference to one shared file of a backend, and returns the file with the handle to go on
with. -/
def Catalog.adoptFile (backend : String) (c : Catalog) (file : String × StateHandle) :
    Change (String × StateHandle) :=
  let r := c.adopt (sharedKey backend file.1) file.2
  { r with answer := (file.1, r.answer) }

theorem Catalog.names_adoptFile (backend : String) (c : Catalog)
    (files : List (String × StateHandle)) :
    (c.forEach (adoptFile backend) files).answer.map (·.1) = files.map (·.1) := by
  induction files generalizing c with
  | nil => rfl
  | cons file files ih => simp [forEach, adoptFile, ih]

namespace KeyedSnapshot

/-- The key under which the file of that name is shared. -/
def key (s : KeyedSnapshot) (file : String) : SharedKey := sharedKey s.backend file

/-- The keys of the shared files, in the order of their names. -/
def keys (s : KeyedSnapshot) : List SharedKey := s.sharedFiles.names.map s.key

def size (s : KeyedSnapshot) : Nat :=
  StateHandle.totalSize (s.sharedFiles.values ++ s.privateFiles.values) + s.metadata.size

/-- Takes a reference to each shared file, in the order of their names, and puts the handles that
the catalog keeps in place of the snapshot's own. -/
def register (c : Catalog) (s : KeyedSnapshot) : Change KeyedSnapshot :=
  let r := c.forEach (Catalog.adoptFile s.backend) s.sharedFiles.entries
  { r with
    answer := { s with
      sharedFiles := s.sharedFiles.withEntries r.answer (Catalog.names_adoptFile ..) } }

/-- Removes what belongs to the snapshot alone: the private files in the order of their names, and
then the description.  The answer is the first failure, but everything is tried. -/
def discardPrivate {σ : Type} [Storage σ] (s : KeyedSnapshot) (storage : σ) :
    Except SharedStateError Unit × σ :=
  let (failure, storage) :=
    StateHandle.discardEach storage (s.privateFiles.values ++ [s.metadata])
  (match failure with
    | none => .ok ()
    | some e => .error (.io e), storage)

end KeyedSnapshot

/-- What a subtask wrote for one checkpoint. -/
inductive Snapshot
  | keyed (s : KeyedSnapshot)
  /-- The snapshots of the backends of an operator. -/
  | subtask (parts : List KeyedSnapshot)
deriving BEq, Repr

namespace Snapshot

def parts : Snapshot → List KeyedSnapshot
  | keyed s => [s]
  | subtask parts => parts

def keys (s : Snapshot) : List SharedKey := s.parts.flatMap (·.keys)

def size (s : Snapshot) : Nat := s.parts.foldr (fun p n => p.size + n) 0

/-- Takes a reference to each shared file of each backend. -/
def register (c : Catalog) : Snapshot → Change Snapshot
  | keyed s =>
    let r := s.register c
    { r with answer := keyed r.answer }
  | subtask parts =>
    let r := c.forEach KeyedSnapshot.register parts
    { r with answer := subtask r.answer }

end Snapshot

end StreamCheckpoint
