import StreamCheckpoint.Storage.Basic

/-! A storage of files in directories.  A path is followed piece by piece, and each piece has to
lead somewhere before the next one counts, so a missing directory and a file in the place of one
are told apart.  Paths may leave the tree; nothing is known there. -/

namespace StreamCheckpoint

/-- The names on the way from the root of a tree. -/
abbrev Location := List String

/-- What is at a location. -/
inductive Node
  | file
  | directory
deriving DecidableEq, Repr

/-- Files and directories below a root directory. -/
structure FileTree where
  /-- What is at which location.  The root is not listed. -/
  nodes : List (Location × Node) := []
deriving DecidableEq, Repr

/-- A directory: in the tree or outside. -/
inductive Directory
  | inside (location : Location)
  | outside
deriving DecidableEq, Repr

/-- What a path leads to. -/
inductive Target
  | missing
  /-- To nothing, and the path is to blame. -/
  | failed (e : IoError)
  | file (location : Location)
  | directory (d : Directory)
deriving DecidableEq, Repr

/-- The directory that one belongs to. -/
def Directory.parent : Directory → Directory
  | inside location => if location.isEmpty then outside else inside location.dropLast
  | outside => outside

namespace FileTree

/-- The most bytes of a name. -/
def maxNameSize : Nat := 255

/-- The most bytes of a path. -/
def maxPathSize : Nat := 4095

def get? (t : FileTree) (location : Location) : Option Node :=
  if location.isEmpty then some .directory else t.nodes.lookup location

/-- Follows one piece of a path. -/
def enter (t : FileTree) (d : Directory) (piece : String) : Target :=
  if piece = "" ∨ piece = "." then .directory d
  else if piece = ".." then .directory d.parent
  else if maxNameSize < piece.utf8ByteSize then .failed .nameTooLong
  else
    match d with
    | .outside => .missing
    | .inside location =>
      match t.get? (location ++ [piece]) with
      | none => .missing
      | some .file => .file (location ++ [piece])
      | some .directory => .directory (.inside (location ++ [piece]))

/-- Follows the pieces of a path from a directory. -/
def follow (t : FileTree) (d : Directory) : List String → Target
  | [] => .directory d
  | piece :: rest =>
    match t.enter d piece with
    | .directory d => t.follow d rest
    | .file location => if rest.isEmpty then .file location else .failed .notDirectory
    | target => target

/-- What a path leads to, from the root of the tree unless it is absolute. -/
def resolve (t : FileTree) (p : Path) : Target :=
  if p.text.contains '\x00' then .failed .nulInPath
  else if p.text.isEmpty then .missing
  else if maxPathSize < p.text.utf8ByteSize then .failed .nameTooLong
  else t.follow (if p.isAbsolute then .outside else .inside []) p.pieces

def remove (t : FileTree) (p : Path) : Removal × FileTree :=
  match t.resolve p with
  | .missing => (.missing, t)
  | .failed e => (.failed e, t)
  | .directory _ => (.failed .isDirectory, t)
  | .file location => (.removed, ⟨t.nodes.filter (·.1 != location)⟩)

instance : Storage FileTree where
  remove := remove

/-- Puts something at a location, unless something is there. -/
def place (t : FileTree) (location : Location) (node : Node) : FileTree :=
  match t.get? location with
  | some _ => t
  | none => ⟨t.nodes ++ [(location, node)]⟩

/-- The location that the pieces of a path lead to if they go nowhere up. -/
def location (p : Path) : Location := p.pieces.filter fun piece => piece != "" && piece != "."

/-- Makes directories at every location on the way to a path, the path's own included. -/
def addDirectory (t : FileTree) (p : Path) : FileTree :=
  (List.range (location p).length).foldl
    (fun t n => t.place ((location p).take (n + 1)) .directory) t

def addFile (t : FileTree) (p : Path) : FileTree :=
  (t.addDirectory ⟨"/".intercalate (location p).dropLast⟩).place (location p) .file

/-- Everything in the tree, in the order of the paths; those of directories end in a slash. -/
def listing (t : FileTree) : List String :=
  (t.nodes.map fun n =>
    "/".intercalate n.1 ++ match n.2 with
      | .file => ""
      | .directory => "/").mergeSort fun a b => a ≤ b

end FileTree

end StreamCheckpoint
