/-! Paths of files.  A path keeps the text it was given, but two texts can name the same file for
reasons that show in the texts alone: empty pieces between slashes and pieces that stay in place do
not count.  Pieces that go up are kept, since what they undo depends on the files. -/

namespace StreamCheckpoint

/-- A path as it was written. -/
structure Path where
  text : String
deriving Repr

/-- A part of a path that counts. -/
inductive PathPart
  /-- The path begins at the root of all files. -/
  | root
  /-- The path begins with a dot. -/
  | here
  /-- One directory up. -/
  | up
  | name (n : String)
deriving DecidableEq, Repr

namespace Path

def isAbsolute (p : Path) : Bool := p.text.toList.head? == some '/'

/-- What stands between the slashes, empty pieces included. -/
def pieces (p : Path) : List String := (p.text.toList.splitOn '/').map String.ofList

/-- What a piece stands for, if it counts. -/
def part? (piece : String) : Option PathPart :=
  if piece = "" ∨ piece = "." then none
  else if piece = ".." then some .up
  else some (.name piece)

/-- The parts that count: a dot counts only where a path begins with it. -/
def parts (p : Path) : List PathPart :=
  let lead := if p.isAbsolute then [.root] else if p.pieces.head? = some "." then [.here] else []
  lead ++ p.pieces.filterMap part?

/-- Two paths are equal if they have the same parts. -/
instance : BEq Path where
  beq p q := p.parts == q.parts

theorem beq_iff {p q : Path} : (p == q) = true ↔ p.parts = q.parts := by
  show (p.parts == q.parts) = true ↔ _
  exact beq_iff_eq

instance : EquivBEq Path where
  rfl := beq_iff.2 rfl
  symm h := beq_iff.2 (beq_iff.1 h).symm
  trans h h' := beq_iff.2 ((beq_iff.1 h).trans (beq_iff.1 h'))

end Path

end StreamCheckpoint
