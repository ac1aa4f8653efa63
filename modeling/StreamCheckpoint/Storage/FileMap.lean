import StreamCheckpoint.Storage.Basic

/-! A storage without directories: every path is on its own, and has a file that can be removed, a
file that cannot, or none.  It says all that the disposal of state depends on. -/

namespace StreamCheckpoint

/-- What is at a path. -/
inductive FileEntry
  /-- A file that can be removed. -/
  | removable
  /-- Something that cannot, and why. -/
  | fixed (e : IoError)
deriving DecidableEq, Repr

/-- What is at which path; equal paths lead to the same file. -/
structure FileMap where
  at? : List PathPart → Option FileEntry

namespace FileMap

/-- What a path leads to. -/
def get? (m : FileMap) (p : Path) : Option FileEntry := m.at? p.parts

def remove (m : FileMap) (p : Path) : Removal × FileMap :=
  match m.get? p with
  | none => (.missing, m)
  | some (.fixed e) => (.failed e, m)
  | some .removable => (.removed, ⟨fun parts => if parts = p.parts then none else m.at? parts⟩)

instance : Storage FileMap where
  remove := remove

/-- Removing a file changes what its own path leads to, and nothing else. -/
theorem get?_remove (m : FileMap) (p q : Path) :
    (m.remove p).2.get? q =
      if q == p ∧ m.get? p = some .removable then none else m.get? q := by
  simp only [remove, Path.beq_iff]
  split <;> simp_all [get?]

end FileMap

end StreamCheckpoint
