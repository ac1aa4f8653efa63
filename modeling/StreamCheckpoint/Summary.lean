/-! One-line summaries of states for people who look for an error: a name, and after it, in braces,
the fields with their values. -/

namespace StreamCheckpoint

/-- A field of a summary: its name and the text of its value. -/
structure SummaryField where
  name : String
  value : String
deriving DecidableEq, Repr

namespace SummaryField

def number (name : String) (n : Nat) : SummaryField := ⟨name, toString n⟩

/-- The text of a truth value. -/
def truth (b : Bool) : String := if b then "true" else "false"

def flag (name : String) (b : Bool) : SummaryField := ⟨name, truth b⟩

def flags (name : String) (bs : List Bool) : SummaryField :=
  ⟨name, "[" ++ ", ".intercalate (bs.map truth) ++ "]"⟩

/-- The field of a value that may be missing. -/
def optional (name : String) (value : Option String) : SummaryField :=
  ⟨name, value.elim "None" fun v => "Some(" ++ v ++ ")"⟩

def text (f : SummaryField) : String := f.name ++ ": " ++ f.value

end SummaryField

/-- A summary.  If the state has more than its fields tell, two dots say so. -/
def summary (name : String) (fields : List SummaryField) (isPartial : Bool := false) : String :=
  name ++ " \x7b " ++
    ", ".intercalate (fields.map (·.text) ++ if isPartial then [".."] else []) ++ " \x7d"

end StreamCheckpoint
