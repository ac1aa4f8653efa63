import StreamCheckpoint.Json.Token

/-! JSON values.  A text is read from left to right with the containers that are still open on a
stack, so how deep they stand in each other is of no concern. -/

namespace StreamCheckpoint

/-- A JSON value, as far as settings need it. -/
inductive Json
  | null
  | bool (b : Bool)
  | natural (n : Nat)
  | number
  /-- A text, or `none` if a surrogate in it lacks its partner. -/
  | text (s : Option String)
  | array (items : List Json)
  /-- The members, in the order of the text, with repetitions. -/
  | object (members : List (Option String × Json))

namespace Json

/-- A container of which the end has not been read. -/
inductive Container
  /-- An array with its first items, the last one first. -/
  | array (items : List Json)
  /-- An object with its first members, the last one first, and the name of the next one. -/
  | object (members : List (Option String × Json)) (name : Option String)

mutual

/-- Reads a value inside some containers, the innermost first, and what follows it. -/
def readValue (containers : List Container) : List Token → Option Json
  | .null :: ts => resume .null containers ts
  | .bool b :: ts => resume (.bool b) containers ts
  | .natural n :: ts => resume (.natural n) containers ts
  | .number :: ts => resume .number containers ts
  | .text s :: ts => resume (.text s) containers ts
  | .openArray :: .closeArray :: ts => resume (.array []) containers ts
  | .openArray :: ts => readValue (.array [] :: containers) ts
  | .openObject :: .closeObject :: ts => resume (.object []) containers ts
  | .openObject :: .text name :: .colon :: ts => readValue (.object [] name :: containers) ts
  | _ => none

/-- Reads what follows a value inside some containers. -/
def resume (v : Json) (containers : List Container) : List Token → Option Json
  | [] => if containers.isEmpty then some v else none
  | t :: ts =>
    match containers, t with
    | .array items :: outer, .comma => readValue (.array (v :: items) :: outer) ts
    | .array items :: outer, .closeArray => resume (.array (v :: items).reverse) outer ts
    | .object members name :: outer, .comma =>
      match ts with
      | .text next :: .colon :: ts => readValue (.object ((name, v) :: members) next :: outer) ts
      | _ => none
    | .object members name :: outer, .closeObject =>
      resume (.object ((name, v) :: members).reverse) outer ts
    | _, _ => none

end

/-- The value that a text writes. -/
def read? (s : String) : Option Json := (tokens s.toList).bind (readValue [])

/-- The values of the named fields: those of an object, by name, or those of an array, by position.
Names that are not asked for are skipped.  A field may be missing, but not occur twice, and an array
may end early, but have no further items. -/
def fields? (names : List String) : Json → Option (List (Option Json))
  | .array items =>
    if items.length ≤ names.length then
      some ((List.range names.length).map fun i => items[i]?)
    else none
  | .object members =>
    let occurrences (name : String) := members.filter (·.1 == some name)
    if members.all (·.1.isSome) && names.all (fun name => (occurrences name).length ≤ 1) then
      some (names.map fun name => (occurrences name).head?.map (·.2))
    else none
  | _ => none

/-- A natural number below `bound`. -/
def naturalBelow? (bound : Nat) : Json → Option Nat
  | .natural n => if n < bound then some n else none
  | _ => none

/-- A name, which may also be written as an object with that name alone and nothing under it. -/
def name? : Json → Option String
  | .text s => s
  | .object [(s, .null)] => s
  | _ => none

end Json

end StreamCheckpoint
