import StreamCheckpoint.Json.Text

/-! The tokens of a JSON text. -/

namespace StreamCheckpoint.Json

inductive Token
  | openObject
  | closeObject
  | openArray
  | closeArray
  | comma
  | colon
  | null
  | bool (b : Bool)
  /-- A number without sign, fraction and exponent. -/
  | natural (n : Nat)
  /-- Any other number. -/
  | number
  /-- A text, or `none` if a surrogate in it lacks its partner. -/
  | text (s : Option String)
deriving DecidableEq, Repr

/-- Reads the longest nonempty sequence of digits. -/
def readDigits (cs : List Char) : Option (List Char × List Char) :=
  match cs.takeWhile Char.isDigit with
  | [] => none
  | ds => some (ds, cs.dropWhile Char.isDigit)

/-- The number that decimal digits write. -/
def decimal (ds : List Char) : Nat := ds.foldl (fun n d => n * 10 + (d.toNat - '0'.toNat)) 0

/-- Reads the whole part of a number, which begins with a zero only if it is zero. -/
def readWhole (cs : List Char) : Option (List Char × List Char) :=
  match readDigits cs with
  | some ('0' :: _ :: _, _) => none
  | r => r

/-- Reads the fraction of a number, if it has one; the answer tells whether it has. -/
def readFraction : List Char → Option (Bool × List Char)
  | '.' :: cs => (readDigits cs).map fun r => (true, r.2)
  | cs => some (false, cs)

/-- Skips the sign of an exponent. -/
def skipSign : List Char → List Char
  | '+' :: cs => cs
  | '-' :: cs => cs
  | cs => cs

/-- Reads the exponent of a number, if it has one; the answer tells whether it has. -/
def readExponent : List Char → Option (Bool × List Char)
  | [] => some (false, [])
  | c :: cs =>
    if c = 'e' ∨ c = 'E' then (readDigits (skipSign cs)).map fun r => (true, r.2)
    else some (false, c :: cs)

/-- Reads a number without its sign. -/
def readUnsigned (cs : List Char) : Option (Token × List Char) := do
  let (digits, cs) ← readWhole cs
  let (fraction, cs) ← readFraction cs
  let (exponent, cs) ← readExponent cs
  some (if fraction || exponent then .number else .natural (decimal digits), cs)

/-- Reads a token at the beginning of a text that begins with no blank. -/
def readToken : List Char → Option (Token × List Char)
  | '\x7b' :: cs => some (.openObject, cs)
  | '\x7d' :: cs => some (.closeObject, cs)
  | '[' :: cs => some (.openArray, cs)
  | ']' :: cs => some (.closeArray, cs)
  | ',' :: cs => some (.comma, cs)
  | ':' :: cs => some (.colon, cs)
  | 'n' :: 'u' :: 'l' :: 'l' :: cs => some (.null, cs)
  | 't' :: 'r' :: 'u' :: 'e' :: cs => some (.bool true, cs)
  | 'f' :: 'a' :: 'l' :: 's' :: 'e' :: cs => some (.bool false, cs)
  | '"' :: cs =>
    (readPieces cs).map fun r => (.text ((joinPieces r.1).map String.ofList), r.2)
  | '-' :: cs => (readUnsigned cs).map fun r => (.number, r.2)
  | cs => readUnsigned cs

/-- Whether a character only separates tokens. -/
def isBlank (c : Char) : Bool := c == ' ' || c == '\n' || c == '\t' || c == '\r'

theorem length_readDigits {cs ds rest : List Char} (h : readDigits cs = some (ds, rest)) :
    rest.length < cs.length := by
  have hl := congrArg List.length (List.takeWhile_append_dropWhile (p := Char.isDigit) (l := cs))
  rw [List.length_append] at hl
  simp only [readDigits] at h
  split at h
  · simp at h
  · next hd =>
    obtain ⟨rfl, rfl⟩ := Prod.mk.inj (Option.some.inj h)
    have := List.length_pos_iff.2 hd
    omega

theorem length_readFraction {cs rest : List Char} {b : Bool}
    (h : readFraction cs = some (b, rest)) : rest.length ≤ cs.length := by
  simp only [readFraction] at h
  split at h
  · obtain ⟨⟨ds, r⟩, hr, e⟩ := Option.map_eq_some_iff.1 h
    have := length_readDigits hr
    simp_all
    omega
  · simp_all

theorem length_skipSign (cs : List Char) : (skipSign cs).length ≤ cs.length := by
  simp only [skipSign]
  split <;> simp

theorem length_readExponent {cs rest : List Char} {b : Bool}
    (h : readExponent cs = some (b, rest)) : rest.length ≤ cs.length := by
  cases cs with
  | nil => simp_all [readExponent]
  | cons c cs =>
    simp only [readExponent] at h
    split at h
    · obtain ⟨⟨ds, r⟩, hr, e⟩ := Option.map_eq_some_iff.1 h
      have := length_readDigits hr
      have := length_skipSign cs
      simp_all
      omega
    · simp_all

theorem length_readUnsigned {cs rest : List Char} {t : Token}
    (h : readUnsigned cs = some (t, rest)) : rest.length < cs.length := by
  simp only [readUnsigned, Option.bind_eq_bind, Option.bind_eq_some_iff] at h
  obtain ⟨⟨ds, cs₁⟩, hw, ⟨f, cs₂⟩, hf, ⟨e, cs₃⟩, he, h⟩ := h
  have hw : readDigits cs = some (ds, cs₁) := by
    simp only [readWhole] at hw
    split at hw
    · simp at hw
    · exact hw
  have := length_readDigits hw
  have := length_readFraction hf
  have := length_readExponent he
  simp_all
  omega

theorem length_readToken {cs rest : List Char} {t : Token} (h : readToken cs = some (t, rest)) :
    rest.length < cs.length := by
  unfold readToken at h
  split at h
  case h_10 cs =>
    obtain ⟨⟨ps, r⟩, hr, e⟩ := Option.map_eq_some_iff.1 h
    have := length_readPieces hr
    simp_all
    omega
  case h_11 cs =>
    obtain ⟨⟨t, r⟩, hr, e⟩ := Option.map_eq_some_iff.1 h
    have := length_readUnsigned hr
    simp_all
    omega
  case h_12 => exact length_readUnsigned h
  all_goals simp_all <;> omega

/-- The tokens of a text. -/
def tokens : List Char → Option (List Token)
  | [] => some []
  | c :: cs =>
    if isBlank c then tokens cs
    else
      match h : readToken (c :: cs) with
      | none => none
      | some (t, rest) =>
        have : rest.length ≤ cs.length := Nat.le_of_lt_succ (length_readToken h)
        (tokens rest).map (t :: ·)
termination_by cs => cs.length
decreasing_by all_goals grind

end StreamCheckpoint.Json
