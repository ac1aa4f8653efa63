import StreamCheckpoint.Bytes

/-! Reading UTF-8.  The first octet of a character tells how many octets follow and in which ranges
they lie; the ranges leave out overlong forms, surrogates and numbers above `0x10FFFF`.  Reading
stops at the first octet that fits nowhere, and says at which octet the character began and how many
octets of it were read. -/

namespace StreamCheckpoint.Utf8

/-- The octets from `first` to `last`. -/
structure OctetRange where
  first : UInt8
  last : UInt8
deriving DecidableEq, Repr

def OctetRange.contains (r : OctetRange) (b : UInt8) : Bool := r.first ≤ b && b ≤ r.last

/-- The octets that continue a character: `10` and six bits of its number. -/
def continuation : OctetRange := ⟨0x80, 0xBF⟩

/-- A character of which some octets have been read. -/
structure Begun where
  /-- The number that the bits read so far write. -/
  value : Nat
  /-- How many octets have been read. -/
  length : Nat
  /-- The ranges of the octets that are still to come. -/
  owed : List OctetRange
deriving DecidableEq, Repr

/-- A character after its first octet, if one may begin with it. -/
def begin? (b : UInt8) : Option Begun :=
  let n := b.toNat
  if b < 0x80 then some ⟨n, 1, []⟩
  else if b < 0xC2 then none
  else if b < 0xE0 then some ⟨n - 0xC0, 1, [continuation]⟩
  else if b = 0xE0 then some ⟨0, 1, [⟨0xA0, 0xBF⟩, continuation]⟩
  else if b = 0xED then some ⟨0xD, 1, [⟨0x80, 0x9F⟩, continuation]⟩
  else if b < 0xF0 then some ⟨n - 0xE0, 1, [continuation, continuation]⟩
  else if b = 0xF0 then some ⟨0, 1, [⟨0x90, 0xBF⟩, continuation, continuation]⟩
  else if b < 0xF4 then some ⟨n - 0xF0, 1, [continuation, continuation, continuation]⟩
  else if b = 0xF4 then some ⟨4, 1, [⟨0x80, 0x8F⟩, continuation, continuation]⟩
  else none

/-- Why octets are not the UTF-8 form of a text. -/
structure Flaw where
  /-- The index of the octet with which the first faulty character begins, so that everything
  before it is well formed. -/
  index : Nat
  /-- How many octets cannot be part of a character, or `none` if the octets end in the middle of
  one. -/
  length : Option Nat
deriving DecidableEq, Repr

def Flaw.message (f : Flaw) : String :=
  match f.length with
  | some n => s!"invalid utf-8 sequence of {n} bytes from index {f.index}"
  | none => s!"incomplete utf-8 byte sequence from index {f.index}"

/-- Reads characters from `bs`.  The next character begins at `index`; if some of its octets were
read before, it is `begun`. -/
def readFrom (index : Nat) : Option Begun → Bytes → Except Flaw (List Char)
  | none, [] => .ok []
  | some _, [] => .error ⟨index, none⟩
  | none, b :: bs =>
    match begin? b with
    | none => .error ⟨index, some 1⟩
    | some c =>
      if c.owed.isEmpty then (readFrom (index + 1) none bs).map (Char.ofNat c.value :: ·)
      else readFrom index (some c) bs
  | some c, b :: bs =>
    match c.owed with
    | [] => .error ⟨index, some c.length⟩
    | r :: owed =>
      if r.contains b then
        let value := c.value * 64 + (b.toNat - 0x80)
        if owed.isEmpty then
          (readFrom (index + c.length + 1) none bs).map (Char.ofNat value :: ·)
        else readFrom index (some ⟨value, c.length + 1, owed⟩) bs
      else .error ⟨index, some c.length⟩

/-- The characters that `bs` writes in UTF-8. -/
def decode (bs : Bytes) : Except Flaw (List Char) := readFrom 0 none bs

def encode (cs : List Char) : Bytes := cs.flatMap String.utf8EncodeChar

end StreamCheckpoint.Utf8
