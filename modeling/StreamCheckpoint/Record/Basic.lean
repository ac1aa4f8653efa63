import StreamCheckpoint.ErrorCode
import StreamCheckpoint.Record.Utf8

/-! Records: values with a form in bytes.  The form does not carry its own length; framing adds
it. -/

namespace StreamCheckpoint

/-- Why some bytes are no value of a record type. -/
inductive Malformation
  /-- The bytes are not the UTF-8 form of a text. -/
  | text (flaw : Utf8.Flaw)
  /-- There are `found` bytes where a 64-bit number has eight. -/
  | width (found : Nat)
  /-- A reason that a record type outside this library gives. -/
  | other (detail : String)
deriving DecidableEq, Repr

def Malformation.message : Malformation → String
  | text flaw => flaw.message
  | width found => s!"expected 8 bytes for u64, got {found}"
  | other detail => detail

/-- Why a record could not be read. -/
inductive DecodeError
  /-- A length of more than `limit` bytes was announced. -/
  | tooLarge (length limit : Nat)
  /-- The bytes are no value of the record type. -/
  | malformed (cause : Malformation)
deriving DecidableEq, Repr

def DecodeError.message : DecodeError → String
  | tooLarge length limit =>
    ErrorCode.recordTooLarge.label s!"record of {length} bytes exceeds maximum of {limit}"
  | malformed cause =>
    ErrorCode.recordDecodeFailed.label s!"malformed record: {cause.message}"

class Record (α : Type) where
  /-- The value that some bytes are the form of. -/
  decode : Bytes → Except DecodeError α
  encode : α → Bytes

instance : Record Bytes where
  decode bs := .ok bs
  encode bs := bs

/-- An array of bytes has its elements as its form. -/
instance : Record (Array UInt8) where
  decode bs := .ok bs.toArray
  encode bs := bs.toList

instance : Record String where
  decode bs :=
    match Utf8.decode bs with
    | .ok cs => .ok (String.ofList cs)
    | .error flaw => .error (.malformed (.text flaw))
  encode s := Utf8.encode s.toList

/-- A 64-bit number is written in eight bytes, most significant first. -/
instance : Record UInt64 where
  decode bs :=
    if bs.length = 8 then .ok (UInt64.ofNat (bigEndian bs))
    else .error (.malformed (.width bs.length))
  encode n := toBigEndian 8 n.toNat

end StreamCheckpoint
