import StreamCheckpoint.Json.Value
import StreamCheckpoint.Reading.Reader
import StreamCheckpoint.SharedState.Handle
import StreamCheckpoint.SharedState.KeyGroups

/-! Settings, key ranges and keys as JSON texts.  Settings that are missing have their defaults; the
ends of a key range may not be missing. -/

namespace StreamCheckpoint

/-- The number of sizes that a machine word can write. -/
def sizeBound : Nat := 0x10000000000000000

/-- The number of key groups that can be told apart. -/
def keyGroupBound : Nat := 0x100000000

/-- The byte limit that a value stands for. -/
def byteLimit? : Json → Option (Option Nat)
  | .null => some none
  | v => (v.naturalBelow? sizeBound).map some

/-- The policy of that name. -/
def ClosePolicy.ofName? : String → Option ClosePolicy
  | "complete_alignment" => some .complete
  | "abort_alignment" => some .abort
  | _ => none

def AlignmentSettings.ofJson? (v : Json) : Option AlignmentSettings := do
  let [limit, policy] ← v.fields? ["max_buffered_bytes", "closed_channel_policy"] | none
  let defaults : AlignmentSettings := {}
  let byteLimit ← limit.elim (some defaults.byteLimit) byteLimit?
  let closePolicy ← policy.elim (some defaults.closePolicy) fun p =>
    p.name?.bind ClosePolicy.ofName?
  some { byteLimit, closePolicy }

def DecoderSettings.ofJson? (v : Json) : Option DecoderSettings := do
  let [size] ← v.fields? ["max_record_size"] | none
  match size with
  | none => some {}
  | some size => (size.naturalBelow? sizeBound).map fun maxRecordSize => { maxRecordSize }

def ReaderSettings.ofJson? (v : Json) : Option ReaderSettings := do
  let [alignment, decoder] ← v.fields? ["alignment", "decoder"] | none
  let alignment ← alignment.elim (some {}) AlignmentSettings.ofJson?
  let decoder ← decoder.elim (some {}) DecoderSettings.ofJson?
  some { alignment, decoder }

def KeyGroupRange.ofJson? (v : Json) : Option KeyGroupRange := do
  let [some first, some last] ← v.fields? ["start", "end"] | none
  let first ← first.naturalBelow? keyGroupBound
  let last ← last.naturalBelow? keyGroupBound
  some { first, last }

def KeyGroupRange.json (r : KeyGroupRange) : String :=
  "\x7b\"start\":" ++ toString r.first ++ ",\"end\":" ++ toString r.last ++ "\x7d"

def SharedKey.ofJson? : Json → Option SharedKey
  | .text s => s
  | _ => none

def SharedKey.json (key : SharedKey) : String := Json.quote key

end StreamCheckpoint
