/-! The stable codes that stand in brackets at the start of error texts.  A code never changes its
meaning, so logs of different versions can be searched alike. -/

namespace StreamCheckpoint

/-- What an error text's code stands for. -/
inductive ErrorCode
  | recordDecodeFailed
  /-- A length announces more bytes than a record may have. -/
  | recordTooLarge
  | gateFailure
  /-- A channel delivered something after its end of partition. -/
  | gateChannelClosed
  | channelOutOfRange
  | duplicateBarrier
  /-- An aligner or a gate was asked for without channels. -/
  | invalidChannelCount
  | sharedStateNotRegistered
  | registryClosed
deriving DecidableEq, Repr

namespace ErrorCode

/-- The text of a code: the thousands tell decoding (4), gates (5) and snapshots (6) apart. -/
def text : ErrorCode → String
  | recordDecodeFailed => "CUT-4001"
  | recordTooLarge => "CUT-4002"
  | gateFailure => "CUT-5001"
  | gateChannelClosed => "CUT-5002"
  | channelOutOfRange => "CUT-6101"
  | duplicateBarrier => "CUT-6102"
  | invalidChannelCount => "CUT-6103"
  | sharedStateNotRegistered => "CUT-6201"
  | registryClosed => "CUT-6202"

/-- Every code, in the order of the texts. -/
def all : List ErrorCode :=
  [recordDecodeFailed, recordTooLarge, gateFailure, gateChannelClosed, channelOutOfRange,
    duplicateBarrier, invalidChannelCount, sharedStateNotRegistered, registryClosed]

theorem mem_all (c : ErrorCode) : c ∈ all := by cases c <;> decide

/-- An error text: the code in brackets, a blank, and the message. -/
def label (c : ErrorCode) (message : String) : String := s!"[{c.text}] {message}"

end ErrorCode

end StreamCheckpoint
