/-! Checkpoint barriers: the markers that cut every channel into what belongs to a snapshot and
what comes after it. -/

namespace StreamCheckpoint

/-- The mark of one checkpoint, sent down every channel.  What a channel delivers before the
barrier belongs to the snapshot `id` or an earlier one, what it delivers after it does not. -/
structure Barrier where
  /-- The checkpoint's number; numbers grow with time. -/
  id : Nat
  /-- When the checkpoint was triggered, in milliseconds since the epoch. -/
  timestamp : Int
  /-- A set of bits, of which `fullSnapshotBit`, `drainBit` and `cancelBit` have a meaning. -/
  flags : UInt64
deriving DecidableEq, Repr

namespace Barrier

/-- The flag that asks for a snapshot of everything instead of the changes. -/
def fullSnapshotBit : UInt64 := 1

/-- The flag of the last checkpoint before the job stops. -/
def drainBit : UInt64 := 2

/-- The flag of an abandoned checkpoint. -/
def cancelBit : UInt64 := 4

/-- A barrier without flags. -/
def plain (id : Nat) (timestamp : Int) : Barrier := ⟨id, timestamp, 0⟩

/-- A barrier that asks for a full snapshot. -/
def fullSnapshot (id : Nat) (timestamp : Int) : Barrier := ⟨id, timestamp, fullSnapshotBit⟩

def isFullSnapshot (b : Barrier) : Bool := b.flags &&& fullSnapshotBit != 0

/-- Whether the job stops after this checkpoint. -/
def isDrain (b : Barrier) : Bool := b.flags &&& drainBit != 0

def isCancel (b : Barrier) : Bool := b.flags &&& cancelBit != 0

@[simp] theorem isCancel_plain (id : Nat) (timestamp : Int) :
    (plain id timestamp).isCancel = false := by
  simp [isCancel, plain]

end Barrier

end StreamCheckpoint
