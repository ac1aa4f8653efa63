import StreamCheckpoint.Channel.Barrier

/-! What an alignment tells the task: that a checkpoint is aligned, so that the task may take its
snapshot, or that it is given up, and why. -/

namespace StreamCheckpoint

/-- Why an alignment ended without its checkpoint being complete. -/
inductive AbortReason
  /-- A channel delivered the barrier of the newer checkpoint `id`. -/
  | newerCheckpoint (id : Nat)
  | byteLimit
  /-- The channel ended, and the aligner gives a checkpoint up when that happens. -/
  | channelClosed (channel : Nat)
  /-- A barrier with the cancel flag arrived. -/
  | cancelled
deriving DecidableEq, Repr

namespace AbortReason

def message : AbortReason → String
  | newerCheckpoint id => s!"superseded by checkpoint {id}"
  | byteLimit => "alignment buffer limit exceeded"
  | channelClosed channel => s!"channel {channel} closed"
  | cancelled => "cancelled by barrier"

end AbortReason

/-- How a checkpoint ended. -/
inductive Notice
  /-- Every live channel delivered the barrier; `b` is the first one that arrived. -/
  | complete (b : Barrier)
  | aborted (id : Nat) (reason : AbortReason)
deriving DecidableEq, Repr

namespace Notice

def checkpoint : Notice → Nat
  | complete b => b.id
  | aborted id _ => id

def isComplete : Notice → Bool
  | complete _ => true
  | aborted _ _ => false

end Notice

/-- Who hears the notices of an aligner. -/
inductive Listener
  /-- A listener for both kinds. -/
  | full
  /-- A listener for completed checkpoints, to which given up ones are of no interest. -/
  | completions
  /-- No listener, or one that ignores everything. -/
  | silent
deriving DecidableEq, Repr

namespace Listener

def hears : Listener → Notice → Bool
  | full, _ => true
  | completions, n => n.isComplete
  | silent, _ => false

end Listener

end StreamCheckpoint
