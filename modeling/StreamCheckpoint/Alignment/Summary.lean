import StreamCheckpoint.Alignment.Aligner
import StreamCheckpoint.Summary

/-! The summary of an aligner.  It tells how long the last alignment took, so it depends on a clock
unless that was no time at all. -/

namespace StreamCheckpoint

/-- The summary of the counters, or `none` if it depends on a clock. -/
def AlignmentCounters.summary? (c : AlignmentCounters) : Option String :=
  let text (duration : Option String) :=
    summary "AlignmentStats" [
      .number "completed" c.completed,
      .number "aborted" c.aborted,
      .number "stale_barriers" c.stale,
      .optional "last_alignment_duration" duration]
  match c.lastWait with
  | none => some (text none)
  | some .instant => some (text "0ns")
  | some .measured => none

/-- The summary of an aligner, or `none` if it depends on a clock.  An alignment in flight keeps the
time at which it began. -/
def Aligner.summary? (a : Aligner) : Option String :=
  if a.isAligning then none
  else
    a.counters.summary?.map fun counters =>
      summary "BarrierBuffer" [
        .number "num_channels" a.channels,
        .flags "closed" a.closed,
        ⟨"state", "Idle"⟩,
        .number "replay_len" a.replay.length,
        .optional "latest_checkpoint_id" (a.latest.map toString),
        ⟨"stats", counters⟩] true

end StreamCheckpoint
