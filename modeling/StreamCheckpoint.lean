import StreamCheckpoint.Alignment.Summary
import StreamCheckpoint.Proofs.Alignment.Arrivals
import StreamCheckpoint.Proofs.Alignment.Conservation
import StreamCheckpoint.Proofs.Alignment.Counters
import StreamCheckpoint.Proofs.Gate.Traffic
import StreamCheckpoint.Proofs.Reading.Clearing
import StreamCheckpoint.Proofs.Reading.Errors
import StreamCheckpoint.Proofs.Reading.Exhaustion
import StreamCheckpoint.Proofs.Reading.Faults
import StreamCheckpoint.Proofs.Reading.Plan
import StreamCheckpoint.Proofs.Reading.Refinement
import StreamCheckpoint.Proofs.Reading.Termination
import StreamCheckpoint.Proofs.Record.Bounds
import StreamCheckpoint.Proofs.Record.Cutting
import StreamCheckpoint.Proofs.Record.Exactness
import StreamCheckpoint.Proofs.Record.Writing
import StreamCheckpoint.Proofs.SharedState.Adoption
import StreamCheckpoint.Proofs.SharedState.Calls
import StreamCheckpoint.Proofs.SharedState.Clients
import StreamCheckpoint.Proofs.SharedState.Discarding
import StreamCheckpoint.Proofs.SharedState.Files
import StreamCheckpoint.Proofs.SharedState.Names
import StreamCheckpoint.Proofs.SharedState.Placeholders
import StreamCheckpoint.Proofs.Superstep.Answers
import StreamCheckpoint.Proofs.Superstep.Boundaries
import StreamCheckpoint.Reading.Run
import StreamCheckpoint.Settings
import StreamCheckpoint.SharedState.Registry
import StreamCheckpoint.Storage.FileMap
import StreamCheckpoint.Storage.FileTree
