import DeterministicScheduler.Accounting
import DeterministicScheduler.Ownership
import DeterministicScheduler.Isolation
import DeterministicScheduler.Deadlock
import DeterministicScheduler.Joins
import DeterministicScheduler.CellData
import DeterministicScheduler.Spawning
import DeterministicScheduler.PassOrder
import DeterministicScheduler.Bounded
import DeterministicScheduler.EndOfStream
import DeterministicScheduler.Calls
import DeterministicScheduler.Assertions
import DeterministicScheduler.Budget
import DeterministicScheduler.Cycles
import DeterministicScheduler.EscapeEncoding
import DeterministicScheduler.PipeRouting
import DeterministicScheduler.Streams
import DeterministicScheduler.Cadence
import DeterministicScheduler.WorkloadResults
import DeterministicScheduler.WorkloadCompletion
import DeterministicScheduler.WorkloadArrays
import DeterministicScheduler.MolReader
import DeterministicScheduler.PipeHistory
import DeterministicScheduler.SecondRound
