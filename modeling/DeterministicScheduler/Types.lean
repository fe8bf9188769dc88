import Mathlib.Data.UInt
import Mathlib.Tactic

/-!
# Core data structures

Identifiers, pipe ends, VM states, messages and the transaction data a script
can load. Machine integers are `UInt64` and an unchecked addition that leaves
their range crashes, as it does in a build with overflow checks. Cycle counts
are natural numbers; each place that checks them against the 64-bit range does
so here as well.
-/
namespace DeterministicScheduler

abbrev VmId := UInt64

abbrev Bytes := List UInt8

def firstVmId : VmId := 0

/-- The errors of the virtual machine. The scheduler itself raises or inspects
the named ones; `other` stands for every error it only hands on. -/
inductive Error where
  | cyclesExceeded
  | cyclesOverflow
  | pause
  | memOutOfBound
  | external (msg : String)
  | unexpected (msg : String)
  | other (code : ℕ)
  deriving DecidableEq, Repr

/-- What a system call returns to hand its control back to the scheduler. -/
def Error.yield : Error := .external "YIELD"

def Error.deadlock : Error := .unexpected "A deadlock situation has been reached!"

/-- The errors whose meaning the scheduler fixes. None of them comes out of a
memory access, a program load, a snapshot or an instruction of a guest. -/
def Error.Reserved (e : Error) : Prop :=
  e = .cyclesExceeded ∨ e = .pause ∨ e = .cyclesOverflow ∨ e = .yield ∨ e = .deadlock

instance (e : Error) : Decidable e.Reserved := by
  unfold Error.Reserved; infer_instance

/-- An addition of two words that must stay within 64 bits. -/
def checkedAdd (a b : UInt64) : Option UInt64 :=
  if a.toNat + b.toNat < 2 ^ 64 then some (a + b) else none

def checkedSub (a b : UInt64) : Option UInt64 :=
  if b ≤ a then some (a - b) else none

def checkedSubCycles (a b : ℕ) : Option ℕ :=
  if b ≤ a then some (a - b) else none

abbrev PipeId := UInt64

def firstPipeSlot : UInt64 := 2

namespace PipeId

/-- The two ends of a new pipe and the next free slot. -/
def create (slot : UInt64) : Option (PipeId × PipeId × UInt64) := do
  let writeEnd ← checkedAdd slot 1
  let next ← checkedAdd slot 2
  return (slot, writeEnd, next)

def otherPipe (p : PipeId) : PipeId := p ^^^ 1

def isRead (p : PipeId) : Bool := p % 2 == 0

def isWrite (p : PipeId) : Bool := p % 2 == 1

end PipeId

inductive VmState where
  | runnable
  | terminated
  | join (targetVmId : VmId) (exitCodeAddr : UInt64)
  | waitForWrite (pipe : PipeId) (consumed length bufferAddr lengthAddr : UInt64)
  | waitForRead (pipe : PipeId) (length bufferAddr lengthAddr : UInt64)
  deriving DecidableEq, Repr

/-- The piece of transaction data a program or a cell is loaded from. -/
inductive DataPieceId where
  | program
  | input (index : UInt32)
  | output (index : UInt32)
  | cellDep (index : UInt32)
  | groupInput (index : UInt32)
  | groupOutput (index : UInt32)
  deriving DecidableEq, Repr

def DataPieceId.tryFrom (source index : UInt64) : Except String DataPieceId :=
  if index.toNat < 2 ^ 32 then
    match source.toNat with
    | 1 => .ok (.input index.toUInt32)
    | 2 => .ok (.output index.toUInt32)
    | 3 => .ok (.cellDep index.toUInt32)
    | 0x0100000000000001 => .ok (.groupInput index.toUInt32)
    | 0x0100000000000002 => .ok (.groupOutput index.toUInt32)
    | n => .error ("Invalid source value: 0x" ++ String.ofList (Nat.toDigits 16 n))
  else
    .error ("Error casting index to u32: " ++
      "out of range integral type conversion attempted")

structure SpawnArgs where
  dataPieceId : DataPieceId
  offset : UInt64
  length : UInt64
  argv : List Bytes
  pipes : List PipeId
  instanceIdAddr : UInt64
  deriving DecidableEq, Repr

structure JoinArgs where
  targetId : VmId
  exitCodeAddr : UInt64
  deriving DecidableEq, Repr

structure PipeArgs where
  pipe1Addr : UInt64
  pipe2Addr : UInt64
  deriving DecidableEq, Repr

structure PipeIoArgs where
  pipe : PipeId
  length : UInt64
  bufferAddr : UInt64
  lengthAddr : UInt64
  deriving DecidableEq, Repr

/-- What a machine that yields asks of the scheduler. -/
inductive Message where
  | spawn (vmId : VmId) (args : SpawnArgs)
  | join (vmId : VmId) (args : JoinArgs)
  | pipe (vmId : VmId) (args : PipeArgs)
  | pipeRead (vmId : VmId) (args : PipeIoArgs)
  | pipeWrite (vmId : VmId) (args : PipeIoArgs)
  deriving DecidableEq, Repr

/-- The VM that sent a message. -/
def Message.vmId : Message → VmId
  | spawn v _ | join v _ | pipe v _ | pipeRead v _ | pipeWrite v _ => v

/-- The transaction a script group is verified in. A cell is listed with the
data the loader finds for it, `none` where loading fails. -/
structure TxData where
  program : Bytes
  resolvedInputs : List (Option Bytes)
  outputsData : List Bytes
  resolvedCellDeps : List (Option Bytes)
  inputIndices : List ℕ
  outputIndices : List ℕ
  deriving DecidableEq, Repr

namespace TxData

def indexOutOfBound : Error := .external "INDEX_OUT_OF_BOUND"

/-- The whole data of one piece. -/
def piece (tx : TxData) : DataPieceId → Except Error Bytes
  | .program => .ok tx.program
  | .input i => do
    let cell ← (tx.resolvedInputs[i.toNat]?).elim (.error indexOutOfBound) .ok
    cell.elim (.error (.unexpected s!"Loading input cell #{i}'s data failed!")) .ok
  | .output i => (tx.outputsData[i.toNat]?).elim (.error indexOutOfBound) .ok
  | .cellDep i => do
    let cell ← (tx.resolvedCellDeps[i.toNat]?).elim (.error indexOutOfBound) .ok
    cell.elim (.error (.unexpected s!"Loading dep cell #{i}'s data failed!")) .ok
  | .groupInput i => do
    let gi ← (tx.inputIndices[i.toNat]?).elim (.error indexOutOfBound) .ok
    let cell ← (tx.resolvedInputs[gi]?).elim (.error indexOutOfBound) .ok
    cell.elim (.error (.unexpected s!"Loading input cell #{gi}'s data failed!")) .ok
  | .groupOutput i => do
    let gi ← (tx.outputIndices[i.toNat]?).elim (.error indexOutOfBound) .ok
    (tx.outputsData[gi]?).elim (.error indexOutOfBound) .ok

/-- A slice of a piece and its length from `offset` to the end. A zero `length`
asks for everything from `offset` on. -/
def loadData (tx : TxData) (id : DataPieceId) (offset length : UInt64) :
    Except Error (Bytes × UInt64) := do
  let data ← tx.piece id
  let offset := min offset.toNat data.length
  let fullLength := data.length - offset
  let sliceLength := if 0 < length then min fullLength length.toNat else fullLength
  return ((data.drop offset).take sliceLength, UInt64.ofNat fullLength)

end TxData

end DeterministicScheduler
