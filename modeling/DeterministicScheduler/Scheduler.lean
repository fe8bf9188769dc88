import DeterministicScheduler.Syscalls
import Mathlib

/-!
# The scheduler

A scheduler holds the machines of one script: at most `maxInstantiatedVms` of
them instantiated, the others as snapshots. Its entry point runs machines until
the root exits, the cycles are used up or a pause is signalled.

The bound on instantiated machines is the parameter `cap` of every function that
looks at it, and `none` is no bound. Hash maps are modelled by the same ordered
maps as the tree maps: no function depends on their iteration order.

The log records what a scheduler does to its machines. It is no part of the
state and nothing reads it.
-/
namespace DeterministicScheduler

open ProgramLogic Program

abbrev BTreeMap (κ α : Type) [Ord κ] := Std.ExtTreeMap κ α

abbrev HashMap (κ α : Type) [Ord κ] := Std.ExtTreeMap κ α

def rootVmId : VmId := firstVmId

def maxInstantiatedVms : Option ℕ := some 4

/-- Whether one more machine fits beside `n` instantiated ones. -/
def hasRoom (cap : Option ℕ) (n : ℕ) : Bool :=
  cap.all (n < ·)

structure Scheduler (μ κ : Type) where
  totalCycles : ℕ
  nextVmId : VmId
  nextPipeSlot : UInt64
  states : BTreeMap VmId VmState
  pipes : HashMap PipeId VmId
  instantiated : BTreeMap VmId (Machine μ)
  suspended : HashMap VmId κ
  terminatedVms : HashMap VmId Int8
  messageBox : List Message

/-- The suspended form of a scheduler, all of its machines as snapshots. -/
structure FullSuspendedState (κ : Type) where
  totalCycles : ℕ
  nextVmId : VmId
  nextPipeSlot : UInt64
  vms : List (VmId × VmState × κ)
  pipes : List (PipeId × VmId)
  terminatedVms : List (VmId × Int8)

/-- What a scheduler does: the limit an iteration starts with, a VM booted with
its load charge, a machine executed, a message taken from the box, and every
access that changes a machine between two executions. -/
inductive Event (μ : Type) where
  | iterate (limitCycles : ℕ)
  | boot (vmId : VmId) (charge : ℕ)
  | exec (vmId : VmId) (before after : Cpu μ) (result : Except Error Int8)
      (posted : List Message)
  | message (msg : Message)
  | store8 (vmId : VmId) (addr value : UInt64)
  | store64 (vmId : VmId) (addr value : UInt64)
  | storeBytes (vmId : VmId) (addr : UInt64) (data : Bytes)
  | setA0 (vmId : VmId) (value : UInt64)
  | block (vmId : VmId) (state : VmState)
  | transfer (readVmId writeVmId : VmId) (writePipe : PipeId) (data : Bytes)

abbrev SchedulerM (μ κ : Type) := Program Error (Event μ) (Scheduler μ κ)

namespace Scheduler

/-- A new scheduler, with no machine booted yet. -/
def new {μ κ : Type} : Scheduler μ κ where
  totalCycles := 0
  nextVmId := firstVmId
  nextPipeSlot := firstPipeSlot
  states := ∅
  pipes := ∅
  instantiated := ∅
  suspended := ∅
  terminatedVms := ∅
  messageBox := []

section Accesses

variable {μ κ : Type}

/-- An instantiated machine; asking for any other crashes. -/
def machine (id : VmId) : SchedulerM μ κ (Machine μ) := do
  unwrap (← get).instantiated[id]?

def setMachine (id : VmId) (m : Machine μ) : SchedulerM μ κ Unit :=
  modify fun s => { s with instantiated := s.instantiated.insert id m }

def setState (id : VmId) (state : VmState) : SchedulerM μ κ Unit :=
  modify fun s => { s with states := s.states.insert id state }

/-- Put a VM in a waiting state. -/
def blockVm (id : VmId) (state : VmState) : SchedulerM μ κ Unit := do
  emit (.block id state)
  setState id state

def setA0 (id : VmId) (value : UInt64) : SchedulerM μ κ Unit := do
  let m ← machine id
  emit (.setA0 id value)
  setMachine id { m with toCore := m.toCore.setRegister A0 value }

variable [Memory μ]

def store8 (id : VmId) (addr value : UInt64) : SchedulerM μ κ Unit := do
  let m ← machine id
  let memory ← ofExcept (Memory.store8 m.memory addr value)
  emit (.store8 id addr value)
  setMachine id { m with memory }

def store64 (id : VmId) (addr value : UInt64) : SchedulerM μ κ Unit := do
  let m ← machine id
  let memory ← ofExcept (Memory.store64 m.memory addr value)
  emit (.store64 id addr value)
  setMachine id { m with memory }

def storeBytes (id : VmId) (addr : UInt64) (data : Bytes) : SchedulerM μ κ Unit := do
  let m ← machine id
  let memory ← ofExcept (Memory.storeBytes m.memory addr data)
  emit (.storeBytes id addr data)
  setMachine id { m with memory }

def loadBytes (id : VmId) (addr size : UInt64) : SchedulerM μ κ Bytes := do
  let m ← machine id
  ofExcept (Memory.loadBytes m.memory addr size)

end Accesses

section Instantiation

variable {μ κ : Type} {Mirrors : TxData → μ → Prop} (cap : Option ℕ) (env : Library Mirrors κ)

/-- A machine with the system calls attached can be made once the script selects
a version. -/
def createDummyVm : SchedulerM μ κ Unit :=
  match env.selectVersion with
  | .ok () => pure ()
  | .error e => throw (.unexpected s!"Select version error: {e}")

/-- Resume a suspended VM. -/
def resumeVm (id : VmId) : SchedulerM μ κ Unit := do
  match (← get).suspended[id]? with
  | none => throw (.unexpected s!"VM {id} is not suspended!")
  | some snapshot =>
    createDummyVm env
    let cpu ← ofExcept (env.resumeSnapshot snapshot)
    modify fun s => { s with
      instantiated := s.instantiated.insert id { cpu with exitCode := 0 }
      suspended := s.suspended.erase id }

/-- Suspend an instantiated VM. -/
def suspendVm (id : VmId) : SchedulerM μ κ Unit := do
  match (← get).instantiated[id]? with
  | none => throw (.unexpected s!"VM {id} is not instantiated!")
  | some m =>
    let snapshot ← ofExcept (env.makeSnapshot m.toCpu)
    modify fun s => { s with
      suspended := s.suspended.insert id snapshot
      instantiated := s.instantiated.erase id }

/-- Resume the given VMs in turn while there is room, and return the others. -/
def resumeWhileRoom : List VmId → SchedulerM μ κ (List VmId)
  | [] => return []
  | id :: ids => do
    if hasRoom cap (← get).instantiated.size then
      resumeVm env id
      resumeWhileRoom ids
    else return id :: ids

/-- Suspend one VM and resume another in its place. -/
def swapVms (p : VmId × VmId) : SchedulerM μ κ Unit := do
  suspendVm env p.1
  resumeVm env p.2

/-- Refuse to instantiate more VMs at once than there are places. -/
def checkRequest (n : ℕ) : SchedulerM μ κ Unit :=
  match cap with
  | some c =>
    if c < n then
      throw (.unexpected s!"At most {c} VMs can be instantiated but {n} are requested!")
    else pure ()
  | none => pure ()

/-- Ensure VMs are instantiated. Free places are filled from the back of the
list; the rest take the places of other VMs, those of the smallest ids first. -/
def ensureVmsInstantiated (ids : List VmId) : SchedulerM μ κ Unit := do
  checkRequest cap ids.length
  let s ← get
  let uninstantiated := ids.filter fun id => !s.instantiated.contains id
  let rest ← resumeWhileRoom cap env uninstantiated.reverse
  if rest.isEmpty then return ()
  else
    let s ← get
    let suspendable := s.instantiated.keys.filter fun id => !ids.contains id
    if suspendable.length < rest.length then crash
    else
      (suspendable.zip rest.reverse).forM (swapVms env)

/-- Suspend VMs of the smallest ids until there is room. Each round suspends one,
so the number of instantiated VMs is fuel enough. -/
def evictUntilRoom : ℕ → SchedulerM μ κ Unit
  | 0 => return ()
  | fuel + 1 => do
    let s ← get
    if hasRoom cap s.instantiated.size then return ()
    else
      let id ← unwrap s.instantiated.keys.head?
      suspendVm env id
      evictUntilRoom fuel

/-- Boot a new VM, instantiated and runnable, with the load charge on its machine. -/
def bootVm (dataPieceId : DataPieceId) (offset length : UInt64) (args : List Bytes) :
    SchedulerM μ κ VmId := do
  evictUntilRoom cap env (← get).instantiated.size
  let id := (← get).nextVmId
  let nextVmId ← unwrap (checkedAdd id 1)
  modify fun s => { s with nextVmId }
  createDummyVm env
  let (program, _) ← ofExcept (env.txData.loadData dataPieceId offset length)
  let (core, bytes) ← ofExcept (env.loadProgram dataPieceId offset program args)
  let charge := transferredByteCycles bytes
  emit (.boot id charge)
  modify fun s => { s with
    instantiated := s.instantiated.insert id { core with cycles := charge, exitCode := 0 }
    states := s.states.insert id .runnable }
  return id

end Instantiation

section Messages

variable {μ κ : Type} {Mirrors : TxData → μ → Prop} [Memory μ] (cap : Option ℕ)
  (env : Library Mirrors κ)

/-- Finish a system call of `id` with a code and no result in memory. -/
def rejectCall (id : VmId) (code : UInt64) : SchedulerM μ κ Unit := do
  ensureVmsInstantiated cap env [id]
  setA0 id code

def ownsPipe (s : Scheduler μ κ) (id : VmId) (p : PipeId) : Bool :=
  s.pipes[p]? == some id

/-- The first pipe of a list that `id` does not own. -/
def firstForeignPipe (s : Scheduler μ κ) (id : VmId) (pipes : List PipeId) : Option PipeId :=
  pipes.find? fun p => !s.ownsPipe id p

def processSpawn (id : VmId) (args : SpawnArgs) : SchedulerM μ κ Unit := do
  match (← get).firstForeignPipe id args.pipes with
  | some p => throw (.unexpected s!"VM {id} does not own pipe {p}!")
  | none =>
    let spawned ← bootVm cap env args.dataPieceId args.offset args.length args.argv
    -- move the passed pipes from spawner to spawnee
    modify fun s => { s with
      pipes := args.pipes.foldl (fun pipes p => pipes.insert p spawned) s.pipes }
    ensureVmsInstantiated cap env [id]
    store64 id args.instanceIdAddr spawned
    setA0 id success

/-- Hand a joining VM the exit code of its target. -/
def finishJoin (id : VmId) (exitCodeAddr : UInt64) (code : Int8) : SchedulerM μ κ Unit := do
  ensureVmsInstantiated cap env [id]
  store8 id exitCodeAddr code.toInt64.toUInt64
  setA0 id success
  setState id .runnable

def processJoin (id : VmId) (args : JoinArgs) : SchedulerM μ κ Unit := do
  let s ← get
  match s.terminatedVms[args.targetId]? with
  | some exitCode => finishJoin cap env id args.exitCodeAddr exitCode
  | none =>
    if s.states.contains args.targetId then
      -- the return code is updated when the joined VM exits
      blockVm id (.join args.targetId args.exitCodeAddr)
    else rejectCall cap env id joinFailure

def processPipe (id : VmId) (args : PipeArgs) : SchedulerM μ κ Unit := do
  let (p1, p2, slot) ← unwrap (PipeId.create (← get).nextPipeSlot)
  modify fun s => { s with
    nextPipeSlot := slot
    pipes := (s.pipes.insert p1 id).insert p2 id }
  ensureVmsInstantiated cap env [id]
  store64 id args.pipe1Addr p1
  store64 id args.pipe2Addr p2
  setA0 id success

/-- Reading and writing check their pipe alike and then wait in their own state. -/
def processPipeIo (id : VmId) (pipe : PipeId) (waiting : VmState) : SchedulerM μ κ Unit := do
  let s ← get
  if !s.ownsPipe id pipe then rejectCall cap env id invalidPipe
  else if !s.pipes.contains pipe.otherPipe then rejectCall cap env id otherEndClosed
  -- the return code is updated when the operation finishes
  else blockVm id waiting

def processPipeRead (id : VmId) (args : PipeIoArgs) : SchedulerM μ κ Unit :=
  processPipeIo cap env id args.pipe
    (.waitForRead args.pipe args.length args.bufferAddr args.lengthAddr)

def processPipeWrite (id : VmId) (args : PipeIoArgs) : SchedulerM μ κ Unit :=
  processPipeIo cap env id args.pipe
    (.waitForWrite args.pipe 0 args.length args.bufferAddr args.lengthAddr)

def processMessage (msg : Message) : SchedulerM μ κ Unit := do
  emit (.message msg)
  match msg with
  | .spawn id args => processSpawn cap env id args
  | .join id args => processJoin cap env id args
  | .pipe id args => processPipe cap env id args
  | .pipeRead id args => processPipeRead cap env id args
  | .pipeWrite id args => processPipeWrite cap env id args

def processMessageBox : SchedulerM μ κ Unit := do
  let messages := (← get).messageBox
  modify fun s => { s with messageBox := [] }
  messages.forM (processMessage cap env)

end Messages

section Io

variable {μ κ : Type} {Mirrors : TxData → μ → Prop} [Memory μ] (cap : Option ℕ)
  (env : Library Mirrors κ)

/-- The readers whose other end is open, under the pipe they read, and in order
of their ids those whose other end is closed. -/
def collectReads (pipes : HashMap PipeId VmId) (states : List (VmId × VmState)) :
    HashMap PipeId (VmId × VmState) × List VmId :=
  states.foldl (fun (reads, closed) (id, state) =>
    match state with
    | .waitForRead pipe _ _ _ =>
      if pipes.contains pipe.otherPipe then (reads.insert pipe (id, state), closed)
      else (reads, closed ++ [id])
    | _ => (reads, closed)) (∅, [])

/-- The writers with a reader on the other end, paired with it, and in order of
their ids those whose other end is closed. -/
def collectWrites (pipes : HashMap PipeId VmId) (reads : HashMap PipeId (VmId × VmState))
    (states : List (VmId × VmState)) :
    List ((VmId × VmState) × (VmId × VmState)) × List VmId :=
  states.foldl (fun (pairs, closed) (id, state) =>
    match state with
    | .waitForWrite pipe _ _ _ _ =>
      if pipes.contains pipe.otherPipe then
        match reads[pipe.otherPipe]? with
        | some read => (pairs ++ [(read, (id, state))], closed)
        | none => (pairs, closed)
      else (pairs, closed ++ [id])
    | _ => (pairs, closed)) ([], [])

/-- Finish a read or a write whose pipe is closed on the other end. -/
def finishClosed (id : VmId) : SchedulerM μ κ Unit := do
  match ← unwrap (← get).states[id]? with
  | .waitForRead _ _ _ lengthAddr =>
    store64 id lengthAddr 0
    setA0 id success
    setState id .runnable
  | .waitForWrite _ consumed _ _ lengthAddr =>
    store64 id lengthAddr consumed
    setA0 id success
    setState id .runnable
  | _ => return ()

/-- Move bytes from a waiting writer to a waiting reader. The read finishes with
whatever it gets, the write only when all of its bytes are taken. -/
def transferPair : (VmId × VmState) × (VmId × VmState) → SchedulerM μ κ Unit
  | ((readVmId, .waitForRead _ readLength readBufferAddr readLengthAddr),
      (writeVmId, .waitForWrite writePipe consumed writeLength writeBufferAddr
        writeLengthAddr)) => do
    ensureVmsInstantiated cap env [readVmId, writeVmId]
    let consumable ← unwrap (checkedSub writeLength consumed)
    let copiable := min readLength consumable
    let data ← loadBytes writeVmId (writeBufferAddr + consumed) copiable
    storeBytes readVmId readBufferAddr data
    emit (.transfer readVmId writeVmId writePipe data)
    store64 readVmId readLengthAddr copiable
    setA0 readVmId success
    setState readVmId .runnable
    let consumed := consumed + copiable
    if consumed = writeLength then
      store64 writeVmId writeLengthAddr writeLength
      setA0 writeVmId success
      setState writeVmId .runnable
    else
      setState writeVmId (.waitForWrite writePipe consumed writeLength writeBufferAddr
        writeLengthAddr)
  | _ => crash

/-- Finish every read and write that can be finished. What can be is decided on
the states before any of them is. -/
def processIo : SchedulerM μ κ Unit := do
  let s ← get
  let (reads, closedReads) := collectReads s.pipes s.states.toList
  let (pairs, closedWrites) := collectWrites s.pipes reads s.states.toList
  (closedReads ++ closedWrites).forM finishClosed
  pairs.forM (transferPair cap env)

end Io

section Running

variable {μ κ : Type} {Mirrors : TxData → μ → Prop} [Memory μ] (cap : Option ℕ)
  (env : Library Mirrors κ)

/-- The runnable VM with the largest id. -/
def vmIdToRun (states : BTreeMap VmId VmState) : Option VmId :=
  (states.toList.reverse.find? fun (_, state) => state == .runnable).map Prod.fst

/-- Run one machine and move its cycles to the total. -/
def runVm (id : VmId) (pause : Pause) (limitCycles : ℕ) :
    SchedulerM μ κ (Except Error Int8 × ℕ) := do
  ensureVmsInstantiated cap env [id]
  let m ← machine id
  let baseCycles := (← get).totalCycles
  let (result, exitCode, cpu, posted) ←
    match runMachine env ⟨id, baseCycles⟩ limitCycles pause m.toCpu with
    | .ok code cpu posted => pure (.ok code, code, cpu, posted)
    | .err e cpu posted => pure (.error e, m.exitCode, cpu, posted)
    | .panic => crash
  emit (.exec id m.toCpu cpu result posted)
  modify fun s => { s with
    instantiated := s.instantiated.insert id { cpu with cycles := 0, exitCode }
    messageBox := s.messageBox ++ posted }
  -- the only place where the total is updated
  if baseCycles + cpu.cycles < 2 ^ 64 then
    modify fun s => { s with totalCycles := baseCycles + cpu.cycles }
    return (result, cpu.cycles)
  else throw .cyclesOverflow

/-- The VMs that wait for `target` to exit, with where each wants the code. -/
def joiningVms (states : BTreeMap VmId VmState) (target : VmId) : List (VmId × UInt64) :=
  states.toList.filterMap fun (id, state) =>
    match state with
    | .join targetVmId exitCodeAddr =>
      if targetVmId = target then some (id, exitCodeAddr) else none
    | _ => none

/-- When the root exits the execution stops and only the root is kept. When
another VM exits, the VMs joining it go on, its pipes close and it is purged. -/
def terminateVm (id : VmId) (code : Int8) : SchedulerM μ κ Unit := do
  modify fun s => { s with terminatedVms := s.terminatedVms.insert id code }
  if id = rootVmId then
    ensureVmsInstantiated cap env [id]
    modify fun s => { s with
      instantiated := s.instantiated.filter fun k _ => k == id
      suspended := ∅
      states := (∅ : BTreeMap VmId VmState).insert id .terminated }
  else
    (joiningVms (← get).states id).forM fun (joiner, exitCodeAddr) =>
      finishJoin cap env joiner exitCodeAddr code
    modify fun s => { s with
      pipes := s.pipes.filter fun _ owner => owner != id
      states := s.states.erase id
      instantiated := s.instantiated.erase id
      suspended := s.suspended.erase id }

/-- One round of the scheduler: finish pending reads and writes, run a machine,
answer its message, and clean up after it if it exits. -/
def iterate (pause : Pause) (limitCycles : ℕ) : SchedulerM μ κ ℕ := do
  emit (.iterate limitCycles)
  processIo cap env
  match vmIdToRun (← get).states with
  | none => throw .deadlock
  | some id =>
    let (result, consumedCycles) ← runVm cap env id pause limitCycles
    processMessageBox cap env
    if (← get).messageBox.isEmpty then
      match result with
      | .ok code =>
        terminateVm cap env id code
        return consumedCycles
      | .error e => if e = .yield then return consumedCycles else throw e
    else crash

/-- The loop of `run`: the `k`-th round sees the signal `pause k`. Every round
consumes a cycle or ends the call, so `limitCycles + 2` rounds are enough and
`none`, for a loop that is out of fuel, is never returned. -/
def runLoop (pause : ℕ → Pause) : ℕ → ℕ → ℕ → SchedulerM μ κ (Option Unit)
  | 0, _, _ => return none
  | fuel + 1, k, limitCycles => do
    let rootState ← unwrap (← get).states[rootVmId]?
    if rootState = .terminated then return some ()
    else
      let consumedCycles ← iterate cap env (pause k) limitCycles
      match checkedSubCycles consumedCycles consumedCycles with
      | some limitCycles => runLoop pause fuel (k + 1) limitCycles
      | none => throw .cyclesExceeded

end Running

end Scheduler

/-- How a call is limited: by cycles, or by a signal that each round of the call
may see after some number of instructions. -/
inductive RunMode where
  | limitCycles (limit : ℕ)
  | pause (signal : ℕ → Pause)

def RunMode.signal : RunMode → ℕ → Pause
  | limitCycles _ => fun _ => none
  | pause signal => signal

def RunMode.limit : RunMode → ℕ
  | limitCycles limit => limit
  | pause _ => 2 ^ 64 - 1

namespace Scheduler

variable {μ κ : Type} {Mirrors : TxData → μ → Prop} [Memory μ] (cap : Option ℕ)
  (env : Library Mirrors κ)

/-- Boot the root of a scheduler that holds no VM. -/
def bootRoot : SchedulerM μ κ Unit := do
  if (← get).states.isEmpty then
    let id ← bootVm cap env .program 0 0xffffffffffffffff []
    if id = rootVmId then return () else crash
  else return ()

/-- The only entry point: run until the root exits, and return its exit code and
all cycles consumed. -/
def run (mode : RunMode) : SchedulerM μ κ (Int8 × ℕ) := do
  bootRoot cap env
  if (← get).states.contains rootVmId then
    match ← runLoop cap env mode.signal (mode.limit + 2) 0 mode.limit with
    | some () =>
      let root ← machine rootVmId
      return (root.exitCode, (← get).totalCycles)
    | none => crash
  else crash

omit [Memory μ] in
/-- Suspend a scheduler into a serializable full state. -/
def suspend : SchedulerM μ κ (FullSuspendedState κ) := do
  (← get).instantiated.keys.forM (suspendVm env)
  let s ← get
  let vms ← unwrap (s.states.toList.mapM fun (id, state) =>
    (s.suspended[id]?).map fun snapshot => (id, state, snapshot))
  return {
    totalCycles := s.totalCycles
    nextVmId := s.nextVmId
    nextPipeSlot := s.nextPipeSlot
    vms
    pipes := s.pipes.toList
    terminatedVms := s.terminatedVms.toList }

omit [Memory μ] in
/-- The scheduler a full state was suspended from, with an empty message box. -/
def resume (full : FullSuspendedState κ) : Scheduler μ κ where
  totalCycles := full.totalCycles
  nextVmId := full.nextVmId
  nextPipeSlot := full.nextPipeSlot
  states := Std.ExtTreeMap.ofList (full.vms.map fun (id, state, _) => (id, state))
  pipes := Std.ExtTreeMap.ofList full.pipes
  instantiated := ∅
  suspended := Std.ExtTreeMap.ofList (full.vms.map fun (id, _, snapshot) => (id, snapshot))
  terminatedVms := Std.ExtTreeMap.ofList full.terminatedVms
  messageBox := []

end Scheduler

end DeterministicScheduler
