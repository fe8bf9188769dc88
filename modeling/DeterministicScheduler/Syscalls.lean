import DeterministicScheduler.Machine

/-!
# System calls and the execution of one machine

The system calls of this repository run on the machine that makes them. Those
that need the scheduler post a message and raise the yield error; the log of a
machine's program is exactly what it puts in the message box.
-/
namespace DeterministicScheduler

open ProgramLogic Program

/-- A program on one machine that posts messages. -/
abbrev MachineM (μ : Type) := Program Error Message (Cpu μ)

/-- A machine's view of the scheduler. -/
structure MachineContext where
  id : VmId
  baseCycles : ℕ

def bytesPerCycle : ℕ := 4

/-- Cycles spent to load the specified number of bytes, rounded up. -/
def transferredByteCycles (bytes : UInt64) : ℕ :=
  (bytes.toNat + bytesPerCycle - 1) / bytesPerCycle

def success : UInt64 := 0
def indexOutOfBound : UInt64 := 1
def sliceOutOfBound : UInt64 := 3
def joinFailure : UInt64 := 5
def invalidPipe : UInt64 := 6
def otherEndClosed : UInt64 := 7

section Primitives

variable {μ : Type}

def register (r : Reg) : MachineM μ UInt64 := do
  return (← get).registers r

def setRegister (r : Reg) (value : UInt64) : MachineM μ Unit :=
  modify fun m => { m with toCore := m.toCore.setRegister r value }

def setMemory (memory : μ) : MachineM μ Unit :=
  modify fun m => { m with memory }

def addCyclesNoChecking (charge : ℕ) : MachineM μ Unit := do
  let m ← get
  if m.cycles + charge < 2 ^ 64 then set { m with cycles := m.cycles + charge }
  else throw .cyclesOverflow

variable [Memory μ]

def load8 (addr : UInt64) : MachineM μ UInt8 := do
  ofExcept (Memory.load8 (← get).memory addr)

def load64 (addr : UInt64) : MachineM μ UInt64 := do
  ofExcept (Memory.load64 (← get).memory addr)

def store64 (addr value : UInt64) : MachineM μ Unit := do
  setMemory (← ofExcept (Memory.store64 (← get).memory addr value))

/-- Read bytes up to the first zero. The address crashes on leaving 64 bits, so
`2 ^ 64` of fuel is more than any call can use. -/
def loadCString : ℕ → UInt64 → MachineM μ Bytes
  | 0, _ => crash
  | fuel + 1, addr => do
    let byte ← load8 addr
    if byte = 0 then return []
    else
      let next ← unwrap (checkedAdd addr 1)
      let rest ← loadCString fuel next
      return byte :: rest

/-- The strings of an argument table with `argc` entries. -/
def loadArgv : ℕ → UInt64 → MachineM μ (List Bytes)
  | 0, _ => return []
  | argc + 1, argvAddr => do
    let targetAddr ← load64 argvAddr
    let cstr ← loadCString (2 ^ 64) targetAddr
    let next ← unwrap (checkedAdd argvAddr 8)
    let rest ← loadArgv argc next
    return cstr :: rest

/-- Read words up to the first zero. -/
def loadPipes : ℕ → UInt64 → MachineM μ (List PipeId)
  | 0, _ => crash
  | fuel + 1, pipesAddr => do
    let pipe ← load64 pipesAddr
    if pipe = 0 then return []
    else
      let next ← unwrap (checkedAdd pipesAddr 8)
      let rest ← loadPipes fuel next
      return pipe :: rest

/-- Reserve room for `n` strings of 32 bytes each, which crashes past the largest
signed size. -/
def reserveStrings (n : UInt64) : MachineM μ Unit :=
  if n.toNat * 32 < 2 ^ 63 then pure () else crash

section Runs

variable {α : Type} {m : Cpu μ}

omit [Memory μ] in
theorem register_bind_run (r : Reg) (f : UInt64 → MachineM μ α) :
    (register r >>= f) m = f (m.registers r) m := by
  have hrun : (register r : MachineM μ UInt64) m = .ok (m.registers r) m [] := rfl
  rw [bind_of_ok hrun, Outcome.after_nil]

omit [Memory μ] in
theorem setRegister_run (r : Reg) (value : UInt64) :
    (setRegister r value : MachineM μ Unit) m =
      .ok ⟨⟩ { m with toCore := m.toCore.setRegister r value } [] := rfl

omit [Memory μ] in
theorem setMemory_bind_run (memory : μ) (f : Unit → MachineM μ α) :
    (setMemory memory >>= f) m = f ⟨⟩ { m with memory } := by
  rw [setMemory, modify_bind_run]

omit [Memory μ] in
/-- A charge that is counted, or else an overflow. -/
theorem addCycles_bind_ok {charge : ℕ} {f : Unit → MachineM μ α} {a : α} {m' : Cpu μ}
    {l : List Message} (h : (addCyclesNoChecking charge >>= f) m = .ok a m' l) :
    f ⟨⟩ { m with cycles := m.cycles + charge } = .ok a m' l := by
  obtain ⟨_, m₁, l₁, l₂, hadd, hrest, rfl⟩ := bind_eq_ok.mp h
  simp only [addCyclesNoChecking, get_bind_run] at hadd
  split at hadd
  · cases hadd
    exact hrest
  · cases hadd

theorem load64_run (addr : UInt64) :
    (load64 addr : MachineM μ UInt64) m = ofExcept (Memory.load64 m.memory addr) m := by
  rw [load64, get_bind_run]

theorem load8_run (addr : UInt64) :
    (load8 addr : MachineM μ UInt8) m = ofExcept (Memory.load8 m.memory addr) m := by
  rw [load8, get_bind_run]

theorem load64_bind_ok {addr : UInt64} {f : UInt64 → MachineM μ α} {a : α} {m' : Cpu μ}
    {l : List Message} (h : (load64 addr >>= f) m = .ok a m' l) :
    ∃ value, Memory.load64 m.memory addr = .ok value ∧ f value m = .ok a m' l := by
  rw [bind_run, load64_run] at h
  cases hload : Memory.load64 m.memory addr with
  | error e =>
    rw [hload] at h
    cases h
  | ok value =>
    rw [hload, ofExcept_ok, pure_run] at h
    exact ⟨value, rfl, by simpa using h⟩

theorem store64_bind_ok {addr value : UInt64} {f : Unit → MachineM μ α} {a : α} {m' : Cpu μ}
    {l : List Message} (h : (store64 addr value >>= f) m = .ok a m' l) :
    ∃ memory, Memory.store64 m.memory addr value = .ok memory ∧
      f ⟨⟩ { m with memory } = .ok a m' l := by
  obtain ⟨_, m₁, l₁, l₂, hstore, hrest, rfl⟩ := bind_eq_ok.mp h
  rw [store64, get_bind_run] at hstore
  cases hmemory : Memory.store64 m.memory addr value with
  | error e =>
    rw [hmemory] at hstore
    cases hstore
  | ok memory =>
    rw [hmemory] at hstore
    cases hstore
    exact ⟨memory, rfl, hrest⟩

end Runs

end Primitives

namespace MachineContext

variable {μ κ : Type} {Mirrors : TxData → μ → Prop} [Memory μ]

def currentCycles (ctx : MachineContext) : MachineM μ Unit := do
  let cycles := ctx.baseCycles + (← get).cycles
  if cycles < 2 ^ 64 then setRegister A0 (UInt64.ofNat cycles) else throw .cyclesOverflow

def loadCellData (env : Library Mirrors κ) : MachineM μ Unit := do
  let index ← register A3
  let source ← register A4
  match DataPieceId.tryFrom source index with
  | .error _ => setRegister A0 indexOutOfBound
  | .ok dataPieceId =>
    let addr ← register A0
    let sizeAddr ← register A1
    let size ← load64 sizeAddr
    let offset ← register A2
    match env.storeCellData (← get).memory addr dataPieceId offset size with
    | .error e =>
      if e = TxData.indexOutOfBound then setRegister A0 indexOutOfBound else throw e
    | .ok (memory, wroteSize, fullSize) =>
      setMemory memory
      store64 sizeAddr fullSize
      addCyclesNoChecking (transferredByteCycles wroteSize)
      setRegister A0 success

def loadCellDataAsCode (env : Library Mirrors κ) : MachineM μ Unit := do
  let addr ← register A0
  let memorySize ← register A1
  let contentOffset ← register A2
  let contentSize ← register A3
  let index ← register A4
  let source ← register A5
  match DataPieceId.tryFrom source index with
  | .error _ => setRegister A0 indexOutOfBound
  | .ok dataPieceId =>
    match env.txData.loadData dataPieceId 0 0xffffffffffffffff with
    | .error e =>
      if e = TxData.indexOutOfBound then setRegister A0 indexOutOfBound else throw e
    | .ok (cell, _) =>
      match checkedAdd contentOffset contentSize with
      | none => throw .memOutOfBound
      | some contentEnd =>
        if cell.length ≤ contentOffset.toNat ∨ cell.length < contentEnd.toNat ∨
            memorySize < contentSize then
          setRegister A0 sliceOutOfBound
        else
          let content := (cell.drop contentOffset.toNat).take contentSize.toNat
          setMemory (← ofExcept (Memory.initPages (← get).memory addr memorySize content))
          setMemory (← ofExcept
            (Memory.trackPages (← get).memory addr memorySize dataPieceId contentOffset))
          addCyclesNoChecking (transferredByteCycles memorySize)
          setRegister A0 success

/-- Charge for a debug print. The text itself only goes to the host's log. -/
def debug : MachineM μ Unit := do
  let addr ← register A0
  let buffer ← loadCString (2 ^ 64) addr
  addCyclesNoChecking (transferredByteCycles (UInt64.ofNat buffer.length))
  if (String.fromUTF8? ⟨buffer.toArray⟩).isSome then pure ()
  else throw (.external "String from buffer")

def spawn (env : Library Mirrors κ) (ctx : MachineContext) : MachineM μ Unit := do
  let index ← register A0
  let source ← register A1
  match DataPieceId.tryFrom source index with
  | .error _ => setRegister A0 indexOutOfBound
  | .ok dataPieceId =>
    let bounds ← register A2
    let offset := bounds >>> 32
    let length := bounds.toUInt32.toUInt64
    let argc ← register A3
    let argvAddr ← register A4
    reserveStrings argc
    let argv ← loadArgv argc.toNat argvAddr
    let spgsAddr ← register A5
    let instanceIdAddr ← load64 spgsAddr
    let pipesAddr ← load64 (spgsAddr + 8)
    let pipes ← if pipesAddr = 0 then pure [] else loadPipes (2 ^ 64) pipesAddr
    match env.txData.loadData dataPieceId 0 0 with
    | .error e =>
      if e = TxData.indexOutOfBound then setRegister A0 indexOutOfBound else throw e
    | .ok (_, fullLength) =>
      if fullLength ≤ offset then setRegister A0 sliceOutOfBound
      else if 0 < length ∧ checkedAdd offset length = none then throw .memOutOfBound
      else if 0 < length ∧ fullLength < offset + length then setRegister A0 sliceOutOfBound
      else
        emit (.spawn ctx.id { dataPieceId, offset, length, argv, pipes, instanceIdAddr })
        -- a higher VM may now run first, so control goes back to the scheduler
        throw .yield

def join (ctx : MachineContext) : MachineM μ Unit := do
  let targetId ← register A0
  let exitCodeAddr ← register A1
  emit (.join ctx.id { targetId, exitCodeAddr })
  throw .yield

def instanceId (ctx : MachineContext) : MachineM μ Unit :=
  setRegister A0 ctx.id

def pipe (ctx : MachineContext) : MachineM μ Unit := do
  let pipe1Addr ← register A0
  emit (.pipe ctx.id { pipe1Addr, pipe2Addr := pipe1Addr + 8 })
  throw .yield

def pipeWrite (ctx : MachineContext) : MachineM μ Unit := do
  let bufferAddr ← register A0
  let lengthAddr ← register A1
  let length ← load64 lengthAddr
  let pipe ← register A2
  if PipeId.isWrite pipe then
    emit (.pipeWrite ctx.id { pipe, length, bufferAddr, lengthAddr })
    throw .yield
  else setRegister A0 invalidPipe

def pipeRead (ctx : MachineContext) : MachineM μ Unit := do
  let bufferAddr ← register A0
  let lengthAddr ← register A1
  let length ← load64 lengthAddr
  let pipe ← register A2
  if PipeId.isRead pipe then
    emit (.pipeRead ctx.id { pipe, length, bufferAddr, lengthAddr })
    throw .yield
  else setRegister A0 invalidPipe

/-- Serve a system call, or leave it to the other providers. -/
def ecall (env : Library Mirrors κ) (ctx : MachineContext) : MachineM μ Bool := do
  let code ← register A7
  match code.toNat with
  | 2042 => do ctx.currentCycles; return true
  | 2091 => do loadCellDataAsCode env; return true
  | 2092 => do loadCellData env; return true
  | 2177 => do debug; return true
  | 2601 => do ctx.spawn env; return true
  | 2602 => do ctx.join; return true
  | 2603 => do ctx.instanceId; return true
  | 2604 => do ctx.pipe; return true
  | 2605 => do ctx.pipeWrite; return true
  | 2606 => do ctx.pipeRead; return true
  | _ => return false

end MachineContext

/-- When a pause signal is seen: after that many instructions, or never. -/
abbrev Pause := Option ℕ

section Execution

variable {μ κ : Type} {Mirrors : TxData → μ → Prop}

/-- Carry out an effect; an exit code means the machine has stopped. -/
def applyEffect : Effect μ → MachineM μ (Option Int8)
  | .step core charge => do
    modify fun m => { m with toCore := core }
    addCyclesNoChecking charge
    return none
  | .exit code core => do
    modify fun m => { m with toCore := core }
    return some code
  | .fail e core => do
    modify fun m => { m with toCore := core }
    throw e

variable [Memory μ]

/-- Charge and execute one instruction. -/
def stepMachine (env : Library Mirrors κ) (ctx : MachineContext) : MachineM μ (Option Int8) := do
  let m ← get
  set { m with cycles := m.cycles + env.cost m.toCore }
  match env.next m.toCore with
  | .instruction effect => applyEffect effect
  | .ecall core =>
    modify fun m => { m with toCore := core }
    if ← ctx.ecall env then return none
    else applyEffect (env.syscall (← get).toCore)

/-- Execute instructions until the machine exits or fails, a pause is seen, or
the next instruction would exceed the limit. What is charged and limited at once can be
a basic block of them. Each costs at least a cycle, so the fuel of `runMachine` outlasts
the limit. -/
def runSteps (env : Library Mirrors κ) (ctx : MachineContext) (limit : ℕ) :
    ℕ → Pause → MachineM μ Int8
  | 0, _ => throw .cyclesExceeded
  | fuel + 1, pause =>
    if pause = some 0 then throw .pause
    else do
      let m ← get
      if limit < m.cycles + env.cost m.toCore then throw .cyclesExceeded
      else
        match ← stepMachine env ctx with
        | some code => return code
        | none => runSteps env ctx limit fuel (pause.map Nat.pred)

def runMachine (env : Library Mirrors κ) (ctx : MachineContext) (limit : ℕ) (pause : Pause) :
    MachineM μ Int8 := do
  let m ← get
  runSteps env ctx limit (limit + 1 - m.cycles + 1) pause

end Execution

end DeterministicScheduler
