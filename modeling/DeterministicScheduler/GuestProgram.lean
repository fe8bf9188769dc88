import DeterministicScheduler.DagFormat
import DeterministicScheduler.EscapeEncoding
import DeterministicScheduler.Guest

/-!
# The program of the workloads

Every VM of a workload runs one program. A spawned VM decodes its index and the ids of
its pipes from its arguments; then each VM creates its pipes, spawns its children,
performs its writes and reads in the order of the list, and joins its children in
reverse order.

The program is a machine whose local variables are kept beside the memory. One step
carries out the next piece of straight-line code, or places the arguments of a system
call in memory and makes it. Loading the workload from the witness and printing are left
out, arrays are as large as needed, and buffers are far apart.
-/
namespace DeterministicScheduler.DataGraph

open ProgramLogic EscapeEncoding

/-- Room for one buffer. -/
def segmentSize : ℕ := 2 ^ 40

/-- The start of a buffer. -/
def segmentAddr (i : ℕ) : UInt64 :=
  UInt64.ofNat (i * segmentSize)

/-- The memory with these buffers, each followed by zeros. -/
def layout (segments : List Bytes) : Ram := fun x =>
  ((segments[x.toNat / segmentSize]?).bind fun segment => segment[x.toNat % segmentSize]?).getD 0

/-- A word as bytes, the low byte first. -/
def wordBytes (word : UInt64) : Bytes :=
  (List.range 8).map fun i => (word >>> UInt64.ofNat (8 * i)).toUInt8

/-- The words of a list one after another. -/
def wordsBytes (words : List UInt64) : Bytes :=
  words.flatMap wordBytes

/-- The word at a position of a buffer. -/
def wordAt (bytes : Bytes) (i : ℕ) : UInt64 :=
  (layout [bytes]).word (UInt64.ofNat (8 * i))

/-- The data of a write as the program gets it from the message: all of the item, the count of
its bytes in front. -/
def Write.getData (write : Write) : Bytes :=
  BytesBuilder.write write.data

/-- It is the last field of the table that the generator builds. -/
theorem Write.getData_field (w : Write) (h : w.build.length < 2 ^ 32) :
    Serialization.tableField 5 4 w.build = .ok w.getData :=
  Serialization.tableField_write h rfl (Nat.le_refl 5) (by decide)

/-- Where the program is. The lists are what is left of a loop. -/
inductive Stage where
  | start (argv : List Bytes)
  | pipes (todo : List Pipe)
  | piped (pipe : Pipe) (todo : List Pipe)
  | spawns (todo : List Spawn)
  | spawned (todo : List Spawn)
  | writes (todo : List Write)
  | writing (write : Write) (pipeId : PipeId) (written : ℕ) (todo : List Write)
  | wrote (write : Write) (pipeId : PipeId) (written : ℕ) (todo : List Write)
  | reading (write : Write) (pipeId : PipeId) (read : ℕ) (todo : List Write)
  | didRead (write : Write) (pipeId : PipeId) (read : ℕ) (todo : List Write)
  | joins (todo : List VmId)
  | joined (todo : List VmId)

structure Locals where
  vmIndex : ℕ
  /-- The pipes at hand, as pairs of an index and an id. -/
  currentPipes : List (ℕ × PipeId)
  spawnedVms : List VmId
  stage : Stage

/-- The memory of a VM, with the local variables of its program. -/
structure GuestMemory where
  bytes : Ram
  locals : Locals

instance : Memory GuestMemory where
  byteAt m := m.bytes
  load8 m addr := .ok (m.bytes addr)
  load64 m addr := .ok (m.bytes.word addr)
  loadBytes m addr size := .ok ((List.range size.toNat).map fun i =>
    m.bytes (addr + UInt64.ofNat i))
  store8 m addr value := .ok { m with bytes := m.bytes.setByte addr value.toUInt8 }
  store64 m addr value := .ok { m with bytes := m.bytes.setWord addr value }
  storeBytes m addr data := .ok { m with bytes := m.bytes.setBytes addr data }
  initPages _ _ _ _ := .error .memOutOfBound
  trackPages _ _ _ _ _ := .error .memOutOfBound
  loadBytes_eq h := (Except.ok.inj h).symm
  store8_byteAt h x := by cases h; rfl
  store64_byteAt h x := by cases h; rfl
  storeBytes_byteAt h x := by cases h; rfl
  trackPages_byteAt h := by cases h
  load8_error h := by cases h
  load64_error h := by cases h
  loadBytes_error h := by cases h
  store8_error h := by cases h
  store64_error h := by cases h
  storeBytes_error h := by cases h
  initPages_error h := by cases h; decide
  trackPages_error h := by cases h; decide

def errorNotFound : UInt64 := 44
def errorArgv : UInt64 := 46
def errorPipeClosed : UInt64 := 48
def errorCorruptedData : UInt64 := 49

/-- How the program may end: with an exit code, or by an access outside of a buffer. -/
inductive Stop where
  | exit (code : UInt64)
  | fault

def encodeArg (src : Bytes) : Except Stop Bytes :=
  let dstLength := eeMaximumEncodingLength src.length
  match eeEncode dstLength src src.length (List.replicate dstLength 0) with
  | .ok (length, _) dst _ => .ok (dst.take length)
  | .err code _ _ => .error (.exit (UInt64.ofNat code))
  | .panic => .error .fault

def decodeArg (arg : Bytes) : Except Stop Bytes :=
  match eeDecodeCharStringInPlace (arg ++ [0]) with
  | .ok length decoded _ => .ok (decoded.take length)
  | .err code _ _ => .error (.exit (UInt64.ofNat code))
  | .panic => .error .fault

/-- The id of the first pipe of this index. -/
def pipesFind (pipes : List (ℕ × PipeId)) (index : ℕ) : Except Stop PipeId :=
  match pipes.find? fun pipe => pipe.1 == index with
  | some (_, id) => .ok id
  | none => .error (.exit errorNotFound)

/-- What the program does next: go on with other local variables, or make a system call
with its buffers placed in memory. -/
inductive Command where
  | goto (locals : Locals)
  | call (arguments : List (Reg × UInt64)) (buffers : List Bytes) (locals : Locals)

/-- A system call with its arguments in order. -/
def syscallArguments (code : UInt64) (arguments : List UInt64) : List (Reg × UInt64) :=
  (A7, code) :: [A0, A1, A2, A3, A4, A5].zip arguments

/-- Find out which VM this is and which pipes it was passed. -/
def decodeArguments (data : Data) (argv : List Bytes) : Except Stop Locals :=
  match argv with
  | [] => .ok { vmIndex := 0, currentPipes := [], spawnedVms := [], stage := .pipes data.pipes }
  | [indexArg, idsArg] => do
    let index ← decodeArg indexArg
    if index.length ≠ 8 then throw (.exit errorArgv)
    else
      let vmIndex := (wordAt index 0).toNat
      match data.spawns.find? fun spawn => spawn.child == vmIndex with
      | none => throw (.exit errorArgv)
      | some spawn =>
        let ids ← decodeArg idsArg
        if ids.length ≠ spawn.pipes.length * 8 then throw (.exit errorArgv)
        else
          let currentPipes := spawn.pipes.zipIdx.map fun (index, i) => (index, wordAt ids i)
          return { vmIndex, currentPipes, spawnedVms := [], stage := .pipes data.pipes }
  | _ => .error (.exit errorArgv)

/-- Spawn a child with the pipes listed for it. -/
def callSpawn (locals : Locals) (spawn : Spawn) (todo : List Spawn) : Except Stop Command := do
  let ids ← spawn.pipes.mapM (pipesFind locals.currentPipes)
  let encodedIndex ← encodeArg (wordBytes (UInt64.ofNat spawn.child))
  let encodedIds ← encodeArg (wordsBytes ids)
  return .call (syscallArguments 2601 [0, 3, 0, 2, segmentAddr 2, segmentAddr 1])
    [[], wordsBytes [segmentAddr 6, segmentAddr 5], wordsBytes [segmentAddr 3, segmentAddr 4],
      encodedIndex ++ [0], encodedIds ++ [0], wordsBytes (ids ++ [0]), []]
    { locals with stage := .spawned todo }

/-- Check the result of a system call before going on. -/
def checked (result : UInt64) (next : Except Stop Command) : Except Stop Command :=
  if result = 0 then next else throw (.exit result)

def command (data : Data) (locals : Locals) (result : UInt64) (bytes : Ram) :
    Except Stop Command :=
  let goto (stage : Stage) : Except Stop Command := .ok (.goto { locals with stage })
  match locals.stage with
  | .start argv => (decodeArguments data argv).map .goto
  | .pipes [] => goto (.spawns data.spawns)
  | .pipes (pipe :: todo) =>
    if pipe.vm = locals.vmIndex then
      .ok (.call (syscallArguments 2604 [segmentAddr 1]) []
        { locals with stage := .piped pipe todo })
    else goto (.pipes todo)
  | .piped pipe todo => checked result (.ok (.goto { locals with
      currentPipes := locals.currentPipes ++ [(pipe.readPipe, bytes.word (segmentAddr 1)),
        (pipe.writePipe, bytes.word (segmentAddr 1 + 8))]
      stage := .pipes todo }))
  | .spawns [] => goto (.writes data.writes)
  | .spawns (spawn :: todo) =>
    if spawn.fromVm = locals.vmIndex then callSpawn locals spawn todo else goto (.spawns todo)
  | .spawned todo => checked result (.ok (.goto { locals with
      spawnedVms := locals.spawnedVms ++ [bytes.word (segmentAddr 6)]
      stage := .spawns todo }))
  | .writes [] => goto (.joins locals.spawnedVms.reverse)
  | .writes (write :: todo) =>
    if write.fromVm = locals.vmIndex then do
      let pipeId ← pipesFind locals.currentPipes write.fromPipe
      goto (.writing write pipeId 0 todo)
    else if write.toVm = locals.vmIndex then do
      let pipeId ← pipesFind locals.currentPipes write.toPipe
      goto (.reading write pipeId 0 todo)
    else goto (.writes todo)
  | .writing write pipeId written todo =>
    if written < write.getData.length then
      .ok (.call (syscallArguments 2605 [segmentAddr 1, segmentAddr 2, pipeId])
        [[], write.getData.drop written, wordBytes (UInt64.ofNat (write.getData.length - written))]
        { locals with stage := .wrote write pipeId written todo })
    else goto (.writes todo)
  | .wrote write pipeId written todo => checked result
    (if bytes.word (segmentAddr 2) = 0 then throw (.exit errorPipeClosed)
    else goto (.writing write pipeId (written + (bytes.word (segmentAddr 2)).toNat) todo))
  | .reading write pipeId read todo =>
    if read < write.getData.length then
      .ok (.call (syscallArguments 2606 [segmentAddr 1, segmentAddr 2, pipeId])
        [[], List.replicate (write.getData.length - read) 0,
          wordBytes (UInt64.ofNat (write.getData.length - read))]
        { locals with stage := .didRead write pipeId read todo })
    else goto (.writes todo)
  | .didRead write pipeId read todo => checked result
    (let length := (bytes.word (segmentAddr 2)).toNat
    if length = 0 then throw (.exit errorPipeClosed)
    else if ((List.range length).map fun i => bytes (segmentAddr 1 + UInt64.ofNat i)) ≠
        (write.getData.drop read).take length then throw (.exit errorCorruptedData)
    else goto (.reading write pipeId (read + length) todo))
  | .joins [] => throw (.exit 0)
  | .joins (target :: todo) =>
    .ok (.call (syscallArguments 2602 [target, segmentAddr 1]) [[], [0xFF]]
      { locals with stage := .joined todo })
  | .joined todo => checked result
    (if bytes (segmentAddr 1) = 0 then goto (.joins todo)
    else throw (.exit (bytes (segmentAddr 1)).toUInt64))

/-- A machine about to make a system call, past it, with the arguments in its registers and
the buffers in memory. -/
def calling (c : Core GuestMemory) (arguments : List (Reg × UInt64)) (buffers : List Bytes)
    (locals : Locals) : Core GuestMemory where
  registers := arguments.foldl (fun rs (r, value) => Function.update rs r value) c.registers
  pc := c.pc + 1
  memory := { bytes := layout buffers, locals }

/-- The machine of a program that is at some local variables. -/
def mainNext (data : Data) (c : Core GuestMemory) : Next GuestMemory :=
  match command data c.memory.locals (c.registers A0) c.memory.bytes with
  | .ok (.goto locals) => .instruction (.step { c with memory := { c.memory with locals } } 0)
  | .ok (.call arguments buffers locals) => .ecall (calling c arguments buffers locals)
  | .error (.exit code) => .instruction (.exit code.toUInt8.toInt8 c)
  | .error .fault => .instruction (.fail .memOutOfBound c)

/-- A VM at the start of the program. -/
def mainStart (argv : List Bytes) : Core GuestMemory where
  registers _ := 0
  pc := 0
  memory := {
    bytes := Ram.blank
    locals := { vmIndex := 0, currentPipes := [], spawnedVms := [], stage := .start argv } }

/-- An environment whose programs are all the one of a workload, at any costs of its
instructions. -/
structure RunsMain {κ : Type} (data : Data) (env : Env GuestMemory κ) : Prop where
  next : env.next = mainNext data
  loadProgram : ∀ id offset program argv,
    ∃ bytes, env.loadProgram id offset program argv = .ok (mainStart argv, bytes)
  code : ∃ code length, env.txData.loadData (.cellDep 0) 0 0 = .ok (code, length) ∧ 0 < length

end DeterministicScheduler.DataGraph
