import DeterministicScheduler.GuestRuns
import DeterministicScheduler.PipeWiring

/-!
# What the VMs of a workload have left to do

The system calls that a VM of a workload makes are fixed by the workload: its pipes, its
spawns, its part of the writes, its joins. An operation that is done leaves the list of
its VM. Wherever the program stands, its local variables say which operations are left.
-/
namespace DeterministicScheduler.DataGraph

open ProgramLogic Program Outcome EscapeEncoding

/-- A system call that a VM has to make, with its object. A write is done by two VMs
together. -/
inductive Op where
  | create (pipe : Pipe)
  | spawn (spawn : Spawn)
  | move (write : Write)
  | join (child : ℕ)
  deriving DecidableEq

section Ops

variable (i : ℕ) (data : Data)

def creates (pipes : List Pipe) : List Op :=
  (pipes.filter fun p => p.vm = i).map .create

def spawnsFrom (spawns : List Spawn) : List Op :=
  (spawns.filter fun s => s.fromVm = i).map .spawn

def moves (writes : List Write) : List Op :=
  (writes.filter fun w => w.fromVm = i ∨ w.toVm = i).map .move

def childrenOf (spawns : List Spawn) : List ℕ :=
  (spawns.filter fun s => s.fromVm = i).map Spawn.child

def joins (children : List ℕ) : List Op :=
  children.map .join

def afterWrites : List Op :=
  joins (childrenOf i data.spawns).reverse

def afterSpawns : List Op :=
  moves i data.writes ++ afterWrites i data

def afterPipes : List Op :=
  spawnsFrom i data.spawns ++ afterSpawns i data

/-- All that a VM has to do, in order. -/
def ops : List Op :=
  creates i data.pipes ++ afterPipes i data

end Ops

/-- How far a workload is: the ids of the VMs that are spawned and of the pipes that are
created, and what each VM has left to do. -/
structure Progress where
  vm : ℕ → Option VmId
  pipe : ℕ → Option PipeId
  left : ℕ → List Op

/-- More VMs are spawned and more pipes created. -/
structure Progress.Grows (P P' : Progress) : Prop where
  vm : ∀ i v, P.vm i = some v → P'.vm i = some v
  pipe : ∀ q id, P.pipe q = some id → P'.pipe q = some id

/-- The two ends of a pair are created together, as ends of one pipe. -/
structure Progress.Paired (data : Data) (P : Progress) : Prop where
  low : ∀ q id, P.pipe q = some id → 2 ≤ id
  ends : ∀ p ∈ data.pipes, (P.pipe p.readPipe = none ∧ P.pipe p.writePipe = none) ∨
    ∃ id : PipeId, id.isRead = true ∧ P.pipe p.readPipe = some id ∧
      P.pipe p.writePipe = some id.otherPipe

section Positions

variable (data : Data) (P : Progress) (i : ℕ)

/-- The program has the ids of the pipes that its VM holds. -/
structure Knows (made : List Pipe) (currentPipes : List (ℕ × PipeId)) : Prop where
  ids : ∀ q id, (q, id) ∈ currentPipes → P.pipe q = some id
  held : ∀ q, Held data made i q → ∃ id, (q, id) ∈ currentPipes

/-- The arguments of a VM that has just been spawned. -/
def Starts (argv : List Bytes) : Prop :=
  i = 0 ∧ argv = [] ∨ ∃ s ∈ data.spawns, s.child = i ∧ ∃ ids : List PipeId,
    ids.map some = s.pipes.map P.pipe ∧
      argv = [encode (wordBytes (UInt64.ofNat i)), encode (wordsBytes ids)]

/-- The local variables while pipes are created. -/
structure Creating (todo : List Pipe) (locals : Locals) : Prop where
  index : locals.vmIndex = i
  knows : ∃ done, data.pipes = done ++ todo ∧ Knows data P i done locals.currentPipes
  spawned : locals.spawnedVms = []

/-- The local variables while children are spawned. -/
structure Spawning (todo : List Spawn) (locals : Locals) : Prop where
  index : locals.vmIndex = i
  knows : Knows data P i data.pipes locals.currentPipes
  spawned : ∃ done, data.spawns = done ++ todo ∧
    locals.spawnedVms.map some = (childrenOf i done).map P.vm

/-- The local variables during the writes. -/
structure Moving (todo : List Write) (locals : Locals) : Prop where
  index : locals.vmIndex = i
  knows : Knows data P i data.pipes locals.currentPipes
  spawned : locals.spawnedVms.map some = (childrenOf i data.spawns).map P.vm
  rest : ∃ done, data.writes = done ++ todo

/-- The targets of the joins that are left. -/
structure Joining (targets : List VmId) (children : List ℕ) (locals : Locals) : Prop where
  index : locals.vmIndex = i
  targets : targets.map some = children.map P.vm

/-- The bytes at the buffer of a read or a write. -/
def bufferOf (bytes : Ram) (length : ℕ) : Bytes :=
  (List.range length).map fun k => bytes (segmentAddr 1 + UInt64.ofNat k)

/-- Where the program of a running VM may stand with these operations left. The result of
its last system call is in A0 and in memory. -/
inductive Ready : List Op → Locals → UInt64 → Ram → Prop
  | start {argv : List Bytes} {a0 : UInt64} {bytes : Ram} (h : Starts data P i argv) :
    Ready (ops i data)
      { vmIndex := 0, currentPipes := [], spawnedVms := [], stage := .start argv } a0 bytes
  | pipes {todo : List Pipe} {locals : Locals} {a0 : UInt64} {bytes : Ram}
    (h : Creating data P i todo locals) :
    Ready (creates i todo ++ afterPipes i data) { locals with stage := .pipes todo } a0 bytes
  | piped {p : Pipe} {todo : List Pipe} {locals : Locals} {bytes : Ram}
    (h : Creating data P i (p :: todo) locals) (hvm : p.vm = i)
    (hread : P.pipe p.readPipe = some (bytes.word (segmentAddr 1)))
    (hwrite : P.pipe p.writePipe = some (bytes.word (segmentAddr 1 + 8))) :
    Ready (creates i todo ++ afterPipes i data) { locals with stage := .piped p todo } 0 bytes
  | spawns {todo : List Spawn} {locals : Locals} {a0 : UInt64} {bytes : Ram}
    (h : Spawning data P i todo locals) :
    Ready (spawnsFrom i todo ++ afterSpawns i data) { locals with stage := .spawns todo } a0 bytes
  | spawned {s : Spawn} {todo : List Spawn} {locals : Locals} {bytes : Ram}
    (h : Spawning data P i (s :: todo) locals) (hvm : s.fromVm = i)
    (hchild : P.vm s.child = some (bytes.word (segmentAddr 6))) :
    Ready (spawnsFrom i todo ++ afterSpawns i data) { locals with stage := .spawned todo } 0 bytes
  | writes {todo : List Write} {locals : Locals} {a0 : UInt64} {bytes : Ram}
    (h : Moving data P i todo locals) :
    Ready (moves i todo ++ afterWrites i data) { locals with stage := .writes todo } a0 bytes
  | writing {w : Write} {todo : List Write} {locals : Locals} {a0 : UInt64} {bytes : Ram}
    {id : PipeId} (h : Moving data P i (w :: todo) locals) (hvm : w.fromVm = i)
    (hpipe : P.pipe w.fromPipe = some id) :
    Ready (.move w :: (moves i todo ++ afterWrites i data))
      { locals with stage := .writing w id 0 todo } a0 bytes
  | wrote {w : Write} {todo : List Write} {locals : Locals} {bytes : Ram}
    {id : PipeId} (h : Moving data P i (w :: todo) locals)
    (hlength : bytes.word (segmentAddr 2) = UInt64.ofNat w.getData.length) :
    Ready (moves i todo ++ afterWrites i data) { locals with stage := .wrote w id 0 todo } 0 bytes
  | written {w : Write} {todo : List Write} {locals : Locals} {a0 : UInt64} {bytes : Ram}
    {id : PipeId} (h : Moving data P i (w :: todo) locals) :
    Ready (moves i todo ++ afterWrites i data)
      { locals with stage := .writing w id w.getData.length todo } a0 bytes
  | reading {w : Write} {todo : List Write} {locals : Locals} {a0 : UInt64} {bytes : Ram}
    {id : PipeId} (h : Moving data P i (w :: todo) locals) (hvm : w.toVm = i)
    (hpipe : P.pipe w.toPipe = some id) :
    Ready (.move w :: (moves i todo ++ afterWrites i data))
      { locals with stage := .reading w id 0 todo } a0 bytes
  | didRead {w : Write} {todo : List Write} {locals : Locals} {bytes : Ram}
    {id : PipeId} (h : Moving data P i (w :: todo) locals)
    (hlength : bytes.word (segmentAddr 2) = UInt64.ofNat w.getData.length)
    (hdata : bufferOf bytes w.getData.length = w.getData) :
    Ready (moves i todo ++ afterWrites i data) { locals with stage := .didRead w id 0 todo } 0 bytes
  | read {w : Write} {todo : List Write} {locals : Locals} {a0 : UInt64} {bytes : Ram}
    {id : PipeId} (h : Moving data P i (w :: todo) locals) :
    Ready (moves i todo ++ afterWrites i data)
      { locals with stage := .reading w id w.getData.length todo } a0 bytes
  | joins {targets : List VmId} {children : List ℕ} {locals : Locals} {a0 : UInt64} {bytes : Ram}
    (h : Joining P i targets children locals) :
    Ready (joins children) { locals with stage := .joins targets } a0 bytes
  | joined {targets : List VmId} {children : List ℕ} {locals : Locals} {bytes : Ram}
    (h : Joining P i targets children locals) (hcode : bytes (segmentAddr 1) = 0) :
    Ready (joins children) { locals with stage := .joined targets } 0 bytes

/-- What a VM of this id may ask of the scheduler with these operations left. The answer
does the first of them. -/
inductive Posts (v : VmId) : List Op → Locals → Ram → Message → Prop
  | pipe {p : Pipe} {todo : List Pipe} {locals : Locals} {bytes : Ram}
    (h : Creating data P i (p :: todo) locals) (hvm : p.vm = i) :
    Posts v (.create p :: (creates i todo ++ afterPipes i data))
      { locals with stage := .piped p todo } bytes
      (.pipe v { pipe1Addr := segmentAddr 1, pipe2Addr := segmentAddr 1 + 8 })
  | spawn {s : Spawn} {todo : List Spawn} {locals : Locals} {bytes : Ram} {ids : List PipeId}
    (h : Spawning data P i (s :: todo) locals) (hvm : s.fromVm = i)
    (hids : ids.map some = s.pipes.map P.pipe) :
    Posts v (.spawn s :: (spawnsFrom i todo ++ afterSpawns i data))
      { locals with stage := .spawned todo } bytes
      (.spawn v {
        dataPieceId := .cellDep 0
        offset := 0
        length := 0
        argv := [encode (wordBytes (UInt64.ofNat s.child)), encode (wordsBytes ids)]
        pipes := ids
        instanceIdAddr := segmentAddr 6 })
  | write {w : Write} {todo : List Write} {locals : Locals} {bytes : Ram} {id : PipeId}
    (h : Moving data P i (w :: todo) locals) (hvm : w.fromVm = i)
    (hpipe : P.pipe w.fromPipe = some id) (hdata : bufferOf bytes w.getData.length = w.getData) :
    Posts v (.move w :: (moves i todo ++ afterWrites i data))
      { locals with stage := .wrote w id 0 todo } bytes
      (.pipeWrite v {
        pipe := id
        length := UInt64.ofNat w.getData.length
        bufferAddr := segmentAddr 1
        lengthAddr := segmentAddr 2 })
  | read {w : Write} {todo : List Write} {locals : Locals} {bytes : Ram} {id : PipeId}
    (h : Moving data P i (w :: todo) locals) (hvm : w.toVm = i)
    (hpipe : P.pipe w.toPipe = some id) :
    Posts v (.move w :: (moves i todo ++ afterWrites i data))
      { locals with stage := .didRead w id 0 todo } bytes
      (.pipeRead v {
        pipe := id
        length := UInt64.ofNat w.getData.length
        bufferAddr := segmentAddr 1
        lengthAddr := segmentAddr 2 })
  | join {target : VmId} {targets : List VmId} {child : ℕ} {children : List ℕ} {locals : Locals}
    {bytes : Ram} (h : Joining P i (target :: targets) (child :: children) locals) :
    Posts v (.join child :: joins children) { locals with stage := .joined targets } bytes
      (.join v { targetId := target, exitCodeAddr := segmentAddr 1 })

end Positions

variable {data : Data} {P P' : Progress} {i n : ℕ} {v : VmId} {left : List Op} {locals : Locals}
  {a0 : UInt64} {bytes : Ram} {msg : Message}

theorem map_grows {α β : Type} {f f' : α → Option β} (hf : ∀ a b, f a = some b → f' a = some b)
    {bs : List β} {as : List α} (h : bs.map some = as.map f) : bs.map some = as.map f' := by
  induction as generalizing bs with
  | nil => exact h
  | cons a as ih =>
    cases bs with
    | nil => simp at h
    | cons b bs =>
      simp only [List.map_cons, List.cons.injEq] at h ⊢
      exact ⟨(hf a b h.1.symm).symm, ih h.2⟩

namespace Progress.Grows

theorem refl (P : Progress) : P.Grows P :=
  ⟨fun _ _ h => h, fun _ _ h => h⟩

variable (hP : P.Grows P')

include hP

theorem knows {made : List Pipe} {current : List (ℕ × PipeId)} (h : Knows data P i made current) :
    Knows data P' i made current :=
  ⟨fun q id hmem => hP.pipe q id (h.ids q id hmem), h.held⟩

theorem creating {todo : List Pipe} (h : Creating data P i todo locals) :
    Creating data P' i todo locals := by
  obtain ⟨done, hdata, hknows⟩ := h.knows
  exact ⟨h.index, ⟨done, hdata, hP.knows hknows⟩, h.spawned⟩

theorem spawning {todo : List Spawn} (h : Spawning data P i todo locals) :
    Spawning data P' i todo locals := by
  obtain ⟨done, hdata, hspawned⟩ := h.spawned
  exact ⟨h.index, hP.knows h.knows, ⟨done, hdata, map_grows hP.vm hspawned⟩⟩

theorem moving {todo : List Write} (h : Moving data P i todo locals) :
    Moving data P' i todo locals :=
  ⟨h.index, hP.knows h.knows, map_grows hP.vm h.spawned, h.rest⟩

theorem joining {targets : List VmId} {children : List ℕ}
    (h : Joining P i targets children locals) :
    Joining P' i targets children locals :=
  ⟨h.index, map_grows hP.vm h.targets⟩

theorem starts {argv : List Bytes} (h : Starts data P i argv) : Starts data P' i argv := by
  rcases h with h | ⟨s, hs, hchild, ids, hids, hargv⟩
  · exact .inl h
  · exact .inr ⟨s, hs, hchild, ids, map_grows hP.pipe hids, hargv⟩

/-- A VM stands where it stood. -/
theorem ready (h : Ready data P i left locals a0 bytes) : Ready data P' i left locals a0 bytes := by
  cases h with
  | start h => exact .start (hP.starts h)
  | pipes h => exact .pipes (hP.creating h)
  | piped h hvm hread hwrite =>
    exact .piped (hP.creating h) hvm (hP.pipe _ _ hread) (hP.pipe _ _ hwrite)
  | spawns h => exact .spawns (hP.spawning h)
  | spawned h hvm hchild => exact .spawned (hP.spawning h) hvm (hP.vm _ _ hchild)
  | writes h => exact .writes (hP.moving h)
  | writing h hvm hpipe => exact .writing (hP.moving h) hvm (hP.pipe _ _ hpipe)
  | wrote h hlength => exact .wrote (hP.moving h) hlength
  | written h => exact .written (hP.moving h)
  | reading h hvm hpipe => exact .reading (hP.moving h) hvm (hP.pipe _ _ hpipe)
  | didRead h hlength hdata => exact .didRead (hP.moving h) hlength hdata
  | read h => exact .read (hP.moving h)
  | joins h => exact .joins (hP.joining h)
  | joined h hcode => exact .joined (hP.joining h) hcode

theorem posts (h : Posts data P i v left locals bytes msg) :
    Posts data P' i v left locals bytes msg := by
  cases h with
  | pipe h hvm => exact .pipe (hP.creating h) hvm
  | spawn h hvm hids => exact .spawn (hP.spawning h) hvm (map_grows hP.pipe hids)
  | write h hvm hpipe hdata => exact .write (hP.moving h) hvm (hP.pipe _ _ hpipe) hdata
  | read h hvm hpipe => exact .read (hP.moving h) hvm (hP.pipe _ _ hpipe)
  | join h => exact .join (hP.joining h)

end Progress.Grows

end DeterministicScheduler.DataGraph
