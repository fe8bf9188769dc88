import DeterministicScheduler.Cycles
import DeterministicScheduler.DagFormat
import DeterministicScheduler.MemoryFrame
import DeterministicScheduler.WorkloadCounts

/-!
# The arrays of the program

The program keeps the pipes at hand and the ids of its children in arrays of fixed size. What is
in an array and what may still be put there together never grow, so that the workload bounds them.
-/
namespace DeterministicScheduler.DataGraph

open ProgramLogic Program Outcome Std Scheduler Serialization

def inputDataLength : ℕ := 600 * 1024
def maxPipeCount : ℕ := 3200
def maxSpawnedVms : ℕ := 1024

/-- The pairs of pipes that a VM creates. -/
def createdBy (i : ℕ) (pipes : List Pipe) : List Pipe :=
  pipes.filter fun p => p.vm = i

theorem createdBy_mine {i : ℕ} {p : Pipe} {todo : List Pipe} (h : p.vm = i) :
    createdBy i (p :: todo) = p :: createdBy i todo := by
  simp [createdBy, h]

theorem createdBy_other {i : ℕ} {p : Pipe} {todo : List Pipe} (h : p.vm ≠ i) :
    createdBy i (p :: todo) = createdBy i todo := by
  simp [createdBy, h]

/-- No VM holds more than `m` pipes, passed to it and created by it. -/
structure HoldsAtMost (m : ℕ) (data : Data) : Prop where
  root : 2 * (createdBy 0 data.pipes).length ≤ m
  child : ∀ s ∈ data.spawns, s.pipes.length + 2 * (createdBy s.child data.pipes).length ≤ m

/-- The pairs of pipes that are still to be created. -/
def Stage.toCreate (i : ℕ) : Stage → ℕ
  | .pipes todo => (createdBy i todo).length
  | .piped _ todo => (createdBy i todo).length + 1
  | _ => 0

/-- The children that may still be spawned, of the children of all VMs. -/
def Stage.toSpawn (data : Data) : Stage → ℕ
  | .start _ | .pipes _ | .piped _ _ => data.spawns.length
  | .spawns todo => todo.length
  | .spawned todo => todo.length + 1
  | _ => 0

/-- The arrays have room for what may still be put there, that of the pipes for `m` of them. -/
structure Tabled (m : ℕ) (data : Data) (locals : Locals) : Prop where
  pipes : locals.currentPipes.length + 2 * locals.stage.toCreate locals.vmIndex ≤ m
  spawned : locals.spawnedVms.length + locals.stage.toSpawn data ≤ data.spawns.length

variable {m : ℕ} {data : Data} {locals locals' : Locals} {result : UInt64} {bytes : Ram}

theorem mainStart_tabled (argv : List Bytes) : Tabled m data (mainStart argv).memory.locals where
  pipes := by simp [mainStart, Stage.toCreate]
  spawned := by simp [mainStart, Stage.toSpawn]

/-- What comes next, with the arrays as they are. -/
theorem Tabled.goes (h : Tabled m data locals) {stage : Stage}
    (hcreate : stage.toCreate locals.vmIndex ≤ locals.stage.toCreate locals.vmIndex)
    (hspawn : stage.toSpawn data ≤ locals.stage.toSpawn data) :
    Tabled m data { locals with stage } := by
  have hpipes := h.pipes
  have hspawned := h.spawned
  exact ⟨by dsimp only; omega, by dsimp only; omega⟩

/-- What comes next when the arrays have all that is to be put there. -/
theorem Tabled.past (h : Tabled m data locals) {stage : Stage}
    (hcreate : stage.toCreate locals.vmIndex = 0) (hspawn : stage.toSpawn data = 0) :
    Tabled m data { locals with stage } :=
  h.goes (hcreate ▸ Nat.zero_le _) (hspawn ▸ Nat.zero_le _)

theorem exists_of_bind_ok {α β : Type} {x : Except Stop α} {f : α → Except Stop β} {b : β}
    (h : x >>= f = .ok b) : ∃ a, x = .ok a ∧ f a = .ok b := by
  cases x with
  | error e => cases h
  | ok a => exact ⟨a, rfl, h⟩

theorem of_checked {next : Except Stop Command} {c : Command}
    (h : DataGraph.checked result next = .ok c) : next = .ok c := by
  unfold DataGraph.checked at h
  split at h
  · exact h
  · cases h

/-- The arguments name the pipes that the VM is passed. -/
theorem decodeArguments_tabled (hm : HoldsAtMost m data) {argv : List Bytes}
    (h : decodeArguments data argv = .ok locals) : Tabled m data locals := by
  unfold decodeArguments at h
  split at h
  · cases h
    exact ⟨by simpa [Stage.toCreate] using hm.root, by simp [Stage.toSpawn]⟩
  · obtain ⟨index, -, h⟩ := exists_of_bind_ok h
    split at h
    · cases h
    · simp only at h
      split at h
      · cases h
      · rename_i spawn hfind
        obtain ⟨ids, -, h⟩ := exists_of_bind_ok h
        split at h
        · cases h
        · cases h
          have hchild := List.find?_some hfind
          have hle := hm.child spawn (List.mem_of_find?_eq_some hfind)
          rw [eq_of_beq hchild] at hle
          exact ⟨by simpa [Stage.toCreate] using hle, by simp [Stage.toSpawn]⟩
  · cases h

/-- A command that keeps to the arrays, and a call only for VMs and pipes. -/
def Command.Tabled (m : ℕ) (data : Data) : Command → Prop
  | .goto locals => DataGraph.Tabled m data locals
  | .call arguments _ locals => DataGraph.Tabled m data locals ∧ ∃ code rest,
      code ∈ [2601, 2602, 2604, 2605, 2606] ∧ arguments = syscallArguments code rest

theorem callSpawn_tabled {spawn : Spawn} {todo : List Spawn} {next : Command}
    (h : Tabled m data { locals with stage := .spawned todo })
    (hnext : callSpawn locals spawn todo = .ok next) : next.Tabled m data := by
  obtain ⟨ids, -, hnext⟩ := exists_of_bind_ok hnext
  obtain ⟨encodedIndex, -, hnext⟩ := exists_of_bind_ok hnext
  obtain ⟨encodedIds, -, hnext⟩ := exists_of_bind_ok hnext
  cases hnext
  exact ⟨h, _, _, by simp, rfl⟩

/-- What the program does next leaves room in the arrays for what may still be put there. -/
theorem Tabled.command (hm : HoldsAtMost m data) (h : Tabled m data locals)
    {next : Command} (hnext : command data locals result bytes = .ok next) :
    next.Tabled m data := by
  have hpipes := h.pipes
  have hspawned := h.spawned
  cases hstage : locals.stage with
  | start argv =>
    simp only [DataGraph.command, hstage] at hnext
    cases hdecode : decodeArguments data argv with
    | error e =>
      rw [hdecode] at hnext
      cases hnext
    | ok started =>
      rw [hdecode] at hnext
      cases hnext
      exact decodeArguments_tabled hm hdecode
  | pipes todo =>
    cases todo with
    | nil =>
      simp only [DataGraph.command, hstage] at hnext
      cases hnext
      exact h.goes (by simp [hstage, Stage.toCreate]) (by simp [hstage, Stage.toSpawn])
    | cons p todo =>
      simp only [DataGraph.command, hstage] at hnext
      split at hnext
      · rename_i hvm
        cases hnext
        refine ⟨h.goes ?_ ?_, _, _, by simp, rfl⟩
        · simp [hstage, Stage.toCreate, createdBy_mine hvm]
        · simp [hstage, Stage.toSpawn]
      · rename_i hvm
        cases hnext
        refine h.goes ?_ ?_
        · simp [hstage, Stage.toCreate, createdBy_other hvm]
        · simp [hstage, Stage.toSpawn]
  | piped p todo =>
    simp only [DataGraph.command, hstage] at hnext
    cases of_checked hnext
    rw [hstage] at hpipes hspawned
    constructor
    · simp only [Stage.toCreate, List.length_append, List.length_cons, List.length_nil] at hpipes ⊢
      omega
    · exact hspawned
  | spawns todo =>
    cases todo with
    | nil =>
      simp only [DataGraph.command, hstage] at hnext
      cases hnext
      exact h.goes (by simp [Stage.toCreate]) (by simp [Stage.toSpawn])
    | cons s todo =>
      simp only [DataGraph.command, hstage] at hnext
      split at hnext
      · refine callSpawn_tabled (h.goes ?_ ?_) hnext
        · simp [Stage.toCreate]
        · simp [hstage, Stage.toSpawn]
      · cases hnext
        exact h.goes (by simp [Stage.toCreate]) (by simp [hstage, Stage.toSpawn])
  | spawned todo =>
    simp only [DataGraph.command, hstage] at hnext
    cases of_checked hnext
    rw [hstage] at hpipes hspawned
    constructor
    · exact hpipes
    · simp only [Stage.toSpawn, List.length_append, List.length_cons, List.length_nil] at hspawned ⊢
      omega
  | writes todo =>
    cases todo with
    | nil =>
      simp only [DataGraph.command, hstage] at hnext
      cases hnext
      exact h.past rfl rfl
    | cons w todo =>
      simp only [DataGraph.command, hstage] at hnext
      split at hnext
      · obtain ⟨pipeId, -, hnext⟩ := exists_of_bind_ok hnext
        cases hnext
        exact h.past rfl rfl
      · split at hnext
        · obtain ⟨pipeId, -, hnext⟩ := exists_of_bind_ok hnext
          cases hnext
          exact h.past rfl rfl
        · cases hnext
          exact h.past rfl rfl
  | writing w pipeId written todo | reading w pipeId written todo =>
    simp only [DataGraph.command, hstage] at hnext
    split at hnext
    · cases hnext
      exact ⟨h.past rfl rfl, _, _, by simp, rfl⟩
    · cases hnext
      exact h.past rfl rfl
  | wrote w pipeId written todo =>
    simp only [DataGraph.command, hstage] at hnext
    have hnext := of_checked hnext
    split at hnext
    · cases hnext
    · cases hnext
      exact h.past rfl rfl
  | didRead w pipeId read todo =>
    simp only [DataGraph.command, hstage] at hnext
    have hnext := of_checked hnext
    split at hnext
    · cases hnext
    · split at hnext
      · cases hnext
      · cases hnext
        exact h.past rfl rfl
  | joins todo =>
    cases todo with
    | nil =>
      simp only [DataGraph.command, hstage] at hnext
      cases hnext
    | cons target todo =>
      simp only [DataGraph.command, hstage] at hnext
      cases hnext
      exact ⟨h.past rfl rfl, _, _, by simp, rfl⟩
  | joined todo =>
    simp only [DataGraph.command, hstage] at hnext
    have hnext := of_checked hnext
    split at hnext
    · cases hnext
      exact h.past rfl rfl
    · cases hnext

/-- A call has its code in the register for it. -/
theorem calling_code (c : Core GuestMemory) (code : UInt64) (rest : List UInt64)
    (buffers : List Bytes) (locals : Locals) :
    (calling c (syscallArguments code rest) buffers locals).registers A7 = code := by
  have hkept (arguments : List (Reg × UInt64)) (hother : ∀ a ∈ arguments, a.1 ≠ A7)
      (rs : Reg → UInt64) :
      (arguments.foldl (fun rs a => Function.update rs a.1 a.2) rs) A7 = rs A7 := by
    induction arguments generalizing rs with
    | nil => rfl
    | cons a arguments ih =>
      rw [List.foldl_cons, ih fun a' ha' => hother a' (List.mem_cons_of_mem _ ha')]
      exact Function.update_of_ne (hother a List.mem_cons_self).symm _ _
  refine (hkept ([A0, A1, A2, A3, A4, A5].zip rest) ?_ (Function.update c.registers A7 code)).trans
    (Function.update_self _ _ _)
  intro a ha
  have hmem := (List.of_mem_zip ha).1
  simp only [List.mem_cons, List.not_mem_nil, or_false] at hmem
  rcases hmem with heq | heq | heq | heq | heq | heq <;> rw [heq] <;> decide

section Executions

variable {κ : Type} {env : Env GuestMemory κ} {ctx : MachineContext} {cpu : Cpu GuestMemory}

/-- A machine whose program keeps to its arrays. -/
def Kept (m : ℕ) (data : Data) (cpu : Cpu GuestMemory) : Prop :=
  Tabled m data cpu.memory.locals

/-- A part of an execution that ends so, however it ends. -/
def EndsKept {α : Type} (m : ℕ) (data : Data)
    (o : Outcome Error Message (Cpu GuestMemory) α) : Prop :=
  o.Meets (fun _ cpu _ => Kept m data cpu) (fun _ cpu _ => Kept m data cpu) True

variable (hmain : RunsMain data env) (hm : HoldsAtMost m data)

include hmain hm

/-- An instruction leaves room in the arrays. -/
theorem stepMachine_kept (h : Kept m data cpu) : EndsKept m data (stepMachine env ctx cpu) := by
  rw [stepMachine, get_bind_run, set_bind_run, hmain.next]
  simp only [mainNext]
  cases hnext : command data cpu.memory.locals (cpu.registers A0) cpu.memory.bytes with
  | error stop =>
    cases stop with
    | exit code => exact h
    | fault => exact h
  | ok next =>
    have htabled := Tabled.command hm h hnext
    cases next with
    | goto locals =>
      simp only [applyEffect, modify_bind_run]
      refine meets_bind (P := fun _ cpu' _ => Kept m data cpu') ?_ fun _ _ _ h => h
      rw [addCyclesNoChecking, get_bind_run]
      split
      · exact htabled
      · exact htabled
    | call arguments buffers locals =>
      obtain ⟨htabled, code, rest, hcode, rfl⟩ := htabled
      have hlooks := ecall_looks env ctx (m := { calling cpu.toCore (syscallArguments code rest)
        buffers locals with cycles := cpu.cycles + env.cost cpu.toCore })
        (by rw [calling_code]; exact hcode)
      have hkept {cpu' : Cpu GuestMemory} (hmemory : cpu'.memory =
          (calling cpu.toCore (syscallArguments code rest) buffers locals).memory) :
          Kept m data cpu' := by
        rw [Kept, hmemory]
        exact htabled
      simp only [modify_bind_run]
      refine meets_bind (hlooks.mono (fun _ _ _ h => h) (fun _ _ _ h => hkept h) fun h => h) ?_
      rintro served cpu' l ⟨rfl, hmemory⟩
      exact hkept hmemory

/-- And so does a whole execution. -/
theorem runSteps_kept (limit fuel : ℕ) (pause : Pause) (h : Kept m data cpu) :
    EndsKept m data (runSteps env ctx limit fuel pause cpu) := by
  induction fuel generalizing cpu pause with
  | zero => exact h
  | succ fuel ih =>
    rw [runSteps]
    split
    · exact h
    · rw [get_bind_run]
      split
      · exact h
      · refine meets_bind (stepMachine_kept hmain hm h) fun code? cpu' l hkept => ?_
        cases code? with
        | some code => exact hkept
        | none => exact ih _ hkept

theorem runMachine_kept (ctx : MachineContext) (limit : ℕ) (pause : Pause) (h : Kept m data cpu) :
    EndsKept m data (runMachine env ctx limit pause cpu) := by
  rw [runMachine, get_bind_run]
  exact runSteps_kept hmain hm limit _ pause h

end Executions

section Runs

variable {κ : Type} {env : Env GuestMemory κ} {s s' r : Scheduler GuestMemory κ} {v : VmId}
  {tr l evs : List (Event GuestMemory)} {c c' : Core GuestMemory}

/-- The scheduler writes to the memory of a VM and not to the arrays of its program. -/
theorem update_locals {ev : Event GuestMemory} (h : ev.update c = .ok c') :
    c'.memory.locals = c.memory.locals := by
  cases ev <;> cases h <;> rfl

theorem applyEvents_locals (h : applyEvents evs c = .ok c') :
    c'.memory.locals = c.memory.locals := by
  induction evs generalizing c with
  | nil =>
    cases h
    rfl
  | cons ev evs ih =>
    obtain ⟨c₁, hupdate, hrest⟩ := applyEvents_cons.mp h
    exact (ih hrest).trans (update_locals hupdate)

/-- The program of every VM keeps to its arrays. -/
def AllTabled (m : ℕ) (data : Data) (s : Scheduler GuestMemory κ) : Prop :=
  ∀ (v : VmId) (machine : Machine GuestMemory), s.instantiated[v]? = some machine →
    Tabled m data machine.memory.locals

theorem AllTabled.insert (h : AllTabled m data s) {machine : Machine GuestMemory}
    (hmachine : Tabled m data machine.memory.locals)
    (hs : s'.instantiated = s.instantiated.insert v machine) : AllTabled m data s' := by
  intro u machine' hu
  rw [hs, getElem?_insert] at hu
  split at hu
  · cases hu
    exact hmachine
  · exact h u machine' hu

theorem AllTabled.settled (h : AllTabled m data s) {machine : Machine GuestMemory} {state : VmState}
    (hmachine : Tabled m data machine.memory.locals)
    (hcore : applyEvents evs machine.toCore = .ok c) :
    AllTabled m data (s.settled v machine c state) :=
  h.insert ((applyEvents_locals hcore) ▸ hmachine) rfl

theorem AllTabled.ran (h : AllTabled m data s) {machine : Machine GuestMemory}
    {result : Except Error Int8} {cpu : Cpu GuestMemory} (hcpu : Kept m data cpu) :
    AllTabled m data (s.ran v machine result cpu) := by
  refine h.insert ?_ rfl
  exact hcpu

theorem boots_tabled (hmain : RunsMain data env) {args : SpawnArgs} {charge : ℕ}
    {machine : Machine GuestMemory} (h : Boots env args charge machine) :
    Tabled m data machine.memory.locals := by
  obtain ⟨program, length, core, bytes, -, hload, -, rfl⟩ := h
  obtain ⟨bytes', hmainStart⟩ := hmain.loadProgram args.dataPieceId args.offset program args.argv
  rw [hmainStart] at hload
  cases hload
  exact mainStart_tabled args.argv

theorem answer_tabled (hmain : RunsMain data env) (h : AllTabled m data s) {msg : Message}
    {machine : Machine GuestMemory} (hmachine : Tabled m data machine.memory.locals)
    (hanswer : Answer env s v machine msg l s') : AllTabled m data s' := by
  cases hanswer with
  | rejected _ =>
    refine h.insert ?_ rfl
    exact hmachine
  | blocked _ => exact h
  | joined _ hcore => exact h.settled hmachine hcore
  | piped _ hcore => exact AllTabled.settled (s := s.piped _ _ _ _) h hmachine hcore
  | spawned _ _ hboot hcore =>
    exact AllTabled.settled (h.insert (boots_tabled hmain hboot) rfl) hmachine hcore

theorem woken_tabled {code : Int8} {joiners : List (VmId × UInt64)} (h : AllTabled m data s)
    (hwoken : Woken code joiners s l s') : AllTabled m data s' := by
  induction hwoken with
  | nil s => exact h
  | cons hid hmachine hcore hrest ih => exact ih (h.settled (h _ _ hmachine) hcore)

variable (hmain : RunsMain data env) (hm : HoldsAtMost m data)

include hmain hm

theorem executes_kept (h : AllTabled m data s) {machine : Machine GuestMemory}
    {result : Except Error Int8} {cpu : Cpu GuestMemory} {posted : List Message}
    (hexec : Executes env s v machine result cpu posted) : Kept m data cpu := by
  obtain ⟨limit, pause, hrun⟩ := hexec.run
  have hkept := runMachine_kept hmain hm ⟨v, s.totalCycles⟩ limit pause (h v machine hexec.machine)
  rw [hrun] at hkept
  cases result <;> exact hkept

theorem step_tabled (hstep : Step env s l s') (h : AllTabled m data s) : AllTabled m data s' := by
  cases hstep with
  | started => exact h
  | closed hstate hclosed hmachine hcore => exact h.settled (h _ _ hmachine) hcore
  | transferred hread hwrite hopen hmr hmw hload hreadCore hwriteCore =>
    exact (h.settled (h _ _ hmr) hreadCore).settled (h _ _ hmw) hwriteCore
  | interrupted hexec he => exact h.ran (executes_kept hmain hm h hexec)
  | answered hexec hid hchecked hanswer =>
    have hkept := executes_kept hmain hm h hexec
    refine answer_tabled hmain (h.ran hkept) ?_ hanswer
    exact hkept
  | exited hexec hne hwoken =>
    have hwoken := woken_tabled (h.ran (executes_kept hmain hm h hexec)) hwoken
    intro u machine hu
    refine hwoken u machine ?_
    simp only [purged, getElem?_erase] at hu
    split at hu
    · cases hu
    · exact hu
  | @rootExited machine code cpu hexec =>
    have hran : AllTabled m data (s.ran rootVmId machine (.ok code) cpu) :=
      h.ran (executes_kept hmain hm h hexec)
    intro u machine' hu
    refine hran u machine' ?_
    simp only [completed, getElem?_filter_key] at hu
    split at hu
    · exact hu
    · cases hu

/-- The machines of a workload and those that its executions leave keep to the arrays. -/
theorem run_tabled (h : Run env tr r) : AllTabled m data r ∧
    ∀ v before cpu result posted, .exec v before cpu result posted ∈ tr → Kept m data cpu := by
  refine (h.keeps (I := fun tr r => Run env tr r ∧ AllTabled m data r ∧
    ∀ v before cpu result posted, .exec v before cpu result posted ∈ tr → Kept m data cpu) ?_ ?_).2
  · intro charge machine hboot
    refine ⟨⟨charge, machine, [], hboot, rfl, .refl⟩, ?_, by simp⟩
    refine AllTabled.insert (s := new) ?_ (boots_tabled hmain hboot) rfl
    simp [AllTabled, new]
  · rintro tr r l r' ⟨hr, htabled, hexecs⟩ hstep
    refine ⟨hr.steps (.single hstep), step_tabled hmain hm hstep htabled, ?_⟩
    intro v before cpu result posted hmem
    rcases List.mem_append.mp hmem with hmem | hmem
    · exact hexecs v before cpu result posted hmem
    · rcases hstep.execution hr.invariant with
        hnone | ⟨id, machine, _, cpu', _, l', rfl, hexec, -, hnone⟩
      · exact absurd (hnone _ hmem) (by simp [Event.runs])
      · rcases List.mem_cons.mp hmem with heq | hmem
        · cases heq
          exact executes_kept hmain hm htabled hexec
        · exact absurd (hnone _ hmem) (by simp [Event.runs])

end Runs

theorem Pipe.length_build (p : Pipe) : p.build.length = 40 := by
  rw [Pipe.build, PipeBuilder.write, length_writeParts]
  simp [buildVmIndex, buildPipeIndex]

theorem Write.length_build (w : Write) : w.build.length = 60 + w.data.length := by
  rw [Write.build, WriteBuilder.write, length_writeParts]
  simp [buildVmIndex, buildPipeIndex, BytesBuilder.write]
  omega

theorem Spawn.length_build (s : Spawn) : s.build.length = 36 + 8 * s.pipes.length := by
  have hpipes : (writeFixvec (s.pipes.map buildPipeIndex)).length = 4 + 8 * s.pipes.length := by
    have hsize : ∀ item ∈ s.pipes.map buildPipeIndex, item.length = 8 := by simp [buildPipeIndex]
    rw [writeFixvec, List.length_append, length_packNumber, length_flatten_of_size hsize,
      List.length_map]
  rw [Spawn.build, SpawnBuilder.write, length_writeParts]
  simp [buildVmIndex, PipeIndicesBuilder.write, hpipes]
  omega

/-- A list is no longer than its items at their longest. -/
theorem length_writeDynvec_le {α : Type} {f : α → Slice} {items : List α} {n : ℕ}
    (h : ∀ a ∈ items, (f a).length ≤ n) :
    (writeDynvec (items.map f)).length ≤ 4 + items.length * (n + 4) := by
  have hsum := List.sum_le_card_nsmul ((items.map f).map List.length) n (by simpa using h)
  rw [length_writeDynvec]
  simp only [List.length_map, smul_eq_mul] at hsum ⊢
  have hmul := Nat.mul_add items.length n 4
  omega

/-- The length of a message, by the numbers of spawns and writes. -/
theorem Data.length_build_le {n : ℕ} (hw : Wired n data)
    (hm : ∀ s ∈ data.spawns, s.pipes.length ≤ m) :
    data.build.length ≤ 28 + n * (40 + 8 * m) + data.writes.length * 1132 := by
  have hspawns : (writeDynvec (data.spawns.map Spawn.build)).length ≤
      4 + data.spawns.length * (36 + 8 * m + 4) := by
    refine length_writeDynvec_le fun s hs => ?_
    have hle := hm s hs
    rw [Spawn.length_build]
    omega
  have hpipes : (writeDynvec (data.pipes.map Pipe.build)).length ≤
      4 + data.pipes.length * (40 + 4) :=
    length_writeDynvec_le fun p _ => (Pipe.length_build p).le
  have hwrites : (writeDynvec (data.writes.map Write.build)).length ≤
      4 + data.writes.length * (1084 + 4) := by
    refine length_writeDynvec_le fun w hw' => ?_
    have hle := (hw.payload w hw').2
    rw [Write.length_build]
    omega
  rw [hw.spawns_length] at hspawns
  rw [hw.pipes_length] at hpipes
  rw [Data.build, DataBuilder.write, length_writeParts]
  simp only [SpawnsBuilder.write, PipesBuilder.write, WritesBuilder.write, List.length_cons,
    List.length_nil, List.map_cons, List.map_nil, List.sum_cons, List.sum_nil]
  have hcomm : n * (36 + 8 * m + 4) = n * (40 + 8 * m) := by ring
  omega

/-- Writes of different pipes are at most as many as pairs of pipes. -/
theorem writes_length_le {n writes : ℕ} (hw : Wired n data)
    (h : ∀ w ∈ data.writes, w.fromPipe < 2 * writes ∧ w.toPipe < 2 * writes) :
    data.writes.length ≤ writes := by
  have hsub : data.writes.flatMap (fun w => [w.fromPipe, w.toPipe]) ⊆ List.range (2 * writes) := by
    intro q hq
    obtain ⟨w, hmem, hq⟩ := List.mem_flatMap.mp hq
    have hpipes := h w hmem
    rw [List.mem_range]
    simp only [List.mem_cons, List.not_mem_nil, or_false] at hq
    rcases hq with rfl | rfl
    · exact hpipes.1
    · exact hpipes.2
  have hle := (hw.indices.subperm hsub).length_le
  rw [List.length_range, List.length_flatMap] at hle
  simp at hle
  omega

section Held

variable {g : Dag}

/-- The VM that creates a pipe is not passed it. -/
theorem not_onPath_top (ht : g.IsTree) (l n : ℕ) : ¬ OnPath g.parent? l n l := by
  rintro ⟨k, i, hlt, hk, hi⟩
  have hsame := (generations_ranked ht.parent_lt).up_inj hk hi
  omega

/-- Of the two pipes of a write a VM holds both only when it creates them or is passed both. -/
theorem passed_created_length (ht : g.IsTree) (routes : List Route) (e : ℕ) :
    (passed g routes e).length + 2 * (createdBy (e + 1) (pipesOf routes)).length ≤
      2 * routes.length := by
  induction routes using List.reverseRecOn with
  | nil => exact le_rfl
  | append_singleton routes r ih =>
    obtain ⟨p, hp, hpipes⟩ : ∃ p : Pipe, p.vm = r.ancestor ∧
        createdBy (e + 1) (pipesOf (routes ++ [r])) =
          createdBy (e + 1) (pipesOf routes) ++ createdBy (e + 1) [p] :=
      ⟨⟨r.ancestor, readerPipeIndex routes.length, writerPipeIndex routes.length⟩, rfl,
        by simp [createdBy, pipesOf, List.zipIdx_append]⟩
    have hlast :
        (passedFor g e routes.length r).length + 2 * (createdBy (e + 1) [p]).length ≤ 2 := by
      by_cases htop : r.ancestor = e + 1
      · have hnone : passedFor g e routes.length r = [] := by
          rw [passedFor, htop, if_neg (not_onPath_top ht _ _), if_neg (not_onPath_top ht _ _)]
          rfl
        rw [hnone, createdBy_mine (hp.trans htop)]
        exact le_rfl
      · rw [createdBy_other (hp ▸ htop)]
        unfold passedFor
        split <;> split <;> simp [createdBy]
    rw [hpipes]
    simp only [passed, List.zipIdx_append, List.flatMap_append, List.zipIdx_singleton,
      List.flatMap_singleton, Nat.zero_add, List.length_append, List.length_singleton] at ih ⊢
    omega

end Held

section Generated

variable {κ : Type} {env : Env GuestMemory κ} {s : Scheduler GuestMemory κ}
  {tr : List (Event GuestMemory)} {daggy : Daggy} {draws : Draws}
  {spawns writes convergingThreshold : ℕ}

/-- No VM of a generated workload holds more pipes than there are. -/
theorem generateDataGraph_holds
    (h : generateDataGraph daggy draws spawns writes convergingThreshold = some data) :
    HoldsAtMost (2 * writes) data := by
  have ht := drawSpawnDag_isTree draws spawns
  have hnodes := drawSpawnDag_nodes draws spawns
  obtain ⟨tables, spawnEdges, routes, hrun, hedges, hrouted, hroutes⟩ :=
    generateDataGraph_run daggy draws spawns writes convergingThreshold
  generalize drawSpawnDag draws spawns = g at *
  obtain rfl : routedData g draws tables spawnEdges routes = data :=
    Option.some.inj (hrun.symm.trans h)
  have hlt : ∀ r ∈ routes, r.ancestor < g.nodes := by
    intro r hr
    have hends : r.writer ≠ r.reader ∧ r.writer < spawns + 1 ∧ r.reader < spawns + 1 :=
      routes_endpoints hroutes hr
    exact ht.ancestor_lt (hrouted.ancestors r hr).2.right (by omega)
  have hlength : (drawWriteDag daggy draws spawns writes convergingThreshold).1.edges.length ≤
      writes := drawWriteDag_length spawns writes convergingThreshold
  rw [← hroutes, List.length_map] at hlength
  have hcreated (i : ℕ) : (createdBy i (routedData g draws tables spawnEdges routes).pipes).length =
      (createdBy i (pipesOf routes)).length :=
    ((buildPipes_perm hrouted hlt).filter _).length_eq
  constructor
  · have hle := List.length_filter_le (fun p : Pipe => decide (p.vm = 0)) (pipesOf routes)
    have hpipes : (pipesOf routes).length = routes.length := by simp [pipesOf]
    rw [hcreated, createdBy]
    omega
  · intro s hs
    obtain ⟨e, -, rfl, -⟩ := (mem_routedSpawns ht hedges).mp hs
    have hle := passed_created_length ht routes e
    rw [hcreated]
    exact hle.trans (by omega)

/-- The message of a generated workload is bounded by the numbers of its spawns and writes, and
fits the buffer that the program loads it into for as many as the random tests draw. -/
theorem workload_fits_buffer
    (h : generateDataGraph daggy draws spawns writes convergingThreshold = some data) :
    data.build.length ≤ 28 + spawns * (40 + 16 * writes) + writes * 1132 ∧
      (spawns ≤ 100 → writes ≤ 200 → data.build.length ≤ inputDataLength) := by
  obtain ⟨hw, hpipes, hends⟩ := generateDataGraph_wired h
  have hlength := writes_length_le hw hends
  have hle := Data.length_build_le hw hpipes
  have hpassed : spawns * (40 + 8 * (2 * writes)) = spawns * (40 + 16 * writes) := by ring
  refine ⟨by omega, fun hspawns hwrites => ?_⟩
  have hmul : spawns * (40 + 16 * writes) ≤ 100 * (40 + 16 * 200) :=
    Nat.mul_le_mul hspawns (by omega)
  unfold inputDataLength
  omega

theorem workload_fits_buffer_chain :
    chainData.build.length ≤ 28 + 2 * (40 + 16 * 2) + 2 * 1132 ∧
      (2 ≤ 100 → 2 ≤ 200 → chainData.build.length ≤ inputDataLength) :=
  workload_fits_buffer generateDataGraph_chain

/-- In a generated workload no VM ever runs out of room for its pipes, for those it passes to a
child or for its children, however it is scheduled, limited, paused and suspended. -/
theorem workload_arrays (hspawns : spawns ≤ maxSpawnedVms) (hwrites : 2 * writes ≤ maxPipeCount)
    (hdata : generateDataGraph daggy draws spawns writes convergingThreshold = some data)
    (hmain : RunsMain data env) (h : Reachable maxInstantiatedVms env tr s) :
    (∀ spawn ∈ data.spawns, spawn.pipes.length ≤ maxPipeCount) ∧
      ∀ v before cpu result posted, .exec v before cpu result posted ∈ tr →
        cpu.memory.locals.currentPipes.length ≤ maxPipeCount ∧
          cpu.memory.locals.spawnedVms.length ≤ maxSpawnedVms := by
  obtain ⟨hw, hpipes, -⟩ := generateDataGraph_wired hdata
  refine ⟨fun spawn hspawn => (hpipes spawn hspawn).trans hwrites, ?_⟩
  intro v before cpu result posted hexec
  rcases h.driven two_le_maxInstantiatedVms with ⟨-, rfl⟩ | ⟨r, -, hrun⟩
  · cases hexec
  · have hholds := generateDataGraph_holds hdata
    have htabled := (run_tabled hmain hholds hrun).2 v before cpu result posted hexec
    have hroom := htabled.pipes
    have hspawned := htabled.spawned
    rw [hw.spawns_length] at hspawned
    exact ⟨by omega, by omega⟩

/-- The chain of VMs, where the root has spawned its child and has one end of a pipe. -/
theorem workload_arrays_chain : ∃ tr s,
    Reachable maxInstantiatedVms (workloadEnv chainData) tr s ∧
      s.states[rootVmId]? = some (.waitForRead 2 7 0x10000000000 0x20000000000) ∧
      (∀ spawn ∈ chainData.spawns, spawn.pipes.length ≤ maxPipeCount) ∧
        ∀ v before cpu result posted, .exec v before cpu result posted ∈ tr →
          cpu.memory.locals.currentPipes.length ≤ maxPipeCount ∧
            cpu.memory.locals.spawnedVms.length ≤ maxSpawnedVms := by
  obtain ⟨tr, s, h, hroot⟩ := exists_reachable maxInstantiatedVms (workloadEnv chainData)
    (.boot :: List.replicate 7 (.round none 99))
    (fun _ s => s.states[rootVmId]? == some (.waitForRead 2 7 0x10000000000 0x20000000000))
    (by decide +kernel)
  exact ⟨tr, s, h, eq_of_beq hroot, workload_arrays (by decide) (by decide) generateDataGraph_chain
    runsWorkload_chain.main h⟩

end Generated

end DeterministicScheduler.DataGraph
