import DeterministicScheduler.Syscalls
import DeterministicScheduler.Logic.Simulation

/-!
# System calls that leave the memory alone

Only the two loads of cell data change the memory of the machine that calls. All other
system calls read it at most, and those for VMs and pipes are passed to no other
provider.
-/
namespace DeterministicScheduler

open ProgramLogic Program Outcome

variable {μ κ α β : Type} {Mirrors : TxData → μ → Prop}

/-- A part of an execution that leaves the memory as it is. -/
def Looks (x : MachineM μ α) : Prop :=
  ∀ m, (x m).Meets (fun _ m' _ => m'.memory = m.memory) (fun _ m' _ => m'.memory = m.memory) True

theorem looks_pure (a : α) : Looks (pure a : MachineM μ α) := fun _ => rfl

theorem looks_throw (e : Error) : Looks (throw e : MachineM μ α) := fun _ => rfl

theorem looks_crash : Looks (crash : MachineM μ α) := fun _ => trivial

/-- The frame of two parts, one after the other. -/
theorem looks_bind {x : MachineM μ α} {f : α → MachineM μ β} (hx : Looks x)
    (hf : ∀ a, Looks (f a)) : Looks (x >>= f) := by
  intro m
  refine meets_bind (hx m) fun a m' l hm => ?_
  exact (hf a m').mono (fun _ _ _ h => h.trans hm) (fun _ _ _ h => h.trans hm) fun h => h

theorem looks_get_bind {f : Cpu μ → MachineM μ β} (hf : ∀ m, Looks (f m)) : Looks (get >>= f) := by
  intro m
  rw [get_bind_run]
  exact hf m m

theorem looks_ite {p : Prop} [Decidable p] {x y : MachineM μ α} (hx : Looks x) (hy : Looks y) :
    Looks (if p then x else y) := by
  split
  · exact hx
  · exact hy

/-- A branch whose two sides go on alike. -/
theorem looks_ite_bind {p : Prop} [Decidable p] {x y : MachineM μ α} {f : α → MachineM μ β}
    (hx : Looks x) (hy : Looks y) (hf : ∀ a, Looks (f a)) :
    Looks (if p then x >>= f else y >>= f) :=
  looks_ite (looks_bind hx hf) (looks_bind hy hf)

theorem looks_ofExcept (x : Except Error α) : Looks (ofExcept x : MachineM μ α) := by
  cases x with
  | ok a => exact looks_pure a
  | error e => exact looks_throw e

theorem looks_unwrap (x : Option α) : Looks (unwrap x : MachineM μ α) := by
  cases x with
  | some a => exact looks_pure a
  | none => exact looks_crash

theorem looks_register (r : Reg) : Looks (register r : MachineM μ UInt64) :=
  looks_get_bind fun m => looks_pure (m.registers r)

theorem looks_setRegister (r : Reg) (value : UInt64) :
    Looks (setRegister r value : MachineM μ Unit) := fun _ => rfl

/-- A message for the scheduler, and the pause in which it is answered. -/
theorem looks_yield (msg : Message) : Looks (do emit msg; throw .yield : MachineM μ α) :=
  fun _ => rfl

theorem looks_reserveStrings (n : UInt64) : Looks (reserveStrings n : MachineM μ Unit) :=
  looks_ite (looks_pure _) looks_crash

theorem looks_addCycles (charge : ℕ) : Looks (addCyclesNoChecking charge : MachineM μ Unit) := by
  intro m
  rw [addCyclesNoChecking, get_bind_run]
  by_cases hlt : m.cycles + charge < 2 ^ 64
  · rw [if_pos hlt]
    rfl
  · rw [if_neg hlt]
    rfl

theorem looks_currentCycles (ctx : MachineContext) :
    Looks (ctx.currentCycles : MachineM μ Unit) :=
  looks_get_bind fun _ => looks_ite (looks_setRegister _ _) (looks_throw _)

theorem looks_instanceId (ctx : MachineContext) : Looks (ctx.instanceId : MachineM μ Unit) :=
  looks_setRegister _ _

section Calls

variable [Memory μ]

theorem looks_load8 (addr : UInt64) : Looks (load8 addr : MachineM μ UInt8) :=
  looks_get_bind fun _ => looks_ofExcept _

theorem looks_load64 (addr : UInt64) : Looks (load64 addr : MachineM μ UInt64) :=
  looks_get_bind fun _ => looks_ofExcept _

/-- A string is read byte by byte up to its zero. -/
theorem looks_loadCString (fuel : ℕ) (addr : UInt64) :
    Looks (loadCString fuel addr : MachineM μ Bytes) := by
  induction fuel generalizing addr with
  | zero => exact looks_crash
  | succ fuel ih =>
    refine looks_bind (looks_load8 addr) fun byte => looks_ite (looks_pure _) ?_
    exact looks_bind (looks_unwrap _) fun next => looks_bind (ih next) fun rest => looks_pure _

/-- The table of strings, and each string behind its address. -/
theorem looks_loadArgv (argc : ℕ) (argvAddr : UInt64) :
    Looks (loadArgv argc argvAddr : MachineM μ (List Bytes)) := by
  induction argc generalizing argvAddr with
  | zero => exact looks_pure _
  | succ argc ih =>
    refine looks_bind (looks_load64 _) fun targetAddr => ?_
    refine looks_bind (looks_loadCString _ _) fun cstr => ?_
    exact looks_bind (looks_unwrap _) fun next => looks_bind (ih next) fun rest => looks_pure _

/-- The list of pipes up to its zero. -/
theorem looks_loadPipes (fuel : ℕ) (pipesAddr : UInt64) :
    Looks (loadPipes fuel pipesAddr : MachineM μ (List PipeId)) := by
  induction fuel generalizing pipesAddr with
  | zero => exact looks_crash
  | succ fuel ih =>
    refine looks_bind (looks_load64 _) fun pipe => looks_ite (looks_pure _) ?_
    exact looks_bind (looks_unwrap _) fun next => looks_bind (ih next) fun rest => looks_pure _

theorem looks_debug : Looks (MachineContext.debug : MachineM μ Unit) := by
  refine looks_bind (looks_register _) fun addr => ?_
  refine looks_bind (looks_loadCString _ _) fun buffer => ?_
  refine looks_bind (looks_addCycles _) fun _ => ?_
  exact looks_ite (looks_pure _) (looks_throw _)

variable (env : Library Mirrors κ) (ctx : MachineContext)

/-- All that a spawn names is read before its message is posted. -/
theorem looks_spawn : Looks (ctx.spawn env) := by
  refine looks_bind (looks_register _) fun index => looks_bind (looks_register _) fun source => ?_
  cases DataPieceId.tryFrom source index with
  | error _ => exact looks_setRegister _ _
  | ok dataPieceId =>
    refine looks_bind (looks_register _) fun bounds => looks_bind (looks_register _) fun argc => ?_
    refine looks_bind (looks_register _) fun argvAddr => ?_
    refine looks_bind (looks_reserveStrings _) fun _ => ?_
    refine looks_bind (looks_loadArgv _ _) fun argv => ?_
    refine looks_bind (looks_register _) fun spgsAddr => looks_bind (looks_load64 _) fun addr => ?_
    refine looks_bind (looks_load64 _) fun pipesAddr => ?_
    refine looks_ite_bind (looks_pure _) (looks_loadPipes _ _) fun pipes => ?_
    split
    · exact looks_ite (looks_setRegister _ _) (looks_throw _)
    · refine looks_ite (looks_setRegister _ _) (looks_ite (looks_throw _) ?_)
      exact looks_ite (looks_setRegister _ _) (looks_yield _)

omit [Memory μ] in
theorem looks_join : Looks (ctx.join : MachineM μ Unit) :=
  looks_bind (looks_register _) fun _ => looks_bind (looks_register _) fun _ => looks_yield _

omit [Memory μ] in
theorem looks_pipe : Looks (ctx.pipe : MachineM μ Unit) :=
  looks_bind (looks_register _) fun _ => looks_yield _

/-- The length is read from memory, and nothing is written before the transfer. -/
theorem looks_pipeWrite : Looks (ctx.pipeWrite : MachineM μ Unit) := by
  refine looks_bind (looks_register _) fun _ => looks_bind (looks_register _) fun _ => ?_
  refine looks_bind (looks_load64 _) fun _ => looks_bind (looks_register _) fun _ => ?_
  exact looks_ite (looks_yield _) (looks_setRegister _ _)

theorem looks_pipeRead : Looks (ctx.pipeRead : MachineM μ Unit) := by
  refine looks_bind (looks_register _) fun _ => looks_bind (looks_register _) fun _ => ?_
  refine looks_bind (looks_load64 _) fun _ => looks_bind (looks_register _) fun _ => ?_
  exact looks_ite (looks_yield _) (looks_setRegister _ _)

/-- The system calls for VMs and pipes leave the memory alone, and to no other provider. -/
theorem ecall_looks {m : Cpu μ} (h : m.registers A7 ∈ [2601, 2602, 2604, 2605, 2606]) :
    (ctx.ecall env m).Meets (fun served m' _ => served = true ∧ m'.memory = m.memory)
      (fun _ m' _ => m'.memory = m.memory) True := by
  have hserved {x : MachineM μ Unit} (hx : Looks x) : ((do x; return true) m).Meets
      (fun served m' _ => served = true ∧ m'.memory = m.memory)
      (fun _ m' _ => m'.memory = m.memory) True :=
    meets_bind (hx m) fun _ _ _ hm => ⟨rfl, hm⟩
  rw [MachineContext.ecall, register_bind_run]
  simp only [List.mem_cons, List.not_mem_nil, or_false] at h
  rcases h with h | h | h | h | h <;> rw [h]
  · exact hserved (looks_spawn env ctx)
  · exact hserved (looks_join ctx)
  · exact hserved (looks_pipe ctx)
  · exact hserved (looks_pipeWrite ctx)
  · exact hserved (looks_pipeRead ctx)

end Calls

end DeterministicScheduler
