import DeterministicScheduler.Syscalls
import DeterministicScheduler.Logic.Simulation

/-!
# How an execution of one machine ends

A machine posts a message only as the last thing it does before it yields, and
nothing else it does raises the yield error or an interruption. The three ways
to stop that concern the scheduler are therefore told apart by the error alone.

Cycles spent earlier may be on the machine's own counter or already in the base
of its context: all that it does is the same. Every part of an execution is
compared with itself at another such split, and a split of nothing gives the
facts about a single execution.
-/
namespace DeterministicScheduler

open ProgramLogic Program Outcome

/-- What the system calls guarantee of the messages they post. -/
def Message.Checked : Message → Prop
  | .pipe _ args => args.pipe2Addr = args.pipe1Addr + 8
  | .pipeRead _ args => PipeId.isRead args.pipe = true
  | .pipeWrite _ args => PipeId.isWrite args.pipe = true
  | _ => True

/-- The errors that end an execution between two instructions, to be continued. -/
def Error.Interrupt (e : Error) : Prop :=
  e = .cyclesExceeded ∨ e = .pause

instance (e : Error) : Decidable e.Interrupt := by
  unfold Error.Interrupt; infer_instance

theorem Error.Interrupt.reserved {e : Error} (h : e.Interrupt) : e.Reserved :=
  h.imp_right fun h => Or.inl h

/-- The errors that neither yield nor interrupt, and that report no deadlock. -/
def Error.Fatal (e : Error) : Prop :=
  e ≠ .yield ∧ ¬ e.Interrupt ∧ e ≠ .deadlock

theorem Error.fatal_of_not_reserved {e : Error} (h : ¬ e.Reserved) : e.Fatal := by
  simp only [Error.Reserved, not_or] at h
  exact ⟨h.2.2.2.1, by simp [Error.Interrupt, h.1, h.2.1], h.2.2.2.2⟩

theorem Error.fatal_cyclesOverflow : Error.cyclesOverflow.Fatal := by
  simp [Error.Fatal, Error.Interrupt, Error.yield, Error.deadlock]

theorem Error.fatal_external {msg : String} (h : msg ≠ "YIELD") : (Error.external msg).Fatal := by
  simp [Error.Fatal, Error.Interrupt, Error.yield, Error.deadlock, h]

variable {μ κ α β : Type}

/-- The same machine with `d` more cycles on its counter. -/
def Cpu.shift (d : ℕ) (m : Cpu μ) : Cpu μ :=
  { m with cycles := m.cycles + d }

@[simp] theorem Cpu.shift_zero (m : Cpu μ) : m.shift 0 = m := rfl

@[simp] theorem Cpu.shift_cycles (d : ℕ) (m : Cpu μ) :
    (m.shift d).cycles = m.cycles + d := rfl

/-- How a part of an execution may fail: fatally, or by yielding with one message
of `id`. With no `id` it may not yield. -/
def Ends (id : Option VmId) (e : Error) (posted : List Message) : Prop :=
  e.Fatal ∧ posted = [] ∨
    e = .yield ∧ ∃ msg, posted = [msg] ∧ some msg.vmId = id ∧ msg.Checked

/-- How a whole execution may fail: it may also be interrupted. -/
def Stops (id : VmId) (e : Error) (posted : List Message) : Prop :=
  e.Interrupt ∧ posted = [] ∨ Ends (some id) e posted

/-- Only the machine's own VM posts. -/
theorem Stops.vmId {id : VmId} {e : Error} {posted : List Message} (h : Stops id e posted) :
    ∀ msg ∈ posted, msg.vmId = id := by
  rcases h with ⟨_, rfl⟩ | ⟨_, rfl⟩ | ⟨_, msg, rfl, hid, _⟩
  · simp
  · simp
  · intro msg' hmsg'
    rw [List.mem_singleton] at hmsg'
    rw [hmsg']
    exact Option.some.inj hid

/-- `o` is how `o'` ends with `d` more cycles on the counter, unless the counter
of `o` overflows. Failures are as `E` says, only they post messages, and the
counter of `o'` has not fallen below `c`. -/
def Agree (E : Error → List Message → Prop) (d c : ℕ)
    (o o' : Outcome Error Message (Cpu μ) α) : Prop :=
  (∃ m, o = .err .cyclesOverflow m []) ∨
    o'.Meets (fun a m l => l = [] ∧ c ≤ m.cycles ∧ o = .ok a (m.shift d) [])
      (fun e m l => E e l ∧ c ≤ m.cycles ∧ o = .err e (m.shift d) l) (o = .panic)

/-- Two copies of a part of an execution that agree from every machine. -/
def Calls (id : Option VmId) (d : ℕ) (x y : MachineM μ α) : Prop :=
  ∀ m, Agree (Ends id) d m.cycles (x (m.shift d)) (y m)

section Rules

variable {E : Error → List Message → Prop} {id : Option VmId} {d c : ℕ}
  {x y : MachineM μ α} {f g : α → MachineM μ β}

theorem calls_pure (a : α) : Calls id d (pure a : MachineM μ α) (pure a) :=
  fun _ => Or.inr ⟨rfl, le_rfl, rfl⟩

theorem calls_throw {e : Error} (he : e.Fatal) :
    Calls id d (throw e : MachineM μ α) (throw e) :=
  fun _ => Or.inr ⟨Or.inl ⟨he, rfl⟩, le_rfl, rfl⟩

theorem calls_crash : Calls id d (crash : MachineM μ α) crash := fun _ => Or.inr rfl

theorem calls_modify {f : Cpu μ → Cpu μ} (hf : ∀ m, f (m.shift d) = (f m).shift d)
    (hle : ∀ m, m.cycles ≤ (f m).cycles) : Calls id d (modify f : MachineM μ PUnit) (modify f) := by
  intro m
  refine Or.inr ⟨rfl, hle m, ?_⟩
  rw [modify_run, hf]

theorem Agree.bind {o o' : Cpu μ} (hx : Agree E d c (x o) (y o'))
    (hf : ∀ a m, c ≤ m.cycles → y o' = .ok a m [] →
      Agree E d c (f a (m.shift d)) (g a m)) :
    Agree E d c ((x >>= f) o) ((y >>= g) o') := by
  rcases hx with ⟨m, hx⟩ | hx
  · exact Or.inl ⟨m, bind_of_err hx⟩
  cases hy : y o' with
  | ok a m l =>
    rw [hy] at hx
    obtain ⟨rfl, hle, hx⟩ := hx
    rw [bind_of_ok hx, bind_of_ok hy, after_nil, after_nil]
    exact hf a m hle hy
  | err e m l =>
    rw [hy] at hx
    obtain ⟨he, hle, hx⟩ := hx
    rw [bind_of_err hx, bind_of_err hy]
    exact Or.inr ⟨he, hle, rfl⟩
  | panic =>
    rw [hy] at hx
    rw [bind_of_panic hx, bind_of_panic hy]
    exact Or.inr rfl

theorem Agree.mono {E' : Error → List Message → Prop} {c' : ℕ}
    {o o' : Outcome Error Message (Cpu μ) α} (h : Agree E d c o o')
    (hE : ∀ e l, E e l → E' e l) (hc : c' ≤ c) : Agree E' d c' o o' := by
  rcases h with h | h
  · exact Or.inl h
  · exact Or.inr (h.mono (fun _ _ _ h => ⟨h.1, hc.trans h.2.1, h.2.2⟩)
      (fun _ _ _ h => ⟨hE _ _ h.1, hc.trans h.2.1, h.2.2⟩) (fun h => h))

theorem calls_bind (hx : Calls id d x y) (hf : ∀ a, Calls id d (f a) (g a)) :
    Calls id d (x >>= f) (y >>= g) := fun m =>
  (hx m).bind fun a m' hle _ => (hf a m').mono (fun _ _ h => h) hle

theorem calls_get_bind {f g : Cpu μ → MachineM μ β}
    (h : ∀ m : Cpu μ, Calls id d (f (m.shift d)) (g m)) :
    Calls id d (get >>= f) (get >>= g) := by
  intro m
  rw [get_bind_run, get_bind_run]
  exact h m m

theorem calls_ofExcept {x : Except Error α} (hx : ∀ e, x = .error e → ¬ e.Reserved) :
    Calls id d (ofExcept x : MachineM μ α) (ofExcept x) := by
  cases x with
  | ok a => exact calls_pure a
  | error e => exact calls_throw (Error.fatal_of_not_reserved (hx e rfl))

theorem calls_unwrap (x : Option α) : Calls id d (unwrap x : MachineM μ α) (unwrap x) := by
  cases x with
  | some a => exact calls_pure a
  | none => exact calls_crash

theorem calls_ite {p : Prop} [Decidable p] {x y x' y' : MachineM μ α}
    (hx : p → Calls id d x y) (hy : ¬ p → Calls id d x' y') :
    Calls id d (if p then x else x') (if p then y else y') := by
  split
  · exact hx ‹_›
  · exact hy ‹_›

/-- A branch whose two sides go on alike. -/
theorem calls_ite_bind {p : Prop} [Decidable p] {x' y' : MachineM μ α} (hx : Calls id d x y)
    (hx' : Calls id d x' y') (hf : ∀ a, Calls id d (f a) (g a)) :
    Calls id d (if p then x >>= f else x' >>= f) (if p then y >>= g else y' >>= g) :=
  calls_ite (fun _ => calls_bind hx hf) (fun _ => calls_bind hx' hf)

theorem calls_yield {v : VmId} {msg : Message} (hid : msg.vmId = v) (hmsg : msg.Checked) :
    Calls (some v) d (do emit msg; throw .yield : MachineM μ α) (do emit msg; throw .yield) :=
  fun _ => Or.inr ⟨Or.inr ⟨rfl, msg, rfl, by rw [hid], hmsg⟩, le_rfl, rfl⟩

end Rules

section Primitives

variable {id : Option VmId} {d : ℕ}

theorem calls_register (r : Reg) : Calls id d (register r : MachineM μ UInt64) (register r) :=
  calls_get_bind fun m => calls_pure (m.registers r)

theorem calls_setRegister (r : Reg) (value : UInt64) :
    Calls id d (setRegister r value : MachineM μ Unit) (setRegister r value) :=
  calls_modify (fun _ => rfl) (fun _ => le_rfl)

theorem calls_setMemory (memory : μ) : Calls id d (setMemory memory) (setMemory memory) :=
  calls_modify (fun _ => rfl) (fun _ => le_rfl)

theorem addCycles_run {m : Cpu μ} {charge : ℕ} (h : m.cycles + charge < 2 ^ 64) :
    addCyclesNoChecking charge m = .ok ⟨⟩ { m with cycles := m.cycles + charge } [] := by
  simp only [addCyclesNoChecking, get_bind_run, if_pos h, set_run]

theorem addCycles_overflow {m : Cpu μ} {charge : ℕ} (h : ¬ m.cycles + charge < 2 ^ 64) :
    addCyclesNoChecking charge m = .err .cyclesOverflow m [] := by
  simp only [addCyclesNoChecking, get_bind_run, if_neg h, throw_run]

theorem calls_addCycles (charge : ℕ) :
    Calls id d (addCyclesNoChecking charge : MachineM μ Unit) (addCyclesNoChecking charge) := by
  intro m
  by_cases hover : (m.shift d).cycles + charge < 2 ^ 64
  · have hless : m.cycles + charge < 2 ^ 64 :=
      lt_of_le_of_lt (Nat.add_le_add_right (Nat.le_add_right _ _) _) hover
    rw [addCycles_run hover, addCycles_run hless]
    refine Or.inr ⟨rfl, Nat.le_add_right _ _, ?_⟩
    simp only [Cpu.shift, Nat.add_right_comm]
  · exact Or.inl ⟨m.shift d, addCycles_overflow hover⟩

theorem calls_reserveStrings (n : UInt64) :
    Calls id d (reserveStrings n : MachineM μ Unit) (reserveStrings n) :=
  calls_ite (fun _ => calls_pure _) (fun _ => calls_crash)

variable [Memory μ]

theorem calls_load8 (addr : UInt64) : Calls id d (load8 addr : MachineM μ UInt8) (load8 addr) :=
  calls_get_bind fun _ => calls_ofExcept fun _ => Memory.load8_error

theorem calls_load64 (addr : UInt64) :
    Calls id d (load64 addr : MachineM μ UInt64) (load64 addr) :=
  calls_get_bind fun _ => calls_ofExcept fun _ => Memory.load64_error

theorem calls_store64 (addr value : UInt64) :
    Calls id d (store64 addr value : MachineM μ Unit) (store64 addr value) :=
  calls_get_bind fun _ => calls_bind (calls_ofExcept fun _ => Memory.store64_error) calls_setMemory

theorem calls_loadCString (fuel : ℕ) (addr : UInt64) :
    Calls id d (loadCString fuel addr : MachineM μ Bytes) (loadCString fuel addr) := by
  induction fuel generalizing addr with
  | zero => exact calls_crash
  | succ fuel ih =>
    refine calls_bind (calls_load8 addr) fun byte => ?_
    refine calls_ite (fun _ => calls_pure _) fun _ => ?_
    refine calls_bind (calls_unwrap _) fun next => ?_
    exact calls_bind (ih next) fun rest => calls_pure _

theorem calls_loadArgv (argc : ℕ) (argvAddr : UInt64) :
    Calls id d (loadArgv argc argvAddr : MachineM μ (List Bytes)) (loadArgv argc argvAddr) := by
  induction argc generalizing argvAddr with
  | zero => exact calls_pure _
  | succ argc ih =>
    refine calls_bind (calls_load64 _) fun targetAddr => ?_
    refine calls_bind (calls_loadCString _ _) fun cstr => ?_
    refine calls_bind (calls_unwrap _) fun next => ?_
    exact calls_bind (ih next) fun rest => calls_pure _

theorem calls_loadPipes (fuel : ℕ) (pipesAddr : UInt64) :
    Calls id d (loadPipes fuel pipesAddr : MachineM μ (List PipeId))
      (loadPipes fuel pipesAddr) := by
  induction fuel generalizing pipesAddr with
  | zero => exact calls_crash
  | succ fuel ih =>
    refine calls_bind (calls_load64 _) fun pipe => ?_
    refine calls_ite (fun _ => calls_pure _) fun _ => ?_
    refine calls_bind (calls_unwrap _) fun next => ?_
    exact calls_bind (ih next) fun rest => calls_pure _

end Primitives

/-- A text that starts unlike the report of a deadlock. -/
def Unlike (msg : String) : Prop :=
  msg.toList.take 2 ≠ ['A', ' '] ∧ 2 ≤ msg.toList.length

theorem Unlike.append {a : String} (h : Unlike a) (b : String) : Unlike (a ++ b) := by
  have htake : (a ++ b).toList.take 2 = a.toList.take 2 := by
    rw [String.toList_append, List.take_append_of_le_length h.2]
  refine ⟨by rw [htake]; exact h.1, ?_⟩
  rw [String.toList_append, List.length_append]
  exact Nat.le_add_right_of_le h.2

theorem Unlike.ne_deadlock {msg : String} (h : Unlike msg) : Error.unexpected msg ≠ .deadlock := by
  intro heq
  rw [Error.unexpected.inj heq] at h
  exact h.1 (by decide)

theorem Unlike.not_reserved {msg : String} (h : Unlike msg) :
    ¬ (Error.unexpected msg).Reserved := by
  simp [Error.Reserved, Error.yield, h.ne_deadlock]

theorem unlike_loading (kind : String) (h : Unlike kind) (index rest : String) :
    Unlike (kind ++ index ++ rest) :=
  (h.append index).append rest

theorem elim_error {α : Type} {o : Option α} {e e' : Error}
    (h : o.elim (.error e') Except.ok = .error e) : e' = e := by
  cases o with
  | none => exact Except.error.inj h
  | some a => cases h

theorem bind_error {α β : Type} {x : Except Error α} {f : α → Except Error β} {e : Error}
    (h : x >>= f = .error e) : x = .error e ∨ ∃ a, f a = .error e := by
  cases x with
  | error e' => exact Or.inl (Except.error.inj h ▸ rfl)
  | ok a => exact Or.inr ⟨a, h⟩

/-- Loading a piece of the transaction raises no error of the scheduler's own. -/
theorem TxData.piece_error {tx : TxData} {id : DataPieceId} {e : Error}
    (h : tx.piece id = .error e) : ¬ e.Reserved := by
  have hindex : ¬ TxData.indexOutOfBound.Reserved := by decide
  cases id with
  | program => cases h
  | input i | cellDep i =>
    rcases bind_error h with h | ⟨cell, h⟩
    · exact elim_error h ▸ hindex
    · exact elim_error h ▸ (unlike_loading _ (by unfold Unlike; decide) _ _).not_reserved
  | output i => exact elim_error h ▸ hindex
  | groupInput i =>
    rcases bind_error h with h | ⟨gi, h⟩
    · exact elim_error h ▸ hindex
    rcases bind_error h with h | ⟨cell, h⟩
    · exact elim_error h ▸ hindex
    · exact elim_error h ▸ (unlike_loading _ (by unfold Unlike; decide) _ _).not_reserved
  | groupOutput i =>
    rcases bind_error h with h | ⟨gi, h⟩
    · exact elim_error h ▸ hindex
    · exact elim_error h ▸ hindex

/-- Loading transaction data raises no error of the scheduler's own. -/
theorem TxData.loadData_error {tx : TxData} {id : DataPieceId} {offset length : UInt64}
    {e : Error} (h : tx.loadData id offset length = .error e) : ¬ e.Reserved := by
  cases hp : tx.piece id with
  | error e' =>
    rw [TxData.loadData, hp] at h
    cases h
    exact TxData.piece_error hp
  | ok data =>
    rw [TxData.loadData, hp] at h
    cases h

section SystemCalls

variable [Memory μ] (env : Env μ κ) (id : VmId) (base d : ℕ)

omit [Memory μ] in
theorem calls_currentCycles {o : Option VmId} :
    Calls o d (MachineContext.currentCycles ⟨id, base⟩ : MachineM μ Unit)
      (MachineContext.currentCycles ⟨id, base + d⟩) := by
  refine calls_get_bind fun m => ?_
  have hsum : base + (m.shift d).cycles = base + d + m.cycles := by
    rw [Cpu.shift_cycles, Nat.add_assoc, Nat.add_comm d]
  simp only [hsum]
  exact calls_ite (fun _ => calls_setRegister _ _)
    (fun _ => calls_throw Error.fatal_cyclesOverflow)

theorem calls_loadCellData {o : Option VmId} :
    Calls o d (MachineContext.loadCellData env) (MachineContext.loadCellData env) := by
  refine calls_bind (calls_register _) fun index => ?_
  refine calls_bind (calls_register _) fun source => ?_
  cases DataPieceId.tryFrom source index with
  | error _ => exact calls_setRegister _ _
  | ok dataPieceId =>
    refine calls_bind (calls_register _) fun addr => calls_bind (calls_register _)
      fun sizeAddr => ?_
    refine calls_bind (calls_load64 _) fun size => calls_bind (calls_register _) fun offset => ?_
    refine calls_get_bind fun m => ?_
    have hmemory : (m.shift d).memory = m.memory := rfl
    rw [hmemory]
    cases hstore : env.storeCellData m.memory addr dataPieceId offset size with
    | error e =>
      refine calls_ite (fun _ => calls_setRegister _ _) (fun _ => calls_throw ?_)
      exact Error.fatal_of_not_reserved (env.storeCellData_error hstore)
    | ok stored =>
      refine calls_bind (calls_setMemory _) fun _ => calls_bind (calls_store64 _ _) fun _ => ?_
      exact calls_bind (calls_addCycles _) fun _ => calls_setRegister _ _

theorem calls_loadCellDataAsCode {o : Option VmId} :
    Calls o d (MachineContext.loadCellDataAsCode env)
      (MachineContext.loadCellDataAsCode env) := by
  refine calls_bind (calls_register _) fun addr => calls_bind (calls_register _) fun size => ?_
  refine calls_bind (calls_register _) fun offset => calls_bind (calls_register _) fun length => ?_
  refine calls_bind (calls_register _) fun index => calls_bind (calls_register _) fun source => ?_
  cases DataPieceId.tryFrom source index with
  | error _ => exact calls_setRegister _ _
  | ok dataPieceId =>
    dsimp only
    cases hload : env.txData.loadData dataPieceId 0 0xffffffffffffffff with
    | error e =>
      refine calls_ite (fun _ => calls_setRegister _ _) (fun _ => calls_throw ?_)
      exact Error.fatal_of_not_reserved (TxData.loadData_error hload)
    | ok cell =>
      dsimp only
      cases checkedAdd offset length with
      | none => exact calls_throw (by
          simp [Error.Fatal, Error.Interrupt, Error.yield, Error.deadlock])
      | some contentEnd =>
        refine calls_ite (fun _ => calls_setRegister _ _) fun _ => ?_
        refine calls_get_bind fun _ => ?_
        refine calls_bind (calls_ofExcept fun _ => Memory.initPages_error) fun _ => ?_
        refine calls_bind (calls_setMemory _) fun _ => calls_get_bind fun _ => ?_
        refine calls_bind (calls_ofExcept fun _ => Memory.trackPages_error) fun _ => ?_
        refine calls_bind (calls_setMemory _) fun _ => ?_
        exact calls_bind (calls_addCycles _) fun _ => calls_setRegister _ _

theorem calls_debug {o : Option VmId} :
    Calls o d (MachineContext.debug : MachineM μ Unit) MachineContext.debug := by
  refine calls_bind (calls_register _) fun _ => calls_bind (calls_loadCString _ _) fun _ => ?_
  refine calls_bind (calls_addCycles _) fun _ => ?_
  exact calls_ite (fun _ => calls_pure _)
    (fun _ => calls_throw (Error.fatal_external (by decide)))

theorem calls_spawn :
    Calls (some id) d (MachineContext.spawn env ⟨id, base⟩)
      (MachineContext.spawn env ⟨id, base + d⟩) := by
  refine calls_bind (calls_register _) fun index => calls_bind (calls_register _) fun source => ?_
  cases DataPieceId.tryFrom source index with
  | error _ => exact calls_setRegister _ _
  | ok dataPieceId =>
    refine calls_bind (calls_register _) fun bounds => calls_bind (calls_register _) fun argc => ?_
    refine calls_bind (calls_register _) fun argvAddr => ?_
    refine calls_bind (calls_reserveStrings _) fun _ => ?_
    refine calls_bind (calls_loadArgv _ _) fun argv => ?_
    refine calls_bind (calls_register _) fun spgsAddr => ?_
    refine calls_bind (calls_load64 _) fun instanceIdAddr => ?_
    refine calls_bind (calls_load64 _) fun pipesAddr => ?_
    refine calls_ite_bind (calls_pure _) (calls_loadPipes _ _) fun pipes => ?_
    cases hload : env.txData.loadData dataPieceId 0 0 with
    | error e =>
      refine calls_ite (fun _ => calls_setRegister _ _) (fun _ => calls_throw ?_)
      exact Error.fatal_of_not_reserved (TxData.loadData_error hload)
    | ok data =>
      refine calls_ite (fun _ => calls_setRegister _ _) fun _ => ?_
      refine calls_ite (fun _ => calls_throw ?_) fun _ => ?_
      · simp [Error.Fatal, Error.Interrupt, Error.yield, Error.deadlock]
      · exact calls_ite (fun _ => calls_setRegister _ _) fun _ => calls_yield rfl trivial

omit [Memory μ] in
theorem calls_join :
    Calls (some id) d (MachineContext.join ⟨id, base⟩ : MachineM μ Unit)
      (MachineContext.join ⟨id, base + d⟩) :=
  calls_bind (calls_register _) fun _ => calls_bind (calls_register _) fun _ =>
    calls_yield rfl trivial

omit [Memory μ] in
theorem calls_pipe :
    Calls (some id) d (MachineContext.pipe ⟨id, base⟩ : MachineM μ Unit)
      (MachineContext.pipe ⟨id, base + d⟩) :=
  calls_bind (calls_register _) fun _ => calls_yield rfl rfl

theorem calls_pipeWrite :
    Calls (some id) d (MachineContext.pipeWrite ⟨id, base⟩ : MachineM μ Unit)
      (MachineContext.pipeWrite ⟨id, base + d⟩) :=
  calls_bind (calls_register _) fun _ => calls_bind (calls_register _) fun _ =>
    calls_bind (calls_load64 _) fun _ => calls_bind (calls_register _) fun _ =>
      calls_ite (fun hwrite => calls_yield rfl hwrite) (fun _ => calls_setRegister _ _)

theorem calls_pipeRead :
    Calls (some id) d (MachineContext.pipeRead ⟨id, base⟩ : MachineM μ Unit)
      (MachineContext.pipeRead ⟨id, base + d⟩) :=
  calls_bind (calls_register _) fun _ => calls_bind (calls_register _) fun _ =>
    calls_bind (calls_load64 _) fun _ => calls_bind (calls_register _) fun _ =>
      calls_ite (fun hread => calls_yield rfl hread) (fun _ => calls_setRegister _ _)

theorem calls_ecall :
    Calls (some id) d (MachineContext.ecall env ⟨id, base⟩)
      (MachineContext.ecall env ⟨id, base + d⟩) := by
  have hdebug : Calls (some id) d (MachineContext.debug : MachineM μ Unit) MachineContext.debug :=
    calls_debug d
  refine calls_bind (calls_register _) fun code => ?_
  split
  · exact calls_bind (calls_currentCycles id base d) fun _ => calls_pure _
  · exact calls_bind (calls_loadCellDataAsCode env d) fun _ => calls_pure _
  · exact calls_bind (calls_loadCellData env d) fun _ => calls_pure _
  · exact calls_bind hdebug fun _ => calls_pure _
  · exact calls_bind (calls_spawn env id base d) fun _ => calls_pure _
  · exact calls_bind (calls_join id base d) fun _ => calls_pure _
  · exact calls_bind (calls_setRegister _ _) fun _ => calls_pure _
  · exact calls_bind (calls_pipe id base d) fun _ => calls_pure _
  · exact calls_bind (calls_pipeWrite id base d) fun _ => calls_pure _
  · exact calls_bind (calls_pipeRead id base d) fun _ => calls_pure _
  · exact calls_pure _

end SystemCalls

section Instructions

variable [Memory μ] {env : Env μ κ} {id : VmId} {base d : ℕ}

omit [Memory μ] in
theorem calls_applyEffect {o : Option VmId} {effect : Effect μ}
    (h : ∀ e c, effect = .fail e c → ¬ e.Reserved) :
    Calls o d (applyEffect effect) (applyEffect effect) := by
  cases effect with
  | step core charge =>
    refine calls_bind (calls_modify (fun _ => rfl) fun _ => le_rfl) fun _ => ?_
    exact calls_bind (calls_addCycles _) fun _ => calls_pure _
  | exit code core =>
    exact calls_bind (calls_modify (fun _ => rfl) fun _ => le_rfl) fun _ => calls_pure _
  | fail e core =>
    refine calls_bind (calls_modify (fun _ => rfl) fun _ => le_rfl) fun _ => calls_throw ?_
    exact Error.fatal_of_not_reserved (h e core rfl)

/-- One instruction, which costs at least what it is charged for. -/
theorem stepMachine_agree (env : Env μ κ) (id : VmId) (base d : ℕ) (m : Cpu μ) :
    Agree (Ends (some id)) d (m.cycles + env.cost m.toCore) (stepMachine env ⟨id, base⟩ (m.shift d))
      (stepMachine env ⟨id, base + d⟩ m) := by
  have hcall : Calls (some id) d
      (do if ← MachineContext.ecall env ⟨id, base⟩ then return none
          else applyEffect (env.syscall (← get).toCore) : MachineM μ (Option Int8))
      (do if ← MachineContext.ecall env ⟨id, base + d⟩ then return none
          else applyEffect (env.syscall (← get).toCore)) := by
    refine calls_bind (calls_ecall env id base d) fun served => ?_
    refine calls_ite (fun _ => calls_pure _) fun _ => calls_get_bind fun m => ?_
    exact calls_applyEffect fun _ _ => env.syscall_error
  simp only [stepMachine, get_bind_run, set_bind_run]
  have hcost : ({ m.shift d with cycles := (m.shift d).cycles + env.cost (m.shift d).toCore } :
      Cpu μ) = Cpu.shift d { m with cycles := m.cycles + env.cost m.toCore } := by
    simp only [Cpu.shift, Nat.add_right_comm]
  have hcore : (m.shift d).toCore = m.toCore := rfl
  rw [hcost, hcore]
  cases hnext : env.next m.toCore with
  | instruction effect =>
    exact calls_applyEffect (fun e c h => env.next_error (h ▸ hnext)) _
  | ecall core =>
    have hset : Calls (some id) d (modify fun m : Cpu μ => { m with toCore := core })
        (modify fun m : Cpu μ => { m with toCore := core }) :=
      calls_modify (fun _ => rfl) fun _ => le_rfl
    exact calls_bind hset (fun _ => hcall) _

variable {ctx : MachineContext} {limit : ℕ} {pause : Pause} {m : Cpu μ}

/-- An instruction that lets its machine go on has moved the counter. -/
theorem stepMachine_cycles {r : Option Int8} {m' : Cpu μ} {l : List Message}
    (h : stepMachine env ctx m = .ok r m' l) : l = [] ∧ m.cycles < m'.cycles := by
  have hagree := stepMachine_agree env ctx.id ctx.baseCycles 0 m
  have hcost := env.cost_pos m.toCore
  rcases hagree with ⟨c, hc⟩ | hagree
  · cases h.symm.trans hc
  · rw [show stepMachine env ⟨ctx.id, ctx.baseCycles + 0⟩ m = .ok r m' l from h] at hagree
    exact ⟨hagree.1, lt_of_lt_of_le (Nat.lt_add_of_pos_right hcost) hagree.2.1⟩

/-- Any fuel beyond what the limit leaves gives the same execution. -/
theorem runSteps_fuel (fuel fuel' : ℕ) (h : limit + 1 - m.cycles < fuel)
    (h' : limit + 1 - m.cycles < fuel') :
    runSteps env ctx limit fuel pause m = runSteps env ctx limit fuel' pause m := by
  induction fuel generalizing fuel' m pause with
  | zero => omega
  | succ fuel ih =>
    cases fuel' with
    | zero => omega
    | succ fuel' =>
      simp only [runSteps]
      split
      · rfl
      · simp only [get_bind_run]
        split
        · rfl
        · rename_i hlimit
          rw [bind_run, bind_run]
          cases hstep : stepMachine env ctx m with
          | err e m' l => rfl
          | panic => rfl
          | ok r m' l =>
            cases r with
            | some code => rfl
            | none =>
              have hlt := (stepMachine_cycles hstep).2
              have hpos : m.cycles < limit + 1 := by
                have := env.cost_pos m.toCore
                omega
              simp only
              rw [ih fuel' (by omega) (by omega)]

/-- An execution stops at once, or does one instruction and goes on from there. -/
theorem runMachine_eq : runMachine env ctx limit pause m =
    if pause = some 0 then .err .pause m []
    else if limit < m.cycles + env.cost m.toCore then .err .cyclesExceeded m []
    else (do
      match ← stepMachine env ctx with
      | some code => return code
      | none => runMachine env ctx limit (pause.map Nat.pred)) m := by
  have hunfold : ∀ m' : Cpu μ, ∀ p, runMachine env ctx limit p m' =
      runSteps env ctx limit (limit + 1 - m'.cycles + 1) p m' := by
    intro m' p
    simp only [runMachine, get_bind_run]
  rw [hunfold, runSteps]
  split
  · rfl
  · simp only [get_bind_run]
    split
    · rfl
    · rename_i hlimit
      rw [bind_run, bind_run]
      cases hstep : stepMachine env ctx m with
      | err e m' l => rfl
      | panic => rfl
      | ok r m' l =>
        cases r with
        | some code => rfl
        | none =>
          have hlt := (stepMachine_cycles hstep).2
          have hpos : m.cycles < limit + 1 := by
            have := env.cost_pos m.toCore
            omega
          simp only [hunfold]
          rw [runSteps_fuel _ (limit + 1 - m'.cycles + 1) (by omega) (by omega)]

/-- An execution that runs out of cycles stops before an instruction that costs
more than the limit leaves. -/
theorem runMachine_exceeds {m' : Cpu μ} {posted : List Message}
    (h : runMachine env ctx limit pause m = .err .cyclesExceeded m' posted) :
    limit < m'.cycles + env.cost m'.toCore := by
  induction hleft : limit + 1 - m.cycles using Nat.strong_induction_on generalizing m
    pause posted with
  | _ left ih =>
    rw [runMachine_eq] at h
    by_cases hpause : pause = some 0
    · rw [if_pos hpause] at h
      cases h
    rw [if_neg hpause] at h
    by_cases hlimit : limit < m.cycles + env.cost m.toCore
    · rw [if_pos hlimit] at h
      cases h
      exact hlimit
    rw [if_neg hlimit] at h
    have hagree := stepMachine_agree env ctx.id ctx.baseCycles 0 m
    rcases bind_eq_err.mp h with hstep | ⟨r, m₁, l₁, l₂, hstep, hrest, _⟩
    · rcases hagree with ⟨c, hc⟩ | hagree
      · cases hstep.symm.trans hc
      · rw [show stepMachine env ⟨ctx.id, ctx.baseCycles + 0⟩ m = _ from hstep] at hagree
        rcases hagree.1 with ⟨hfatal, _⟩ | ⟨hyield, _⟩
        · exact absurd (Or.inl rfl) hfatal.2.1
        · cases hyield
    · cases r with
      | some code => cases hrest
      | none =>
        have hlt := (stepMachine_cycles hstep).2
        exact ih (limit + 1 - m₁.cycles) (by omega) hrest rfl

/-- Within no cycles at all nothing is executed. -/
theorem runMachine_zero {m : Cpu μ} : ∃ e : Error,
    e.Interrupt ∧ runMachine env ctx 0 pause m = .err e m [] := by
  have hcost := env.cost_pos m.toCore
  rw [runMachine_eq]
  by_cases hpause : pause = some 0
  · rw [if_pos hpause]
    exact ⟨.pause, Or.inr rfl, rfl⟩
  · rw [if_neg hpause, if_pos (by omega)]
    exact ⟨.cyclesExceeded, Or.inl rfl, rfl⟩

/-- The two copies of an execution, the cycles on one counter taken off the limit
of the other. -/
theorem runMachine_agree (env : Env μ κ) (id : VmId) (base d limit : ℕ) (pause : Pause)
    (m : Cpu μ) :
    Agree (Stops id) d m.cycles (runMachine env ⟨id, base⟩ limit pause (m.shift d))
      (runMachine env ⟨id, base + d⟩ (limit - d) pause m) := by
  induction hleft : limit - d + 1 - m.cycles using Nat.strong_induction_on generalizing m pause with
  | _ left ih =>
    have hcost := env.cost_pos m.toCore
    have hsame : env.cost (m.shift d).toCore = env.cost m.toCore := rfl
    rw [runMachine_eq, runMachine_eq, Cpu.shift_cycles, hsame]
    by_cases hpause : pause = some 0
    · simp only [if_pos hpause]
      exact Or.inr ⟨Or.inl ⟨Or.inr rfl, rfl⟩, le_rfl, rfl⟩
    simp only [if_neg hpause]
    by_cases hlimit : limit < m.cycles + d + env.cost m.toCore
    · have hlimit' : limit - d < m.cycles + env.cost m.toCore := by omega
      rw [if_pos hlimit, if_pos hlimit']
      exact Or.inr ⟨Or.inl ⟨Or.inl rfl, rfl⟩, le_rfl, rfl⟩
    have hlimit' : ¬ limit - d < m.cycles + env.cost m.toCore := by omega
    rw [if_neg hlimit, if_neg hlimit']
    have hstep := stepMachine_agree env id base d m
    refine (hstep.mono (fun _ _ h => Or.inr h) (Nat.le_add_right _ _)).bind ?_
    intro r m' hle hrun
    cases r with
    | some code => exact Or.inr ⟨rfl, hle, rfl⟩
    | none =>
      have hlt := (stepMachine_cycles hrun).2
      exact (ih (limit - d + 1 - m'.cycles) (by omega) (pause.map Nat.pred) m' rfl).mono
        (fun _ _ h => h) hle

/-- An execution fails as `Stops` says and posts nothing otherwise. -/
theorem runMachine_meets (env : Env μ κ) (ctx : MachineContext) (limit : ℕ) (pause : Pause)
    (m : Cpu μ) :
    (runMachine env ctx limit pause m).Meets (fun _ m' l => l = [] ∧ m.cycles ≤ m'.cycles)
      (fun e m' l => Stops ctx.id e l ∧ (e ≠ .cyclesOverflow → m.cycles ≤ m'.cycles)) True := by
  rcases runMachine_agree env ctx.id ctx.baseCycles 0 limit pause m with ⟨m', hover⟩ | hagree
  · rw [Cpu.shift_zero] at hover
    rw [hover]
    exact ⟨Or.inr (Or.inl ⟨Error.fatal_cyclesOverflow, rfl⟩), fun hne => absurd rfl hne⟩
  · exact hagree.mono (fun _ _ _ h => ⟨h.1, h.2.1⟩) (fun _ _ _ h => ⟨h.1, fun _ => h.2.1⟩)
      (fun _ => trivial)

end Instructions

end DeterministicScheduler
