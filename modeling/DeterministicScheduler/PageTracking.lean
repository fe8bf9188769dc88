import DeterministicScheduler.CellData
import DeterministicScheduler.MemoryFrame

/-!
# Pages backed by the transaction

A snapshot leaves out the pages that a load as code has recorded, and they are loaded
from the transaction again on resume. `Tracking` is what the library does with that
record. While every load finds a cell that covers its region, the memory of a machine
mirrors the transaction, and its snapshots lose nothing.
-/
namespace DeterministicScheduler

open ProgramLogic Program Outcome

variable {μ κ : Type} {Mirrors : TxData → μ → Prop}

/-- The core that an effect leaves. -/
def Effect.core : Effect μ → Core μ
  | .step core _ => core
  | .exit _ core => core
  | .fail _ core => core

/-- How the library keeps its record of pages. A new machine has none recorded that the
transaction does not back, a page that is written is taken off the record, and recording
pages that are backed keeps memory and transaction in step. -/
structure Library.Tracking [Memory μ] (env : Library Mirrors κ) : Prop where
  saved : ∀ {m}, Mirrors env.txData m.memory → ∃ s, env.makeSnapshot m = .ok s
  loaded : ∀ {id offset program args core size},
    env.loadProgram id offset program args = .ok (core, size) → Mirrors env.txData core.memory
  instruction : ∀ {c effect}, Mirrors env.txData c.memory → env.next c = .instruction effect →
    Mirrors env.txData effect.core.memory
  ecall : ∀ {c c'}, Mirrors env.txData c.memory → env.next c = .ecall c' →
    Mirrors env.txData c'.memory
  syscall : ∀ {c}, Mirrors env.txData c.memory → Mirrors env.txData (env.syscall c).core.memory
  storeCellData : ∀ {m addr id offset size m' wroteSize fullSize}, Mirrors env.txData m →
    env.storeCellData m addr id offset size = .ok (m', wroteSize, fullSize) →
    Mirrors env.txData m'
  store8 : ∀ {m addr value m'}, Mirrors env.txData m → Memory.store8 m addr value = .ok m' →
    Mirrors env.txData m'
  store64 : ∀ {m addr value m'}, Mirrors env.txData m → Memory.store64 m addr value = .ok m' →
    Mirrors env.txData m'
  storeBytes : ∀ {m addr data m'}, Mirrors env.txData m →
    Memory.storeBytes m addr data = .ok m' → Mirrors env.txData m'
  initPages : ∀ {m addr size content m'}, Mirrors env.txData m →
    Memory.initPages m addr size content = .ok m' → Mirrors env.txData m'
  trackPages : ∀ {m addr size id offset m'}, Mirrors env.txData m →
    PagesBacked env.txData id m addr size offset →
    Memory.trackPages m addr size id offset = .ok m' → Mirrors env.txData m'
  fills : FillsPages μ
  piece_lt : ∀ {id cell}, env.txData.piece id = .ok cell → cell.length < 2 ^ 64

/-- The same library with snapshots that are the machines themselves. -/
def Library.exact (env : Library Mirrors κ) : Env μ (Cpu μ) where
  txData := env.txData
  selectVersion := env.selectVersion
  loadProgram := env.loadProgram
  makeSnapshot m := .ok m
  resumeSnapshot m := .ok m
  cost := env.cost
  next := env.next
  syscall := env.syscall
  storeCellData := env.storeCellData
  cost_pos := env.cost_pos
  resume_make _ h := h.symm ▸ rfl
  makeSnapshot_error h := by cases h
  resumeSnapshot_error h := by cases h
  loadProgram_error := env.loadProgram_error
  next_error := env.next_error
  syscall_error := env.syscall_error
  storeCellData_error := env.storeCellData_error

section Exact

variable (env : Library Mirrors κ)

@[simp] theorem Library.exact_txData : env.exact.txData = env.txData := rfl

@[simp] theorem Library.exact_selectVersion : env.exact.selectVersion = env.selectVersion := rfl

@[simp] theorem Library.exact_loadProgram : env.exact.loadProgram = env.loadProgram := rfl

@[simp] theorem Library.exact_makeSnapshot (m : Cpu μ) : env.exact.makeSnapshot m = .ok m := rfl

@[simp] theorem Library.exact_resumeSnapshot (m : Cpu μ) : env.exact.resumeSnapshot m = .ok m := rfl

end Exact

theorem Library.exact_snapshotsTotal (env : Library Mirrors κ) : env.exact.SnapshotsTotal :=
  fun m => ⟨m, rfl⟩

variable [Memory μ] {env : Library Mirrors κ} {ctx : MachineContext} {m : Cpu μ} {α : Type}

/-- No machine sees its snapshots. -/
theorem stepMachine_exact : stepMachine env.exact ctx = stepMachine env ctx := rfl

theorem runSteps_exact (limit fuel : ℕ) (pause : Pause) :
    runSteps env.exact ctx limit fuel pause = runSteps env ctx limit fuel pause := by
  induction fuel generalizing pause with
  | zero => rfl
  | succ fuel ih =>
    simp only [runSteps, stepMachine_exact, ih]
    rfl

theorem runMachine_exact (limit : ℕ) (pause : Pause) :
    runMachine env.exact ctx limit pause = runMachine env ctx limit pause := by
  funext m
  simp only [runMachine, runSteps_exact]

/-- A load as code that passes its checks and records the pages of its region. -/
structure Records (env : Library Mirrors κ) (c : Core μ) (id : DataPieceId) (cell : Bytes) :
    Prop where
  call : DataPieceId.tryFrom (c.registers A5) (c.registers A4) = .ok id
  piece : env.txData.piece id = .ok cell
  start : (c.registers A2).toNat < cell.length
  content : (c.registers A2).toNat + (c.registers A3).toNat ≤ cell.length
  fits : c.registers A3 ≤ c.registers A1
  tracks : ∃ filled tracked, Memory.initPages c.memory (c.registers A0) (c.registers A1)
      ((cell.drop (c.registers A2).toNat).take (c.registers A3).toNat) = .ok filled ∧
    Memory.trackPages filled (c.registers A0) (c.registers A1) id (c.registers A2) = .ok tracked

/-- The pages that a load as code records are covered by its cell. -/
def Covers (env : Library Mirrors κ) (c : Core μ) : Prop :=
  ∀ id cell, Records env c id cell →
    CellCovers cell (c.registers A1) (c.registers A2) (c.registers A3)

/-- What an execution comes by after some of its instructions. -/
def StepsTo (env : Library Mirrors κ) (ctx : MachineContext) : Cpu μ → Cpu μ → Prop :=
  Relation.ReflTransGen fun m m' => ∃ l, stepMachine env ctx m = .ok none m' l

/-- Every load as code that an execution comes to is covered by its cell. -/
def CoversLoads (env : Library Mirrors κ) (ctx : MachineContext) (m : Cpu μ) : Prop :=
  ∀ m' c, StepsTo env ctx m m' → env.next m'.toCore = .ecall c → c.registers A7 = 2091 →
    Covers env c

/-- A part of an execution that leaves a memory in step with the transaction. -/
def EndsMirrored (env : Library Mirrors κ) (x : MachineM μ α) (m : Cpu μ) : Prop :=
  (x m).Meets (fun _ m _ => Mirrors env.txData m.memory) (fun _ m _ => Mirrors env.txData m.memory)
    True

omit [Memory μ] in
theorem Looks.mirrored {x : MachineM μ α} (hx : Looks x) (hm : Mirrors env.txData m.memory) :
    EndsMirrored env x m := by
  refine (hx m).mono ?_ ?_ fun h => h
  · intro _ m' _ h
    show Mirrors env.txData m'.memory
    rwa [h]
  · intro _ m' _ h
    show Mirrors env.txData m'.memory
    rwa [h]

omit [Memory μ] in
theorem endsMirrored_register {r : Reg} {f : UInt64 → MachineM μ α} :
    EndsMirrored env (register r >>= f) m ↔ EndsMirrored env (f (m.registers r)) m := by
  rw [EndsMirrored, register_bind_run]
  rfl

variable (htracking : env.Tracking)

include htracking

theorem loadCellData_mirrored (hm : Mirrors env.txData m.memory) :
    EndsMirrored env (MachineContext.loadCellData env) m := by
  simp only [EndsMirrored, MachineContext.loadCellData, register_bind_run]
  cases DataPieceId.tryFrom (m.registers A4) (m.registers A3) with
  | error _ => exact hm
  | ok id =>
    simp only [register_bind_run]
    refine meets_bind ((looks_load64 _).mirrored hm) fun size m₁ _ hm₁ => ?_
    rw [register_bind_run, get_bind_run]
    cases hstored : env.storeCellData m₁.memory (m.registers A0) id (m₁.registers A2) size with
    | error e => exact (looks_ite (looks_setRegister _ _) (looks_throw _)).mirrored hm₁
    | ok stored =>
      obtain ⟨memory, wroteSize, fullSize⟩ := stored
      have hmemory := htracking.storeCellData hm₁ hstored
      dsimp only
      rw [setMemory_bind_run, bind_run, store64, get_bind_run]
      dsimp only
      cases hsize : Memory.store64 memory (m.registers A1) fullSize with
      | error e => exact hmemory
      | ok memory' =>
        have hmemory' := htracking.store64 hmemory hsize
        rw [ofExcept_ok, pure_bind_run]
        exact Meets.after ((looks_bind (looks_addCycles _)
          fun _ => looks_setRegister _ _).mirrored hmemory')

/-- A load as code that its cell covers records pages of the transaction. -/
theorem loadCellDataAsCode_mirrored (hcovers : Covers env m.toCore)
    (hm : Mirrors env.txData m.memory) :
    EndsMirrored env (MachineContext.loadCellDataAsCode env) m := by
  simp only [EndsMirrored, MachineContext.loadCellDataAsCode, register_bind_run]
  cases hid : DataPieceId.tryFrom (m.registers A5) (m.registers A4) with
  | error _ => exact hm
  | ok id =>
    dsimp only
    cases hpiece : env.txData.piece id with
    | error e =>
      have hload : env.txData.loadData id 0 0xffffffffffffffff = .error e := by
        rw [TxData.loadData, hpiece]
        rfl
      rw [hload]
      exact (looks_ite (looks_setRegister _ _) (looks_throw _)).mirrored hm
    | ok cell =>
      have hlength := htracking.piece_lt hpiece
      rw [loadData_whole hpiece hlength]
      dsimp only
      cases hend : checkedAdd (m.registers A2) (m.registers A3) with
      | none => exact hm
      | some contentEnd =>
        have hsum : contentEnd.toNat = (m.registers A2).toNat + (m.registers A3).toNat := by
          simp only [checkedAdd, Option.ite_none_right_eq_some, Option.some.injEq] at hend
          rw [← hend.2, UInt64.toNat_add, Nat.mod_eq_of_lt hend.1]
        dsimp only
        split
        · exact hm
        · rename_i hbounds
          simp only [not_or, Nat.not_le, Nat.not_lt, UInt64.not_lt, hsum] at hbounds
          obtain ⟨hstart, hcontent, hfits⟩ := hbounds
          rw [get_bind_run]
          cases hfilled : Memory.initPages m.memory (m.registers A0) (m.registers A1)
              ((cell.drop (m.registers A2).toNat).take (m.registers A3).toNat) with
          | error e => exact hm
          | ok filled =>
            have hmirrors := htracking.initPages hm hfilled
            rw [ofExcept_ok, pure_bind_run, setMemory_bind_run, get_bind_run]
            dsimp only
            cases htracked : Memory.trackPages filled (m.registers A0) (m.registers A1) id
                (m.registers A2) with
            | error e => exact hmirrors
            | ok tracked =>
              have hcell := hcovers id cell ⟨hid, hpiece, hstart, hcontent, hfits, filled, tracked,
                hfilled, htracked⟩
              have hbacked := (filledFrom_initPages htracking.fills hfilled).backed hpiece hlength
                hcontent hcell
              rw [ofExcept_ok, pure_bind_run, setMemory_bind_run]
              exact (looks_bind (looks_addCycles _) fun _ => looks_setRegister _ _).mirrored
                (htracking.trackPages hmirrors hbacked htracked)

theorem ecall_mirrored (hcovers : m.registers A7 = 2091 → Covers env m.toCore)
    (hm : Mirrors env.txData m.memory) : EndsMirrored env (ctx.ecall env) m := by
  have hserved {x : MachineM μ Unit} (hx : EndsMirrored env x m) :
      EndsMirrored env (do x; return true) m :=
    meets_bind hx fun _ _ _ h => h
  rw [MachineContext.ecall, endsMirrored_register]
  split
  · exact hserved ((looks_currentCycles ctx).mirrored hm)
  · rename_i hcode
    have hcode' : m.registers A7 = 2091 := UInt64.toNat_inj.mp hcode
    exact hserved (loadCellDataAsCode_mirrored htracking (hcovers hcode') hm)
  · exact hserved (loadCellData_mirrored htracking hm)
  · exact hserved (looks_debug.mirrored hm)
  · exact hserved ((looks_spawn env ctx).mirrored hm)
  · exact hserved ((looks_join ctx).mirrored hm)
  · exact hserved ((looks_instanceId ctx).mirrored hm)
  · exact hserved ((looks_pipe ctx).mirrored hm)
  · exact hserved ((looks_pipeWrite ctx).mirrored hm)
  · exact hserved ((looks_pipeRead ctx).mirrored hm)
  · exact hm

omit [Memory μ] htracking in
theorem applyEffect_mirrored {effect : Effect μ} (h : Mirrors env.txData effect.core.memory) :
    EndsMirrored env (applyEffect effect) m := by
  cases effect with
  | step core charge =>
    rw [EndsMirrored, applyEffect, modify_bind_run]
    exact (looks_bind (looks_addCycles charge) fun _ => looks_pure _).mirrored h
  | exit code core => exact h
  | fail e core => exact h

theorem stepMachine_mirrored (hloads : CoversLoads env ctx m) (hm : Mirrors env.txData m.memory) :
    EndsMirrored env (stepMachine env ctx) m := by
  rw [EndsMirrored, stepMachine, get_bind_run, set_bind_run]
  cases hnext : env.next m.toCore with
  | instruction effect => exact applyEffect_mirrored (htracking.instruction hm hnext)
  | ecall core =>
    simp only [modify_bind_run]
    have hcall : EndsMirrored env (ctx.ecall env)
        { m with toCore := core, cycles := m.cycles + env.cost m.toCore } :=
      ecall_mirrored htracking (hloads m core .refl hnext) (htracking.ecall hm hnext)
    refine meets_bind hcall fun served m' _ hm' => ?_
    cases served with
    | true => exact hm'
    | false =>
      rw [if_neg Bool.false_ne_true, get_bind_run]
      exact applyEffect_mirrored (htracking.syscall hm')

/-- An execution that comes to covered loads only ends with its memory in step. The
induction is on the fuel; what is left of an execution comes to no other loads. -/
theorem runSteps_mirrored (hloads : CoversLoads env ctx m) (hm : Mirrors env.txData m.memory)
    (limit fuel : ℕ) (pause : Pause) :
    EndsMirrored env (runSteps env ctx limit fuel pause) m := by
  induction fuel generalizing m pause with
  | zero => exact hm
  | succ fuel ih =>
    rw [EndsMirrored, runSteps]
    split
    · exact hm
    rw [get_bind_run]
    split
    · exact hm
    have hstep := stepMachine_mirrored htracking hloads hm
    rw [bind_run]
    cases hrun : stepMachine env ctx m with
    | panic => trivial
    | err e m' l =>
      rw [EndsMirrored, hrun] at hstep
      exact hstep
    | ok code? m' l =>
      rw [EndsMirrored, hrun] at hstep
      cases code? with
      | some code => exact hstep
      | none =>
        have hrest : CoversLoads env ctx m' := fun m'' c hto =>
          hloads m'' c (Relation.ReflTransGen.head ⟨l, hrun⟩ hto)
        exact Meets.after (ih hrest hstep _)

theorem runMachine_mirrored (hloads : CoversLoads env ctx m) (hm : Mirrors env.txData m.memory)
    (limit : ℕ) (pause : Pause) : EndsMirrored env (runMachine env ctx limit pause) m := by
  rw [EndsMirrored, runMachine, get_bind_run]
  exact runSteps_mirrored htracking hloads hm limit _ pause

end DeterministicScheduler
