import DeterministicScheduler.Calls
import DeterministicScheduler.Budget
import DeterministicScheduler.PassOrder
import DeterministicScheduler.Logic.Repetition

/-!
# Interruptions are transparent

The finest interruptions stop after every instruction, with no cycles left on the
counter of the machine that runs next. What is done between two of them is a
function of the scheduler, so repeating it has one end. A round under any limit and
any pause is some of these instructions in turn: where it was cut makes no
difference to what the next one does.
-/
namespace DeterministicScheduler

open ProgramLogic Program Outcome Std

variable {μ κ : Type}

/-- The message that an event answers. -/
def Event.message? : Event μ → Option Message
  | message msg => some msg
  | _ => none

namespace Scheduler

variable [Memory μ] {env : Env μ κ} {r r₁ : Scheduler μ κ} {id : VmId} {m : Machine μ}
  {pause : Pause} {limitCycles : ℕ} {result : Except Error Int8} {cpu : Cpu μ}
  {posted : List Message} {l l₁ : List (Event μ)}

/-- The end of a round whose machine has stopped. -/
def concluded (env : Env μ κ) (r : Scheduler μ κ) (id : VmId) (m : Machine μ)
    (result : Except Error Int8) (cpu : Cpu μ) (posted : List Message) :
    Outcome Error (Event μ) (Scheduler μ κ) ℕ :=
  if r.totalCycles + cpu.cycles < 2 ^ 64 then
    (finishRound none env id result cpu.cycles
      { r.executed id m result cpu posted with totalCycles := r.totalCycles + cpu.cycles }).after
      [.exec id m.toCpu cpu result posted]
  else
    .err .cyclesOverflow (r.executed id m result cpu posted)
      [.exec id m.toCpu cpu result posted]

omit [Memory μ] in
theorem panic_or_stopped (o : Outcome Error Message (Cpu μ) Int8) :
    o = .panic ∨ ∃ result cpu posted, o = stopped result cpu posted := by
  cases o with
  | ok code cpu posted => exact Or.inr ⟨.ok code, cpu, posted, rfl⟩
  | err e cpu posted => exact Or.inr ⟨.error e, cpu, posted, rfl⟩
  | panic => exact Or.inl rfl

/-- A VM that is to run next, with nothing left to do for the pipes. -/
structure Poised (r : Scheduler μ κ) (id : VmId) (m : Machine μ) : Prop where
  running : r.states[rootVmId]? ≠ some .terminated
  closed : r.closedVms = []
  paired : r.pairedVms = []
  box : r.messageBox = []
  selected : vmIdToRun r.states = some id
  machine : r.instantiated[id]? = some m

/-- After the pass of a round a VM is poised, if any is runnable. -/
theorem Poised.of_pass (hinv : Invariant r) (hrun : Running r)
    (hio : processIo none env r = .ok ⟨⟩ r₁ l₁) (hid : vmIdToRun r₁.states = some id) :
    ∃ m, Poised r₁ id m := by
  have hinv₁ := Steps.invariant (processIo_passes hinv hrun hio).1.steps hinv
  obtain ⟨hclosed, hpaired⟩ := processIo_exhausts hinv hrun hio
  have hstate := of_vmIdToRun hid
  obtain ⟨m, hm⟩ := hinv₁.resident.machine (mem_iff_getElem?.mpr ⟨_, hstate⟩)
  have hrun₁ := hinv₁.running hstate (by simp)
  exact ⟨m, hrun₁.root_state, hclosed, hpaired, hinv₁.box, hid, hm⟩

theorem runVm_poised (h : Poised r id m) :
    runVm none env id pause limitCycles r =
      match runMachine env ⟨id, r.totalCycles⟩ limitCycles pause m.toCpu with
      | .ok code cpu posted => r.execution id m (.ok code) cpu posted
      | .err e cpu posted => r.execution id m (.error e) cpu posted
      | .panic => .panic := by
  refine runVm_run (ensureVmsInstantiated_noop ?_ (by simp)) h.machine
  simpa using mem_iff_getElem?.mpr ⟨m, h.machine⟩

theorem iterate_run (hio : processIo none env r = .ok ⟨⟩ r₁ l₁)
    (hid : vmIdToRun r₁.states = some id) :
    iterate none env pause limitCycles r = ((runVm none env id pause limitCycles >>= fun p =>
      finishRound none env id p.1 p.2) r₁).after (.iterate limitCycles :: l₁) := by
  rw [iterate_eq, emit_bind_run, bind_of_ok hio, get_bind_run, hid, after_after]
  rfl

/-- A round is its pass, and then what follows from the execution of a machine. -/
theorem iterate_stopped (h : Poised r₁ id m) (hio : processIo none env r = .ok ⟨⟩ r₁ l₁)
    (hmachine : runMachine env ⟨id, r₁.totalCycles⟩ limitCycles pause m.toCpu =
      stopped result cpu posted) :
    iterate none env pause limitCycles r =
      (concluded env r₁ id m result cpu posted).after (.iterate limitCycles :: l₁) := by
  have hvm : runVm none env id pause limitCycles r₁ = r₁.execution id m result cpu posted := by
    rw [runVm_poised h, hmachine]
    cases result <;> rfl
  rw [iterate_run hio h.selected, concluded]
  by_cases htotal : r₁.totalCycles + cpu.cycles < 2 ^ 64
  · rw [execution, if_pos htotal] at hvm
    rw [bind_of_ok hvm, if_pos htotal]
  · rw [execution, if_neg htotal] at hvm
    rw [bind_of_err hvm, if_neg htotal]

theorem iterate_panic (h : Poised r₁ id m) (hio : processIo none env r = .ok ⟨⟩ r₁ l₁)
    (hmachine : runMachine env ⟨id, r₁.totalCycles⟩ limitCycles pause m.toCpu = .panic) :
    iterate none env pause limitCycles r = .panic := by
  have hvm : runVm none env id pause limitCycles r₁ = .panic := by
    rw [runVm_poised h, hmachine]
  rw [iterate_run hio h.selected, bind_of_panic hvm]
  rfl

omit [Memory μ] in
/-- The scheduler once `cpu` is the state of a machine and its cycles are in the
total. -/
def flushed (r : Scheduler μ κ) (id : VmId) (m : Machine μ) (cpu : Cpu μ) : Scheduler μ κ :=
  { r with
    totalCycles := r.totalCycles + cpu.cycles
    instantiated := r.instantiated.insert id { cpu with cycles := 0, exitCode := m.exitCode } }

omit [Memory μ] in
theorem Poised.flushed (h : Poised r id m) (cpu : Cpu μ) :
    Poised (r.flushed id m cpu) id { cpu with cycles := 0, exitCode := m.exitCode } where
  running := h.running
  closed := h.closed
  paired := h.paired
  box := h.box
  selected := h.selected
  machine := by simp only [Scheduler.flushed, getElem?_insert, if_true]

omit [Memory μ] in
/-- Nothing is moved from a machine without cycles. -/
theorem flushed_self (h : Poised r id m) (hcycles : m.cycles = 0) :
    r.flushed id m m.toCpu = r := by
  have hm : ({ m.toCpu with cycles := 0, exitCode := m.exitCode } : Machine μ) = m := by
    rw [← hcycles]
  simp only [Scheduler.flushed, hm, insert_self h.machine, hcycles, Nat.add_zero]

omit [Memory μ] in
theorem executed_error (e : Error) :
    ({ r.executed id m (.error e) cpu [] with totalCycles := r.totalCycles + cpu.cycles } :
      Scheduler μ κ) = r.flushed id m cpu := by
  simp only [executed, flushed, List.append_nil, Except.toOption, Option.getD_none]

/-- A machine that stops without a message, neither exiting nor yielding, ends its
round. -/
theorem concluded_error {e : Error} (he : e ≠ .yield) (hbox : r.messageBox = [])
    (h : r.totalCycles + cpu.cycles < 2 ^ 64) :
    concluded env r id m (.error e) cpu [] =
      .err e (r.flushed id m cpu) [.exec id m.toCpu cpu (.error e) []] := by
  have hempty : (r.flushed id m cpu).messageBox = [] := hbox
  rw [concluded, if_pos h, executed_error, finishRound, bind_of_ok (processMessageBox_empty hempty)]
  simp only [after_nil, get_bind_run, hempty, List.isEmpty_nil, if_true, if_neg he, throw_run]
  rfl

theorem view_finishRound (consumed consumed' : ℕ) :
    (finishRound none env id result consumed r).view Event.message? =
      (finishRound none env id result consumed' r).view Event.message? := by
  refine view_bind_congr (fun _ s => ?_) r
  rw [get_bind_run, get_bind_run]
  split
  · cases result with
    | ok code =>
      exact view_bind_congr (x := terminateVm none env id code) (f := fun _ => pure consumed)
        (g := fun _ => pure consumed') (fun _ _ => rfl) s
    | error e =>
      dsimp only
      split <;> rfl
  · rfl

/-- What follows from an execution is the same with part of its cycles in the total
already. -/
theorem concluded_flushed {cpu' : Cpu μ}
    (h : r.totalCycles + cpu.cycles + cpu'.cycles < 2 ^ 64) :
    (concluded env r id m result (cpu'.shift cpu.cycles) posted).view Event.message? =
      (concluded env (r.flushed id m cpu) id { cpu with cycles := 0, exitCode := m.exitCode }
        result cpu' posted).view Event.message? := by
  have hsum : r.totalCycles + (cpu'.cycles + cpu.cycles) =
      r.totalCycles + cpu.cycles + cpu'.cycles := by omega
  have hstate : ({ r.executed id m result (cpu'.shift cpu.cycles) posted with
        totalCycles := r.totalCycles + (cpu'.shift cpu.cycles).cycles } : Scheduler μ κ) =
      { (r.flushed id m cpu).executed id { cpu with cycles := 0, exitCode := m.exitCode } result
          cpu' posted with
        totalCycles := (r.flushed id m cpu).totalCycles + cpu'.cycles } := by
    simp only [executed, flushed, Cpu.shift_cycles, hsum]
    congr 1
    refine ExtTreeMap.ext_getElem? fun k => ?_
    simp only [getElem?_insert]
    split <;> rfl
  rw [concluded, concluded, if_pos (by simpa only [Cpu.shift_cycles, hsum] using h),
    if_pos (show (r.flushed id m cpu).totalCycles + cpu'.cycles < 2 ^ 64 from h), hstate,
    view_after, view_after, view_finishRound]
  rfl

section Executions

variable {ctx : MachineContext} {cpu' : Cpu μ} {pause' : Pause} {limitCycles' : ℕ}

theorem runMachine_paused :
    runMachine env ctx limitCycles (some 0) cpu = stopped (.error .pause) cpu [] := by
  rw [runMachine_eq, if_pos rfl]
  rfl

/-- An instruction costs what it is charged for at least, unless the counter
overflows. -/
theorem stepMachine_meets : (stepMachine env ctx cpu).Meets
    (fun _ cpu' l => l = [] ∧ cpu.cycles + env.cost cpu.toCore ≤ cpu'.cycles)
    (fun e cpu' _ => e ≠ .cyclesOverflow → cpu.cycles + env.cost cpu.toCore ≤ cpu'.cycles)
    True := by
  rcases stepMachine_agree env ctx.id ctx.baseCycles 0 cpu with ⟨cpu', hover⟩ | hagree
  · rw [Cpu.shift_zero] at hover
    rw [hover]
    exact fun hne => absurd rfl hne
  · exact hagree.mono (fun _ _ _ h => ⟨h.1, h.2.1⟩) (fun _ _ _ h _ => h.2.1) (fun _ => trivial)

/-- After an instruction that lets its machine go on the rest is an execution. -/
theorem runMachine_step (hpause : pause ≠ some 0)
    (hlimit : ¬ limitCycles < cpu.cycles + env.cost cpu.toCore)
    (hstep : stepMachine env ctx cpu = .ok none cpu' []) :
    runMachine env ctx limitCycles pause cpu =
      runMachine env ctx limitCycles (pause.map Nat.pred) cpu' := by
  rw [runMachine_eq, if_neg hpause, if_neg hlimit, bind_of_ok hstep]
  exact after_nil _

/-- An instruction after which its machine does not go on is all of any execution
that executes it. -/
theorem runMachine_last (hpause : pause ≠ some 0) (hpause' : pause' ≠ some 0)
    (hlimit : ¬ limitCycles < cpu.cycles + env.cost cpu.toCore)
    (hlimit' : ¬ limitCycles' < cpu.cycles + env.cost cpu.toCore)
    (hstep : ∀ cpu' l, stepMachine env ctx cpu ≠ .ok none cpu' l) :
    runMachine env ctx limitCycles pause cpu = runMachine env ctx limitCycles' pause' cpu := by
  rw [runMachine_eq, runMachine_eq, if_neg hpause, if_neg hpause', if_neg hlimit, if_neg hlimit',
    bind_run, bind_run]
  cases h : stepMachine env ctx cpu with
  | err e cpu' l => rfl
  | panic => rfl
  | ok code? cpu' l =>
    cases code? with
    | some code => rfl
    | none => exact absurd h (hstep cpu' l)

/-- An execution of at least one instruction. -/
theorem runMachine_cost (hpause : pause ≠ some 0)
    (hlimit : ¬ limitCycles < cpu.cycles + env.cost cpu.toCore) :
    (runMachine env ctx limitCycles pause cpu).Meets
      (fun _ cpu' _ => cpu.cycles + env.cost cpu.toCore ≤ cpu'.cycles)
      (fun e cpu' _ => e ≠ .cyclesOverflow → cpu.cycles + env.cost cpu.toCore ≤ cpu'.cycles)
      True := by
  rw [runMachine_eq, if_neg hpause, if_neg hlimit]
  refine meets_bind (stepMachine_meets.mono (fun _ _ _ h => h) (fun _ _ _ h => h) (fun h => h)) ?_
  rintro code? cpu₁ l ⟨rfl, hle⟩
  cases code? with
  | some code => exact hle
  | none =>
    exact (runMachine_meets env ctx limitCycles (pause.map Nat.pred) cpu₁).mono
      (fun _ _ _ h => hle.trans h.2) (fun _ _ _ h hne => hle.trans (h.2 hne)) (fun h => h)

omit [Memory μ] in
theorem stopped_inj {result' : Except Error Int8} {posted' : List Message}
    (h : stopped result cpu posted = stopped result' cpu' posted') :
    result = result' ∧ cpu = cpu' ∧ posted = posted' := by
  cases result <;> cases result' <;> cases h <;> exact ⟨rfl, rfl, rfl⟩

omit [Memory μ] in
/-- An execution that has stopped is one with fewer cycles on the counter, unless the
counter overflows. -/
theorem of_agree_stopped {E : Error → List Message → Prop} {d c : ℕ}
    {o : Outcome Error Message (Cpu μ) Int8}
    (h : Agree E d c (stopped result cpu posted) o) :
    (result = .error .cyclesOverflow ∧ posted = []) ∨
      ∃ cpu', o = stopped result cpu' posted ∧ cpu = cpu'.shift d := by
  rcases h with ⟨cpu', hover⟩ | hagree
  · have hover' : stopped result cpu posted = stopped (.error .cyclesOverflow) cpu' [] := hover
    obtain ⟨rfl, rfl, rfl⟩ := stopped_inj hover'
    exact Or.inl ⟨rfl, rfl⟩
  · cases o with
    | panic =>
      cases result <;> cases hagree
    | ok code cpu' l =>
      obtain ⟨rfl, -, heq⟩ := hagree
      have heq' : stopped result cpu posted = stopped (.ok code) (cpu'.shift d) [] := heq
      obtain ⟨rfl, rfl, rfl⟩ := stopped_inj heq'
      exact Or.inr ⟨cpu', rfl, rfl⟩
    | err e cpu' l =>
      obtain ⟨-, -, heq⟩ := hagree
      have heq' : stopped result cpu posted = stopped (.error e) (cpu'.shift d) l := heq
      obtain ⟨rfl, rfl, rfl⟩ := stopped_inj heq'
      exact Or.inr ⟨cpu', rfl, rfl⟩

end Executions

/-- Everything up to the next instruction, and that instruction. -/
def instruct (env : Env μ κ) (r : Scheduler μ κ) : Outcome Error (Event μ) (Scheduler μ κ) ℕ :=
  match iterate none env (some 0) 0 r with
  | .err e r' l =>
    if e = .pause then (iterate none env (some 1) (2 ^ 64) r').after l else .err e r' l
  | o => o

def RootTerminated (r : Scheduler μ κ) : Prop :=
  r.states[rootVmId]? = some .terminated

/-- What a scheduler comes to one instruction after another: whether its root exits
or an error ends it, the scheduler left, and the messages answered. -/
def Completes (env : Env μ κ) :
    Scheduler μ κ → Except Error Unit → Scheduler μ κ → List Message → Prop :=
  Repeats (fun r => (instruct env r).view Event.message?) RootTerminated Error.Interrupt

/-- What an outcome comes to when it is carried on so. -/
def CarriesOn (env : Env μ κ) (o : Outcome Error (Event μ) (Scheduler μ κ) ℕ) :
    Except Error Unit → Scheduler μ κ → List Message → Prop :=
  Continues (fun r => (instruct env r).view Event.message?) RootTerminated Error.Interrupt
    (o.view Event.message?)

section Instructions

variable {final : Except Error Unit} {u : Scheduler μ κ} {messages : List Message}

theorem completes_iff (h : ¬ RootTerminated r) :
    Completes env r final u messages ↔ CarriesOn env (instruct env r) final u messages :=
  repeats_iff h

theorem carriesOn_congr {o o' : Outcome Error (Event μ) (Scheduler μ κ) ℕ}
    (h : o.view Event.message? = o'.view Event.message?) :
    CarriesOn env o final u messages ↔ CarriesOn env o' final u messages := by
  rw [CarriesOn, CarriesOn, h]

theorem carriesOn_after {o o' : Outcome Error (Event μ) (Scheduler μ κ) ℕ} {first : List Message}
    (h : o.view Event.message? = (o'.view Event.message?).after first) :
    CarriesOn env o final u messages ↔
      ∃ rest, CarriesOn env o' final u rest ∧ messages = first ++ rest := by
  rw [CarriesOn, h, continues_after]
  rfl

/-- An end that an interruption leads to. -/
theorem carriesOn_interrupted {e : Error} (he : e.Interrupt) {t : Scheduler μ κ} :
    CarriesOn env (.err e t l) final u messages ↔
      ∃ rest, Completes env t final u rest ∧ messages = l.filterMap Event.message? ++ rest := by
  constructor
  · rintro (⟨_, h⟩ | ⟨hnot, _⟩)
    · exact h
    · exact absurd he hnot
  · exact fun h => Or.inl ⟨he, h⟩

theorem carriesOn_exec {e : Error} (he : e.Interrupt) {t : Scheduler μ κ} {before after : Cpu μ} :
    CarriesOn env (.err e t [.exec id before after result posted]) final u messages ↔
      Completes env t final u messages := by
  rw [carriesOn_interrupted he]
  constructor
  · rintro ⟨rest, h, rfl⟩
    exact h
  · exact fun h => ⟨messages, h, rfl⟩

/-- Up to the next instruction there is the pass, and the cycles of the machine that
runs next are moved to the total. -/
theorem instruct_pass (h : Poised r₁ id m) (hio : processIo none env r = .ok ⟨⟩ r₁ l₁)
    (htotal : r₁.totalCycles + m.cycles < 2 ^ 64) :
    instruct env r = (iterate none env (some 1) (2 ^ 64) (r₁.flushed id m m.toCpu)).after
      (.iterate 0 :: (l₁ ++ [.exec id m.toCpu m.toCpu (.error .pause) []])) := by
  have hflush : concluded env r₁ id m (.error .pause) m.toCpu [] = .err .pause _ _ :=
    concluded_error (by decide) h.box htotal
  rw [instruct, iterate_stopped h hio runMachine_paused, hflush]
  rfl

theorem view_instruct_pass (h : Poised r₁ id m) (hio : processIo none env r = .ok ⟨⟩ r₁ l₁)
    (htotal : r₁.totalCycles + m.cycles < 2 ^ 64) :
    (instruct env r).view Event.message? =
      ((instruct env (r₁.flushed id m m.toCpu)).view Event.message?).after
        (l₁.filterMap Event.message?) := by
  have hpoised := h.flushed m.toCpu
  have hio' : processIo none env (r₁.flushed id m m.toCpu) = .ok ⟨⟩ _ [] :=
    processIo_idle hpoised.closed hpoised.paired
  rw [instruct_pass h hio htotal, instruct_pass hpoised hio' htotal, flushed_self hpoised rfl,
    view_after, view_after, after_after]
  congr 1
  simp only [List.filterMap_cons, List.filterMap_append, Event.message?, List.filterMap_nil,
    List.append_nil]

/-- A poised VM whose machine has no cycles runs its next instruction at once. -/
theorem instruct_poised (h : Poised r id m) (hcycles : m.cycles = 0)
    (htotal : r.totalCycles < 2 ^ 64)
    (hmachine : runMachine env ⟨id, r.totalCycles⟩ (2 ^ 64) (some 1) m.toCpu =
      stopped result cpu posted) :
    (instruct env r).view Event.message? =
      (concluded env r id m result cpu posted).view Event.message? := by
  have hio : processIo none env r = .ok ⟨⟩ r [] := processIo_idle h.closed h.paired
  rw [instruct_pass h hio (by rwa [hcycles]), flushed_self h hcycles,
    iterate_stopped h hio hmachine,
    view_after, view_after, after_after]
  exact after_nil _

/-- What an execution under any limit and pause leads to is what its instructions lead
to one after another. The induction is on the limit, which shrinks by the cycles of
the first instruction. -/
theorem poised_completes (h : Poised r id m) (hcycles : m.cycles = 0)
    (hmachine : runMachine env ⟨id, r.totalCycles⟩ limitCycles pause m.toCpu =
      stopped result cpu posted)
    (hresult : result ≠ .error .cyclesOverflow) (htotal : r.totalCycles + cpu.cycles < 2 ^ 64) :
    Completes env r final u messages ↔
      CarriesOn env (concluded env r id m result cpu posted) final u messages := by
  induction limitCycles using Nat.strong_induction_on generalizing r m pause cpu with
  | _ limitCycles ih =>
    have hinterrupted : ∀ e : Error, e.Interrupt →
        stopped result cpu posted = stopped (.error e) m.toCpu [] →
        (Completes env r final u messages ↔
          CarriesOn env (concluded env r id m result cpu posted) final u messages) := by
      intro e he hstopped
      obtain ⟨rfl, rfl, rfl⟩ := stopped_inj hstopped
      have hne : e ≠ .yield := by
        rintro rfl
        simp [Error.Interrupt, Error.yield] at he
      rw [concluded_error hne h.box htotal, flushed_self h hcycles, carriesOn_exec he]
    by_cases hpause : pause = some 0
    · rw [runMachine_eq, if_pos hpause] at hmachine
      exact hinterrupted .pause (Or.inr rfl) hmachine.symm
    by_cases hlimit : limitCycles < m.cycles + env.cost m.toCore
    · rw [runMachine_eq, if_neg hpause, if_pos hlimit] at hmachine
      exact hinterrupted .cyclesExceeded (Or.inl rfl) hmachine.symm
    have hless : r.totalCycles < 2 ^ 64 := by omega
    have hcost := env.cost_pos m.toCore
    have hone : ¬ 2 ^ 64 < m.cycles + env.cost m.toCore := by
      have hmeets : (runMachine env ⟨id, r.totalCycles⟩ limitCycles pause m.toCpu).Meets _ _ _ :=
        runMachine_cost hpause hlimit
      rw [hmachine] at hmeets
      have hle : m.cycles + env.cost m.toCore ≤ cpu.cycles := by
        cases result with
        | ok code => exact hmeets
        | error e => exact hmeets fun he => hresult (he ▸ rfl)
      omega
    rw [completes_iff h.running]
    by_cases hgoes : ∃ cpu₁ l, stepMachine env ⟨id, r.totalCycles⟩ m.toCpu = .ok none cpu₁ l
    · -- what is left is an execution of the same machine with its cycles flushed
      obtain ⟨cpu₁, l, hstep⟩ := hgoes
      obtain ⟨rfl, hcycles₁⟩ := stepMachine_cycles hstep
      rw [runMachine_step hpause hlimit hstep] at hmachine
      have hagree := runMachine_agree env id r.totalCycles cpu₁.cycles limitCycles
        (pause.map Nat.pred) { cpu₁ with cycles := 0 }
      have hshift : Cpu.shift cpu₁.cycles { cpu₁ with cycles := 0 } = cpu₁ := by
        simp only [Cpu.shift, Nat.zero_add]
      rw [hshift, hmachine] at hagree
      rcases of_agree_stopped hagree with hover | ⟨cpu', hmachine', rfl⟩
      · exact absurd hover.1 hresult
      rw [Cpu.shift_cycles] at htotal
      have hsum : r.totalCycles + cpu₁.cycles + cpu'.cycles < 2 ^ 64 := by omega
      have hrest := ih (limitCycles - cpu₁.cycles) (by omega) (h.flushed cpu₁) rfl hmachine' hsum
      have hinstruct := instruct_poised h hcycles hless
        ((runMachine_step (by simp) hone hstep).trans runMachine_paused)
      rw [concluded_error (by decide) h.box (by omega)] at hinstruct
      rw [carriesOn_congr hinstruct, carriesOn_congr (concluded_flushed hsum), ← hrest,
        carriesOn_exec (Or.inr rfl)]
    · -- the execution is the one instruction
      have hlast : runMachine env ⟨id, r.totalCycles⟩ limitCycles pause m.toCpu =
          runMachine env ⟨id, r.totalCycles⟩ (2 ^ 64) (some 1) m.toCpu :=
        runMachine_last hpause (by simp) hlimit hone fun cpu₁ l hstep => hgoes ⟨cpu₁, l, hstep⟩
      exact carriesOn_congr (instruct_poised h hcycles hless (hlast.symm.trans hmachine))

/-- A round that stops before any execution does so under every limit and pause. -/
theorem instruct_stopped {e : Error} {u' : Scheduler μ κ} (he : e ≠ .pause)
    (h : ∀ pause limitCycles, iterate none env pause limitCycles r =
      .err e u' (.iterate limitCycles :: l₁)) :
    (instruct env r).view Event.message? =
      (iterate none env pause limitCycles r).view Event.message? := by
  rw [instruct, h, h]
  dsimp only
  rw [if_neg he]
  rfl

/-- A round without an overflow: the execution reports none, and the total has none. -/
theorem stopped_not_overflow (hbox : r.messageBox = []) {ctx : MachineContext}
    (hmachine : runMachine env ctx limitCycles pause m.toCpu = stopped result cpu posted)
    (hover : ∀ u' l', concluded env r id m result cpu posted ≠ .err .cyclesOverflow u' l') :
    result ≠ .error .cyclesOverflow ∧ r.totalCycles + cpu.cycles < 2 ^ 64 := by
  have htotal : r.totalCycles + cpu.cycles < 2 ^ 64 := by
    by_contra hnot
    exact hover _ _ (by rw [concluded, if_neg hnot])
  refine ⟨?_, htotal⟩
  rintro rfl
  have hmeets := runMachine_meets env ctx limitCycles pause m.toCpu
  rw [hmachine] at hmeets
  obtain rfl : posted = [] := by
    rcases hmeets.1 with ⟨_, hposted⟩ | ⟨_, hposted⟩ | ⟨hyield, _⟩
    · exact hposted
    · exact hposted
    · cases hyield
  exact hover _ _ (concluded_error (by decide) hbox htotal)

/-- What a round under any limit and pause leads to is what the instructions lead to
one after another. -/
theorem iterate_completes (hinv : Invariant r) (hrun : Running r)
    (hpanic : iterate none env pause limitCycles r ≠ .panic)
    (hover : ∀ u' l', iterate none env pause limitCycles r ≠ .err .cyclesOverflow u' l') :
    Completes env r final u messages ↔
      CarriesOn env (iterate none env pause limitCycles r) final u messages := by
  rw [completes_iff hrun.root_state]
  cases hio : processIo none env r with
  | panic =>
    refine absurd ?_ hpanic
    rw [iterate_eq, emit_bind_run, bind_of_panic hio]
    rfl
  | err e u' l =>
    have hfatal := (regular_processIo (P := fun _ => False) (B := False) none env).fails r
    rw [hio] at hfatal
    have hne : e ≠ .pause := by
      rintro rfl
      exact hfatal.2.1 (Or.inr rfl)
    have hround : ∀ pause limitCycles, iterate none env pause limitCycles r =
        .err e u' (.iterate limitCycles :: l) := by
      intro pause limitCycles
      rw [iterate_eq, emit_bind_run, bind_of_err hio]
      rfl
    exact carriesOn_congr (instruct_stopped hne hround)
  | ok _ r₁ l₁ =>
    cases hid : vmIdToRun r₁.states with
    | none =>
      have hround : ∀ pause limitCycles, iterate none env pause limitCycles r =
          .err .deadlock r₁ (.iterate limitCycles :: (l₁ ++ [])) := by
        intro pause limitCycles
        rw [iterate_eq, emit_bind_run, bind_of_ok hio, get_bind_run, hid]
        rfl
      exact carriesOn_congr (instruct_stopped (by decide) hround)
    | some id =>
      obtain ⟨m, h⟩ := Poised.of_pass hinv hrun hio hid
      rcases panic_or_stopped (runMachine env ⟨id, r₁.totalCycles⟩ limitCycles pause m.toCpu) with
        hstop | ⟨result, cpu, posted, hmachine⟩
      · exact absurd (iterate_panic h hio hstop) hpanic
      rw [iterate_stopped h hio hmachine] at hover ⊢
      obtain ⟨hresult, htotal⟩ := stopped_not_overflow h.box hmachine fun u' l' hconcluded =>
        hover u' _ (by rw [hconcluded]; rfl)
      have hagree := runMachine_agree env id r₁.totalCycles m.cycles limitCycles pause
        { m.toCpu with cycles := 0 }
      have hshift : Cpu.shift m.cycles { m.toCpu with cycles := 0 } = m.toCpu := by
        simp only [Cpu.shift, Nat.zero_add]
      rw [hshift, hmachine] at hagree
      rcases of_agree_stopped hagree with hover | ⟨cpu', hmachine', rfl⟩
      · exact absurd hover.1 hresult
      rw [Cpu.shift_cycles] at htotal
      have hsum : r₁.totalCycles + m.cycles + cpu'.cycles < 2 ^ 64 := by omega
      have hpoised := h.flushed m.toCpu
      have hround : ((concluded env r₁ id m result (cpu'.shift m.cycles) posted).after
          (.iterate limitCycles :: l₁)).view Event.message? =
            ((concluded env (r₁.flushed id m m.toCpu) id
              ({ m.toCpu with cycles := 0, exitCode := m.exitCode } : Machine μ) result cpu'
                posted).view Event.message?).after (l₁.filterMap Event.message?) := by
        rw [view_after]
        exact congrArg (Outcome.after _) (concluded_flushed hsum)
      rw [carriesOn_after (view_instruct_pass h hio (by omega)), carriesOn_after hround]
      refine exists_congr fun rest => and_congr_left fun _ => ?_
      rw [← completes_iff hpoised.running]
      exact poised_completes hpoised rfl hmachine' hresult hsum

end Instructions

end Scheduler

end DeterministicScheduler
