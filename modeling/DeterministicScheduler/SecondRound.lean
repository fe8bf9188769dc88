import DeterministicScheduler.StepsTaken
import DeterministicScheduler.Transparency

/-!
# Calls that need a second round

Whether a call keeps its cycle budget is decided by the guest that runs first. If
this guest asks the scheduler for something, or exits without being the root, with
cycles of the budget left, then the call goes on with a budget of nothing. The
condition is stated on the scheduler before the call and on the instructions of that
guest, one after another.
-/
namespace DeterministicScheduler

open ProgramLogic Program Outcome Std

namespace Scheduler

variable {μ κ : Type} [Memory μ] {env : Env μ κ}

/-- A guest that hands control back: each instruction fits the limit and is executed
before a pause is seen, and the last one exits or asks the scheduler for something. -/
inductive HandsBack (env : Env μ κ) (ctx : MachineContext) (limitCycles : ℕ) :
    Pause → Cpu μ → Except Error Int8 → Cpu μ → List Message → Prop
  | exits {pause : Pause} {cpu cpu' : Cpu μ} {code : Int8} (hpause : pause ≠ some 0)
    (hfits : cpu.cycles + env.cost cpu.toCore ≤ limitCycles)
    (h : stepMachine env ctx cpu = .ok (some code) cpu' []) :
    HandsBack env ctx limitCycles pause cpu (.ok code) cpu' []
  | asks {pause : Pause} {cpu cpu' : Cpu μ} {posted : List Message} (hpause : pause ≠ some 0)
    (hfits : cpu.cycles + env.cost cpu.toCore ≤ limitCycles)
    (h : stepMachine env ctx cpu = .err .yield cpu' posted) :
    HandsBack env ctx limitCycles pause cpu (.error .yield) cpu' posted
  | next {pause : Pause} {cpu cpu₁ cpu' : Cpu μ} {result : Except Error Int8}
    {posted : List Message} (hpause : pause ≠ some 0)
    (hfits : cpu.cycles + env.cost cpu.toCore ≤ limitCycles)
    (h : stepMachine env ctx cpu = .ok none cpu₁ [])
    (hrest : HandsBack env ctx limitCycles (pause.map Nat.pred) cpu₁ result cpu' posted) :
    HandsBack env ctx limitCycles pause cpu result cpu' posted

variable {ctx : MachineContext} {limitCycles : ℕ} {pause : Pause} {cpu cpu' : Cpu μ}
  {result : Except Error Int8} {posted : List Message}

/-- An execution that ends in the guest's own doing. The induction is on the cycles that
the limit leaves. -/
theorem handsBack_of_runMachine (hresult : result.isOk = true ∨ result = .error .yield)
    (h : runMachine env ctx limitCycles pause cpu = stopped result cpu' posted) :
    HandsBack env ctx limitCycles pause cpu result cpu' posted := by
  induction hleft : limitCycles + 1 - cpu.cycles using Nat.strong_induction_on
    generalizing cpu pause with
  | _ left ih =>
    have hnot : ∀ e : Error, e.Interrupt → .err e cpu [] ≠ stopped result cpu' posted := by
      intro e he heq
      rcases hresult with hok | rfl
      · cases result with
        | ok code => cases heq
        | error e' => cases hok
      · cases heq
        simp [Error.Interrupt, Error.yield] at he
    rw [runMachine_eq] at h
    by_cases hpause : pause = some 0
    · rw [if_pos hpause] at h
      exact absurd h (hnot .pause (Or.inr rfl))
    rw [if_neg hpause] at h
    by_cases hlimit : limitCycles < cpu.cycles + env.cost cpu.toCore
    · rw [if_pos hlimit] at h
      exact absurd h (hnot .cyclesExceeded (Or.inl rfl))
    rw [if_neg hlimit, bind_run] at h
    have hfits := Nat.not_lt.mp hlimit
    cases hstep : stepMachine env ctx cpu with
    | panic =>
      rw [hstep] at h
      cases result <;> cases h
    | err e cpu₁ l =>
      rw [hstep] at h
      cases result with
      | ok code => cases h
      | error e' =>
        cases h
        obtain rfl : e = .yield := by simpa [Except.isOk, Except.toBool] using hresult
        exact .asks hpause hfits hstep
    | ok code? cpu₁ l =>
      obtain ⟨rfl, hlt⟩ := stepMachine_cycles hstep
      rw [hstep] at h
      cases code? with
      | some code =>
        cases result with
        | ok code' =>
          cases h
          exact .exits hpause hfits hstep
        | error e => cases h
      | none =>
        refine .next hpause hfits hstep (ih (limitCycles + 1 - cpu₁.cycles) (by omega) ?_ rfl)
        simpa using h

/-- A guest that hands control back is executed until it does. -/
theorem HandsBack.runMachine (h : HandsBack env ctx limitCycles pause cpu result cpu' posted) :
    runMachine env ctx limitCycles pause cpu = stopped result cpu' posted := by
  induction h with
  | exits hpause hfits h =>
    rw [runMachine_eq, if_neg hpause, if_neg (Nat.not_lt.mpr hfits), bind_of_ok h]
    rfl
  | asks hpause hfits h =>
    rw [runMachine_eq, if_neg hpause, if_neg (Nat.not_lt.mpr hfits), bind_of_err h]
    rfl
  | next hpause hfits h _ ih =>
    rw [runMachine_eq, if_neg hpause, if_neg (Nat.not_lt.mpr hfits), bind_of_ok h, after_nil]
    exact ih

/-- The root is terminated by the step in which it exits. -/
theorem Step.root_terminated {s s' : Scheduler μ κ} {before : Cpu μ} {code : Int8}
    {l : List (Event μ)} (h : Step env s (.exec rootVmId before cpu (.ok code) posted :: l) s') :
    s'.states[rootVmId]? = some .terminated := by
  generalize hlog : Event.exec rootVmId before cpu (.ok code) posted :: l = log at h
  cases h with
  | started => cases hlog
  | @closed _ state => cases state <;> cases hlog
  | transferred => cases hlog
  | interrupted => cases hlog
  | answered => cases hlog
  | exited _ hne =>
    cases hlog
    exact absurd rfl hne
  | rootExited => simp [completed]

theorem HandsBack.ends (h : HandsBack env ctx limitCycles pause cpu result cpu' posted) :
    result.isOk = true ∨ result = .error .yield := by
  induction h with
  | exits => exact Or.inl rfl
  | asks => exact Or.inr rfl
  | next _ _ _ _ ih => exact ih

/-- What the rounds of a call start from, with all machines instantiated: the root that
the call boots, or the VMs that there are. -/
inductive Starts (env : Env μ κ) (s : Scheduler μ κ) : Scheduler μ κ → Prop
  | booted {charge : ℕ} {machine : Machine μ} (hempty : s.states.isEmpty = true)
    (hversion : env.selectVersion = .ok ()) (hboot : Boots env rootArgs charge machine) :
    Starts env s (s.booted rootVmId machine [])
  | continued {r : Scheduler μ κ} (hroot : rootVmId ∈ s.states) (hres : Resident r)
    (hsame : SameVms env s r) : Starts env s r

/-- A first round that hands the call a second one: once the reads and writes that can
be finished are, the guest of the VM `id` runs, hands control back with another number
of cycles than the budget, and the scheduler can go on. -/
structure FirstRound (env : Env μ κ) (mode : RunMode) (r r₁ : Scheduler μ κ) (id : VmId)
    (m : Machine μ) (result : Except Error Int8) (cpu : Cpu μ) (posted : List Message) : Prop where
  pass : ∃ l, CarriedOut env r.closedVms r.pairedVms r l r₁
  selected : vmIdToRun r₁.states = some id
  machine : r₁.instantiated[id]? = some m
  handsBack : HandsBack env ⟨id, r₁.totalCycles⟩ mode.limit (mode.signal 0)
    m.toCpu result cpu posted
  unspent : cpu.cycles ≠ mode.limit
  goesOn : id = rootVmId → result = .error .yield
  answered : ∃ l r₂, Step env r₁ (.exec id m.toCpu cpu result posted :: l) r₂

/-- Whether a call needs a second round. -/
def NeedsSecondRound (env : Env μ κ) (mode : RunMode) (s : Scheduler μ κ) : Prop :=
  ∃ r r₁ id m result cpu posted, Starts env s r ∧ FirstRound env mode r r₁ id m result cpu posted

variable {cap : Option ℕ} {s s₁ r : Scheduler μ κ} {tr l₁ : List (Event μ)} {mode : RunMode}

omit [Memory μ] in
theorem bootRoot_version (h : bootRoot none env (new : Scheduler μ κ) = .ok ⟨⟩ r l₁) :
    env.selectVersion = .ok () := by
  cases hversion : env.selectVersion with
  | ok _ => rfl
  | error e =>
    have hnone : evictUntilRoom none env (new : Scheduler μ κ).instantiated.size new =
        .ok ⟨⟩ new [] := rfl
    have hempty : (new : Scheduler μ κ).states.isEmpty = true := rfl
    have hnext : checkedAdd (new : Scheduler μ κ).nextVmId 1 = some (rootVmId + 1) := rfl
    simp only [bootRoot, get_bind_run, hempty, if_true] at h
    obtain ⟨spawned, s₂, l₂, l₃, hboot, _, rfl⟩ := bind_eq_ok.mp h
    simp only [bootVm, get_bind_run] at hboot
    rw [bind_of_ok hnone, after_nil] at hboot
    simp only [get_bind_run, hnext, unwrap_some, pure_bind_run, modify_bind_run, createDummyVm,
      hversion] at hboot
    cases hboot

/-- A call of a reachable scheduler starts its rounds from the VMs there are. -/
theorem Reachable.starts (hcap : ∀ c, cap = some c → 2 ≤ c) (h : Reachable cap env tr s)
    (hboot : bootRoot cap env s = .ok ⟨⟩ s₁ l₁) :
    ∃ r tr₁, Starts env s r ∧ Refines cap env tr₁ s₁ r := by
  rcases h.driven hcap with ⟨rfl, _⟩ | ⟨r, hr⟩
  · obtain ⟨r, hr, hrefines⟩ := Refines.booted hcap hboot
    have hversion := bootRoot_version hr
    obtain ⟨charge, machine, hmachine, rfl, rfl⟩ := bootRoot_new_ok hr
    exact ⟨_, _, .booted rfl hversion hmachine, hrefines⟩
  · have hroot : rootVmId ∈ s.states := hr.1.same.states ▸ hr.2.invariant.root
    rw [bootRoot_noop hroot] at hboot
    cases hboot
    exact ⟨r, tr, .continued hroot hr.1.resident hr.1.same, hr⟩

/-- Where no second round is needed, the first round of a reachable scheduler suffices. -/
theorem Reachable.firstRoundSuffices (h : Reachable maxInstantiatedVms env tr s)
    (hneeds : ¬ NeedsSecondRound env mode s) :
      FirstRoundSuffices maxInstantiatedVms env mode s := by
  have hcap := two_le_maxInstantiatedVms
  intro s₁ l₁ state consumed s₂ l₂ hboot hroot hstate hiterate
  by_contra hnot
  rw [not_or] at hnot
  obtain ⟨r, tr₁, hstarts, hrefines⟩ := h.starts hcap hboot
  have hinv := hrefines.2.invariant
  have hrun : Running r := hinv.running (hrefines.1.same.states ▸ hroot) hstate
  obtain ⟨r₂, hr₂, _, hrefines₂⟩ := hrefines.iterated hcap hrun hiterate
  have hran : (iterate none env (mode.signal 0) mode.limit r).Meets _ _ _ :=
    iterate_ran hinv hrun (mode.signal 0) mode.limit
  rw [hr₂] at hran
  obtain ⟨id, m, result, cpu, rfl, hresult, r₁, l, l', posted, hio, _, hmachine, hstep, _⟩ := hran
  obtain ⟨m', hm', hexec⟩ := hstep.executes
  rw [← hm'] at hmachine hstep
  apply hneeds
  refine ⟨r, r₁, id, m', result, cpu, posted, hstarts, ⟨l, processIo_carriedOut hinv hrun hio⟩,
    hexec.selected, hexec.machine, handsBack_of_runMachine hresult hmachine, hnot.2, ?_,
    l', r₂, hstep⟩
  rintro rfl
  rcases hresult with hok | hyield
  · cases result with
    | error e => cases hok
    | ok code =>
      have hdone := hstep.root_terminated
      rw [← hrefines₂.1.same.states] at hdone
      exact absurd hdone hnot.1
  · exact hyield

/-- The end of a round that is answered, with the message in an empty box. -/
theorem processMessageBox_single {id : VmId} {m : Machine μ} {r₁ r₂ : Scheduler μ κ} {msg : Message}
    {l : List (Event μ)} (hinv : Invariant r₁)
    (h : processMessage none env msg (r₁.ran id m result cpu) = .ok ⟨⟩ r₂ l) :
    processMessageBox none env { r₁.executed id m result cpu [msg] with
      totalCycles := r₁.totalCycles + cpu.cycles } = .ok ⟨⟩ r₂ l := by
  have hbox : r₁.messageBox ++ [msg] = [msg] := by rw [hinv.box, List.nil_append]
  simp only [processMessageBox, get_bind_run, modify_bind_run, executed, hbox]
  have hran : ({ r₁ with
      totalCycles := r₁.totalCycles + cpu.cycles
      instantiated := r₁.instantiated.insert id
        { cpu with cycles := 0, exitCode := result.toOption.getD m.exitCode }
      messageBox := [] } : Scheduler μ κ) = r₁.ran id m result cpu := by
    simp only [ran, afterRun, hinv.box]
  rw [hran, forM_cons, bind_of_ok h, forM_nil_run]
  simp [after]

/-- A round whose execution has an answer goes through. -/
theorem Step.concluded {id : VmId} {m : Machine μ} {before : Cpu μ} {r₁ r₂ : Scheduler μ κ}
    {l : List (Event μ)} (hstep : Step env r₁ (.exec id before cpu result posted :: l) r₂)
    (hinv : Invariant r₁) (hversion : env.selectVersion = .ok ())
    (hm : r₁.instantiated[id]? = some m) (hresult : result.isOk = true ∨ result = .error .yield)
    (hroot : id = rootVmId → result = .error .yield) :
    ∃ l, concluded env r₁ id m result cpu posted = .ok cpu.cycles r₂ l := by
  generalize hlog : Event.exec id before cpu result posted :: l = log at hstep
  cases hstep with
  | started => cases hlog
  | @closed _ state =>
    cases state <;> cases hlog
  | transferred => cases hlog
  | @interrupted _ _ e _ hexec he =>
    cases hlog
    rcases hresult with hok | hyield
    · cases hok
    · cases hyield
      simp [Error.Interrupt, Error.yield] at he
  | answered hexec hid hchecked hanswer =>
    cases hlog
    obtain rfl := Option.some.inj (hm.symm.trans hexec.machine)
    have hlive := mem_iff_getElem?.mpr ⟨_, hexec.state⟩
    have hmessage := hanswer.processMessage (hinv.resident.ran hlive)
        hexec.state ran_machine hversion hid
    have hbox := (hanswer.invariant (hinv.ran hexec) hid hexec.state hchecked).box
    rw [Scheduler.concluded, if_pos hexec.total, finishRound,
      bind_of_ok (processMessageBox_single hinv hmessage), get_bind_run, hbox]
    exact ⟨_, rfl⟩
  | @exited _ _ code _ _ t hexec hne hwoken =>
    cases hlog
    obtain rfl := Option.some.inj (hm.symm.trans hexec.machine)
    have hlive := mem_iff_getElem?.mpr ⟨_, hexec.state⟩
    have hran : ({ r₁.executed id m (.ok code) cpu [] with
        totalCycles := r₁.totalCycles + cpu.cycles } : Scheduler μ κ) =
        r₁.ran id m (.ok code) cpu := by
      simp only [Scheduler.executed, Scheduler.ran, Scheduler.afterRun, List.append_nil]
    have hbox : (r₁.ran id m (.ok code) cpu).messageBox = [] := hinv.box
    have hterminated : terminateVm none env id code _ = _ :=
      hwoken.terminateVm (hinv.resident.ran hlive) hne
    rw [Scheduler.concluded, if_pos hexec.total, hran, finishRound,
      bind_of_ok (processMessageBox_empty hbox), get_bind_run, hbox]
    simp only [List.isEmpty_nil, if_true]
    rw [bind_of_ok hterminated]
    exact ⟨_, rfl⟩
  | rootExited hexec =>
    cases hlog
    cases hroot rfl

/-- A first round that hands the call a second one goes through in the reference. -/
theorem FirstRound.iterate {r₁ : Scheduler μ κ} {id : VmId} {m : Machine μ}
    (h : FirstRound env mode r r₁ id m result cpu posted) (hinv : Invariant r) (hrun : Running r)
    (hversion : env.selectVersion = .ok ()) :
    ∃ r₂ l, iterate none env (mode.signal 0) mode.limit r = .ok cpu.cycles r₂ l ∧
      r₂.states[rootVmId]? ≠ some .terminated := by
  obtain ⟨l, hpass⟩ := h.pass
  have hio := hpass.processIo hinv hrun
  have hinv₁ := Steps.invariant (processIo_passes hinv hrun hio).1.steps hinv
  obtain ⟨m', hpoised⟩ := Poised.of_pass hinv hrun hio h.selected
  obtain rfl := Option.some.inj (h.machine.symm.trans hpoised.machine)
  obtain ⟨l', r₂, hstep⟩ := h.answered
  obtain ⟨l'', hconcluded⟩ := hstep.concluded hinv₁ hversion h.machine h.handsBack.ends h.goesOn
  refine ⟨r₂, .iterate mode.limit :: l ++ l'', ?_, ?_⟩
  · rw [iterate_stopped hpoised hio h.handsBack.runMachine, hconcluded]
    rfl
  · intro hdone
    have hrun₁ := hinv₁.running (of_vmIdToRun h.selected) (by simp)
    obtain ⟨_, code, _, _, hlog, _⟩ := hstep.root_exited hinv₁ hrun₁ hdone
    simp only [List.cons.injEq, Event.exec.injEq] at hlog
    obtain ⟨⟨rfl, _, _, rfl, _⟩, _⟩ := hlog
    cases h.goesOn rfl

omit [Memory μ] in
theorem Running.of_same {r₀ : Scheduler μ κ} (h : Running r₀) (hsame : SameVms env r₀ r) :
    Running r := by
  have hlive : ∀ k, k ∈ r₀.states → k ∈ r.states := fun k hk => hsame.states ▸ hk
  have hpipes : ∀ (p : PipeId) k, r₀.pipes[p]? = some k → r.pipes[p]? = some k :=
    fun p k hp => hsame.pipes ▸ hp
  refine ⟨hlive _ h.root, ?_, ?_, ?_, hsame.nextPipeSlot ▸ h.slot_even,
    hsame.nextPipeSlot ▸ h.slot_ge, ?_⟩
  · intro k state hk
    rw [← hsame.states] at hk
    exact (h.allowed k state hk).congr hlive fun p hp => hpipes p k hp
  · rw [← hsame.states, ← hsame.terminatedVms, ← hsame.nextVmId]
    exact h.accounted
  · rw [← hsame.states, ← hsame.terminatedVms]
    exact h.separate
  · rw [← hsame.states, ← hsame.pipes, ← hsame.nextPipeSlot]
    exact h.owner

/-- Whatever the rounds of a call may start from, they do. -/
theorem Reachable.of_starts (hcap : ∀ c, cap = some c → 2 ≤ c) (h : Reachable cap env tr s)
    (hstarts : Starts env s r) :
    ∃ s₁ l₁, bootRoot cap env s = .ok ⟨⟩ s₁ l₁ ∧ Linked cap env s₁ r ∧ Invariant r ∧
      env.selectVersion = .ok () := by
  cases hstarts with
  | @booted charge machine hempty hversion hboot =>
    rcases h.driven hcap with ⟨rfl, _⟩ | ⟨r, hr⟩
    · have hrun : ∀ cap : Option ℕ, bootRoot cap env (new : Scheduler μ κ) =
          .ok ⟨⟩ (new.booted rootVmId machine []) [.boot rootVmId charge] := by
        intro cap
        have hvm : bootVm cap env rootArgs.dataPieceId rootArgs.offset rootArgs.length
            rootArgs.argv (new : Scheduler μ κ) = _ :=
          bootVm_run rfl hversion checkedAdd_rootVmId hboot
        rw [bootRoot, get_bind_run, if_pos hempty]
        exact bind_of_ok hvm
      obtain ⟨r, hr, hrefines⟩ := Refines.booted hcap (hrun cap)
      rw [hrun none] at hr
      cases hr
      exact ⟨_, _, hrun cap, hrefines.1, hrefines.2.invariant, hversion⟩
    · have hroot : rootVmId ∈ s.states := hr.1.same.states ▸ hr.2.invariant.root
      rw [ExtTreeMap.isEmpty_iff] at hempty
      simp [hempty] at hroot
  | continued hroot hres hsame =>
    obtain ⟨r₀, hlinked, hr₀⟩ := h.refines hcap hroot
    have hrel := hr₀.linked hlinked
    have hbox : r.messageBox = [] :=
      hsame.messageBox.symm.trans (hrel.same.messageBox.trans hrel.box)
    have hsame₀ : SameVms env r₀ r := hrel.same.symm.trans hsame
    have hrel' : Related cap env (fun _ => False) [] s r :=
      { hrel with resident := hres, same := hsame, live := by simp, box := hbox }
    refine ⟨s, [], bootRoot_noop hroot, hrel'.linked (by simp), ⟨hres, hbox, ?_⟩,
      hrel.stored.version _ hroot⟩
    rcases hr₀.invariant.phase with hrun | hdone
    · exact Or.inl (hrun.of_same hsame₀)
    · exact Or.inr (hsame₀.states.symm.trans hdone)

/-- After the root has exited no guest runs first. -/
theorem FirstRound.running {r₁ : Scheduler μ κ} {id : VmId} {m : Machine μ}
    (h : FirstRound env mode r r₁ id m result cpu posted) (hinv : Invariant r) : Running r := by
  refine hinv.phase.resolve_right fun hdone => ?_
  have hclosed : r.closedVms = [] := by
    rw [List.eq_nil_iff_forall_not_mem]
    intro k hk
    obtain ⟨state, hstate, hisClosed⟩ := mem_closedVms.mp hk
    rw [hdone.state hstate] at hisClosed
    cases hisClosed
  have hpaired : r.pairedVms = [] := by
    rw [List.eq_nil_iff_forall_not_mem]
    intro pair hpair
    obtain ⟨hread, _, p, _, hreading, _⟩ := of_mem_pairedVms hpair
    rw [hdone.state hread] at hreading
    cases hreading
  obtain ⟨l, hpass⟩ := h.pass
  rw [hclosed, hpaired] at hpass
  cases hpass
  cases hdone.state (of_vmIdToRun h.selected)

/-- A call crashes when its first round does. -/
theorem run_panic {state : VmState} (hboot : bootRoot cap env s = .ok ⟨⟩ s₁ l₁)
    (hroot : s₁.states[rootVmId]? = some state) (hstate : state ≠ .terminated)
    (h : iterate cap env (mode.signal 0) mode.limit s₁ = .panic) : run cap env mode s = .panic := by
  have hloop : runLoop cap env mode.signal (mode.limit + 2) 0 mode.limit s₁ = .panic := by
    rw [runLoop, get_bind_run, hroot, unwrap_some, pure_bind_run, if_neg hstate, bind_of_panic h]
  rw [run, bind_of_ok hboot, get_bind_run]
  split
  · rw [bind_of_panic hloop]
    rfl
  · rfl

/-- A first round that suffices leaves no need of a second one. -/
theorem Reachable.not_needsSecondRound (h : Reachable maxInstantiatedVms env tr s)
    (htotal : env.SnapshotsTotal) (hrun : run maxInstantiatedVms env mode s ≠ .panic)
    (hsuffices : FirstRoundSuffices maxInstantiatedVms env mode s) :
    ¬ NeedsSecondRound env mode s := by
  have hcap := two_le_maxInstantiatedVms
  rintro ⟨r, r₁, id, m, result, cpu, posted, hstarts, hfirst⟩
  obtain ⟨s₁, l₁, hboot, hlinked, hinv, hversion⟩ := h.of_starts hcap hstarts
  have hrunning := hfirst.running hinv
  obtain ⟨state, hroot⟩ := mem_iff_getElem?.mp hrunning.root
  have hstate : state ≠ .terminated := by
    rintro rfl
    exact hrunning.root_state hroot
  rw [← hlinked.same.states] at hroot
  obtain ⟨r₂, l, hiterate, hnot⟩ := hfirst.iterate hinv hrunning hversion
  have hsim := iterate_simulates hcap hlinked (mode.signal 0) mode.limit
  cases ho : iterate maxInstantiatedVms env (mode.signal 0) mode.limit s₁ with
  | panic => exact hrun (run_panic hboot hroot hstate ho)
  | err e s₂ l₂ =>
    rw [ho] at hsim
    rcases hsim with herror | ⟨_, herror, _⟩
    · exact htotal.no_error herror
    · rw [hiterate] at herror
      cases herror
  | ok consumed s₂ l₂ =>
    rw [ho] at hsim
    obtain ⟨r', hr', hlinked'⟩ := hsim
    rw [hiterate] at hr'
    cases hr'
    rcases hsuffices s₁ l₁ state _ s₂ _ hboot hroot hstate ho with hdone | hspent
    · rw [hlinked'.same.states] at hdone
      exact hnot hdone
    · exact hfirst.unspent hspent

/-- A call of a reachable scheduler keeps its cycle budget when it does not need a second
round: the rounds are limited by what is left of it, and it is only reported exceeded
when the next instruction would exceed it. Where snapshots can be taken, a call that
does not crash keeps it only then. -/
theorem budget_kept (env : Env μ κ) {tr : List (Event μ)} {s : Scheduler μ κ}
    (h : Reachable maxInstantiatedVms env tr s) (mode : RunMode) :
    (¬ NeedsSecondRound env mode s →
      BudgetKept env mode.limit (run maxInstantiatedVms env mode s)) ∧
    (env.SnapshotsTotal → run maxInstantiatedVms env mode s ≠ .panic →
      BudgetKept env mode.limit (run maxInstantiatedVms env mode s) →
      ¬ NeedsSecondRound env mode s) := by
  obtain ⟨hkept, honly⟩ := run_budget env s mode
  constructor
  · intro hneeds
    exact hkept (h.firstRoundSuffices hneeds)
  · intro htotal hrun hbudget
    exact h.not_needsSecondRound htotal hrun (honly hrun hbudget)

omit [Memory μ] in
/-- Cycles are only reported exceeded within a budget by a call that has not kept it. -/
theorem not_budgetKept {l : List (Event μ)} {s' : Scheduler μ κ} {budget : ℕ}
    (hcost : ∀ c, consumedCycles l + env.cost c ≤ budget) {α : Type} :
    ¬ BudgetKept env budget (.err .cyclesExceeded s' l : Outcome Error (Event μ) _ α) := by
  rintro ⟨_, hexceeds⟩
  obtain ⟨id, before, after, posted, _, hlt⟩ := hexceeds rfl
  exact absurd (hcost after.toCore) (Nat.not_le.mpr hlt)

/-- With 1000 cycles the call reports them exceeded after 11, once the root has asked for
a pipe. -/
theorem relay_exceeds : ∃ s' l, run maxInstantiatedVms relayEnv (.limitCycles 1000) new =
    .err .cyclesExceeded s' l ∧ consumedCycles l = 11 := by
  have htest : (run maxInstantiatedVms relayEnv (.limitCycles 1000) new).error?.any (fun r =>
      r.1 = .cyclesExceeded && consumedCycles r.2 = 11) = true := by
    decide +kernel
  obtain ⟨⟨e, l⟩, herror, hr⟩ := (Option.any_eq_true _ _).mp htest
  obtain ⟨s', hrun⟩ := (error?_eq_some _ _ _).mp herror
  simp only [Bool.and_eq_true, decide_eq_true_eq] at hr
  obtain ⟨rfl, hconsumed⟩ := hr
  exact ⟨s', l, hrun, hconsumed⟩

/-- A root that exits at once needs no second round, and one that asks for a pipe does. -/
theorem budget_kept_exit :
    BudgetKept (exitEnv 7) 1000 (run maxInstantiatedVms (exitEnv 7) (.limitCycles 1000) new) ∧
      NeedsSecondRound relayEnv (.limitCycles 1000) new := by
  constructor
  · apply (budget_kept (exitEnv 7) .refl (.limitCycles 1000)).1
    rintro ⟨r, r₁, id, m, result, cpu, posted, hstarts, hfirst⟩
    cases hstarts with
    | continued hroot => simp [new] at hroot
    | @booted charge machine hempty hversion hboot =>
      let r : Scheduler Ram (Cpu Ram) := new.booted rootVmId machine []
      have hclosed : r.closedVms = [] := rfl
      have hpaired : r.pairedVms = [] := rfl
      have hid : vmIdToRun r.states = some rootVmId := rfl
      obtain ⟨l, hpass⟩ := hfirst.pass
      rw [hclosed, hpaired] at hpass
      cases hpass
      obtain rfl := Option.some.inj (hfirst.selected.symm.trans hid)
      obtain rfl := hfirst.goesOn rfl
      -- the only instruction exits
      cases hfirst.handsBack with
      | asks _ _ hstep => cases hstep
      | next _ _ hstep => cases hstep
  · by_contra hneeds
    obtain ⟨s', l, hrun, hconsumed⟩ := relay_exceeds
    have hkept := (budget_kept relayEnv .refl (.limitCycles 1000)).1 hneeds
    rw [hrun] at hkept
    refine not_budgetKept (fun c => ?_) hkept
    have hcost : relayEnv.cost c = 1 := rfl
    rw [hconsumed, hcost]
    decide

/-- A call with a budget of 1000 cycles reports them exceeded after its first round,
in which the root has asked for a pipe and consumed 11. -/
theorem budget_kept_relay :
    ¬ BudgetKept relayEnv 1000 (run maxInstantiatedVms relayEnv (.limitCycles 1000) new) := by
  obtain ⟨s', l, hrun, hconsumed⟩ := relay_exceeds
  rw [hrun]
  refine not_budgetKept fun c => ?_
  have hcost : relayEnv.cost c = 1 := rfl
  rw [hconsumed, hcost]
  decide

end Scheduler

end DeterministicScheduler
