import DeterministicScheduler.Guest
import DeterministicScheduler.History
import DeterministicScheduler.Reachability

/-!
# Calls on a completed scheduler

When the root exits its machine keeps the exit code, and further calls return it
again. A full suspension keeps the root as a snapshot, in which there is no exit
code, and the next call crashes on the machine it does not find.
-/
namespace DeterministicScheduler.Scheduler

open ProgramLogic Program Outcome Std

variable {μ κ : Type} [Memory μ] {cap : Option ℕ} {env : Env μ κ} {s s' w r r' : Scheduler μ κ}
  {tr l : List (Event μ)} {id : VmId}

omit [Memory μ] in
theorem settles_ne_terminated {terminatedVms : HashMap VmId Int8} {v : VmId} {msg : Message}
    {state : VmState} (h : Settles terminatedVms v msg state l) : state ≠ .terminated := by
  rintro rfl
  cases h

/-- The root is terminated only by the step in which it exits. -/
theorem Step.root_exited (h : Step env s l s') (hinv : Invariant s) (hrun : Running s)
    (hroot : s'.states[rootVmId]? = some .terminated) :
    ∃ m code cpu, Executes env s rootVmId m (.ok code) cpu [] ∧
      l = [.exec rootVmId m.toCpu cpu (.ok code) []] ∧
      s' = (s.ran rootVmId m (.ok code) cpu).completed code := by
  have hold : s.states[rootVmId]? ≠ some .terminated := hrun.root_state
  have hinv' := h.invariant hinv
  cases h with
  | started => exact absurd hroot hold
  | closed =>
    simp only [settled, getElem?_insert] at hroot
    split at hroot
    · cases hroot
    · exact absurd hroot hold
  | @transferred rd wr =>
    have hnext : wr.next rd ≠ .terminated := by
      rw [Write.next]
      split <;> simp
    simp only [settled, accessed, getElem?_insert] at hroot
    split at hroot
    · exact absurd (Option.some.inj hroot) hnext
    split at hroot
    · cases hroot
    · exact absurd hroot hold
  | interrupted hexec => exact absurd hroot hold
  | answered hexec hid hchecked hanswer =>
    have hlive := mem_iff_getElem?.mpr ⟨_, hexec.state⟩
    obtain ⟨state, _, hstate, _, hsettles, _⟩ :=
      (hanswer.answers (hinv.resident.ran hlive) ran_machine hexec.state hid).sender
    exact absurd hroot (hinv'.running hstate (settles_ne_terminated hsettles)).root_state
  | @exited id m code cpu l s' hexec hne hwoken =>
    have hstates := hwoken.frame.2.2.2.2.2.2.2.1 rootVmId
    simp only [purged, getElem?_erase, if_neg hne.symm, hstates] at hroot
    split at hroot
    · cases hroot
    · exact absurd hroot hold
  | rootExited hexec => exact ⟨_, _, _, hexec, rfl, rfl⟩

/-- Running a live VM instantiates it and executes its machine. -/
theorem Related.runVm_ok (hcap : ∀ c, cap = some c → 2 ≤ c) {P : VmId → Prop} {box : List Message}
    (h : Related cap env P box w r) (hid : id ∈ r.states) {pause : Pause}
    {limitCycles consumedCycles : ℕ} {result : Except Error Int8}
    (hrun : runVm cap env id pause limitCycles w = .ok (result, consumedCycles) s' l) :
    ∃ t m cpu posted, SameVms env w t ∧ t.instantiated[id]? = some m ∧
      runMachine env ⟨id, t.totalCycles⟩ limitCycles pause m.toCpu = stopped result cpu posted ∧
      consumedCycles = cpu.cycles ∧
      s' = { t.executed id m result cpu posted with totalCycles := t.totalCycles + cpu.cycles } ∧
      l = [.exec id m.toCpu cpu result posted] := by
  have hensure : (ensureVmsInstantiated cap env [id] w).Meets _ _ _ :=
    ensureVmsInstantiated_meets h.stored (by simpa [h.same.states] using hid) (by simp)
      fun c hc => (hcap c hc).trans' (by simp)
  cases ho : ensureVmsInstantiated cap env [id] w with
  | panic =>
    rw [runVm, bind_of_panic ho] at hrun
    cases hrun
  | err e t l₁ =>
    rw [runVm, bind_of_err ho] at hrun
    cases hrun
  | ok _ t l₁ =>
    rw [ho] at hensure
    obtain ⟨rfl, _, hsame, hin⟩ := hensure
    obtain ⟨m, hm⟩ := mem_iff_getElem?.mp (hin id (by simp))
    rw [runVm_run ho hm] at hrun
    cases hmachine : runMachine env ⟨id, t.totalCycles⟩ limitCycles pause m.toCpu with
    | panic =>
      rw [hmachine] at hrun
      cases hrun
    | ok code cpu posted =>
      rw [hmachine] at hrun
      obtain ⟨rfl, rfl, rfl, rfl⟩ := execution_ok hrun
      exact ⟨t, m, cpu, posted, hsame, hm, hmachine, rfl, rfl, rfl⟩
    | err e cpu posted =>
      rw [hmachine] at hrun
      obtain ⟨rfl, rfl, rfl, rfl⟩ := execution_ok hrun
      exact ⟨t, m, cpu, posted, hsame, hm, hmachine, rfl, rfl, rfl⟩

/-- What the root leaves behind when it exits: its machine with the exit code. -/
def RootExited (s : Scheduler μ κ) (code : Int8) : Prop :=
  s.terminatedVms[rootVmId]? = some code ∧
    ∃ m, s.instantiated[rootVmId]? = some m ∧ m.exitCode = code

theorem terminateVm_root (hcap : ∀ c, cap = some c → 2 ≤ c) {code : Int8} {m : Machine μ}
    (hm : s.instantiated[rootVmId]? = some m) (hcode : m.exitCode = code)
    (h : terminateVm cap env rootVmId code s = .ok ⟨⟩ s' l) : RootExited s' code := by
  have hin : rootVmId ∈ s.instantiated := mem_iff_getElem?.mpr ⟨m, hm⟩
  have hensure : ensureVmsInstantiated cap env [rootVmId]
      { s with terminatedVms := s.terminatedVms.insert rootVmId code } = .ok ⟨⟩ _ [] :=
    ensureVmsInstantiated_noop (by simpa using hin) fun c hc => (hcap c hc).trans' (by simp)
  rw [terminateVm, modify_bind_run, if_pos rfl, bind_of_ok hensure] at h
  cases h
  refine ⟨by simp, m, ?_, hcode⟩
  simp only [getElem?_filter_key, if_pos, hm]

/-- A step that begins with an execution runs the selected machine. -/
theorem Step.executes {before cpu : Cpu μ} {result : Except Error Int8} {posted : List Message}
    (h : Step env s (.exec id before cpu result posted :: l) s') :
    ∃ m, m.toCpu = before ∧ Executes env s id m result cpu posted := by
  generalize hlog : Event.exec id before cpu result posted :: l = log at h
  cases h with
  | started => cases hlog
  | @closed _ state =>
    cases state <;> cases hlog
  | transferred => cases hlog
  | interrupted hexec =>
    cases hlog
    exact ⟨_, rfl, hexec⟩
  | answered hexec =>
    cases hlog
    exact ⟨_, rfl, hexec⟩
  | exited hexec =>
    cases hlog
    exact ⟨_, rfl, hexec⟩
  | rootExited hexec =>
    cases hlog
    exact ⟨_, rfl, hexec⟩

theorem processMessageBox_empty (h : s.messageBox = []) :
    processMessageBox cap env s = .ok ⟨⟩ s [] := by
  have hs : ({ s with messageBox := [] } : Scheduler μ κ) = s := by
    cases s
    simp only at h
    rw [h]
  simp only [processMessageBox, get_bind_run, modify_bind_run, h, forM_nil_run, hs]

/-- A round after which the root is terminated ends with its exit. -/
theorem Ran.root_exited {pause : Pause} {limitCycles : ℕ} {m : Machine μ}
    {result : Except Error Int8} {cpu : Cpu μ}
    (h : Ran env pause limitCycles s s' l id m result cpu) (hinv : Invariant s)
    (hroot : s'.states[rootVmId]? = some .terminated) :
    ∃ s₁ l₁ code, processIo none env s = .ok ⟨⟩ s₁ l₁ ∧ id = rootVmId ∧ result = .ok code ∧
      l = .iterate limitCycles :: (l₁ ++ [.exec rootVmId m.toCpu cpu (.ok code) []]) := by
  obtain ⟨s₁, l₁, l₂, posted, hio, hpass, _, hstep, rfl⟩ := h
  have hinv₁ := Steps.invariant hpass.steps hinv
  obtain ⟨m', _, hexec⟩ := hstep.executes
  have hrun₁ : Running s₁ := hinv₁.running hexec.state (by simp)
  obtain ⟨m₀, code, cpu₀, _, hlog, _⟩ := hstep.root_exited hinv₁ hrun₁ hroot
  simp only [List.cons.injEq, Event.exec.injEq] at hlog
  obtain ⟨⟨rfl, _, _, rfl, rfl⟩, rfl⟩ := hlog
  exact ⟨s₁, l₁, code, hio, rfl, rfl, rfl⟩

/-- The bounded scheduler keeps the machine of a root that exits. -/
theorem Refines.root_exited (hcap : ∀ c, cap = some c → 2 ≤ c) (h : Refines cap env tr s r)
    (hrun : Running r) {pause : Pause} {limitCycles consumedCycles : ℕ}
    (hiterate : iterate cap env pause limitCycles s = .ok consumedCycles s' l)
    (hroot : s'.states[rootVmId]? = some .terminated) : ∃ code, RootExited s' code := by
  obtain ⟨r', hr', _, hlinked, _⟩ := h.iterated hcap hrun hiterate
  have hran : (iterate none env pause limitCycles r).Meets _ _ _ :=
    iterate_ran h.2.invariant hrun pause limitCycles
  rw [hr'] at hran
  obtain ⟨id, m, result, cpu, _, _, hran⟩ := hran
  obtain ⟨r₁, l₁, code, hio, rfl, rfl, hlog⟩ :=
    hran.root_exited h.2.invariant (hlinked.same.states ▸ hroot)
  rw [iterate, emit_bind_run, after_eq_ok] at hiterate
  obtain ⟨l', hbody, rfl⟩ := hiterate
  obtain ⟨_, s₁, l₁', l₂, hio', hselect, hl'⟩ := bind_eq_ok.mp hbody
  subst hl'
  have hsim := tracks_processIo hcap s r (h.2.linked h.1)
  rw [hio'] at hsim
  obtain ⟨r₂, hr₂, h₁⟩ := hsim
  rw [hio] at hr₂
  cases hr₂
  rw [get_bind_run] at hselect
  cases hid : vmIdToRun s₁.states with
  | none =>
    rw [hid] at hselect
    cases hselect
  | some id' =>
    rw [hid] at hselect
    obtain ⟨⟨result', consumed'⟩, s₂, l₃, l₄, hrunVm, hanswer, hl₂⟩ := bind_eq_ok.mp hselect
    subst hl₂
    have hlive : id' ∈ r₁.states := h₁.same.states ▸ mem_iff_getElem?.mpr ⟨_, of_vmIdToRun hid⟩
    obtain ⟨t, m', cpu', posted', hsame, _, _, _, rfl, rfl⟩ := h₁.runVm_ok hcap hlive hrunVm
    simp only [List.singleton_append, List.cons.injEq, true_and, List.append_cancel_left_eq,
      Event.exec.injEq] at hlog
    obtain ⟨⟨rfl, _, rfl, rfl, rfl⟩, _⟩ := hlog
    have hbox : t.messageBox = [] := by
      rw [← hsame.messageBox, h₁.same.messageBox, h₁.box]
    have hmessages : processMessageBox cap env { t.executed rootVmId m' (.ok code) cpu' [] with
        totalCycles := t.totalCycles + cpu'.cycles } = .ok ⟨⟩ _ [] :=
      processMessageBox_empty (by simp [executed, hbox])
    dsimp only at hanswer
    rw [bind_of_ok hmessages, after_nil, get_bind_run] at hanswer
    simp only [executed, hbox, List.append_nil, List.isEmpty_nil, if_true] at hanswer
    obtain ⟨_, s₃, l₅, l₆, hterminate, hpure, _⟩ := bind_eq_ok.mp hanswer
    cases hpure
    refine ⟨code, terminateVm_root hcap (m := { cpu' with cycles := 0, exitCode := code }) ?_ rfl
      hterminate⟩
    simp only [getElem?_insert, if_pos]
    rfl

/-- While the machine of a root that has exited is instantiated, it has the exit code. -/
def KeepsExitCode (s : Scheduler μ κ) : Prop :=
  s.states[rootVmId]? = some .terminated → ∀ m, s.instantiated[rootVmId]? = some m →
    s.terminatedVms[rootVmId]? = some m.exitCode

omit [Memory μ] in
theorem RootExited.keeps {code : Int8} (h : RootExited s code) : KeepsExitCode s := by
  obtain ⟨hkept, m, hm, rfl⟩ := h
  intro _ m' hm'
  rw [hm, Option.some.injEq] at hm'
  rw [hkept, hm']

theorem Move.keepsExitCode (hcap : ∀ c, cap = some c → 2 ≤ c) (h : Move cap env s l s')
    (hs : Driven cap env tr s) (hkeeps : KeepsExitCode s) : KeepsExitCode s' := by
  have hrefines : ∀ {state : VmState}, s.states[rootVmId]? = some state → state ≠ .terminated →
      ∃ r, Refines cap env tr s r ∧ Running r := by
    intro state hroot hstate
    rcases hs with ⟨rfl, _⟩ | ⟨r, hr⟩
    · simp [new] at hroot
    · exact ⟨r, hr, hr.2.invariant.running (hr.1.same.states ▸ hroot) hstate⟩
  cases h with
  | booted hboot =>
    rcases hs with ⟨rfl, _⟩ | ⟨r, hr⟩
    · obtain ⟨r, hr, hr'⟩ := Refines.booted hcap hboot
      obtain ⟨charge, machine, _, _, rfl⟩ := bootRoot_new_ok hr
      intro hroot
      rw [hr'.1.same.states] at hroot
      simp only [Scheduler.booted, getElem?_insert, if_pos] at hroot
      cases hroot
    · rw [bootRoot_noop (hr.1.same.states ▸ hr.2.invariant.root)] at hboot
      cases hboot
      exact hkeeps
  | iterated hroot hstate hiterate =>
    obtain ⟨r, hr, hrun⟩ := hrefines hroot hstate
    intro hroot'
    obtain ⟨code, hexited⟩ := hr.root_exited hcap hrun hiterate hroot'
    exact hexited.keeps hroot'
  | @interrupted _ _ pause limitCycles e hroot hstate hiterate he =>
    obtain ⟨r, hr, hrun⟩ := hrefines hroot hstate
    obtain ⟨r', hr', _, hlinked, _⟩ := hr.interrupted hcap hrun hiterate he
    have hran : (iterate none env pause limitCycles r).Meets _ _ _ :=
      iterate_ran hr.2.invariant hrun pause limitCycles
    rw [hr'] at hran
    intro hroot'
    rw [hlinked.same.states] at hroot'
    rcases hran with ⟨_, _, _, _, _, hnot⟩ | hfatal | ⟨rfl, _⟩
    · exact absurd hroot' hnot
    · exact absurd he hfatal.2.1
    · simp [Error.Interrupt, Error.deadlock] at he
  | suspended hsuspend =>
    intro _ m hm
    simp [resume] at hm

theorem Reachable.keepsExitCode (hcap : ∀ c, cap = some c → 2 ≤ c) (h : Reachable cap env tr s) :
    KeepsExitCode s := by
  have hnew : Driven cap env ([] : List (Event μ)) (new : Scheduler μ κ) ∧
      KeepsExitCode (new : Scheduler μ κ) := ⟨Or.inl ⟨rfl, rfl⟩, by simp [KeepsExitCode, new]⟩
  exact (h.keeps (I := fun tr s => Driven cap env tr s ∧ KeepsExitCode s) (fun _ _ _ _ hs hmove =>
    ⟨hmove.driven hcap hs.1, hmove.keepsExitCode hcap hs.1 hs.2⟩) hnew).2

theorem runLoop_completed {pause : ℕ → Pause} {fuel k limitCycles : ℕ}
    (h : runLoop cap env pause fuel k limitCycles s = .ok (some ()) s' l) :
    s'.states[rootVmId]? = some .terminated := by
  induction fuel generalizing k limitCycles s l with
  | zero => cases h
  | succ fuel ih =>
    simp only [runLoop, get_bind_run] at h
    cases hroot : s.states[rootVmId]? with
    | none =>
      rw [hroot] at h
      cases h
    | some state =>
      rw [hroot, unwrap_some, pure_bind_run] at h
      by_cases hstate : state = .terminated
      · rw [if_pos hstate] at h
        cases h
        rw [hroot, hstate]
      · rw [if_neg hstate] at h
        obtain ⟨consumedCycles, s₁, l₁, l₂, _, hrest, _⟩ := bind_eq_ok.mp h
        simp only [checkedSubCycles, if_pos le_rfl] at hrest
        exact ih hrest

/-- A call that returns an exit code leaves the root terminated and instantiated. -/
theorem run_returns {mode : RunMode} {result : Int8 × ℕ}
    (h : run cap env mode s = .ok result s' l) :
    s'.states[rootVmId]? = some .terminated ∧
      ∃ m, s'.instantiated[rootVmId]? = some m ∧ result = (m.exitCode, s'.totalCycles) := by
  rw [run] at h
  obtain ⟨_, s₁, l₁, l₂, _, hloop, _⟩ := bind_eq_ok.mp h
  rw [get_bind_run] at hloop
  split at hloop
  · obtain ⟨finished, s₂, l₃, l₄, hrun, hreturn, _⟩ := bind_eq_ok.mp hloop
    cases finished with
    | none => cases hreturn
    | some _ =>
      have hroot := runLoop_completed hrun
      cases hm : s₂.instantiated[rootVmId]? with
      | none =>
        dsimp only at hreturn
        rw [bind_of_panic (machine_panic hm)] at hreturn
        cases hreturn
      | some m =>
        dsimp only at hreturn
        rw [bind_of_ok (machine_run hm)] at hreturn
        cases hreturn
        exact ⟨hroot, m, hm, rfl⟩
  · cases hloop

/-- A call on a completed scheduler only looks for the machine of the root. -/
theorem run_completed (hroot : s.states[rootVmId]? = some .terminated) (mode : RunMode) :
    run cap env mode s =
      (do return ((← machine rootVmId).exitCode, s.totalCycles) : SchedulerM μ κ _) s := by
  have hin : rootVmId ∈ s.states := mem_iff_getElem?.mpr ⟨_, hroot⟩
  have hloop : runLoop cap env mode.signal (mode.limit + 2) 0 mode.limit s = .ok (some ())
      s [] := by
    simp only [runLoop, get_bind_run, hroot, unwrap_some, pure_bind_run, if_true, pure_run]
  rw [run, bind_of_ok (bootRoot_noop hin), after_nil, get_bind_run,
    if_pos (ExtTreeMap.contains_iff_mem.mpr hin), bind_of_ok hloop, after_nil]
  dsimp only
  cases hm : s.instantiated[rootVmId]? with
  | none => rw [bind_of_panic (machine_panic hm), bind_of_panic (machine_panic hm)]
  | some m => rw [bind_of_ok (machine_run hm), bind_of_ok (machine_run hm), get_bind_run]

/-- What a driver may do between two answers: call the entry point, or suspend the
scheduler and resume it. -/
inductive Call where
  | run (mode : RunMode)
  | suspend

/-- Whether calls go through without a crash and each returns `result`. -/
def StaysCompleted (cap : Option ℕ) (env : Env μ κ) (result : Int8 × ℕ) :
    List Call → Scheduler μ κ → Prop
  | [], _ => True
  | .run mode :: calls, s => ∃ s' l, run cap env mode s = .ok result s' l ∧
      StaysCompleted cap env result calls s'
  | .suspend :: calls, s => ∃ full s' l, suspend env s = .ok full s' l ∧
      StaysCompleted cap env result calls (resume full)

/-- Whether nothing is run any more once the scheduler has been suspended. -/
def RunsBeforeSuspending : List Call → Prop
  | [] => True
  | .run _ :: calls => RunsBeforeSuspending calls
  | .suspend :: calls => ∀ call ∈ calls, call = .suspend

/-- A scheduler with a booted root can be suspended. The one resumed holds the same
VMs, none of them instantiated. -/
theorem Reachable.suspends (hcap : ∀ c, cap = some c → 2 ≤ c) (htotal : env.SnapshotsTotal)
    (h : Reachable cap env tr s) (hroot : rootVmId ∈ s.states) :
    ∃ full s', suspend env s = .ok full s' [] ∧ Reachable cap env tr (resume full) ∧
      (resume full : Scheduler μ κ).states = s.states ∧
      (resume full : Scheduler μ κ).instantiated = ∅ := by
  obtain ⟨r, hr⟩ := h.refines hcap hroot
  have hmeets := suspend_meets (hr.2.linked hr.1).stored
  cases hsuspend : suspend env s with
  | panic =>
    rw [hsuspend] at hmeets
    exact hmeets.elim
  | err e s' l =>
    rw [hsuspend] at hmeets
    exact absurd hmeets htotal.no_error
  | ok full s' l =>
    rw [hsuspend] at hmeets
    obtain ⟨rfl, hresumed⟩ := hmeets
    have hreach := h.tail (.suspended hsuspend)
    rw [List.append_nil] at hreach
    exact ⟨full, s', rfl, hreach, hresumed.same.states.symm, hresumed.instantiated⟩

/-- After a suspension a completed scheduler can only be suspended again. -/
theorem staysCompleted_suspended (hcap : ∀ c, cap = some c → 2 ≤ c) (htotal : env.SnapshotsTotal)
    {result : Int8 × ℕ} (h : Reachable cap env tr s)
    (hroot : s.states[rootVmId]? = some .terminated) (hnone : s.instantiated = ∅)
    (calls : List Call) :
    StaysCompleted cap env result calls s ↔ ∀ call ∈ calls, call = .suspend := by
  induction calls generalizing tr s with
  | nil => exact iff_of_true trivial (by simp)
  | cons call calls ih =>
    cases call with
    | run mode =>
      have hpanic : run cap env mode s = .panic := by
        rw [run_completed hroot, bind_of_panic (machine_panic (by simp [hnone]))]
      apply iff_of_false
      · rintro ⟨s', l, hrun, _⟩
        rw [hpanic] at hrun
        cases hrun
      · intro hall
        cases hall (.run mode) (by simp)
    | suspend =>
      obtain ⟨full, s', hsuspend, hreach, hstates, hnone'⟩ :=
        h.suspends hcap htotal (mem_iff_getElem?.mpr ⟨_, hroot⟩)
      have hrest := ih hreach (hstates ▸ hroot) hnone'
      rw [List.forall_mem_cons, ← hrest]
      constructor
      · rintro ⟨full', s'', l, hsuspend', hstays⟩
        rw [hsuspend] at hsuspend'
        cases hsuspend'
        exact ⟨rfl, hstays⟩
      · rintro ⟨_, hstays⟩
        exact ⟨full, s', [], hsuspend, hstays⟩

/-- Before a suspension every call on a completed scheduler returns the same. -/
theorem staysCompleted_instantiated (hcap : ∀ c, cap = some c → 2 ≤ c)
    (htotal : env.SnapshotsTotal) (h : Reachable cap env tr s)
    (hroot : s.states[rootVmId]? = some .terminated) {m : Machine μ}
    (hm : s.instantiated[rootVmId]? = some m) (calls : List Call) :
    StaysCompleted cap env (m.exitCode, s.totalCycles) calls s ↔ RunsBeforeSuspending calls := by
  induction calls with
  | nil => exact Iff.rfl
  | cons call calls ih =>
    cases call with
    | run mode =>
      have hrun : run cap env mode s = .ok (m.exitCode, s.totalCycles) s [] := by
        rw [run_completed hroot, bind_of_ok (machine_run hm)]
        rfl
      rw [RunsBeforeSuspending, ← ih]
      constructor
      · rintro ⟨s', l, hrun', hstays⟩
        rw [hrun] at hrun'
        cases hrun'
        exact hstays
      · exact fun hstays => ⟨s, [], hrun, hstays⟩
    | suspend =>
      obtain ⟨full, s', hsuspend, hreach, hstates, hnone⟩ :=
        h.suspends hcap htotal (mem_iff_getElem?.mpr ⟨_, hroot⟩)
      have hrest : StaysCompleted cap env (m.exitCode, s.totalCycles) calls (resume full) ↔ _ :=
        staysCompleted_suspended hcap htotal hreach (hstates ▸ hroot) hnone calls
      rw [RunsBeforeSuspending, ← hrest]
      constructor
      · rintro ⟨full', s'', l, hsuspend', hstays⟩
        rw [hsuspend] at hsuspend'
        cases hsuspend'
        exact hstays
      · exact fun hstays => ⟨full, s', [], hsuspend, hstays⟩

/-- Once a call has returned an exit code, which is the one recorded for the root,
further calls go through and return the same result exactly when the scheduler is
not run any more after it has been suspended. -/
theorem completed_stays (env : Env μ κ) (htotal : env.SnapshotsTotal) {tr : List (Event μ)}
    {s s' : Scheduler μ κ} {l : List (Event μ)} {mode : RunMode} {code : Int8} {total : ℕ}
    (h : Reachable maxInstantiatedVms env tr s)
    (hrun : run maxInstantiatedVms env mode s = .ok (code, total) s' l) (calls : List Call) :
    s'.terminatedVms[rootVmId]? = some code ∧
      (StaysCompleted maxInstantiatedVms env (code, total) calls s' ↔
        RunsBeforeSuspending calls) := by
  have hreach := h.run_ok hrun
  obtain ⟨hroot, m, hm, heq⟩ := run_returns hrun
  obtain ⟨rfl, rfl⟩ := Prod.mk.inj heq
  constructor
  · exact hreach.keepsExitCode two_le_maxInstantiatedVms hroot m hm
  · exact staysCompleted_instantiated two_le_maxInstantiatedVms htotal hreach hroot hm calls

/-- A call on a new scheduler whose root exits at once. -/
theorem exits : ∃ s' l,
    run maxInstantiatedVms (exitEnv 7) (.limitCycles 9) new = .ok (7, 1) s' l := by
  apply (Outcome.value?_eq_some _ _).mp
  decide +kernel

/-- A completed scheduler that is run twice more and then suspended. -/
theorem completed_stays_run : ∃ s' l,
    run maxInstantiatedVms (exitEnv 7) (.limitCycles 9) new = .ok (7, 1) s' l ∧
      s'.terminatedVms[rootVmId]? = some 7 ∧
      StaysCompleted maxInstantiatedVms (exitEnv 7) (7, 1)
        [.run (.limitCycles 0), .run (.pause fun _ => none), .suspend] s' := by
  obtain ⟨s', l, hrun⟩ := exits
  obtain ⟨hcode, hstays⟩ := completed_stays (exitEnv 7) (scriptEnv_snapshotsTotal _ _ _ _) .refl
    hrun [.run (.limitCycles 0), .run (.pause fun _ => none), .suspend]
  exact ⟨s', l, hrun, hcode, hstays.mpr (by simp [RunsBeforeSuspending])⟩

/-- A completed scheduler that is suspended, resumed and run crashes. -/
theorem completed_stays_suspended : ∃ s' l full s'' l',
    run maxInstantiatedVms (exitEnv 7) (.limitCycles 9) new = .ok (7, 1) s' l ∧
      suspend (exitEnv 7) s' = .ok full s'' l' ∧
      run maxInstantiatedVms (exitEnv 7) (.limitCycles 9) (resume full) = .panic := by
  obtain ⟨s', l, hrun⟩ := exits
  have hreach : Reachable maxInstantiatedVms (exitEnv 7) ([] ++ l) s' := .run_ok .refl hrun
  obtain ⟨hroot, _⟩ := run_returns hrun
  obtain ⟨full, s'', hsuspend, _, hstates, hnone⟩ := hreach.suspends two_le_maxInstantiatedVms
    (scriptEnv_snapshotsTotal _ _ _ _) (mem_iff_getElem?.mpr ⟨_, hroot⟩)
  refine ⟨s', l, full, s'', [], hrun, hsuspend, ?_⟩
  rw [run_completed (hstates ▸ hroot), bind_of_panic (machine_panic (by simp [hnone]))]

end DeterministicScheduler.Scheduler
