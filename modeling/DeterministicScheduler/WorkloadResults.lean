import DeterministicScheduler.VerifyTx
import DeterministicScheduler.WorkloadRounds

/-!
# What workloads come to

However a workload is driven, its root exits with code zero unless the count of cycles leaves
its 64 bits, and a transaction of workloads is rejected for its cycles only.
-/
namespace DeterministicScheduler.DataGraph

open ProgramLogic Program Outcome Std Scheduler

variable {κ : Type} {env : Env GuestMemory κ} {data : Data} {spawns : ℕ}
  {tr l : List (Event GuestMemory)} {s s' : Scheduler GuestMemory κ} {e : Error}

theorem running_of_linked {cap : Option ℕ} {r : Scheduler GuestMemory κ} {state : VmState}
    (hlinked : Linked cap env s r) (hinv : Invariant r) (hroot : s.states[rootVmId]? = some state)
    (hstate : state ≠ .terminated) : Running r :=
  hinv.running (hlinked.same.states ▸ hroot) hstate

/-- In a workload a pass over the pipes does not crash, although it finishes reads and writes
of VMs that are suspended without resuming them: there are none to finish. -/
theorem workload_pass (hw : RunsWorkload spawns data env)
    (h : Reachable maxInstantiatedVms env tr s) {state : VmState}
    (hroot : s.states[rootVmId]? = some state) (hstate : state ≠ .terminated) :
    s.closedVms = [] ∧ processIo maxInstantiatedVms env s ≠ .panic := by
  rcases underway_of_reachable two_le_maxInstantiatedVms hw h with
    ⟨rfl, -⟩ | ⟨r, P, hlinked, hr, hu⟩
  · simp [new] at hroot
  · have hrun := running_of_linked hlinked hr.invariant hroot hstate
    have hclosed : s.closedVms = [] := by
      rw [hlinked.same.selected.1]
      exact hu.closedVms_eq hw.fits.toWired hrun hr.invariant
    refine ⟨hclosed, fun hpanic => ?_⟩
    rw [hlinked.processIo_panic two_le_maxInstantiatedVms hrun, not_finishable] at hpanic
    obtain ⟨pre, id, post, hsplit, -⟩ := hpanic
    simp [hclosed] at hsplit

/-- The pass after which the root of the chain of VMs has read what the last one wrote. -/
theorem workload_pass_chain : ∃ tr s, Reachable maxInstantiatedVms (workloadEnv chainData) tr s ∧
    s.states[rootVmId]? = some (.waitForRead 2 7 0x10000000000 0x20000000000) ∧
      s.closedVms = [] ∧ processIo maxInstantiatedVms (workloadEnv chainData) s ≠ .panic := by
  obtain ⟨tr, s, h, hroot⟩ := exists_reachable maxInstantiatedVms (workloadEnv chainData)
    (.boot :: List.replicate 7 (.round none 99))
    (fun _ s => s.states[rootVmId]? == some (.waitForRead 2 7 0x10000000000 0x20000000000))
    (by decide +kernel)
  have hroot := eq_of_beq hroot
  exact ⟨tr, s, h, hroot, workload_pass runsWorkload_chain h hroot (by simp)⟩

/-- How a round of a workload fails. -/
theorem round_fails (hw : RunsWorkload spawns data env)
    (h : Reachable maxInstantiatedVms env tr s) {state : VmState}
    (hroot : s.states[rootVmId]? = some state) (hstate : state ≠ .terminated) {pause : Pause}
    {limitCycles : ℕ} (hfails : iterate maxInstantiatedVms env pause limitCycles s = .err e s' l) :
    e.Interrupt ∨ e = .cyclesOverflow ∨ SnapshotError env e := by
  have hboots := bootsRoot_of_reachable two_le_maxInstantiatedVms h
    (mem_iff_getElem?.mpr ⟨state, hroot⟩)
  rcases underway_of_reachable two_le_maxInstantiatedVms hw h with
    ⟨rfl, -⟩ | ⟨r, P, hlinked, hr, hu⟩
  · simp [new] at hroot
  · have hrun := running_of_linked hlinked hr.invariant hroot hstate
    have hsim := iterate_simulates two_le_maxInstantiatedVms hlinked pause limitCycles
    have hmeets := hu.iterate_fails hw.main hw.fits hrun hboots.1 hr.invariant pause limitCycles
    rw [hfails] at hsim
    rcases hsim with herror | ⟨r', hr', -⟩
    · exact .inr (.inr herror)
    · rw [hr'] at hmeets
      exact hmeets.imp_right .inl

/-- A round of a workload never reports a deadlock. It fails when it is interrupted, when its
cycles leave the 64 bits of their count or when a VM cannot be suspended, and otherwise goes
through. -/
theorem workload_progresses (hw : RunsWorkload spawns data env)
    (h : Reachable maxInstantiatedVms env tr s) {state : VmState}
    (hroot : s.states[rootVmId]? = some state) (hstate : state ≠ .terminated) (pause : Pause)
    (limitCycles : ℕ) {e : Error} {s' : Scheduler GuestMemory κ} {l : List (Event GuestMemory)}
    (hfails : iterate maxInstantiatedVms env pause limitCycles s = .err e s' l) :
    e ≠ .deadlock ∧ (e.Interrupt ∨ e = .cyclesOverflow ∨ SnapshotError env e) := by
  have he := round_fails hw h hroot hstate hfails
  refine ⟨?_, he⟩
  rintro rfl
  rcases he with hinterrupt | hover | herror
  · exact absurd hinterrupt (by decide)
  · exact absurd hover (by decide)
  · exact herror.not_reserved (by decide)

/-- A limit that ends a round while the root of the chain of VMs waits. -/
theorem workload_progresses_chain : ∃ tr s e s' l,
    Reachable maxInstantiatedVms (workloadEnv chainData) tr s ∧
    s.states[rootVmId]? = some (.waitForRead 2 7 0x10000000000 0x20000000000) ∧
    iterate maxInstantiatedVms (workloadEnv chainData) none 1 s = .err e s' l ∧ e ≠ .deadlock := by
  obtain ⟨tr, s, h, hs⟩ := exists_reachable maxInstantiatedVms (workloadEnv chainData)
    (.boot :: List.replicate 7 (.round none 99))
    (fun _ s => s.states[rootVmId]? == some (.waitForRead 2 7 0x10000000000 0x20000000000) &&
      (iterate maxInstantiatedVms (workloadEnv chainData) none 1 s).error?.isSome)
    (by decide +kernel)
  rw [Bool.and_eq_true, beq_iff_eq] at hs
  obtain ⟨hroot, hs⟩ := hs
  obtain ⟨⟨e, l⟩, herror⟩ := Option.isSome_iff_exists.mp hs
  obtain ⟨s', hfails⟩ := (error?_eq_some _ _ _).mp herror
  exact ⟨tr, s, e, s', l, h, hroot, hfails,
    (workload_progresses runsWorkload_chain h hroot (by simp) none 1 hfails).1⟩

section Calls

variable (hw : RunsWorkload spawns data env) (htotal : env.SnapshotsTotal)

include hw htotal

theorem runLoop_fails (h : Reachable maxInstantiatedVms env tr s) (pause : ℕ → Pause)
    (fuel k limitCycles : ℕ)
    (hfails : runLoop maxInstantiatedVms env pause fuel k limitCycles s = .err e s' l) :
    e.Interrupt ∨ e = .cyclesOverflow := by
  induction fuel generalizing tr s l k limitCycles with
  | zero => cases hfails
  | succ fuel ih =>
    simp only [runLoop, get_bind_run] at hfails
    cases hroot : s.states[rootVmId]? with
    | none =>
      rw [hroot] at hfails
      cases hfails
    | some state =>
      rw [hroot, unwrap_some, pure_bind_run] at hfails
      by_cases hstate : state = .terminated
      · rw [if_pos hstate] at hfails
        cases hfails
      rw [if_neg hstate] at hfails
      rcases bind_eq_err.mp hfails with hfails | ⟨consumed, s₁, l₁, l₂, hiterate, hrest, -⟩
      · rcases round_fails hw h hroot hstate hfails with hinterrupt | hover | herror
        · exact .inl hinterrupt
        · exact .inr hover
        · exact absurd herror htotal.no_error
      · simp only [checkedSubCycles, if_pos le_rfl] at hrest
        exact ih (h.tail (.iterated hroot hstate hiterate)) _ _ hrest

omit hw htotal in
/-- A root that can be booted is. -/
theorem bootRoot_not_err (hboots : env.BootsRoot) (h : Reachable maxInstantiatedVms env tr s) :
    bootRoot maxInstantiatedVms env s ≠ .err e s' l := by
  intro hfails
  rcases h.driven two_le_maxInstantiatedVms with ⟨rfl, -⟩ | ⟨r, hlinked, hr⟩
  · have hempty : (new : Scheduler GuestMemory κ).states.isEmpty = true := rfl
    rw [bootRoot, get_bind_run, hempty, if_pos rfl] at hfails
    rcases new_unbooted.bootVm maxInstantiatedVms env with
      ⟨-, hpanic⟩ | ⟨-, hnot, -⟩ | ⟨-, -, s₁, l₁, hok, -⟩
    · rw [bind_of_panic hpanic] at hfails
      cases hfails
    · exact hnot hboots
    · rw [bind_of_ok hok] at hfails
      cases hfails
  · have hroot : rootVmId ∈ s.states := hlinked.same.states ▸ hr.invariant.root
    rw [bootRoot_noop hroot] at hfails
    cases hfails

/-- A call on a workload is interrupted, if it does not end it. -/
theorem run_fails (hboots : env.BootsRoot) (h : Reachable maxInstantiatedVms env tr s)
    {mode : RunMode} (hfails : run maxInstantiatedVms env mode s = .err e s' l) :
    e.Interrupt ∨ e = .cyclesOverflow := by
  rw [run] at hfails
  rcases bind_eq_err.mp hfails with hfails | ⟨_, s₁, l₁, l₂, hboot, hrest, -⟩
  · exact absurd hfails (bootRoot_not_err hboots h)
  rw [get_bind_run] at hrest
  split at hrest
  · rcases bind_eq_err.mp hrest with hloop | ⟨finished, s₂, l₃, l₄, hloop, hreturn, -⟩
    · exact runLoop_fails hw htotal (h.tail (.booted hboot)) _ _ _ _ hloop
    · cases finished with
      | none => cases hreturn
      | some _ =>
        dsimp only at hreturn
        cases hm : s₂.instantiated[rootVmId]? with
        | none =>
          rw [bind_of_panic (machine_panic hm)] at hreturn
          cases hreturn
        | some m =>
          rw [bind_of_ok (machine_run hm)] at hreturn
          cases hreturn
  · cases hrest

omit htotal in
/-- Every VM of a workload that exits does so with code zero. -/
theorem exit_zero (h : Reachable maxInstantiatedVms env tr s) {v : VmId} {code : Int8}
    (hcode : s.terminatedVms[v]? = some code) : code = 0 := by
  rcases underway_of_reachable two_le_maxInstantiatedVms hw h with
    ⟨rfl, -⟩ | ⟨r, P, hlinked, hr, hu⟩
  · simp [new] at hcode
  · rw [hlinked.same.terminatedVms] at hcode
    obtain ⟨before, after, posted, hmem⟩ := (hr.exits v code).mp hcode
    rcases hu.smooth _ hmem with heq | heq | ⟨e, heq, -⟩
    · exact Except.ok.inj heq
    · cases heq
    · cases heq

omit htotal in
/-- A call on a workload that ends it returns code zero. -/
theorem run_zero (h : Reachable maxInstantiatedVms env tr s) {mode : RunMode} {code : Int8}
    {total : ℕ} (hrun : run maxInstantiatedVms env mode s = .ok (code, total) s' l) : code = 0 := by
  obtain ⟨hroot, m, hm, hresult⟩ := run_returns hrun
  have hreach := h.run_ok hrun
  have hkept := hreach.keepsExitCode two_le_maxInstantiatedVms hroot m hm
  rw [Prod.mk.injEq] at hresult
  rw [hresult.1]
  exact exit_zero hw hreach hkept

end Calls

section Drivers

variable (hw : RunsWorkload spawns data env) (htotal : env.SnapshotsTotal) (hboots : env.BootsRoot)

include hw htotal hboots

theorem finalOutcome_zero (h : Reachable maxInstantiatedVms env tr s) {calls : List Call}
    {f : Final GuestMemory κ} (hf : finalOutcome maxInstantiatedVms env calls s = some f) :
    (∃ total, f.result = .ok (0, total)) ∨ f.result = .error .cyclesOverflow := by
  induction calls generalizing tr s f with
  | nil => cases hf
  | cons call calls ih =>
    have hrest : ∀ {tr l : List (Event GuestMemory)} {s₁ : Scheduler GuestMemory κ},
        Reachable maxInstantiatedVms env tr s₁ →
        (finalOutcome maxInstantiatedVms env calls s₁).map (Final.after l) = some f →
        (∃ total, f.result = .ok (0, total)) ∨ f.result = .error .cyclesOverflow := by
      intro tr l s₁ h₁ hmap
      obtain ⟨f₁, hf₁, rfl⟩ := Option.map_eq_some_iff.mp hmap
      have hend := ih h₁ hf₁
      exact hend
    cases call with
    | run mode =>
      simp only [finalOutcome] at hf
      cases hrun : run maxInstantiatedVms env mode s with
      | panic =>
        rw [hrun] at hf
        cases hf
      | ok result s' l =>
        rw [hrun] at hf
        cases hf
        obtain ⟨code, total⟩ := result
        obtain rfl := run_zero hw h hrun
        exact .inl ⟨total, rfl⟩
      | err e s' l =>
        rw [hrun] at hf
        dsimp only at hf
        by_cases he : e.Interrupt
        · rw [if_pos he] at hf
          exact hrest (h.run_interrupted hrun he) hf
        · rw [if_neg he] at hf
          cases hf
          have hover := (run_fails hw htotal hboots h hrun).resolve_left he
          exact .inr (congrArg Except.error hover)
    | suspend =>
      simp only [finalOutcome] at hf
      cases hsuspend : suspend env s with
      | panic =>
        rw [hsuspend] at hf
        cases hf
      | err e s' l =>
        rw [hsuspend] at hf
        cases hf
      | ok full s' l =>
        rw [hsuspend] at hf
        exact hrest (h.tail (.suspended hsuspend)) hf

/-- Whatever calls and suspensions drive a workload, it comes to exit code zero, or its cycles
leave the 64 bits of their count. -/
theorem workload_result (calls : List Call) {f : Final GuestMemory κ}
    (hf : finalOutcome maxInstantiatedVms env calls new = some f) :
    (∃ total, f.result = .ok (0, total)) ∨ f.result = .error .cyclesOverflow := by
  exact finalOutcome_zero hw htotal hboots .refl hf

omit hw htotal hboots

/-- The chain of VMs, interrupted all the time and suspended in between. -/
theorem workload_result_chain : ∃ f : Final GuestMemory (Cpu GuestMemory),
    finalOutcome maxInstantiatedVms (workloadEnv chainData) (List.replicate 40
      [.run (.limitCycles 11), .suspend, .run (.pause fun _ => some 1)]).flatten new = some f ∧
    ((∃ total, f.result = .ok (0, total)) ∨ f.result = .error .cyclesOverflow) := by
  have hsome : (finalOutcome maxInstantiatedVms (workloadEnv chainData) (List.replicate 40
      [.run (.limitCycles 11), .suspend, .run (.pause fun _ => some 1)]).flatten new).isSome =
      true := by decide +kernel
  obtain ⟨f, hf⟩ := Option.isSome_iff_exists.mp hsome
  exact ⟨f, hf, workload_result runsWorkload_chain (snapshotsTotal_workload _)
    (bootsRoot_workload _) _ hf⟩

end Drivers

section Transactions

variable {debug : Error → String} {g : Group GuestMemory κ}
  {maxCycles cyclesPerIterate cyclesPerSuspend consumed : ℕ}

/-- The errors that say that a group consumes too many cycles. -/
def RunsOut (debug : Error → String) (maxCycles : ℕ) (g : Group GuestMemory κ) (e : Error) : Prop :=
  (∃ cycles, maxCycles < cycles ∧ e = g.outOfCycles cycles maxCycles) ∨
    (∃ consumed total, (maxCycles < total ∨ maxCycles < consumed) ∧
      e = g.overBudget consumed total maxCycles) ∨ e = g.overflows debug

/-- A group whose scheduler runs a workload. -/
structure IsWorkload (g : Group GuestMemory κ) : Prop where
  runs : ∃ spawns data, RunsWorkload spawns data g.env
  snapshots : g.env.SnapshotsTotal
  boots : g.env.BootsRoot

theorem groupLoop_rejects (hg : IsWorkload g) (fuel last : ℕ)
    (h : Reachable maxInstantiatedVms g.env tr s)
    (hrejects : groupLoop debug g maxCycles cyclesPerIterate cyclesPerSuspend consumed fuel s last =
      .error (.rejected e)) : RunsOut debug maxCycles g e := by
  obtain ⟨spawns, data, hw⟩ := hg.runs
  induction fuel generalizing tr s last with
  | zero => cases hrejects
  | succ fuel ih =>
    rw [groupLoop] at hrejects
    cases hstep : groupStep debug g maxCycles cyclesPerIterate cyclesPerSuspend consumed s last with
    | inr p =>
      obtain ⟨s', last'⟩ := p
      rw [hstep] at hrejects
      obtain ⟨_, _, s₁, l, _, hsuspend, hrun⟩ := groupStep_continues hstep
      obtain ⟨tr₁, h₁⟩ := suspendAfter_reachable h hsuspend
      exact ih _ (h₁.run_interrupted hrun (.inl rfl)) hrejects
    | inl result =>
      rw [hstep] at hrejects
      dsimp only at hrejects
      subst hrejects
      rcases groupStep_ends hstep with hhalt | ⟨hhalt, _⟩ | ⟨hhalt, hmax⟩ |
        ⟨_, s₁, last₁, hsuspend, hlast⟩
      · cases hhalt
      · cases hhalt
      · cases hhalt
        exact .inl ⟨_, hmax, rfl⟩
      obtain ⟨tr₁, h₁⟩ := suspendAfter_reachable h hsuspend
      rcases hlast with ⟨⟨code, total⟩, s₂, l, hrun, hfinish⟩ | ⟨e', s₂, l, hrun, he, hhalt⟩
      · obtain rfl := run_zero hw h₁ hrun
        rcases ScriptGroup.finish_error hfinish.symm with hhalt | ⟨hcode, _⟩ | ⟨hbudget, hhalt⟩
        · cases hhalt
        · exact absurd rfl hcode
        · cases hhalt
          exact .inr (.inl ⟨_, _, hbudget, rfl⟩)
      · cases hhalt
        have hfails : ¬ e'.Interrupt := by
          rintro (hexceeded | rfl)
          · exact he hexceeded
          · exact h₁.run_unpaused two_le_maxInstantiatedVms hrun
        obtain rfl := (run_fails hw hg.snapshots hg.boots h₁ hrun).resolve_left hfails
        exact .inr (.inr rfl)

theorem groups_reject {groups : List (Group GuestMemory κ)} (hgroups : ∀ g ∈ groups, IsWorkload g)
    (fuel : ℕ) (hrejects : groups.foldlM (fun consumed g => groupLoop debug g maxCycles
      cyclesPerIterate cyclesPerSuspend consumed fuel new 0) consumed = .error (.rejected e)) :
    ∃ g ∈ groups, RunsOut debug maxCycles g e := by
  induction groups generalizing consumed with
  | nil => cases hrejects
  | cons g groups ih =>
    rw [List.foldlM_cons] at hrejects
    cases hgroup : groupLoop debug g maxCycles cyclesPerIterate cyclesPerSuspend consumed fuel
        new 0 with
    | error halt =>
      rw [hgroup] at hrejects
      have heq : Except.error halt = (.error (.rejected e) : Except Halt ℕ) := hrejects
      cases heq
      exact ⟨g, by simp, groupLoop_rejects (hgroups g (by simp)) fuel 0 .refl hgroup⟩
    | ok c =>
      rw [hgroup] at hrejects
      obtain ⟨g', hmem, hout⟩ := ih (fun g' hmem => hgroups g' (by simp [hmem])) hrejects
      exact ⟨g', by simp [hmem], hout⟩

/-- A transaction whose groups all run workloads is rejected for its cycles only. -/
theorem workload_verified (groups : List (Group GuestMemory κ))
    (hgroups : ∀ g ∈ groups, IsWorkload g)
    (fuel : ℕ) (hrejects : verifyTx debug fuel groups maxCycles cyclesPerIterate cyclesPerSuspend =
      .error (.rejected e)) : ∃ g ∈ groups, RunsOut debug maxCycles g e :=
  groups_reject hgroups fuel hrejects

/-- A group that runs the chain of VMs. -/
def chainGroup : Group GuestMemory (Cpu GuestMemory) :=
  ⟨"Lock", "0x1", workloadEnv chainData⟩

/-- A maximum that the chain of VMs exceeds. -/
theorem workload_verified_chain : ∃ g ∈ [chainGroup],
    RunsOut (fun _ => "") 60 g (chainGroup.outOfCycles 62 60) := by
  have hrejects : verifyTx (fun _ => "") 30 [chainGroup] 60 20 1000 =
      .error (.rejected (chainGroup.outOfCycles 62 60)) := by decide +kernel
  have hgroups : ∀ g ∈ [chainGroup], IsWorkload g := by
    intro g hg
    rw [List.mem_singleton] at hg
    subst hg
    exact ⟨⟨2, chainData, runsWorkload_chain⟩, snapshotsTotal_workload _, bootsRoot_workload _⟩
  exact workload_verified [chainGroup] hgroups 30 hrejects

end Transactions

end DeterministicScheduler.DataGraph
