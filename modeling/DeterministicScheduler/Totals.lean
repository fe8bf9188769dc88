import DeterministicScheduler.Drivers

/-!
# Totals

Whatever drives a scheduler, its total of cycles only grows, up to the total that its
exit reports. A call that is limited by cycles alone is only interrupted by their
limit.
-/
namespace DeterministicScheduler.Scheduler

open ProgramLogic Program Outcome Std

variable {μ κ : Type} [Memory μ] {cap : Option ℕ} {env : Env μ κ} {s s' r r' : Scheduler μ κ}
  {tr l : List (Event μ)}

theorem Answer.totalCycles {id : VmId} {m : Machine μ} {msg : Message}
    (h : Answer env s id m msg l s') : s'.totalCycles = s.totalCycles := by
  cases h <;> rfl

theorem Step.totalCycles_le (h : Step env s l s') : s.totalCycles ≤ s'.totalCycles := by
  cases h with
  | started => exact le_rfl
  | closed => exact le_rfl
  | transferred => exact le_rfl
  | interrupted => exact Nat.le_add_right _ _
  | answered _ _ _ hanswer =>
    rw [hanswer.totalCycles]
    exact Nat.le_add_right _ _
  | @exited _ _ _ _ _ t _ _ hwoken =>
    show s.totalCycles ≤ t.totalCycles
    rw [hwoken.frame.1]
    exact Nat.le_add_right _ _
  | rootExited => exact Nat.le_add_right _ _

theorem Steps.totalCycles_le (h : Steps env s l s') : s.totalCycles ≤ s'.totalCycles := by
  induction h with
  | refl => exact le_rfl
  | tail _ hstep ih => exact ih.trans hstep.totalCycles_le

/-- A move of whatever is reached leaves the total or adds to it. -/
theorem Reachable.move_totalCycles_le (hcap : ∀ c, cap = some c → 2 ≤ c)
    (h : Reachable cap env tr s) (hmove : Move cap env s l s') :
    s.totalCycles ≤ s'.totalCycles := by
  rcases h.driven hcap with ⟨rfl, _⟩ | ⟨r, hr⟩
  · exact Nat.zero_le _
  · obtain ⟨r', hr', hrounded⟩ := hr.move hcap hmove
    rw [hr.1.same.totalCycles, hr'.1.same.totalCycles]
    rcases hrounded with ⟨rfl, _⟩ | ⟨_, hrun, hround⟩
    · exact le_rfl
    · exact (hround.steps hrun).totalCycles_le

theorem Reachable.path_totalCycles_le (hcap : ∀ c, cap = some c → 2 ≤ c)
    (h : Reachable cap env tr s) (hpath : Path (Move cap env) s l s') :
    s.totalCycles ≤ s'.totalCycles := by
  induction hpath with
  | refl => exact le_rfl
  | tail hpath hmove ih =>
    have hreach : Reachable cap env _ _ := h.trans hpath
    exact ih.trans (hreach.move_totalCycles_le hcap hmove)

omit [Memory μ] in
theorem Invariant.running_unless (h : Invariant r) (hnot : ¬ RootTerminated r) : Running r := by
  obtain ⟨state, hstate⟩ := mem_iff_getElem?.mp h.root
  refine h.running hstate ?_
  rintro rfl
  exact hnot hstate

/-- One instruction is a number of steps, even where it is interrupted. -/
theorem instruct_steps (hinv : Invariant r) (hrun : Running r) :
    (instruct env r).Meets (fun _ r' l => Steps env r l r')
      (fun e r' l => e.Interrupt → Steps env r l r') True := by
  have hround : ∀ {t : Scheduler μ κ} {pause : Pause} {limitCycles : ℕ}, Invariant t → Running t →
      (iterate none env pause limitCycles t).Meets (fun _ t' l => Steps env t l t')
        (fun e t' l => e.Interrupt → Steps env t l t' ∧ t'.states[rootVmId]? ≠ some .terminated)
        True := by
    intro t pause limitCycles hinv hrun
    refine (iterate_ran hinv hrun pause limitCycles).mono ?_ ?_ (fun h => h)
    · rintro _ t' l ⟨_, _, _, _, _, _, hran⟩
      exact hran.roundOf.steps hrun
    · rintro e t' l (⟨_, _, _, _, hran, hroot⟩ | hfatal | ⟨rfl, _⟩) he
      · exact ⟨hran.roundOf.steps hrun, hroot⟩
      · exact absurd he hfatal.2.1
      · exact absurd he (by simp [Error.Interrupt, Error.deadlock])
  have hfirst : (iterate none env (some 0) 0 r).Meets _ _ _ := hround hinv hrun
  rw [instruct]
  cases hiterate : iterate none env (some 0) 0 r with
  | panic => trivial
  | ok _ r' l =>
    rw [hiterate] at hfirst
    exact hfirst
  | err e r' l =>
    rw [hiterate] at hfirst
    dsimp only
    by_cases he : e = .pause
    · rw [if_pos he]
      obtain ⟨hsteps, hroot⟩ := hfirst (Or.inr he)
      have hinv' := Steps.invariant hsteps hinv
      have hrun' := hinv'.running_unless hroot
      refine Meets.after ((hround hinv' hrun').mono ?_ ?_ (fun h => h))
      · exact fun _ _ _ h => hsteps.trans h
      · exact fun _ _ _ h he' => hsteps.trans (h he').1
    · rw [if_neg he]
      exact fun he' => (hfirst he').1

theorem Completes.totalCycles_le {u : Scheduler μ κ} {messages : List Message} (hinv : Invariant r)
    (h : Completes env r (.ok ⟨⟩) u messages) : r.totalCycles ≤ u.totalCycles := by
  have hkeeps : ∀ {t t' : Scheduler μ κ} {l : List (Event μ)},
      Invariant t ∧ r.totalCycles ≤ t.totalCycles → Steps env t l t' →
        Invariant t' ∧ r.totalCycles ≤ t'.totalCycles := fun ht hsteps =>
    ⟨Steps.invariant hsteps ht.1, ht.2.trans hsteps.totalCycles_le⟩
  have hend := Repeats.invariant
    (I := fun t : Scheduler μ κ => Invariant t ∧ r.totalCycles ≤ t.totalCycles) ?_ ?_ h
      ⟨hinv, le_rfl⟩
  · exact hend.2
  · intro t t' messages ht hnot hstep
    have hsteps : (instruct env t).Meets _ _ _ := instruct_steps ht.1 (ht.1.running_unless hnot)
    cases hinstruct : instruct env t with
    | panic => simp [hinstruct] at hstep
    | err e t'' l => simp [hinstruct] at hstep
    | ok _ t'' l =>
      rw [hinstruct] at hstep hsteps
      cases hstep
      exact hkeeps ht hsteps
  · intro t e t' messages ht hnot hstep he
    have hsteps : (instruct env t).Meets _ _ _ := instruct_steps ht.1 (ht.1.running_unless hnot)
    cases hinstruct : instruct env t with
    | panic => simp [hinstruct] at hstep
    | ok _ t'' l => simp [hinstruct] at hstep
    | err e' t'' l =>
      rw [hinstruct] at hstep hsteps
      cases hstep
      exact hkeeps ht (hsteps he)

/-- What is left to do after a move of a scheduler with a booted root. -/
theorem Refines.move_serves (hcap : ∀ c, cap = some c → 2 ≤ c) (h : Refines cap env tr s r)
    (hmove : Move cap env s l s') :
    ∃ r', Refines cap env (tr ++ l) s' r' ∧ Serves env r l r' := by
  have hrunning : ∀ {state : VmState}, s.states[rootVmId]? = some state →
      state ≠ .terminated → Running r := fun hroot hstate =>
    h.2.invariant.running (h.1.same.states ▸ hroot) hstate
  cases hmove with
  | booted hboot =>
    have hroot : rootVmId ∈ s.states := h.1.same.states ▸ h.2.invariant.root
    rw [bootRoot_noop hroot] at hboot
    cases hboot
    exact ⟨r, by simpa using h, .refl r⟩
  | @iterated _ state pause limitCycles _ hroot hstate hiterate =>
    have hround : (iterate cap env pause limitCycles s).Meets _ _ _ :=
      h.serves hcap (hrunning hroot hstate)
    rw [hiterate] at hround
    exact hround
  | @interrupted _ state pause limitCycles e hroot hstate hiterate he =>
    have hround : (iterate cap env pause limitCycles s).Meets _ _ _ :=
      h.serves hcap (hrunning hroot hstate)
    rw [hiterate] at hround
    exact hround he
  | suspended hsuspend =>
    obtain ⟨rfl, hr'⟩ := h.suspended hsuspend
    exact ⟨r, by simpa using hr', .refl r⟩

/-- Whatever is reached is new, or what is left to do there is what its boot left to
do. -/
theorem Reachable.serves (hcap : ∀ c, cap = some c → 2 ≤ c) (h : Reachable cap env tr s) :
    (s = new ∧ tr = []) ∨ ∃ r₀ l₀ r l, bootRoot none env new = .ok ⟨⟩ r₀ l₀ ∧
      Refines cap env tr s r ∧ Serves env r₀ l r := by
  induction h with
  | refl => exact Or.inl ⟨rfl, rfl⟩
  | tail _ hmove ih =>
    rcases ih with ⟨rfl, rfl⟩ | ⟨r₀, l₀, r, l, hboot, hrefines, hserves⟩
    · cases hmove with
      | booted hboot =>
        obtain ⟨r, hr, hrefines⟩ := Refines.booted hcap hboot
        exact Or.inr ⟨r, _, r, [], hr, hrefines, .refl r⟩
      | iterated hroot => simp [new] at hroot
      | interrupted hroot => simp [new] at hroot
      | suspended hsuspend =>
        obtain ⟨rfl, hnew⟩ := new_suspended hsuspend
        exact Or.inl ⟨hnew, rfl⟩
    · obtain ⟨r', hrefines', hserves'⟩ := hrefines.move_serves hcap hmove
      exact Or.inr ⟨r₀, l₀, r', _, hboot, hrefines', hserves.trans hserves'⟩

/-- No scheduler of a transaction has consumed more cycles than its exit reports. -/
theorem Reachable.totalCycles_le (hcap : ∀ c, cap = some c → 2 ≤ c) (htotal : env.SnapshotsTotal)
    (h : Reachable cap env tr s) {calls : List Call} {f : Final μ κ}
    (hf : finalOutcome cap env calls new = some f) {v : Int8 × ℕ} (hv : f.result = .ok v) :
    s.totalCycles ≤ v.2 := by
  rcases h.serves hcap with ⟨rfl, _⟩ | ⟨r₀, l₀, r, l, hboot, hrefines, hserves⟩
  · exact Nat.zero_le _
  obtain ⟨u, hend, _, _, hcode⟩ := finalOutcome_concludes hcap htotal hf (by simp [hv])
  rw [Concludes, hboot, hv] at hend
  obtain ⟨messages, hend, _⟩ := hend
  obtain ⟨rest, hrest, _⟩ := (hserves _ _ _).mp hend
  rw [hrefines.1.same.totalCycles, (hcode v hv).2]
  exact hrest.totalCycles_le hrefines.2.invariant

/-- A machine that sees no signal does not pause. -/
theorem runMachine_unpaused {ctx : MachineContext} {limit : ℕ} {m cpu : Cpu μ}
    {posted : List Message} : runMachine env ctx limit none m ≠ .err .pause cpu posted := by
  intro h
  induction hleft : limit + 1 - m.cycles using Nat.strong_induction_on generalizing m posted with
  | _ left ih =>
    rw [runMachine_eq, if_neg (by simp)] at h
    by_cases hlimit : limit < m.cycles + env.cost m.toCore
    · rw [if_pos hlimit] at h
      cases h
    rw [if_neg hlimit] at h
    rcases bind_eq_err.mp h with hstep | ⟨code, m₁, l₁, l₂, hstep, hrest, _⟩
    · have hagree := stepMachine_agree env ctx.id ctx.baseCycles 0 m
      rcases hagree with ⟨c, hc⟩ | hagree
      · cases hstep.symm.trans hc
      · rw [show stepMachine env ⟨ctx.id, ctx.baseCycles + 0⟩ m = _ from hstep] at hagree
        rcases hagree.1 with ⟨hfatal, _⟩ | ⟨hyield, _⟩
        · exact absurd (Or.inr rfl) hfatal.2.1
        · cases hyield
    · cases code with
      | some code => cases hrest
      | none =>
        have hcost := env.cost_pos m.toCore
        have hlt := (stepMachine_cycles hstep).2
        exact ih (limit + 1 - m₁.cycles) (by omega) hrest rfl

theorem iterate_unpaused {limitCycles : ℕ} {u : Scheduler μ κ} (hinv : Invariant r)
    (hrun : Running r) : iterate none env none limitCycles r ≠ .err .pause u l := by
  intro h
  have hmeets : (iterate none env none limitCycles r).Meets _ _ _ :=
    iterate_ran hinv hrun none limitCycles
  rw [h] at hmeets
  rcases hmeets with ⟨_, _, _, _, ⟨_, _, _, _, _, _, hmachine, _⟩, _⟩ | hfatal | ⟨hdeadlock, _⟩
  · exact runMachine_unpaused hmachine
  · exact hfatal.2.1 (Or.inr rfl)
  · cases hdeadlock

theorem runLoop_unpaused (hcap : ∀ c, cap = some c → 2 ≤ c) (h : Refines cap env tr s r)
    {fuel k limitCycles : ℕ} : runLoop cap env (fun _ => none) fuel k limitCycles s ≠
      .err .pause s' l := by
  induction fuel generalizing tr s r k limitCycles l with
  | zero => simp [runLoop]
  | succ fuel ih =>
    intro hloop
    simp only [runLoop, get_bind_run] at hloop
    cases hroot : s.states[rootVmId]? with
    | none => simp [hroot] at hloop
    | some state =>
      rw [hroot, unwrap_some, pure_bind_run] at hloop
      by_cases hstate : state = .terminated
      · rw [if_pos hstate] at hloop
        cases hloop
      rw [if_neg hstate] at hloop
      have hrun := h.2.invariant.running (h.1.same.states ▸ hroot) hstate
      rcases bind_eq_err.mp hloop with hiterate | ⟨consumed, s₁, l₁, l₂, hiterate, hrest, _⟩
      · obtain ⟨r', hr', _⟩ := h.interrupted hcap hrun hiterate (Or.inr rfl)
        exact iterate_unpaused h.2.invariant hrun hr'
      · obtain ⟨r', _, _, hrefines⟩ := h.iterated hcap hrun hiterate
        simp only [checkedSubCycles, if_pos le_rfl] at hrest
        exact ih hrefines hrest

/-- A call that is interrupted is interrupted in its rounds, with the root booted. -/
theorem run_interrupts {mode : RunMode} {e : Error} (he : e.Interrupt)
    (hrun : run cap env mode s = .err e s' l) :
    ∃ s₁ l₁ l₂, bootRoot cap env s = .ok ⟨⟩ s₁ l₁ ∧ rootVmId ∈ s₁.states ∧
      runLoop cap env mode.signal (mode.limit + 2) 0 mode.limit s₁ = .err e s' l₂ := by
  rw [run] at hrun
  rcases bind_eq_err.mp hrun with hboot | ⟨_, s₁, l₁, l₂, hboot, hcall, _⟩
  · have hfails := (regular_bootRoot (P := fun _ => False) (B := False) cap env).fails s
    rw [hboot] at hfails
    exact absurd he hfails.2.1
  rw [get_bind_run] at hcall
  by_cases hroot : s₁.states.contains rootVmId = true
  · rw [if_pos hroot] at hcall
    rcases bind_eq_err.mp hcall with hloop | ⟨finished, s₂, l₃, l₄, _, hrest, _⟩
    · exact ⟨s₁, l₁, l₂, hboot, ExtTreeMap.contains_iff_mem.mp hroot, hloop⟩
    · cases finished with
      | none => cases hrest
      | some _ =>
        dsimp only at hrest
        cases hm : s₂.instantiated[rootVmId]? with
        | none =>
          rw [bind_of_panic (machine_panic hm)] at hrest
          cases hrest
        | some m =>
          rw [bind_of_ok (machine_run hm)] at hrest
          cases hrest
  · rw [if_neg hroot] at hcall
    cases hcall

theorem Reachable.run_totalCycles_le (hcap : ∀ c, cap = some c → 2 ≤ c)
    (h : Reachable cap env tr s) {mode : RunMode} {e : Error}
    (hrun : run cap env mode s = .err e s' l) (he : e.Interrupt) :
    s.totalCycles ≤ s'.totalCycles := by
  have hmoves : Moves cap env s (run cap env mode s) := run_moves mode
  rw [hrun] at hmoves
  exact h.path_totalCycles_le hcap (hmoves he)

/-- A call that is limited by cycles is only interrupted by their limit. -/
theorem Reachable.run_unpaused (hcap : ∀ c, cap = some c → 2 ≤ c) (h : Reachable cap env tr s)
    {limit : ℕ} : run cap env (.limitCycles limit) s ≠ .err .pause s' l := by
  intro hrun
  obtain ⟨s₁, l₁, l₂, hboot, hroot, hloop⟩ := run_interrupts (Or.inr rfl) hrun
  have hreach : Reachable cap env (tr ++ l₁) s₁ := h.tail (.booted hboot)
  obtain ⟨r, hr⟩ := hreach.refines hcap hroot
  exact runLoop_unpaused hcap hr hloop

/-- Where no instruction costs more than the limit, an execution spends cycles. -/
theorem runMachine_spends {ctx : MachineContext} {limit : ℕ} (hcost : ∀ c, env.cost c ≤ limit)
    {m cpu : Cpu μ} {result : Except Error Int8} {posted : List Message}
    (h : runMachine env ctx limit none m = stopped result cpu posted)
    (hover : result ≠ .error .cyclesOverflow) : 0 < cpu.cycles := by
  have hpos := env.cost_pos m.toCore
  rw [runMachine_eq, if_neg (by simp)] at h
  by_cases hlimit : limit < m.cycles + env.cost m.toCore
  · rw [if_pos hlimit] at h
    have hle := hcost m.toCore
    cases result with
    | ok code => cases h
    | error e =>
      cases h
      omega
  rw [if_neg hlimit] at h
  have hagree := stepMachine_agree env ctx.id ctx.baseCycles 0 m
  rw [Nat.add_zero, Cpu.shift_zero] at hagree
  cases hstep : stepMachine env ctx m with
  | panic =>
    rw [bind_of_panic hstep] at h
    cases result <;> cases h
  | err e m₁ l =>
    rw [bind_of_err hstep] at h
    cases result with
    | ok code => cases h
    | error e' =>
      cases h
      rcases hagree with ⟨m', hm'⟩ | hagree
      · cases hstep.symm.trans hm'
        exact absurd rfl hover
      · rw [show stepMachine env ⟨ctx.id, ctx.baseCycles⟩ m = _ from hstep] at hagree
        have hle := hagree.2.1
        omega
  | ok code? m₁ l =>
    obtain ⟨rfl, hlt⟩ := stepMachine_cycles hstep
    rw [bind_of_ok hstep, after_nil] at h
    cases code? with
    | some code =>
      cases result with
      | error e => cases h
      | ok code' =>
        cases h
        omega
    | none =>
      have hmeets := runMachine_meets env ctx limit none m₁
      change runMachine env ctx limit none m₁ = _ at h
      rw [h] at hmeets
      cases result with
      | ok code => exact (Nat.zero_le _).trans_lt (hlt.trans_le hmeets.2)
      | error e =>
        have hle := hmeets.2 fun heq => hover (by rw [heq])
        omega

/-- The cycles of an execution go to the total. -/
theorem Step.totalCycles_exec {id : VmId} {before cpu : Cpu μ} {result : Except Error Int8}
    {posted : List Message} (h : Step env s (.exec id before cpu result posted :: l) s') :
    s'.totalCycles = s.totalCycles + cpu.cycles := by
  generalize hlog : Event.exec id before cpu result posted :: l = log at h
  cases h with
  | started => cases hlog
  | @closed _ state =>
    cases state <;> cases hlog
  | transferred => cases hlog
  | interrupted =>
    cases hlog
    rfl
  | answered _ _ _ hanswer =>
    cases hlog
    exact hanswer.totalCycles
  | exited _ _ hwoken =>
    cases hlog
    exact hwoken.frame.1
  | rootExited =>
    cases hlog
    rfl

/-- A round that goes through or exceeds its cycles adds to the total. -/
theorem iterate_spends (hinv : Invariant r) (hrun : Running r) {limitCycles : ℕ}
    (hcost : ∀ c, env.cost c ≤ limitCycles) :
    (iterate none env none limitCycles r).Meets (fun _ r' _ => r.totalCycles < r'.totalCycles)
      (fun e r' _ => e = .cyclesExceeded → r.totalCycles < r'.totalCycles) True := by
  have hran : ∀ {r' : Scheduler μ κ} {l : List (Event μ)} {id : VmId} {m : Machine μ}
      {result : Except Error Int8} {cpu : Cpu μ}, result ≠ .error .cyclesOverflow →
      Ran env none limitCycles r r' l id m result cpu → r.totalCycles < r'.totalCycles := by
    intro r' l id m result cpu hover hran
    obtain ⟨r₁, _, _, _, _, hpass, hmachine, hstep, _⟩ := hran
    have hle := hpass.steps.totalCycles_le
    have hspent := runMachine_spends hcost hmachine hover
    rw [hstep.totalCycles_exec]
    omega
  refine (iterate_ran hinv hrun none limitCycles).mono ?_ ?_ (fun h => h)
  · rintro _ r' l ⟨id, m, result, cpu, _, hresult, h⟩
    refine hran ?_ h
    rintro rfl
    rcases hresult with hok | hyield
    · cases hok
    · cases hyield
  · rintro e r' l (⟨_, id, m, cpu, h, _⟩ | hfatal | ⟨rfl, _⟩) he
    · subst he
      exact hran (by simp) h
    · exact absurd (Or.inl he) hfatal.2.1
    · cases he

/-- A call that exceeds its cycles adds to the total, unless an instruction costs more
than the call may spend. -/
theorem Reachable.run_spends (hcap : ∀ c, cap = some c → 2 ≤ c) (h : Reachable cap env tr s)
    {limit : ℕ} (hcost : ∀ c, env.cost c ≤ limit)
    (hrun : run cap env (.limitCycles limit) s = .err .cyclesExceeded s' l) :
    s.totalCycles < s'.totalCycles := by
  obtain ⟨s₁, l₁, l₂, hboot, hroot, hloop⟩ := run_interrupts (Or.inl rfl) hrun
  have hreach : Reachable cap env (tr ++ l₁) s₁ := h.tail (.booted hboot)
  obtain ⟨r, hr⟩ := hreach.refines hcap hroot
  refine (h.move_totalCycles_le hcap (.booted hboot)).trans_lt ?_
  rw [runLoop, get_bind_run] at hloop
  cases hstate : s₁.states[rootVmId]? with
  | none => simp [hstate] at hloop
  | some state =>
    rw [hstate, unwrap_some, pure_bind_run] at hloop
    by_cases hterminated : state = .terminated
    · rw [if_pos hterminated] at hloop
      cases hloop
    rw [if_neg hterminated] at hloop
    have hrunning := hr.2.invariant.running (hr.1.same.states ▸ hstate) hterminated
    have hspends := iterate_spends hr.2.invariant hrunning hcost
    rw [hr.1.same.totalCycles]
    rcases bind_eq_err.mp hloop with hiterate | ⟨consumed, s₂, l₂, l₃, hiterate, hrest, _⟩
    · obtain ⟨r', hr', _, hrefines⟩ := hr.interrupted hcap hrunning hiterate (Or.inl rfl)
      change iterate none env none limit r = _ at hr'
      rw [hr'] at hspends
      rw [hrefines.1.same.totalCycles]
      exact hspends rfl
    · obtain ⟨r', hr', _, hrefines⟩ := hr.iterated hcap hrunning hiterate
      change iterate none env none limit r = _ at hr'
      rw [hr'] at hspends
      have hreach₂ : Reachable cap env _ s₂ :=
        hreach.tail (.iterated hstate hterminated hiterate)
      simp only [checkedSubCycles, if_pos le_rfl] at hrest
      -- the rounds after the first one only add to the total
      have hmoves : Moves cap env s₂
          (runLoop cap env (RunMode.limitCycles limit).signal _ _ _ s₂) :=
        runLoop_moves _ (limit + 1) (0 + 1) (consumed - consumed)
      change runLoop cap env _ (limit + 1) _ _ s₂ = _ at hrest
      rw [hrest] at hmoves
      change r.totalCycles < r'.totalCycles at hspends
      rw [← hrefines.1.same.totalCycles] at hspends
      exact hspends.trans_le (hreach₂.path_totalCycles_le hcap (hmoves (Or.inl rfl)))

end DeterministicScheduler.Scheduler
