import DeterministicScheduler.Guest
import DeterministicScheduler.Transparency

/-!
# Drivers

A driver calls the entry point until a call is not interrupted, and may suspend and
resume the scheduler between two calls. What a new scheduler comes to does not
depend on its driver.
-/
namespace DeterministicScheduler.Scheduler

open ProgramLogic Program Outcome Std

variable {μ κ : Type} {Mirrors : TxData → μ → Prop} [Memory μ] {cap : Option ℕ} {env : Env μ κ}
  {s s' r r' r'' : Scheduler μ κ} {tr l l' : List (Event μ)}

/-- What a driver comes to: the result of its last call, the scheduler it leaves and
all that was logged. -/
structure Final (μ κ : Type) where
  result : Except Error (Int8 × ℕ)
  scheduler : Scheduler μ κ
  log : List (Event μ)

def Final.after (l : List (Event μ)) (f : Final μ κ) : Final μ κ :=
  { f with log := l ++ f.log }

/-- The end of a driver. A call that is interrupted is followed by the next of the
list, and any other result is final. There is none when the host crashes or the list
is used up. -/
def finalOutcome (cap : Option ℕ) (env : Library Mirrors κ) :
    List Call → Scheduler μ κ → Option (Final μ κ)
  | [], _ => none
  | .run mode :: calls, s =>
    match run cap env mode s with
    | .ok result s' l => some ⟨.ok result, s', l⟩
    | .err e s' l =>
      if e.Interrupt then (finalOutcome cap env calls s').map (Final.after l)
      else some ⟨.error e, s', l⟩
    | .panic => none
  | .suspend :: calls, s =>
    match suspend env s with
    | .ok full _ l => (finalOutcome cap env calls (resume full)).map (Final.after l)
    | _ => none

/-- What is left to do at `r'` is what is left to do at `r`, but for the messages that
`l` has answered. -/
def Serves (env : Env μ κ) (r : Scheduler μ κ) (l : List (Event μ)) (r' : Scheduler μ κ) : Prop :=
  ∀ final u messages, Completes env r final u messages ↔
    ∃ rest, Completes env r' final u rest ∧ messages = l.filterMap Event.message? ++ rest

theorem Serves.refl (r : Scheduler μ κ) : Serves env r [] r := by
  intro final u messages
  constructor
  · exact fun h => ⟨messages, h, rfl⟩
  · rintro ⟨rest, h, rfl⟩
    exact h

theorem Serves.trans (h : Serves env r l r') (h' : Serves env r' l' r'') :
    Serves env r (l ++ l') r'' := by
  intro final u messages
  rw [h, List.filterMap_append]
  constructor
  · rintro ⟨_, hend, rfl⟩
    obtain ⟨rest, hend', rfl⟩ := (h' _ _ _).mp hend
    exact ⟨rest, hend', (List.append_assoc _ _ _).symm⟩
  · rintro ⟨rest, hend, rfl⟩
    exact ⟨_, (h' _ _ _).mpr ⟨rest, hend, rfl⟩, List.append_assoc _ _ _⟩

theorem Serves.completes (h : Serves env r l r') {final : Except Error Unit} {u : Scheduler μ κ}
    {messages : List Message} (hend : Completes env r' final u messages) :
    Completes env r final u (l.filterMap Event.message? ++ messages) :=
  (h _ _ _).mpr ⟨messages, hend, rfl⟩

/-- A round that goes through or is interrupted. -/
theorem Refines.serves (hcap : ∀ c, cap = some c → 2 ≤ c) (h : Refines cap env tr s r)
    (hrun : Running r) {pause : Pause} {limitCycles : ℕ} :
    (iterate cap env pause limitCycles s).Meets
      (fun _ s' l => ∃ r', Refines cap env (tr ++ l) s' r' ∧ Serves env r l r')
      (fun e s' l => e.Interrupt → ∃ r', Refines cap env (tr ++ l) s' r' ∧ Serves env r l r')
      True := by
  cases hiterate : iterate cap env pause limitCycles s with
  | panic => trivial
  | ok consumed s' l =>
    obtain ⟨r', hr', _, hrefines⟩ := h.iterated hcap hrun hiterate
    refine ⟨r', hrefines, fun final u messages => ?_⟩
    have hpanic : iterate none env pause limitCycles r ≠ .panic := by simp [hr']
    rw [iterate_completes h.2.invariant hrun hpanic (by simp [hr']), CarriesOn, hr']
    rfl
  | err e s' l =>
    intro he
    obtain ⟨r', hr', _, hrefines⟩ := h.interrupted hcap hrun hiterate he
    have hover : e ≠ .cyclesOverflow := by
      rintro rfl
      simp [Error.Interrupt] at he
    refine ⟨r', hrefines, fun final u messages => ?_⟩
    have hpanic : iterate none env pause limitCycles r ≠ .panic := by simp [hr']
    rw [iterate_completes h.2.invariant hrun hpanic (by simp [hr', hover]), hr',
      carriesOn_interrupted he]

/-- A round that ends with an error of its own. -/
theorem Refines.failed (hcap : ∀ c, cap = some c → 2 ≤ c) (htotal : env.SnapshotsTotal)
    (h : Refines cap env tr s r) (hrun : Running r) {pause : Pause} {limitCycles : ℕ} {e : Error}
    (hiterate : iterate cap env pause limitCycles s = .err e s' l) (he : ¬ e.Interrupt)
    (hover : e ≠ .cyclesOverflow) :
    ∃ r', Linked cap env s' r' ∧ Completes env r (.error e) r' (l.filterMap Event.message?) := by
  have hsim := iterate_simulates hcap h.1 pause limitCycles
  rw [hiterate] at hsim
  obtain ⟨r', hr', hlinked⟩ := hsim.resolve_left htotal.no_error
  have hpanic : iterate none env pause limitCycles r ≠ .panic := by simp [hr']
  refine ⟨r', hlinked, ?_⟩
  rw [iterate_completes h.2.invariant hrun hpanic (by simp [hr', hover]), CarriesOn, hr']
  exact Or.inr ⟨he, rfl, rfl, rfl⟩

/-- How a call of a scheduler with a booted root ends, in terms of its reference. -/
def CallEnds (cap : Option ℕ) (env : Env μ κ) (tr : List (Event μ)) (r : Scheduler μ κ) {α : Type}
    (o : Outcome Error (Event μ) (Scheduler μ κ) α) : Prop :=
  o.Meets
    (fun _ s' l => ∃ r', Refines cap env (tr ++ l) s' r' ∧ Serves env r l r')
    (fun e s' l => (e.Interrupt → ∃ r', Refines cap env (tr ++ l) s' r' ∧ Serves env r l r') ∧
      (¬ e.Interrupt → e ≠ .cyclesOverflow → ∃ r', Linked cap env s' r' ∧
        Completes env r (.error e) r' (l.filterMap Event.message?)))
    True

theorem CallEnds.after {α : Type} {o : Outcome Error (Event μ) (Scheduler μ κ) α}
    (hserves : Serves env r l r') (h : CallEnds cap env (tr ++ l) r' o) :
    CallEnds cap env tr r (o.after l) := by
  refine Meets.after (h.mono ?_ ?_ (fun h => h))
  · rintro _ s' l' ⟨r'', hrefines, hserves'⟩
    exact ⟨r'', List.append_assoc tr l l' ▸ hrefines, hserves.trans hserves'⟩
  · rintro e s' l' ⟨hinterrupt, hfails⟩
    constructor
    · intro he
      obtain ⟨r'', hrefines, hserves'⟩ := hinterrupt he
      exact ⟨r'', List.append_assoc tr l l' ▸ hrefines, hserves.trans hserves'⟩
    · intro he hover
      obtain ⟨r'', hlinked, hend⟩ := hfails he hover
      refine ⟨r'', hlinked, ?_⟩
      rw [List.filterMap_append]
      exact hserves.completes hend

theorem runLoop_ends (hcap : ∀ c, cap = some c → 2 ≤ c) (htotal : env.SnapshotsTotal)
    (h : Refines cap env tr s r) (pause : ℕ → Pause) (fuel k limitCycles : ℕ) :
    CallEnds cap env tr r (runLoop cap env pause fuel k limitCycles s) := by
  induction fuel generalizing tr s r k limitCycles with
  | zero => exact ⟨r, by simpa using h, .refl r⟩
  | succ fuel ih =>
    simp only [runLoop, get_bind_run]
    cases hroot : s.states[rootVmId]? with
    | none => trivial
    | some state =>
      rw [unwrap_some, pure_bind_run]
      by_cases hstate : state = .terminated
      · rw [if_pos hstate]
        exact ⟨r, by simpa using h, .refl r⟩
      rw [if_neg hstate, bind_run]
      have hrun := h.2.invariant.running (h.1.same.states ▸ hroot) hstate
      have hround : (iterate cap env (pause k) limitCycles s).Meets _ _ _ := h.serves hcap hrun
      cases hiterate : iterate cap env (pause k) limitCycles s with
      | panic => trivial
      | err e s' l =>
        rw [hiterate] at hround
        exact ⟨hround, fun he hover => h.failed hcap htotal hrun hiterate he hover⟩
      | ok consumed s' l =>
        rw [hiterate] at hround
        obtain ⟨r', hrefines, hserves⟩ := hround
        simp only [checkedSubCycles, if_pos le_rfl]
        exact (ih hrefines _ _).after hserves

theorem run_ends (hcap : ∀ c, cap = some c → 2 ≤ c) (htotal : env.SnapshotsTotal)
    (h : Refines cap env tr s r) (mode : RunMode) :
    CallEnds cap env tr r (run cap env mode s) := by
  have hroot : rootVmId ∈ s.states := h.1.same.states ▸ h.2.invariant.root
  have hloop := runLoop_ends hcap htotal h mode.signal (mode.limit + 2) 0 mode.limit
  rw [run, bind_of_ok (bootRoot_noop hroot), after_nil, get_bind_run,
    if_pos (ExtTreeMap.contains_iff_mem.mpr hroot), bind_run]
  cases hrun : runLoop cap env mode.signal (mode.limit + 2) 0 mode.limit s with
  | panic => trivial
  | err e s' l =>
    rw [hrun] at hloop
    exact hloop
  | ok finished s' l =>
    rw [hrun] at hloop
    obtain ⟨r', hrefines, hserves⟩ := hloop
    refine CallEnds.after hserves ?_
    cases finished with
    | none => trivial
    | some _ =>
      dsimp only
      cases hm : s'.instantiated[rootVmId]? with
      | none =>
        rw [bind_of_panic (machine_panic hm)]
        trivial
      | some m =>
        rw [bind_of_ok (machine_run hm)]
        exact ⟨r', by simpa using hrefines, .refl r'⟩

/-- The end of a driver is the one of the reference, and an exit code is the one that
is recorded for the root. -/
theorem finalOutcome_completes (hcap : ∀ c, cap = some c → 2 ≤ c) (htotal : env.SnapshotsTotal)
    (hreach : Reachable cap env tr s) (h : Refines cap env tr s r) {calls : List Call}
    {f : Final μ κ} (hf : finalOutcome cap env calls s = some f)
    (hover : f.result ≠ .error .cyclesOverflow) :
    ∃ r', Linked cap env f.scheduler r' ∧
      Completes env r (f.result.map fun _ => ⟨⟩) r' (f.log.filterMap Event.message?) ∧
      ∀ v, f.result = .ok v →
        f.scheduler.terminatedVms[rootVmId]? = some v.1 ∧ v.2 = f.scheduler.totalCycles := by
  induction calls generalizing tr s r f with
  | nil => cases hf
  | cons call calls ih =>
    have hrest : ∀ {s₁ r₁ : Scheduler μ κ} {l : List (Event μ)}, Reachable cap env (tr ++ l) s₁ →
        Refines cap env (tr ++ l) s₁ r₁ → Serves env r l r₁ →
        (finalOutcome cap env calls s₁).map (Final.after l) = some f →
        ∃ r', Linked cap env f.scheduler r' ∧
          Completes env r (f.result.map fun _ => ⟨⟩) r' (f.log.filterMap Event.message?) ∧
          ∀ v, f.result = .ok v →
            f.scheduler.terminatedVms[rootVmId]? = some v.1 ∧ v.2 = f.scheduler.totalCycles := by
      intro s₁ r₁ l hreach₁ hrefines hserves hmap
      obtain ⟨f₁, hf₁, rfl⟩ := Option.map_eq_some_iff.mp hmap
      obtain ⟨r', hlinked, hend, hcode⟩ := ih hreach₁ hrefines hf₁ hover
      refine ⟨r', hlinked, ?_, hcode⟩
      rw [Final.after, List.filterMap_append]
      exact hserves.completes hend
    cases call with
    | run mode =>
      have hends := run_ends hcap htotal h mode
      simp only [finalOutcome] at hf
      cases hrun : run cap env mode s with
      | panic =>
        rw [hrun] at hf
        cases hf
      | ok result s' l =>
        rw [hrun] at hf hends
        cases hf
        obtain ⟨r', hrefines, hserves⟩ := hends
        obtain ⟨hroot, m, hm, rfl⟩ := run_returns hrun
        refine ⟨r', hrefines.1, ?_, ?_⟩
        · have hfinal : RootTerminated r' := by
            rw [RootTerminated, ← hrefines.1.same.states]
            exact hroot
          have hend := hserves.completes (.final hfinal)
          rw [List.append_nil] at hend
          exact hend
        · rintro v hv
          cases hv
          exact ⟨(hreach.run_ok hrun).keepsExitCode hcap hroot m hm, rfl⟩
      | err e s' l =>
        rw [hrun] at hf hends
        obtain ⟨hinterrupt, hfails⟩ := hends
        dsimp only at hf
        by_cases he : e.Interrupt
        · rw [if_pos he] at hf
          obtain ⟨r₁, hrefines, hserves⟩ := hinterrupt he
          exact hrest (hreach.run_interrupted hrun he) hrefines hserves hf
        · rw [if_neg he] at hf
          cases hf
          obtain ⟨r', hlinked, hend⟩ := hfails he fun heq => hover (by rw [heq])
          exact ⟨r', hlinked, hend, by simp⟩
    | suspend =>
      simp only [finalOutcome] at hf
      cases hsuspend : suspend env s with
      | panic =>
        rw [hsuspend] at hf
        cases hf
      | err e s' l =>
        rw [hsuspend] at hf
        cases hf
      | ok full s' l =>
        rw [hsuspend] at hf
        obtain ⟨rfl, hrefines⟩ := h.suspended hsuspend
        have hreach₁ := hreach.tail (.suspended hsuspend)
        exact hrest hreach₁ (by simpa using hrefines) (.refl r) hf

theorem run_boots {s₁ : Scheduler μ κ} (hboot : bootRoot cap env s = .ok ⟨⟩ s₁ l)
    (hroot : rootVmId ∈ s₁.states) (mode : RunMode) :
    run cap env mode s = (run cap env mode s₁).after l := by
  rw [run, bind_of_ok hboot, bind_of_ok (bootRoot_noop hroot), after_nil]

/-- A driver of a new scheduler first boots its root, and fails if that fails. -/
theorem finalOutcome_new (hcap : ∀ c, cap = some c → 2 ≤ c) {calls : List Call} {f : Final μ κ}
    (hf : finalOutcome cap env calls (new : Scheduler μ κ) = some f) :
    (∃ e s' l, bootRoot cap env (new : Scheduler μ κ) = .err e s' l ∧ f = ⟨.error e, s', l⟩) ∨
      ∃ s' l calls' f', bootRoot cap env (new : Scheduler μ κ) = .ok ⟨⟩ s' l ∧
        finalOutcome cap env calls' s' = some f' ∧ f = f'.after l := by
  induction calls generalizing f with
  | nil => cases hf
  | cons call calls ih =>
    cases call with
    | run mode =>
      have hregular := regular_bootRoot (P := fun _ => False) (B := False) cap env
        (new : Scheduler μ κ)
      simp only [finalOutcome] at hf
      cases hboot : bootRoot cap env (new : Scheduler μ κ) with
      | panic =>
        rw [run, bind_of_panic hboot] at hf
        cases hf
      | err e s' l =>
        rw [hboot] at hregular
        rw [run, bind_of_err hboot] at hf
        dsimp only at hf
        rw [if_neg hregular.1.2.1] at hf
        cases hf
        exact Or.inl ⟨e, s', l, rfl, rfl⟩
      | ok _ s' l =>
        obtain ⟨r, _, hrefines⟩ := Refines.booted hcap hboot
        have hroot : rootVmId ∈ s'.states := hrefines.1.same.states ▸ hrefines.2.invariant.root
        rw [run_boots hboot hroot] at hf
        refine Or.inr ⟨s', l, .run mode :: calls, ?_⟩
        simp only [finalOutcome]
        cases hrun : run cap env mode s' with
        | panic =>
          rw [hrun] at hf
          cases hf
        | ok result s'' l' =>
          rw [hrun] at hf
          cases hf
          exact ⟨_, trivial, rfl, rfl⟩
        | err e s'' l' =>
          rw [hrun] at hf
          simp only [after] at hf ⊢
          by_cases he : e.Interrupt
          · rw [if_pos he] at hf ⊢
            obtain ⟨f', hf', rfl⟩ := Option.map_eq_some_iff.mp hf
            exact ⟨f'.after l', trivial, by rw [hf', Option.map_some], by simp [Final.after]⟩
          · rw [if_neg he] at hf ⊢
            cases hf
            exact ⟨_, trivial, rfl, rfl⟩
    | suspend =>
      simp only [finalOutcome] at hf
      cases hsuspend : suspend env (new : Scheduler μ κ) with
      | panic =>
        rw [hsuspend] at hf
        cases hf
      | err e s' l =>
        rw [hsuspend] at hf
        cases hf
      | ok full s' l =>
        rw [hsuspend] at hf
        obtain ⟨rfl, hnew⟩ := new_suspended hsuspend
        dsimp only at hf
        rw [hnew] at hf
        obtain ⟨f', hf', rfl⟩ := Option.map_eq_some_iff.mp hf
        exact ih hf'

/-- What a transaction comes to one instruction after another, from the boot of its
root. -/
def Concludes (env : Env μ κ) :
    Except Error Unit → Scheduler μ κ → List Message → Prop :=
  Continues (fun r => (instruct env r).view Event.message?) RootTerminated Error.Interrupt
    ((bootRoot none env new).view Event.message?)

theorem Concludes.unique {final final' : Except Error Unit} {u u' : Scheduler μ κ}
    {messages messages' : List Message} (h : Concludes env final u messages)
    (h' : Concludes env final' u' messages') : final = final' ∧ u = u' ∧ messages = messages' :=
  Continues.unique h h'

/-- A driver comes to the end of the transaction that it drives, and an exit code is
the one that is recorded for the root. -/
theorem finalOutcome_concludes (hcap : ∀ c, cap = some c → 2 ≤ c) (htotal : env.SnapshotsTotal)
    {calls : List Call} {f : Final μ κ} (hf : finalOutcome cap env calls new = some f)
    (hover : f.result ≠ .error .cyclesOverflow) :
    ∃ u, Concludes env (f.result.map fun _ => ⟨⟩) u (f.log.filterMap Event.message?) ∧
      f.scheduler.totalCycles = u.totalCycles ∧ f.scheduler.terminatedVms = u.terminatedVms ∧
      ∀ v, f.result = .ok v → u.terminatedVms[rootVmId]? = some v.1 ∧ v.2 = u.totalCycles := by
  rcases finalOutcome_new hcap hf with ⟨e, s, l, hboot, rfl⟩ | ⟨s, l, calls', f', hboot, hf', rfl⟩
  · have hnew : Related cap env (fun _ => False) [] (new : Scheduler μ κ) new := new_related
    have hsim := bootRoot_tracks hcap _ _ hnew
    have hfails := (regular_bootRoot (P := fun _ => False) (B := False) cap env).fails new
    rw [hboot] at hsim hfails
    obtain ⟨r, hr, hrel⟩ := hsim.resolve_left htotal.no_error
    refine ⟨r, ?_, hrel.same.totalCycles, hrel.same.terminatedVms, by simp⟩
    rw [Concludes, hr]
    exact Or.inr ⟨hfails.2.1, rfl, rfl, rfl⟩
  · obtain ⟨r, hr, hrefines⟩ := Refines.booted hcap hboot
    have hreach : Reachable cap env l s := .single (.booted hboot)
    obtain ⟨u, hlinked, hend, hcode⟩ := finalOutcome_completes hcap htotal hreach hrefines hf' hover
    have hcycles : f'.scheduler.totalCycles = u.totalCycles := hlinked.same.totalCycles
    have hcodes : f'.scheduler.terminatedVms = u.terminatedVms := hlinked.same.terminatedVms
    refine ⟨u, ?_, hcycles, hcodes, ?_⟩
    · rw [Concludes, hr, Final.after, List.filterMap_append]
      exact ⟨_, hend, rfl⟩
    · intro v hv
      rw [← hcodes, ← hcycles]
      exact hcode v hv

omit [Memory μ] in
/-- The result of a driver is determined by the end of the transaction. -/
theorem result_unique {result result' : Except Error (Int8 × ℕ)} {u : Scheduler μ κ}
    (h : (result.map fun _ => ()) = result'.map fun _ => ())
    (hcode : ∀ v, result = .ok v → u.terminatedVms[rootVmId]? = some v.1 ∧ v.2 = u.totalCycles)
    (hcode' : ∀ v, result' = .ok v →
      u.terminatedVms[rootVmId]? = some v.1 ∧ v.2 = u.totalCycles) : result = result' := by
  cases result with
  | error e =>
    cases result' with
    | error e' =>
      cases h
      rfl
    | ok v' => cases h
  | ok v =>
    cases result' with
    | error e' => cases h
    | ok v' =>
      obtain ⟨hroot, hcycles⟩ := hcode v rfl
      obtain ⟨hroot', hcycles'⟩ := hcode' v' rfl
      rw [hroot', Option.some.injEq] at hroot
      rw [Prod.ext hroot.symm (hcycles.trans hcycles'.symm)]

/-- Two drivers of the same transaction that come to an end, with no overflow of the
cycles, come to the same one: the same result, the same total of cycles, the same exit
codes, and the same messages in the same order. -/
theorem interruptions_transparent (env : Env μ κ) (htotal : env.SnapshotsTotal)
    {calls calls' : List Call} {f f' : Final μ κ}
    (h : finalOutcome maxInstantiatedVms env calls new = some f)
    (h' : finalOutcome maxInstantiatedVms env calls' new = some f')
    (hover : f.result ≠ .error .cyclesOverflow) (hover' : f'.result ≠ .error .cyclesOverflow) :
    f.result = f'.result ∧
      f.scheduler.totalCycles = f'.scheduler.totalCycles ∧
      f.scheduler.terminatedVms = f'.scheduler.terminatedVms ∧
      f.log.filterMap Event.message? = f'.log.filterMap Event.message? := by
  have hcap := two_le_maxInstantiatedVms
  obtain ⟨u, hend, hcycles, hcodes, hcode⟩ := finalOutcome_concludes hcap htotal h hover
  obtain ⟨u', hend', hcycles', hcodes', hcode'⟩ := finalOutcome_concludes hcap htotal h' hover'
  obtain ⟨hresult, rfl, hmessages⟩ := hend.unique hend'
  exact ⟨result_unique hresult hcode hcode', hcycles.trans hcycles'.symm,
    hcodes.trans hcodes'.symm, hmessages⟩

/-- A driver that gives each call the cycles for several instructions. -/
def patientDriver : List Call :=
  List.replicate 9 (.run (.limitCycles 20))

/-- A driver that suspends the scheduler between every two calls, and pauses every
other call after one instruction. -/
def hastyDriver : List Call :=
  (List.replicate 12 [.run (.limitCycles 11), .suspend, .run (.pause fun _ => some 1)]).flatten

theorem finalOutcome_of_test {calls : List Call} {env : Env μ κ} {v : Int8 × ℕ}
    (h : (finalOutcome maxInstantiatedVms env calls new).any
      (fun f => f.result.toOption == some v) = true) :
    ∃ f, finalOutcome maxInstantiatedVms env calls new = some f ∧ f.result = .ok v := by
  obtain ⟨f, hf, hv⟩ := (Option.any_eq_true _ _).mp h
  refine ⟨f, hf, ?_⟩
  rw [beq_iff_eq] at hv
  cases hresult : f.result with
  | error e =>
    rw [hresult] at hv
    cases hv
  | ok v' =>
    rw [hresult] at hv
    exact congrArg Except.ok (Option.some.inj hv)

/-- The two drivers of a root that pipes data from the VM it spawns. -/
theorem interruptions_transparent_relay : ∃ f f' : Final Ram (Cpu Ram),
    finalOutcome maxInstantiatedVms relayEnv patientDriver new = some f ∧
      finalOutcome maxInstantiatedVms relayEnv hastyDriver new = some f' ∧
      f.result = .ok (0, 28) ∧ f.result = f'.result ∧
      f.scheduler.totalCycles = f'.scheduler.totalCycles ∧
      f.scheduler.terminatedVms = f'.scheduler.terminatedVms ∧
      f.log.filterMap Event.message? = f'.log.filterMap Event.message? := by
  obtain ⟨f, hf, hresult⟩ : ∃ f,
    finalOutcome maxInstantiatedVms relayEnv patientDriver new = some f ∧
      f.result = .ok (0, 28) := finalOutcome_of_test (by decide +kernel)
  obtain ⟨f', hf', hresult'⟩ : ∃ f',
    finalOutcome maxInstantiatedVms relayEnv hastyDriver new = some f' ∧
      f'.result = .ok (0, 28) := finalOutcome_of_test (by decide +kernel)
  exact ⟨f, f', hf, hf', hresult, interruptions_transparent relayEnv
    (scriptEnv_snapshotsTotal _ _ _ _) hf hf' (by simp [hresult]) (by simp [hresult'])⟩

end DeterministicScheduler.Scheduler
