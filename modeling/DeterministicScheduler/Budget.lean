import DeterministicScheduler.Reachability

/-!
# The cycle budget of a call

A call limits its first round by the whole budget. After a round it takes the
cycles consumed off themselves instead of off the budget, so a second round gets
no cycles at all and executes nothing. The budget is kept exactly by the calls
that do not need more than one round, or spend it whole in the first.
-/
namespace DeterministicScheduler

open ProgramLogic Program Outcome

variable {μ κ : Type}

/-- The cycles that a machine hands over when it stops. -/
def Event.consumed : Event μ → ℕ
  | .exec _ _ after _ _ => after.cycles
  | _ => 0

def consumedCycles (l : List (Event μ)) : ℕ :=
  (l.map Event.consumed).sum

@[simp] theorem consumedCycles_nil : consumedCycles ([] : List (Event μ)) = 0 := rfl

@[simp] theorem consumedCycles_cons (ev : Event μ) (l : List (Event μ)) :
    consumedCycles (ev :: l) = ev.consumed + consumedCycles l := by
  simp [consumedCycles]

@[simp] theorem consumedCycles_append (l l' : List (Event μ)) :
    consumedCycles (l ++ l') = consumedCycles l + consumedCycles l' := by
  simp [consumedCycles]

theorem consumedCycles_inner {l : List (Event μ)} (h : ∀ ev ∈ l, ev.Inner) :
    consumedCycles l = 0 := by
  induction l with
  | nil => rfl
  | cons ev l ih =>
    rw [consumedCycles_cons, ih fun ev' hev' => h ev' (List.mem_cons_of_mem _ hev')]
    have hinner := h ev List.mem_cons_self
    cases ev <;> first | rfl | cases hinner.2

namespace Scheduler

variable [Memory μ] {cap : Option ℕ} {env : Env μ κ} {s s' : Scheduler μ κ} {l : List (Event μ)}
  {pause : Pause} {limitCycles : ℕ}

/-- The limit of each round and the cycles consumed before it make up the budget. -/
def LimitsKept (budget : ℕ) (l : List (Event μ)) : Prop :=
  Throughout (fun before ev => ∀ limitCycles, ev = .iterate limitCycles →
    limitCycles + consumedCycles before = budget) l

/-- Some machine stopped before an instruction that would have exceeded the budget. -/
def Exceeds (env : Env μ κ) (budget : ℕ) (l : List (Event μ)) : Prop :=
  ∃ id before after posted, .exec id before after (.error .cyclesExceeded) posted ∈ l ∧
    budget < consumedCycles l + env.cost after.toCore

/-- Whether a call has kept its budget: it has limited its rounds by what was left
of it, and has only reported its cycles exceeded when they were. -/
def BudgetKept (env : Env μ κ) (budget : ℕ) {α : Type}
    (o : Outcome Error (Event μ) (Scheduler μ κ) α) : Prop :=
  o.Meets (fun _ _ l => LimitsKept budget l)
    (fun e _ l => LimitsKept budget l ∧ (e = .cyclesExceeded → Exceeds env budget l)) True

omit [Memory μ] in
theorem limitsKept_of_unlimited {budget : ℕ} (h : ∀ ev ∈ l, ev.limit? = none) :
    LimitsKept budget l := by
  rintro before ev rest rfl limitCycles rfl
  cases h (.iterate limitCycles) (by simp)

omit [Memory μ] in
theorem limitsKept_append {budget consumed : ℕ} {l' : List (Event μ)}
    (hconsumed : consumedCycles l = consumed) (hle : consumed ≤ budget) :
    LimitsKept budget (l ++ l') ↔ LimitsKept budget l ∧ LimitsKept (budget - consumed) l' := by
  rw [LimitsKept, throughout_append]
  refine and_congr_right fun _ => ?_
  have hbudget : ∀ n (h : List (Event μ)), n + consumedCycles (l ++ h) = budget ↔
      n + consumedCycles h = budget - consumed := by
    intro n h
    rw [consumedCycles_append, hconsumed]
    omega
  simp only [LimitsKept, hbudget]

/-- Running a machine logs its execution, unless it fails fatally. -/
theorem runVm_stops (id : VmId) : (runVm cap env id pause limitCycles s).Meets
    (fun r _ l => ∃ m cpu posted baseCycles, l = [.exec id m cpu r.1 posted] ∧
      r.2 = cpu.cycles ∧ runMachine env ⟨id, baseCycles⟩ limitCycles pause m =
        stopped r.1 cpu posted)
    (fun e _ l => e.Fatal ∧ ∀ ev ∈ l, ev.limit? = none) True := by
  have hensure := regular_ensure (P := fun _ => False) (B := False) (N := fun _ => False) cap env
    [id] s
  have hfatal := regular_runVm (P := fun _ => False) cap env id pause limitCycles s
  cases hrun : runVm cap env id pause limitCycles s with
  | panic => trivial
  | err e t l =>
    rw [hrun] at hfatal
    exact ⟨hfatal.1, hfatal.2.2⟩
  | ok r t l =>
    cases ho : ensureVmsInstantiated cap env [id] s with
    | panic =>
      rw [runVm, bind_of_panic ho] at hrun
      cases hrun
    | err e s₁ l₁ =>
      rw [runVm, bind_of_err ho] at hrun
      cases hrun
    | ok _ s₁ l₁ =>
      rw [ho] at hensure
      obtain rfl : l₁ = [] := List.eq_nil_iff_forall_not_mem.mpr hensure.2
      cases hm : s₁.instantiated[id]? with
      | none =>
        rw [runVm, bind_of_ok ho, bind_of_panic (machine_panic hm)] at hrun
        cases hrun
      | some m =>
        rw [runVm_run ho hm] at hrun
        cases hmachine : runMachine env ⟨id, s₁.totalCycles⟩ limitCycles pause m.toCpu with
        | panic =>
          rw [hmachine] at hrun
          cases hrun
        | ok code cpu posted =>
          rw [hmachine] at hrun
          obtain ⟨hresult, hconsumed, _, hlog⟩ := execution_ok hrun
          exact ⟨m.toCpu, cpu, posted, _, by rw [hlog, hresult], hconsumed,
            by rw [hresult]; exact hmachine⟩
        | err e cpu posted =>
          rw [hmachine] at hrun
          obtain ⟨hresult, hconsumed, _, hlog⟩ := execution_ok hrun
          exact ⟨m.toCpu, cpu, posted, _, by rw [hlog, hresult], hconsumed,
            by rw [hresult]; exact hmachine⟩

/-- A log without limits, in which so many cycles are consumed. -/
def Consumes (consumed : ℕ) (l : List (Event μ)) : Prop :=
  (∀ ev ∈ l, ev.limit? = none) ∧ consumedCycles l = consumed

omit [Memory μ] in
theorem Consumes.of_inner (h : ∀ ev ∈ l, ev.Inner) : Consumes 0 l :=
  ⟨fun ev hev => (h ev hev).1, consumedCycles_inner h⟩

omit [Memory μ] in
theorem Consumes.append {c c' : ℕ} {l' : List (Event μ)} (h : Consumes c l) (h' : Consumes c' l') :
    Consumes (c + c') (l ++ l') := by
  constructor
  · intro ev hev
    rcases List.mem_append.mp hev with hev | hev
    · exact h.1 ev hev
    · exact h'.1 ev hev
  · rw [consumedCycles_append, h.2, h'.2]

omit [Memory μ] in
theorem Exceeds.append {budget : ℕ} (h : Exceeds env budget l) (l₁ l₂ : List (Event μ)) :
    Exceeds env budget (l₁ ++ (l ++ l₂)) := by
  obtain ⟨id, before, after, posted, hin, hlt⟩ := h
  refine ⟨id, before, after, posted, by simp [hin], ?_⟩
  simp only [consumedCycles_append]
  omega

/-- What a round that fails has logged after its limit. -/
def RoundFailsIn (env : Env μ κ) (limitCycles : ℕ) (e : Error) (l : List (Event μ)) : Prop :=
  (∀ ev ∈ l, ev.limit? = none) ∧ (e = .cyclesExceeded → Exceeds env limitCycles l)

omit [Memory μ] in
theorem RoundFailsIn.of_fatal {e : Error} (he : e.Fatal) (h : ∀ ev ∈ l, ev.limit? = none) :
    RoundFailsIn env limitCycles e l := by
  refine ⟨h, ?_⟩
  rintro rfl
  exact absurd (Or.inl rfl) he.2.1

/-- The end of a round: its messages are answered, and a VM that exited is cleaned
up after. -/
def finishRound (cap : Option ℕ) (env : Env μ κ) (id : VmId) (result : Except Error Int8)
    (consumed : ℕ) : SchedulerM μ κ ℕ := do
  processMessageBox cap env
  if (← get).messageBox.isEmpty then
    match result with
    | .ok code =>
      terminateVm cap env id code
      return consumed
    | .error e => if e = .yield then return consumed else throw e
  else crash

/-- What the end of a round logs is no limit and no execution, and it only fails
fatally or as the execution did. -/
theorem finishRound_meets (id : VmId) (result : Except Error Int8) (consumed : ℕ) :
    (finishRound cap env id result consumed s).Meets
      (fun consumed' _ l => (∀ ev ∈ l, ev.Inner) ∧ consumed' = consumed ∧
        ∀ e, result = .error e → e = .yield)
      (fun e _ l => (∀ ev ∈ l, ev.Inner) ∧ (e.Fatal ∨ result = .error e)) True := by
  have happend : ∀ {l l' : List (Event μ)}, (∀ ev ∈ l, ev.Inner) → (∀ ev ∈ l', ev.Inner) →
      ∀ ev ∈ l ++ l', ev.Inner := by
    intro l l' hl hl' ev hev
    rcases List.mem_append.mp hev with hev | hev
    · exact hl ev hev
    · exact hl' ev hev
  refine meets_bind (P := fun _ _ l => ∀ ev ∈ l, ev.Inner)
    ((regular_processMessageBox (P := fun _ => False) cap env s).mono (fun _ _ _ h => h.2)
      (fun _ _ _ h => ⟨h.2.2, Or.inl h.1⟩) (fun h => h)) ?_
  intro _ s₁ l₁ hl₁
  rw [get_bind_run]
  split
  · cases result with
    | ok code =>
      refine meets_bind (P := fun _ _ l => ∀ ev ∈ l, ev.Inner)
        ((regular_terminateVm (B := False) cap env id code s₁).mono (fun _ _ _ h => h.2)
          (fun _ _ _ h => ⟨happend hl₁ h.2.2, Or.inl h.1⟩) (fun h => h)) ?_
      intro _ s₂ l₂ hl₂
      refine ⟨happend hl₁ (happend hl₂ (by simp)), rfl, ?_⟩
      intro e he
      cases he
    | error e =>
      dsimp only
      split
      · rename_i he
        refine ⟨happend hl₁ (by simp), rfl, ?_⟩
        intro e' he'
        cases he'
        exact he
      · exact ⟨happend hl₁ (by simp), Or.inr rfl⟩
  · trivial

theorem iterate_eq : iterate cap env pause limitCycles = (do
    emit (.iterate limitCycles)
    processIo cap env
    match vmIdToRun (← get).states with
    | none => throw .deadlock
    | some id =>
      let (result, consumed) ← runVm cap env id pause limitCycles
      finishRound cap env id result consumed) := rfl

/-- A round logs its limit first and then what it consumes. It goes through only
when it may execute something, and reports its cycles exceeded when they are. -/
theorem iterate_budget : (iterate cap env pause limitCycles s).Meets
    (fun consumed _ l => limitCycles ≠ 0 ∧
      ∃ l', l = .iterate limitCycles :: l' ∧ Consumes consumed l')
    (fun e _ l => ∃ l', l = .iterate limitCycles :: l' ∧ RoundFailsIn env limitCycles e l')
    True := by
  rw [iterate_eq, emit_bind_run]
  apply Meets.after
  refine Meets.mono (Q := fun consumed _ l => limitCycles ≠ 0 ∧ Consumes consumed l)
    (E := fun e _ l => RoundFailsIn env limitCycles e l) ?_
    (fun _ _ l h => ⟨h.1, l, rfl, h.2⟩) (fun _ _ l h => ⟨l, rfl, h⟩) (fun h => h)
  refine meets_bind (P := fun _ _ l => ∀ ev ∈ l, ev.Inner)
    ((regular_processIo (P := fun _ => False) (B := False) cap env s).mono (fun _ _ _ h => h.2)
      (fun _ _ _ h => .of_fatal h.1 fun ev hev => (h.2.2 ev hev).1) (fun h => h)) ?_
  intro _ s₁ l₁ hl₁
  have hio := Consumes.of_inner hl₁
  rw [get_bind_run]
  cases hid : vmIdToRun s₁.states with
  | none =>
    refine ⟨by simpa using hio.1, ?_⟩
    intro he
    cases he
  | some id =>
    refine meets_bind ((runVm_stops id).mono (fun _ _ _ h => h)
      (fun _ _ l h => .of_fatal h.1 (hio.append ⟨h.2, rfl⟩).1) (fun h => h)) ?_
    rintro ⟨result, consumed⟩ s₂ l₂ ⟨m, cpu, posted, baseCycles, rfl, rfl, hmachine⟩
    have hexec : Consumes cpu.cycles [.exec id m cpu result posted] := by
      constructor
      · simp [Event.limit?]
      · simp [Event.consumed]
    refine (finishRound_meets id result cpu.cycles).mono ?_ ?_ (fun h => h)
    · rintro _ _ l ⟨hl, rfl, hyield⟩
      constructor
      · rintro rfl
        obtain ⟨e, he, hzero⟩ := @runMachine_zero _ _ _ env ⟨id, baseCycles⟩ pause m
        rw [hmachine] at hzero
        cases result with
        | ok code => cases hzero
        | error e' =>
          cases hzero
          rw [hyield e rfl] at he
          simp [Error.Interrupt, Error.yield] at he
      · simpa using hio.append (hexec.append (.of_inner hl))
    · rintro e _ l ⟨hl, he⟩
      have hlog := hio.append (hexec.append (.of_inner hl))
      refine ⟨hlog.1, ?_⟩
      rintro rfl
      rcases he with hfatal | rfl
      · exact absurd (Or.inl rfl) hfatal.2.1
      · have hlt := runMachine_exceeds hmachine
        refine ⟨id, m, cpu, posted, by simp, ?_⟩
        rw [hlog.2]
        omega

/-- The first round of a call ends the call, or spends the whole budget. -/
def FirstRoundSuffices (cap : Option ℕ) (env : Env μ κ) (mode : RunMode) (s : Scheduler μ κ) :
    Prop :=
  ∀ s₁ l₁ state consumed s₂ l₂, bootRoot cap env s = .ok ⟨⟩ s₁ l₁ →
    s₁.states[rootVmId]? = some state → state ≠ .terminated →
    iterate cap env (mode.signal 0) mode.limit s₁ = .ok consumed s₂ l₂ →
    s₂.states[rootVmId]? = some .terminated ∨ consumed = mode.limit

/-- The rest of a call after its first round: it returns if the root has exited,
and otherwise starts a round without any cycles, which cannot go through. -/
theorem runLoop_rest (s : Scheduler μ κ) (pause : ℕ → Pause) (fuel k : ℕ) :
    (s.states[rootVmId]? = some .terminated ∧
      runLoop cap env pause (fuel + 1) k 0 s = .ok (some ()) s []) ∨
    (s.states[rootVmId]? ≠ some .terminated ∧
      (runLoop cap env pause (fuel + 1) k 0 s).Meets (fun _ _ _ => False)
        (fun e _ l => ∃ l', l = .iterate 0 :: l' ∧ RoundFailsIn env 0 e l') True) := by
  simp only [runLoop, get_bind_run]
  cases hroot : s.states[rootVmId]? with
  | none => exact Or.inr ⟨by simp, trivial⟩
  | some state =>
    rw [unwrap_some, pure_bind_run]
    by_cases hstate : state = .terminated
    · exact Or.inl ⟨by rw [hstate], by rw [if_pos hstate]; rfl⟩
    · apply Or.inr
      refine ⟨by simpa using hstate, ?_⟩
      rw [if_neg hstate, bind_run]
      have hmeets : (iterate cap env (pause k) 0 s).Meets _ _ _ := iterate_budget
      cases hiterate : iterate cap env (pause k) 0 s with
      | panic => trivial
      | err e s' l =>
        rw [hiterate] at hmeets
        exact hmeets
      | ok consumed s' l =>
        rw [hiterate] at hmeets
        exact absurd rfl hmeets.1

omit [Memory μ] in
/-- What follows a round within a call logs against what the round left. -/
theorem budgetKept_after {α : Type} {o : Outcome Error (Event μ) (Scheduler μ κ) α}
    {budget consumed : ℕ} (hl : LimitsKept budget l) (hconsumed : consumedCycles l = consumed)
    (hle : consumed ≤ budget) (h : BudgetKept env (budget - consumed) o) :
    BudgetKept env budget (o.after l) := by
  have hkept : ∀ l', LimitsKept (budget - consumed) l' → LimitsKept budget (l ++ l') := fun l' h' =>
    (limitsKept_append hconsumed hle).mpr ⟨hl, h'⟩
  apply Meets.after
  refine h.mono (fun _ _ l' h' => hkept l' h') ?_ (fun h => h)
  rintro e _ l' ⟨hlimits, hexceeds⟩
  refine ⟨hkept l' hlimits, ?_⟩
  intro he
  obtain ⟨id, before, after, posted, hin, hlt⟩ := hexceeds he
  refine ⟨id, before, after, posted, by simp [hin], ?_⟩
  rw [consumedCycles_append, hconsumed]
  omega

omit [Memory μ] in
theorem limitsKept_round {budget : ℕ} (h : ∀ ev ∈ l, ev.limit? = none) :
    LimitsKept budget (.iterate budget :: l) := by
  rw [LimitsKept, throughout_cons]
  constructor
  · rintro limitCycles ⟨⟩
    simp
  · intro before ev rest heq limitCycles hev
    subst hev
    cases h (.iterate limitCycles) (by simp [heq])

omit [Memory μ] in
/-- A round that fails keeps the budget it was given. -/
theorem budgetKept_failed {α : Type} {e : Error} (h : RoundFailsIn env limitCycles e l) :
    BudgetKept env limitCycles
      (.err e s (.iterate limitCycles :: l) : Outcome Error (Event μ) (Scheduler μ κ) α) := by
  refine ⟨limitsKept_round h.1, ?_⟩
  intro he
  simpa using (h.2 he).append [.iterate limitCycles] []

/-- The rounds of a call keep the budget exactly when the first suffices, unless
the call crashes. -/
theorem runLoop_budget (pause : ℕ → Pause) (fuel : ℕ) :
    ((∀ state consumed s₂ l₂, s.states[rootVmId]? = some state → state ≠ .terminated →
      iterate cap env (pause 0) limitCycles s = .ok consumed s₂ l₂ →
      s₂.states[rootVmId]? = some .terminated ∨ consumed = limitCycles) →
      BudgetKept env limitCycles (runLoop cap env pause (fuel + 2) 0 limitCycles s)) ∧
    (∀ state consumed s₂ l₂, s.states[rootVmId]? = some state → state ≠ .terminated →
      iterate cap env (pause 0) limitCycles s = .ok consumed s₂ l₂ →
      ¬ (s₂.states[rootVmId]? = some .terminated ∨ consumed = limitCycles) →
      runLoop cap env pause (fuel + 2) 0 limitCycles s = .panic ∨
        ¬ BudgetKept env limitCycles (runLoop cap env pause (fuel + 2) 0 limitCycles s)) := by
  have hmeets : (iterate cap env (pause 0) limitCycles s).Meets _ _ _ := iterate_budget
  have hrounds := fun s₂ => @runLoop_rest _ _ _ cap env s₂ pause fuel 1
  have hstep : ∀ {state consumed s₂ l₂}, s.states[rootVmId]? = some state → state ≠ .terminated →
      iterate cap env (pause 0) limitCycles s = .ok consumed s₂ l₂ →
      runLoop cap env pause (fuel + 2) 0 limitCycles s =
        (runLoop cap env pause (fuel + 1) 1 0 s₂).after l₂ := by
    intro state consumed s₂ l₂ hroot hstate hiterate
    rw [runLoop, get_bind_run, hroot, unwrap_some, pure_bind_run, if_neg hstate,
      bind_of_ok hiterate]
    simp only [checkedSubCycles, if_pos le_rfl, Nat.sub_self]
  constructor
  · intro hsuffices
    cases hroot : s.states[rootVmId]? with
    | none =>
      rw [runLoop, get_bind_run, hroot]
      trivial
    | some state =>
      by_cases hstate : state = .terminated
      · rw [runLoop, get_bind_run, hroot, unwrap_some, pure_bind_run, if_pos hstate]
        exact throughout_nil
      cases hiterate : iterate cap env (pause 0) limitCycles s with
      | panic =>
        rw [runLoop, get_bind_run, hroot, unwrap_some, pure_bind_run, if_neg hstate,
          bind_of_panic hiterate]
        trivial
      | err e s' l =>
        rw [runLoop, get_bind_run, hroot, unwrap_some, pure_bind_run, if_neg hstate,
          bind_of_err hiterate]
        rw [hiterate] at hmeets
        obtain ⟨l', rfl, hfails⟩ := hmeets
        exact budgetKept_failed hfails
      | ok consumed s₂ l₂ =>
        rw [hstep hroot hstate hiterate]
        rw [hiterate] at hmeets
        obtain ⟨_, l', rfl, hlog⟩ := hmeets
        rcases hrounds s₂ with ⟨_, hrest⟩ | ⟨hnot, hrest⟩
        · rw [hrest]
          simpa [BudgetKept, Meets, after] using limitsKept_round hlog.1
        · have hconsumed : consumed = limitCycles :=
            (hsuffices state consumed s₂ _ hroot hstate hiterate).resolve_left hnot
          have hspent : consumedCycles (.iterate limitCycles :: l') = limitCycles := by
            simp [Event.consumed, hlog.2, hconsumed]
          apply budgetKept_after (limitsKept_round hlog.1) hspent le_rfl
          rw [Nat.sub_self]
          cases ho : runLoop cap env pause (fuel + 1) 1 0 s₂ with
          | panic => trivial
          | ok a s' l =>
            rw [ho] at hrest
            exact hrest.elim
          | err e s' l =>
            rw [ho] at hrest
            obtain ⟨l', rfl, hfails⟩ := hrest
            exact budgetKept_failed hfails
  · intro state consumed s₂ l₂ hroot hstate hiterate hnot
    rw [not_or] at hnot
    rw [hstep hroot hstate hiterate]
    rw [hiterate] at hmeets
    obtain ⟨_, l', rfl, hlog⟩ := hmeets
    rcases hrounds s₂ with ⟨hdone, _⟩ | ⟨_, hrest⟩
    · exact absurd hdone hnot.1
    · cases ho : runLoop cap env pause (fuel + 1) 1 0 s₂ with
      | panic => exact Or.inl rfl
      | ok a s' l =>
        rw [ho] at hrest
        exact hrest.elim
      | err e s' l =>
        rw [ho] at hrest
        obtain ⟨l₃, rfl, _⟩ := hrest
        apply Or.inr
        rintro ⟨hlimits, _⟩
        have hzero := hlimits (.iterate limitCycles :: l') (.iterate 0) l₃ rfl 0 rfl
        exact hnot.2 (by simpa [Event.consumed, hlog.2] using hzero)

omit [Memory μ] in
/-- Events that limit and execute nothing do not count. -/
theorem budgetKept_inner {α : Type} {o : Outcome Error (Event μ) (Scheduler μ κ) α} {budget : ℕ}
    (hl : ∀ ev ∈ l, ev.Inner) : BudgetKept env budget (o.after l) ↔ BudgetKept env budget o := by
  have hlog := Consumes.of_inner hl
  have hlimits : LimitsKept budget l := limitsKept_of_unlimited hlog.1
  have hkept : ∀ l', LimitsKept budget (l ++ l') ↔ LimitsKept budget l' := by
    intro l'
    rw [limitsKept_append hlog.2 (Nat.zero_le budget), Nat.sub_zero, and_iff_right hlimits]
  have hexceeds : ∀ l', Exceeds env budget (l ++ l') ↔ Exceeds env budget l' := by
    intro l'
    constructor
    · rintro ⟨id, before, after, posted, hin, hlt⟩
      have hin' := (List.mem_append.mp hin).resolve_left fun hin => by cases (hl _ hin).2
      rw [consumedCycles_append, hlog.2, Nat.zero_add] at hlt
      exact ⟨id, before, after, posted, hin', hlt⟩
    · intro h
      simpa using h.append l []
  cases o with
  | panic => exact Iff.rfl
  | ok a s' l' => exact hkept l'
  | err e s' l' => exact and_congr (hkept l') (imp_congr Iff.rfl (hexceeds l'))

/-- A call that boots logs as its rounds do, or crashes. -/
theorem run_rounds {s₁ : Scheduler μ κ} {l₁ : List (Event μ)} (mode : RunMode)
    (hboot : bootRoot cap env s = .ok ⟨⟩ s₁ l₁) : run cap env mode s = .panic ∨
      (BudgetKept env mode.limit (run cap env mode s) ↔ BudgetKept env mode.limit
        ((runLoop cap env mode.signal (mode.limit + 2) 0 mode.limit s₁).after l₁)) := by
  rw [run, bind_of_ok hboot, get_bind_run]
  split
  · cases hloop : runLoop cap env mode.signal (mode.limit + 2) 0 mode.limit s₁ with
    | panic =>
      rw [bind_of_panic hloop]
      exact Or.inl rfl
    | err e s' l =>
      rw [bind_of_err hloop]
      exact Or.inr Iff.rfl
    | ok finished s' l =>
      rw [bind_of_ok hloop]
      cases finished with
      | none => exact Or.inl rfl
      | some _ =>
        dsimp only
        cases hm : s'.instantiated[rootVmId]? with
        | none =>
          rw [bind_of_panic (machine_panic hm)]
          exact Or.inl rfl
        | some m =>
          rw [bind_of_ok (machine_run hm), get_bind_run]
          apply Or.inr
          simp [BudgetKept, Meets, after]
  · exact Or.inl rfl

/-- A call keeps its cycle budget when its first round suffices, and unless it
crashes only then. -/
theorem run_budget (env : Env μ κ) (s : Scheduler μ κ) (mode : RunMode) :
    (FirstRoundSuffices maxInstantiatedVms env mode s →
      BudgetKept env mode.limit (run maxInstantiatedVms env mode s)) ∧
    (run maxInstantiatedVms env mode s ≠ .panic →
      BudgetKept env mode.limit (run maxInstantiatedVms env mode s) →
      FirstRoundSuffices maxInstantiatedVms env mode s) := by
  have hregular := regular_bootRoot (P := fun _ => False) (B := False) maxInstantiatedVms env s
  cases hboot : bootRoot maxInstantiatedVms env s with
  | panic =>
    refine ⟨fun _ => by rw [run, bind_of_panic hboot]; trivial, fun hne => absurd ?_ hne⟩
    rw [run, bind_of_panic hboot]
  | err e s' l =>
    rw [hboot] at hregular
    constructor
    · intro _
      rw [run, bind_of_err hboot]
      refine ⟨limitsKept_of_unlimited fun ev hev => (hregular.2.2 ev hev).1, ?_⟩
      rintro rfl
      exact absurd (Or.inl rfl) hregular.1.2.1
    · intro _ _ s₁ l₁ _ _ _ _ hok
      rw [hboot] at hok
      cases hok
  | ok _ s₁ l₁ =>
    rw [hboot] at hregular
    obtain ⟨hkept, hbroken⟩ := @runLoop_budget _ _ _ maxInstantiatedVms env s₁ mode.limit
      mode.signal mode.limit
    rcases run_rounds mode hboot with hpanic | hrounds
    · refine ⟨fun _ => by rw [hpanic]; trivial, fun hne => absurd hpanic hne⟩
    rw [hrounds, budgetKept_inner hregular.2]
    constructor
    · intro hsuffices
      apply hkept
      intro state consumed s₂ l₂
      exact hsuffices s₁ l₁ state consumed s₂ l₂ hboot
    · intro hne hloop s₁' l₁' state consumed s₂ l₂ hok hroot hstate hiterate
      rw [hboot] at hok
      cases hok
      by_contra hnot
      rcases hbroken state consumed s₂ l₂ hroot hstate hiterate hnot with hpanic | hnot'
      · apply hne
        rw [run, bind_of_ok hboot, get_bind_run]
        split
        · rw [bind_of_panic hpanic]
          rfl
        · rfl
      · exact hnot' hloop

end Scheduler

end DeterministicScheduler
