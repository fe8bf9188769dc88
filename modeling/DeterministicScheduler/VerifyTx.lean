import DeterministicScheduler.Totals

/-!
# Verifying a transaction

The script groups of a transaction are run one after another, each on its own
scheduler with a fixed number of cycles for every call, and suspended and resumed
now and then. The cycles of all groups together have a maximum.
-/
namespace DeterministicScheduler

open ProgramLogic Scheduler

variable {μ κ : Type} {Mirrors : TxData → μ → Prop}

/-- A script group of a transaction: its kind and hash as messages show them, and what
its scheduler runs. -/
structure ScriptGroup {μ : Type} (Mirrors : TxData → μ → Prop) (κ : Type) where
  kind : String
  hash : String
  env : Library Mirrors κ

/-- A script group whose snapshots restore every machine. -/
abbrev Group (μ κ : Type) := ScriptGroup (fun (_ : TxData) (_ : μ) => True) κ

/-- How a verification ends without a result. It rejects the transaction with an
error, the host crashes, a sum or a difference of cycles leaves the 64-bit range, or it
has not ended within its fuel. -/
inductive Halt where
  | rejected (e : Error)
  | panicked
  | overflow
  | underflow
  | running
  deriving DecidableEq, Repr

namespace ScriptGroup

def outOfCycles (g : ScriptGroup Mirrors κ) (consumedCycles maxCycles : ℕ) : Error :=
  .unexpected (s!"{g.kind} of hash {g.hash} runs out of max cycles! " ++
    s!"Consumed: {consumedCycles}, max: {maxCycles}")

def overBudget (g : ScriptGroup Mirrors κ) (consumedCycles totalCycles maxCycles : ℕ) : Error :=
  .unexpected (s!"{g.kind} of hash {g.hash} runs out of max cycles! " ++
    s!"Consumed: {consumedCycles}, total: {totalCycles} max: {maxCycles}")

def nonZero (exitCode : Int8) : Error :=
  .unexpected s!"Non-zero return code: {exitCode}"

def encounters (g : ScriptGroup Mirrors κ) (debug : Error → String) (e : Error) : Error :=
  .unexpected s!"{g.kind} of hash {g.hash} encounters error: {debug e}"

/-- The error with which a group rejects the transaction when the cycles of its
scheduler leave the 64-bit range. -/
def overflows (g : ScriptGroup Mirrors κ) (debug : Error → String) : Error :=
  g.encounters debug .cyclesOverflow

end ScriptGroup

/-- A full suspension, and the scheduler resumed from it with its total, where enough
cycles ran since the last one. -/
def suspendAfter (env : Library Mirrors κ) (cyclesPerSuspend ran last : ℕ) (s : Scheduler μ κ) :
    Option (Scheduler μ κ × ℕ) :=
  if cyclesPerSuspend ≤ ran then
    match suspend env s with
    | .ok full _ _ => some (resume full, (resume full : Scheduler μ κ).totalCycles)
    | _ => none
  else some (s, last)

section Verification

variable [Memory μ] (debug : Error → String)

/-- What follows the exit of a group with its code and total, from the sum `consumed` of the
groups before it. -/
def ScriptGroup.finish (g : ScriptGroup Mirrors κ) (maxCycles consumed : ℕ) :
    Int8 × ℕ → Except Halt ℕ
  | (exitCode, totalCycles) =>
    if exitCode ≠ 0 then .error (.rejected (ScriptGroup.nonZero exitCode))
    else if 2 ^ 64 ≤ consumed + totalCycles then .error .overflow
    else if maxCycles < totalCycles ∨ maxCycles < consumed + totalCycles then
      .error (.rejected (g.overBudget (consumed + totalCycles) totalCycles maxCycles))
    else .ok (consumed + totalCycles)

/-- One pass of the loop over a group: how it ends, or the scheduler and the cycles at the
last suspension that the next pass starts from. -/
def groupStep (g : ScriptGroup Mirrors κ) (maxCycles cyclesPerIterate cyclesPerSuspend consumed : ℕ)
    (s : Scheduler μ κ) (last : ℕ) : Except Halt ℕ ⊕ Scheduler μ κ × ℕ :=
  if maxCycles < s.totalCycles then
    .inl (.error (.rejected (g.outOfCycles s.totalCycles maxCycles)))
  else
    match checkedSubCycles s.totalCycles last with
    | none => .inl (.error .underflow)
    | some ran =>
      match suspendAfter g.env cyclesPerSuspend ran last s with
      | none => .inl (.error .panicked)
      | some (s, last) =>
        match run maxInstantiatedVms g.env (.limitCycles cyclesPerIterate) s with
        | .panic => .inl (.error .panicked)
        | .ok result _ _ => .inl (g.finish maxCycles consumed result)
        | .err e s _ =>
          if e = .cyclesExceeded then .inr (s, last)
          else .inl (.error (.rejected (g.encounters debug e)))

/-- The loop over one group, from the sum `consumed` of the groups before it to the sum
with it. -/
def groupLoop (g : ScriptGroup Mirrors κ)
    (maxCycles cyclesPerIterate cyclesPerSuspend consumed : ℕ) :
    ℕ → Scheduler μ κ → ℕ → Except Halt ℕ
  | 0, _, _ => .error .running
  | fuel + 1, s, last =>
    match groupStep debug g maxCycles cyclesPerIterate cyclesPerSuspend consumed s last with
    | .inl result => result
    | .inr (s, last) =>
      groupLoop g maxCycles cyclesPerIterate cyclesPerSuspend consumed fuel s last

/-- Run all script groups of a transaction, each within `fuel` iterations, and return
the cycles that they consumed. -/
def verifyTx (fuel : ℕ) (groups : List (ScriptGroup Mirrors κ))
    (maxCycles cyclesPerIterate cyclesPerSuspend : ℕ) : Except Halt ℕ :=
  groups.foldlM (fun consumed g =>
    groupLoop debug g maxCycles cyclesPerIterate cyclesPerSuspend consumed fuel new 0) 0

end Verification

section Completion

variable [Memory μ] {env : Library Mirrors κ} {s s' : Scheduler μ κ} {l : List (Event μ)}
  {result result' : Except Error (Int8 × ℕ)}

/-- A scheduler that some driver runs to completion, with the result of its last
call. -/
def ComesTo (env : Library Mirrors κ) (s : Scheduler μ κ)
    (result : Except Error (Int8 × ℕ)) : Prop :=
  ∃ calls f, finalOutcome maxInstantiatedVms env calls s = some f ∧ f.result = result

theorem ComesTo.suspended {full : FullSuspendedState κ} (hsuspend : suspend env s = .ok full s' l)
    (h : ComesTo env (resume full) result) : ComesTo env s result := by
  obtain ⟨calls, f, hf, hresult⟩ := h
  refine ⟨.suspend :: calls, f.after l, ?_, hresult⟩
  simp only [finalOutcome, hsuspend, hf, Option.map_some]

theorem ComesTo.interrupted {mode : RunMode} {e : Error}
    (hrun : run maxInstantiatedVms env mode s = .err e s' l) (he : e.Interrupt)
    (h : ComesTo env s' result) : ComesTo env s result := by
  obtain ⟨calls, f, hf, hresult⟩ := h
  refine ⟨.run mode :: calls, f.after l, ?_, hresult⟩
  simp only [finalOutcome, hrun, if_pos he, hf, Option.map_some]

theorem ComesTo.returned {mode : RunMode} {v : Int8 × ℕ}
    (hrun : run maxInstantiatedVms env mode s = .ok v s' l) : ComesTo env s (.ok v) := by
  refine ⟨[.run mode], ⟨.ok v, s', l⟩, ?_, rfl⟩
  simp only [finalOutcome, hrun]

theorem ComesTo.failed {mode : RunMode} {e : Error}
    (hrun : run maxInstantiatedVms env mode s = .err e s' l) (he : ¬ e.Interrupt) :
    ComesTo env s (.error e) := by
  refine ⟨[.run mode], ⟨.error e, s', l⟩, ?_, rfl⟩
  simp only [finalOutcome, hrun, if_neg he]

/-- Whatever drives a transaction to completion, its result is the same. -/
theorem ComesTo.unique {env : Env μ κ} (htotal : env.SnapshotsTotal) (h : ComesTo env new result)
    (h' : ComesTo env new result') (hover : result ≠ .error .cyclesOverflow)
    (hover' : result' ≠ .error .cyclesOverflow) : result = result' := by
  have hcap := two_le_maxInstantiatedVms
  obtain ⟨calls, f, hf, rfl⟩ := h
  obtain ⟨calls', f', hf', rfl⟩ := h'
  obtain ⟨u, hend, _, _, hcode⟩ := finalOutcome_concludes hcap htotal hf hover
  obtain ⟨u', hend', _, _, hcode'⟩ := finalOutcome_concludes hcap htotal hf' hover'
  obtain ⟨hresult, rfl, _⟩ := hend.unique hend'
  exact result_unique hresult hcode hcode'

end Completion

section Passes

variable [Memory μ] {debug : Error → String} {g : ScriptGroup Mirrors κ} {s s' : Scheduler μ κ}
  {tr : List (Event μ)} {maxCycles cyclesPerIterate cyclesPerSuspend consumed last last' : ℕ}

/-- The scheduler of a group, run to completion, exits with code 0 and the total `t`. -/
def ScriptGroup.Exits (g : ScriptGroup Mirrors κ) (t : ℕ) : Prop :=
  ComesTo g.env new (.ok (0, t))

/-- The totals of all groups, in their order, add up to `c`. -/
def TotalOf (groups : List (ScriptGroup Mirrors κ)) (c : ℕ) : Prop :=
  ∃ totals, List.Forall₂ ScriptGroup.Exits groups totals ∧ totals.sum = c

/-- A verification that accepts the transaction or rejects it, with no sum of cycles
beyond the 64-bit range. -/
def Returns (debug : Error → String) (groups : List (ScriptGroup Mirrors κ))
    (result : Except Halt ℕ) : Prop :=
  (∃ c, result = .ok c) ∨
    ∃ e, result = .error (.rejected e) ∧ ∀ g ∈ groups, e ≠ g.overflows debug

omit [Memory μ] in
theorem ScriptGroup.finish_ok {v : Int8 × ℕ} {c : ℕ} (h : g.finish maxCycles consumed v = .ok c) :
    v.1 = 0 ∧ c = consumed + v.2 ∧ c ≤ maxCycles := by
  obtain ⟨exitCode, totalCycles⟩ := v
  rw [ScriptGroup.finish] at h
  by_cases hcode : exitCode ≠ 0
  · rw [if_pos hcode] at h
    cases h
  rw [if_neg hcode] at h
  by_cases hover : 2 ^ 64 ≤ consumed + totalCycles
  · rw [if_pos hover] at h
    cases h
  rw [if_neg hover] at h
  by_cases hbudget : maxCycles < totalCycles ∨ maxCycles < consumed + totalCycles
  · rw [if_pos hbudget] at h
    cases h
  · rw [if_neg hbudget] at h
    cases h
    exact ⟨not_not.mp hcode, rfl, by omega⟩

omit [Memory μ] in
theorem ScriptGroup.finish_error {v : Int8 × ℕ} {halt : Halt}
    (h : g.finish maxCycles consumed v = .error halt) :
    halt = .overflow ∨ (v.1 ≠ 0 ∧ halt = .rejected (ScriptGroup.nonZero v.1)) ∨
      ((maxCycles < v.2 ∨ maxCycles < consumed + v.2) ∧
        halt = .rejected (g.overBudget (consumed + v.2) v.2 maxCycles)) := by
  obtain ⟨exitCode, totalCycles⟩ := v
  rw [ScriptGroup.finish] at h
  by_cases hcode : exitCode ≠ 0
  · rw [if_pos hcode] at h
    cases h
    exact Or.inr (Or.inl ⟨hcode, rfl⟩)
  rw [if_neg hcode] at h
  by_cases hover : 2 ^ 64 ≤ consumed + totalCycles
  · rw [if_pos hover] at h
    cases h
    exact Or.inl rfl
  rw [if_neg hover] at h
  by_cases hbudget : maxCycles < totalCycles ∨ maxCycles < consumed + totalCycles
  · rw [if_pos hbudget] at h
    cases h
    exact Or.inr (Or.inr ⟨hbudget, rfl⟩)
  · rw [if_neg hbudget] at h
    cases h

omit [Memory μ] in
theorem suspendAfter_cases {env : Library Mirrors κ} {ran : ℕ}
    (h : suspendAfter env cyclesPerSuspend ran last s = some (s', last')) :
    (s' = s ∧ last' = last) ∨
      ∃ full u l, suspend env s = .ok full u l ∧ s' = resume full ∧ last' = s'.totalCycles := by
  rw [suspendAfter] at h
  by_cases hdue : cyclesPerSuspend ≤ ran
  · rw [if_pos hdue] at h
    cases hfull : suspend env s with
    | panic => simp [hfull] at h
    | err e u l => simp [hfull] at h
    | ok full u l =>
      rw [hfull] at h
      cases h
      exact Or.inr ⟨full, u, l, rfl, rfl, rfl⟩
  · rw [if_neg hdue] at h
    cases h
    exact Or.inl ⟨rfl, rfl⟩

theorem suspendAfter_reachable {env : Library Mirrors κ} {ran : ℕ}
    (hreach : Reachable maxInstantiatedVms env tr s)
    (h : suspendAfter env cyclesPerSuspend ran last s = some (s', last')) :
    ∃ tr', Reachable maxInstantiatedVms env tr' s' := by
  rcases suspendAfter_cases h with ⟨rfl, _⟩ | ⟨full, u, l, hfull, rfl, _⟩
  · exact ⟨tr, hreach⟩
  · exact ⟨_, hreach.tail (.suspended hfull)⟩

/-- A suspension leads to a scheduler that comes to the same ends. -/
theorem suspendAfter_comesTo {env : Library Mirrors κ} {ran : ℕ}
    {result : Except Error (Int8 × ℕ)}
    (h : suspendAfter env cyclesPerSuspend ran last s = some (s', last'))
    (hend : ComesTo env s' result) : ComesTo env s result := by
  rcases suspendAfter_cases h with ⟨rfl, _⟩ | ⟨full, u, l, hfull, rfl, _⟩
  · exact hend
  · exact hend.suspended hfull

/-- A pass after which the loop goes on has exceeded the cycles of its call. -/
theorem groupStep_continues
    (h : groupStep debug g maxCycles cyclesPerIterate cyclesPerSuspend consumed s last =
      .inr (s', last')) :
    s.totalCycles ≤ maxCycles ∧ ∃ ran s₁ l, checkedSubCycles s.totalCycles last = some ran ∧
      suspendAfter g.env cyclesPerSuspend ran last s = some (s₁, last') ∧
      run maxInstantiatedVms g.env (.limitCycles cyclesPerIterate) s₁ =
        .err .cyclesExceeded s' l := by
  rw [groupStep] at h
  by_cases hmax : maxCycles < s.totalCycles
  · rw [if_pos hmax] at h
    cases h
  rw [if_neg hmax] at h
  cases hran : checkedSubCycles s.totalCycles last with
  | none => simp [hran] at h
  | some ran =>
    rw [hran] at h
    dsimp only at h
    cases hsuspend : suspendAfter g.env cyclesPerSuspend ran last s with
    | none => simp [hsuspend] at h
    | some p =>
      obtain ⟨s₁, last₁⟩ := p
      rw [hsuspend] at h
      dsimp only at h
      cases hrun : run maxInstantiatedVms g.env (.limitCycles cyclesPerIterate) s₁ with
      | panic => simp [hrun] at h
      | ok v s₂ l => simp [hrun] at h
      | err e s₂ l =>
        rw [hrun] at h
        dsimp only at h
        by_cases he : e = .cyclesExceeded
        · rw [if_pos he] at h
          cases h
          subst he
          exact ⟨Nat.not_lt.mp hmax, ran, s₁, l, rfl, hsuspend, hrun⟩
        · rw [if_neg he] at h
          cases h

/-- How the last pass ends the loop over a group. -/
theorem groupStep_ends {result : Except Halt ℕ}
    (h : groupStep debug g maxCycles cyclesPerIterate cyclesPerSuspend consumed s last =
      .inl result) :
    result = .error .panicked ∨
      (result = .error .underflow ∧ s.totalCycles < last) ∨
      (result = .error (.rejected (g.outOfCycles s.totalCycles maxCycles)) ∧
        maxCycles < s.totalCycles) ∨
      ∃ ran s₁ last₁, suspendAfter g.env cyclesPerSuspend ran last s = some (s₁, last₁) ∧
        ((∃ v s₂ l, run maxInstantiatedVms g.env (.limitCycles cyclesPerIterate) s₁ = .ok v s₂ l ∧
            result = g.finish maxCycles consumed v) ∨
          ∃ e s₂ l, run maxInstantiatedVms g.env (.limitCycles cyclesPerIterate) s₁ = .err e s₂ l ∧
            e ≠ .cyclesExceeded ∧ result = .error (.rejected (g.encounters debug e))) := by
  rw [groupStep] at h
  by_cases hmax : maxCycles < s.totalCycles
  · rw [if_pos hmax] at h
    cases h
    exact Or.inr (Or.inr (Or.inl ⟨rfl, hmax⟩))
  rw [if_neg hmax] at h
  cases hran : checkedSubCycles s.totalCycles last with
  | none =>
    rw [hran] at h
    cases h
    refine Or.inr (Or.inl ⟨rfl, ?_⟩)
    by_contra hle
    rw [checkedSubCycles, if_pos (Nat.not_lt.mp hle)] at hran
    cases hran
  | some ran =>
    rw [hran] at h
    dsimp only at h
    cases hsuspend : suspendAfter g.env cyclesPerSuspend ran last s with
    | none =>
      rw [hsuspend] at h
      cases h
      exact Or.inl rfl
    | some p =>
      obtain ⟨s₁, last₁⟩ := p
      rw [hsuspend] at h
      dsimp only at h
      cases hrun : run maxInstantiatedVms g.env (.limitCycles cyclesPerIterate) s₁ with
      | panic =>
        rw [hrun] at h
        cases h
        exact Or.inl rfl
      | ok v s₂ l =>
        rw [hrun] at h
        cases h
        exact Or.inr (Or.inr (Or.inr ⟨ran, s₁, last₁, hsuspend, Or.inl ⟨v, s₂, l, hrun, rfl⟩⟩))
      | err e s₂ l =>
        rw [hrun] at h
        dsimp only at h
        by_cases he : e = .cyclesExceeded
        · rw [if_pos he] at h
          cases h
        · rw [if_neg he] at h
          cases h
          exact Or.inr (Or.inr (Or.inr
            ⟨ran, s₁, last₁, hsuspend, Or.inr ⟨e, s₂, l, hrun, he, rfl⟩⟩))

/-- A loop that accepts has driven its scheduler to the total that it adds. The induction is
on the fuel; the loop is at a scheduler that comes to the ends of a new one. -/
theorem groupLoop_exits (hends : ∀ result, ComesTo g.env s result → ComesTo g.env new result)
    {fuel c : ℕ} (h : groupLoop debug g maxCycles cyclesPerIterate cyclesPerSuspend consumed fuel
      s last = .ok c) : ∃ t, g.Exits t ∧ c = consumed + t := by
  induction fuel generalizing s last with
  | zero => cases h
  | succ fuel ih =>
    rw [groupLoop] at h
    cases hstep : groupStep debug g maxCycles cyclesPerIterate cyclesPerSuspend consumed s last with
    | inl result =>
      rw [hstep] at h
      dsimp only at h
      subst h
      rcases groupStep_ends hstep with hhalt | ⟨hhalt, _⟩ | ⟨hhalt, _⟩ |
        ⟨ran, s₁, last₁, hsuspend, ⟨⟨exitCode, t⟩, s₂, l, hrun, hfinish⟩ |
          ⟨_, _, _, _, _, hhalt⟩⟩
      · cases hhalt
      · cases hhalt
      · cases hhalt
      · obtain ⟨rfl, hc, _⟩ := ScriptGroup.finish_ok hfinish.symm
        exact ⟨t, hends _ (suspendAfter_comesTo hsuspend (.returned hrun)), hc⟩
      · cases hhalt
    | inr p =>
      obtain ⟨s', last'⟩ := p
      rw [hstep] at h
      obtain ⟨_, ran, s₁, l, _, hsuspend, hrun⟩ := groupStep_continues hstep
      refine ih (fun result hend => hends result ?_) h
      exact suspendAfter_comesTo hsuspend (hend.interrupted hrun (Or.inl rfl))

theorem verifyGroups_exits {fuel c : ℕ} {groups : List (ScriptGroup Mirrors κ)}
    (h : groups.foldlM (fun consumed g => groupLoop debug g maxCycles cyclesPerIterate
      cyclesPerSuspend consumed fuel new 0) consumed = .ok c) :
    ∃ t, TotalOf groups t ∧ c = consumed + t := by
  induction groups generalizing consumed with
  | nil =>
    cases h
    exact ⟨0, ⟨[], .nil, rfl⟩, rfl⟩
  | cons g groups ih =>
    rw [List.foldlM_cons] at h
    cases hgroup : groupLoop debug g maxCycles cyclesPerIterate cyclesPerSuspend consumed fuel
        new 0 with
    | error halt =>
      rw [hgroup] at h
      cases h
    | ok c' =>
      rw [hgroup] at h
      obtain ⟨t, ht, rfl⟩ := groupLoop_exits (fun _ hend => hend) hgroup
      obtain ⟨_, ⟨totals, hexits, rfl⟩, rfl⟩ := ih h
      refine ⟨t + totals.sum, ⟨t :: totals, .cons ht hexits, List.sum_cons⟩, ?_⟩
      rw [Nat.add_assoc]

/-- A loop that has ended ends the same with more fuel. -/
theorem groupLoop_stable {fuel fuel' : ℕ} (hle : fuel ≤ fuel')
    (hends : groupLoop debug g maxCycles cyclesPerIterate cyclesPerSuspend consumed fuel s last ≠
      .error .running) :
    groupLoop debug g maxCycles cyclesPerIterate cyclesPerSuspend consumed fuel' s last =
      groupLoop debug g maxCycles cyclesPerIterate cyclesPerSuspend consumed fuel s last := by
  induction fuel generalizing s last fuel' with
  | zero => exact absurd rfl hends
  | succ fuel ih =>
    obtain ⟨more, rfl⟩ : ∃ k, fuel' = k + 1 := ⟨fuel' - 1, by omega⟩
    rw [groupLoop] at hends ⊢
    rw [groupLoop]
    cases hstep : groupStep debug g maxCycles cyclesPerIterate cyclesPerSuspend consumed s last with
    | inl result => rfl
    | inr p =>
      rw [hstep] at hends
      exact ih (Nat.le_of_succ_le_succ hle) hends

theorem verifyGroups_stable {fuel fuel' : ℕ} (hle : fuel ≤ fuel')
    {groups : List (ScriptGroup Mirrors κ)}
    (hends : groups.foldlM (fun consumed g => groupLoop debug g maxCycles cyclesPerIterate
      cyclesPerSuspend consumed fuel new 0) consumed ≠ .error .running) :
    groups.foldlM (fun consumed g => groupLoop debug g maxCycles cyclesPerIterate
        cyclesPerSuspend consumed fuel' new 0) consumed =
      groups.foldlM (fun consumed g => groupLoop debug g maxCycles cyclesPerIterate
        cyclesPerSuspend consumed fuel new 0) consumed := by
  induction groups generalizing consumed with
  | nil => rfl
  | cons g groups ih =>
    rw [List.foldlM_cons] at hends ⊢
    rw [List.foldlM_cons]
    cases hgroup : groupLoop debug g maxCycles cyclesPerIterate cyclesPerSuspend consumed fuel
        new 0 with
    | error halt =>
      rw [hgroup] at hends
      rw [groupLoop_stable hle (by rw [hgroup]; exact hends), hgroup]
      rfl
    | ok c =>
      rw [hgroup] at hends
      rw [groupLoop_stable hle (by rw [hgroup]; simp), hgroup]
      exact ih hends

end Passes

section Verdicts

variable [Memory μ] {debug : Error → String} {g : Group μ κ} {s s' : Scheduler μ κ}
  {tr : List (Event μ)} {maxCycles cyclesPerIterate cyclesPerSuspend consumed : ℕ}

theorem Group.exits_unique (htotal : g.env.SnapshotsTotal) {t t' : ℕ} (h : g.Exits t)
    (h' : g.Exits t') : t = t' := by
  have heq := ComesTo.unique htotal h h' (by simp) (by simp)
  cases heq
  rfl

/-- What a verification of some groups from the sum `consumed` on says of the total that
is added to it, for which `Total` holds. -/
def Verdict (debug : Error → String) (groups : List (Group μ κ)) (Total : ℕ → Prop)
    (maxCycles consumed : ℕ) : Except Halt ℕ → Prop
  | .ok c => ∃ t, Total t ∧ c = consumed + t ∧ c ≤ maxCycles
  | .error (.rejected e) =>
    (∀ g ∈ groups, e ≠ g.overflows debug) → ∀ t, Total t → maxCycles < consumed + t
  | .error .underflow => False
  | .error _ => True

/-- A suspension resumes with its total, which it has not lowered. -/
theorem suspendAfter_totalCycles {env : Env μ κ} {ran last last' : ℕ}
    (hreach : Reachable maxInstantiatedVms env tr s)
    (h : suspendAfter env cyclesPerSuspend ran last s = some (s', last')) :
    s.totalCycles ≤ s'.totalCycles ∧ (last ≤ s.totalCycles → last' ≤ s'.totalCycles) := by
  rcases suspendAfter_cases h with ⟨rfl, rfl⟩ | ⟨full, u, l, hfull, rfl, rfl⟩
  · exact ⟨le_rfl, fun hle => hle⟩
  · exact ⟨hreach.move_totalCycles_le two_le_maxInstantiatedVms (.suspended hfull),
      fun _ => le_rfl⟩

/-- The last pass says of every total of the scheduler whether it fits. -/
theorem groupStep_verdict (htotal : g.env.SnapshotsTotal)
    (h : Reachable maxInstantiatedVms g.env tr s)
    (hends : ∀ result, ComesTo g.env s result → ComesTo g.env new result) {last : ℕ}
    (hlast : last ≤ s.totalCycles) {result : Except Halt ℕ}
    (hstep : groupStep debug g maxCycles cyclesPerIterate cyclesPerSuspend consumed s last =
      .inl result) : Verdict debug [g] g.Exits maxCycles consumed result := by
  have hcap := two_le_maxInstantiatedVms
  rcases groupStep_ends hstep with rfl | ⟨rfl, hlt⟩ | ⟨rfl, hmax⟩
    | ⟨ran, s₁, last₁, hsuspend, hlast⟩
  · trivial
  · exact absurd hlast (Nat.not_le.mpr hlt)
  · rintro _ t ⟨calls, f, hf, hresult⟩
    have hle : s.totalCycles ≤ t := h.totalCycles_le hcap htotal hf hresult
    omega
  obtain ⟨tr₁, h₁⟩ := suspendAfter_reachable h hsuspend
  rcases hlast with ⟨v, s₂, l, hrun, rfl⟩ | ⟨e, s₂, l, hrun, he, rfl⟩
  · have hend := hends _ (suspendAfter_comesTo hsuspend (.returned hrun))
    have hunique : ∀ t, g.Exits t → v.1 = 0 ∧ v.2 = t := by
      intro t ht
      have heq := ComesTo.unique htotal hend ht (by simp) (by simp)
      cases heq
      exact ⟨rfl, rfl⟩
    cases hfinish : g.finish maxCycles consumed v with
    | ok c =>
      obtain ⟨hcode, hc, hle⟩ := ScriptGroup.finish_ok hfinish
      obtain ⟨exitCode, t⟩ := v
      obtain rfl : exitCode = 0 := hcode
      exact ⟨t, hend, hc, hle⟩
    | error halt =>
      rcases ScriptGroup.finish_error hfinish with rfl | ⟨hcode, rfl⟩ | ⟨hbudget, rfl⟩
      · trivial
      · exact fun _ t ht => absurd (hunique t ht).1 hcode
      · intro _ t ht
        obtain ⟨_, rfl⟩ := hunique t ht
        omega
  · have hfails : ¬ e.Interrupt := by
      rintro (hexceeded | rfl)
      · exact he hexceeded
      · exact h₁.run_unpaused hcap hrun
    intro hreport t ht
    have hover : e ≠ .cyclesOverflow := by
      rintro rfl
      exact hreport g (List.mem_singleton_self g) rfl
    have hend := hends _ (suspendAfter_comesTo hsuspend (.failed hrun hfails))
    have heq := ComesTo.unique htotal hend ht (by simpa using hover) (by simp)
    cases heq

/-- The loop over a group says of every total of its scheduler whether it fits. The
induction is on the fuel; the loop is at a scheduler that comes to the ends of a new
one, and that has consumed what the last suspension had, or more. -/
theorem groupLoop_verdict (htotal : g.env.SnapshotsTotal)
    (h : Reachable maxInstantiatedVms g.env tr s)
    (hends : ∀ result, ComesTo g.env s result → ComesTo g.env new result) {last : ℕ}
    (hlast : last ≤ s.totalCycles) (fuel : ℕ) :
    Verdict debug [g] g.Exits maxCycles consumed
      (groupLoop debug g maxCycles cyclesPerIterate cyclesPerSuspend consumed fuel s last) := by
  induction fuel generalizing tr s last with
  | zero => trivial
  | succ fuel ih =>
    rw [groupLoop]
    cases hstep : groupStep debug g maxCycles cyclesPerIterate cyclesPerSuspend consumed s last with
    | inl result => exact groupStep_verdict htotal h hends hlast hstep
    | inr p =>
      obtain ⟨s', last'⟩ := p
      obtain ⟨_, ran, s₁, l, _, hsuspend, hrun⟩ := groupStep_continues hstep
      obtain ⟨tr₁, h₁⟩ := suspendAfter_reachable h hsuspend
      obtain ⟨_, hlast₁⟩ := suspendAfter_totalCycles h hsuspend
      have hle := h₁.run_totalCycles_le two_le_maxInstantiatedVms hrun (Or.inl rfl)
      refine ih (h₁.run_interrupted hrun (Or.inl rfl)) (fun result hend => hends result ?_)
        ((hlast₁ hlast).trans hle)
      exact suspendAfter_comesTo hsuspend (hend.interrupted hrun (Or.inl rfl))

/-- Where no instruction costs more than a call may spend, the loop over a group ends: each
call spends cycles, up to the maximum. The induction is on the fuel. -/
theorem groupLoop_ends (hcost : ∀ c, g.env.cost c ≤ cyclesPerIterate)
    (h : Reachable maxInstantiatedVms g.env tr s) {last fuel : ℕ} (hpos : 0 < fuel)
    (hfuel : maxCycles + 2 ≤ fuel + s.totalCycles) :
    groupLoop debug g maxCycles cyclesPerIterate cyclesPerSuspend consumed fuel s last ≠
      .error .running := by
  induction fuel generalizing tr s last with
  | zero => omega
  | succ fuel ih =>
    rw [groupLoop]
    cases hstep : groupStep debug g maxCycles cyclesPerIterate cyclesPerSuspend consumed s last with
    | inl result =>
      dsimp only
      rcases groupStep_ends hstep with rfl | ⟨rfl, _⟩ | ⟨rfl, _⟩ |
        ⟨_, _, _, _, ⟨v, _, _, _, rfl⟩ | ⟨_, _, _, _, _, rfl⟩⟩
      · simp
      · simp
      · simp
      · intro hrunning
        rcases ScriptGroup.finish_error hrunning with hhalt | ⟨_, hhalt⟩ | ⟨_, hhalt⟩
        · cases hhalt
        · cases hhalt
        · cases hhalt
      · simp
    | inr p =>
      obtain ⟨s', last'⟩ := p
      obtain ⟨hmax, ran, s₁, l, _, hsuspend, hrun⟩ := groupStep_continues hstep
      obtain ⟨tr₁, h₁⟩ := suspendAfter_reachable h hsuspend
      have hle := (suspendAfter_totalCycles h hsuspend).1
      have hspent := h₁.run_spends two_le_maxInstantiatedVms hcost hrun
      exact ih (h₁.run_interrupted hrun (Or.inl rfl)) (by omega) (by omega)

theorem verifyGroups_ends {fuel : ℕ} {groups : List (Group μ κ)}
    (hcost : ∀ g ∈ groups, ∀ c, g.env.cost c ≤ cyclesPerIterate) (hfuel : maxCycles + 1 < fuel) :
    groups.foldlM (fun consumed g => groupLoop debug g maxCycles cyclesPerIterate
      cyclesPerSuspend consumed fuel new 0) consumed ≠ .error .running := by
  induction groups generalizing consumed with
  | nil => exact fun h => by cases h
  | cons g groups ih =>
    have hgroup : groupLoop debug g maxCycles cyclesPerIterate cyclesPerSuspend consumed
        fuel new 0 ≠ .error .running :=
      groupLoop_ends (hcost g List.mem_cons_self) .refl (by omega) (by omega)
    rw [List.foldlM_cons]
    cases hresult : groupLoop debug g maxCycles cyclesPerIterate cyclesPerSuspend consumed fuel
        new 0 with
    | error halt =>
      rw [hresult] at hgroup
      exact hgroup
    | ok c => exact ih fun g' hmem => hcost g' (List.mem_cons_of_mem _ hmem)

theorem TotalOf.unique {groups : List (Group μ κ)}
    (htotal : ∀ g ∈ groups, g.env.SnapshotsTotal) {c c' : ℕ}
    (h : TotalOf groups c) (h' : TotalOf groups c') : c = c' := by
  obtain ⟨totals, hexits, rfl⟩ := h
  obtain ⟨totals', hexits', rfl⟩ := h'
  induction hexits generalizing totals' with
  | nil =>
    cases hexits'
    rfl
  | cons ht _ ih =>
    cases hexits' with
    | cons ht' hexits' =>
      have hhead := Group.exits_unique (htotal _ List.mem_cons_self) ht ht'
      have htail := ih (fun g hmem => htotal g (List.mem_cons_of_mem _ hmem)) _ hexits'
      rw [List.sum_cons, List.sum_cons, hhead, htail]

omit [Memory μ] in
theorem Verdict.weaken {groups groups' : List (Group μ κ)} {Total Total' : ℕ → Prop} {c t : ℕ}
    {halt : Halt} (h : Verdict debug groups Total maxCycles c (.error halt))
    (hgroups : ∀ g ∈ groups, g ∈ groups')
    (hle : ∀ u, Total' u → ∃ v, Total v ∧ c + v ≤ t + u) :
    Verdict debug groups' Total' maxCycles t (.error halt) := by
  cases halt with
  | rejected e =>
    intro hreport u hu
    obtain ⟨v, hv, hsum⟩ := hle u hu
    have hlt := h (fun g hmem => hreport g (hgroups g hmem)) v hv
    omega
  | underflow => exact h
  | panicked => trivial
  | overflow => trivial
  | running => trivial

/-- The verdicts over the groups in turn are the verdict over all of them. -/
theorem verifyGroups_verdict {fuel : ℕ} {groups : List (Group μ κ)}
    (htotal : ∀ g ∈ groups, g.env.SnapshotsTotal) (hconsumed : consumed ≤ maxCycles) :
    Verdict debug groups (TotalOf groups) maxCycles consumed (groups.foldlM (fun consumed g =>
      groupLoop debug g maxCycles cyclesPerIterate cyclesPerSuspend consumed fuel new 0)
        consumed) := by
  induction groups generalizing consumed with
  | nil => exact ⟨0, ⟨[], .nil, rfl⟩, rfl, hconsumed⟩
  | cons g groups ih =>
    have hsnapshots := htotal g List.mem_cons_self
    have hhead : Verdict debug [g] g.Exits maxCycles consumed (groupLoop debug g maxCycles
        cyclesPerIterate cyclesPerSuspend consumed fuel new 0) :=
      groupLoop_verdict hsnapshots .refl (fun _ hend => hend) (Nat.zero_le _) fuel
    have htail : ∀ c ≤ maxCycles, Verdict debug groups (TotalOf groups) maxCycles c _ :=
      fun c hc => ih (fun g' hmem => htotal g' (List.mem_cons_of_mem _ hmem)) hc
    rw [List.foldlM_cons]
    cases hgroup : groupLoop debug g maxCycles cyclesPerIterate cyclesPerSuspend consumed fuel
        new 0 with
    | error halt =>
      rw [hgroup] at hhead
      refine hhead.weaken (by simp) ?_
      rintro _ ⟨_, hexits, rfl⟩
      cases hexits with
      | @cons _ t _ totals ht _ =>
        refine ⟨t, ht, ?_⟩
        rw [List.sum_cons]
        omega
    | ok c =>
      rw [hgroup] at hhead
      obtain ⟨t, ht, rfl, hle⟩ := hhead
      have hrest := htail _ hle
      change Verdict _ _ _ _ _ (groups.foldlM _ (consumed + t))
      cases hresult : groups.foldlM (fun consumed g => groupLoop debug g maxCycles cyclesPerIterate
          cyclesPerSuspend consumed fuel new 0) (consumed + t) with
      | error halt =>
        rw [hresult] at hrest
        refine hrest.weaken (fun g' hmem => List.mem_cons_of_mem _ hmem) ?_
        rintro _ ⟨_, hexits, rfl⟩
        cases hexits with
        | @cons _ t' _ totals ht' hexits =>
          refine ⟨totals.sum, ⟨totals, hexits, rfl⟩, ?_⟩
          rw [List.sum_cons, Group.exits_unique hsnapshots ht' ht]
          omega
      | ok c =>
        rw [hresult] at hrest
        obtain ⟨_, ⟨totals, hexits, rfl⟩, rfl, hc⟩ := hrest
        exact ⟨t + totals.sum, ⟨t :: totals, .cons ht hexits, List.sum_cons⟩, by omega, hc⟩

/-- A verification that returns accepts exactly a total within the maximum. -/
theorem Verdict.accepts {groups : List (Group μ κ)} {result : Except Halt ℕ}
    (htotal : ∀ g ∈ groups, g.env.SnapshotsTotal)
    (h : Verdict debug groups (TotalOf groups) maxCycles 0 result)
    (hreturns : Returns debug groups result) (c : ℕ) :
    result = .ok c ↔ TotalOf groups c ∧ c ≤ maxCycles := by
  rcases hreturns with ⟨c', rfl⟩ | ⟨e, rfl, hreport⟩
  · obtain ⟨t, ht, rfl, hle⟩ := h
    rw [Nat.zero_add] at hle ⊢
    constructor
    · intro heq
      cases heq
      exact ⟨ht, hle⟩
    · rintro ⟨hc, _⟩
      rw [ht.unique htotal hc]
  · constructor
    · intro heq
      cases heq
    · rintro ⟨hc, hle⟩
      have hlt := h hreport c hc
      omega

end Verdicts

end DeterministicScheduler
