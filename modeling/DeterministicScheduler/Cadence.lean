import DeterministicScheduler.PageGuest
import DeterministicScheduler.Twins
import DeterministicScheduler.VerifyTx

/-!
# The cadence of a verification

How long the calls of a verification are and how often it suspends make no difference,
as long as every load as code finds a cell that covers its region. Each scheduler then
runs along with its twin, whose snapshots lose nothing.
-/
namespace DeterministicScheduler

open ProgramLogic Outcome Scheduler

variable {μ κ : Type} {Mirrors : TxData → μ → Prop} {debug : Error → String}

/-- The group of the twin of a scheduler. -/
def ScriptGroup.exact (g : ScriptGroup Mirrors κ) : Group μ (Cpu μ) :=
  ⟨g.kind, g.hash, g.env.exact⟩

theorem exactGroups_snapshotsTotal (groups : List (ScriptGroup Mirrors κ)) :
    ∀ g ∈ groups.map ScriptGroup.exact, g.env.SnapshotsTotal := by
  rw [List.forall_mem_map]
  exact fun g _ => g.env.exact_snapshotsTotal

/-- Messages name a group by its kind and its hash. -/
theorem returns_exact {groups : List (ScriptGroup Mirrors κ)} {result : Except Halt ℕ}
    (h : Returns debug groups result) : Returns debug (groups.map ScriptGroup.exact) result := by
  rcases h with hok | ⟨e, rfl, hreport⟩
  · exact Or.inl hok
  · refine Or.inr ⟨e, rfl, ?_⟩
    rw [List.forall_mem_map]
    exact hreport

section Twins

variable [Memory μ] {g : ScriptGroup Mirrors κ} {s : Scheduler μ κ} {t : Scheduler μ (Cpu μ)}
  {tr : List (Event μ)} {maxCycles cyclesPerIterate cyclesPerSuspend consumed : ℕ}

theorem suspendAfter_twins {env : Library Mirrors κ} (htracking : env.Tracking)
    (h : Twins env s t) (ran last : ℕ) :
    suspendAfter env cyclesPerSuspend ran last s = none ∨ ∃ s' t' last',
      suspendAfter env cyclesPerSuspend ran last s = some (s', last') ∧
      suspendAfter env.exact cyclesPerSuspend ran last t = some (t', last') ∧ Twins env s' t' := by
  simp only [suspendAfter]
  by_cases hdue : cyclesPerSuspend ≤ ran
  · rw [if_pos hdue, if_pos hdue]
    cases hsuspend : suspend env s with
    | panic => exact Or.inl rfl
    | err e u l => exact Or.inl rfl
    | ok full u l =>
      obtain ⟨full', u', hsuspend', htwins⟩ := suspend_twins htracking h hsuspend
      rw [hsuspend']
      dsimp only
      rw [← htwins.totalCycles]
      exact Or.inr ⟨_, _, _, rfl, rfl, htwins⟩
  · rw [if_neg hdue, if_neg hdue]
    exact Or.inr ⟨s, t, last, rfl, rfl, h⟩

variable (htracking : g.env.Tracking) (hloads : LoadsCover maxInstantiatedVms g.env)

include htracking hloads

/-- A pass over a scheduler and over its twin end alike, or go on with twins. -/
theorem groupStep_twins (hreach : Reachable maxInstantiatedVms g.env tr s)
    (h : Twins g.env s t) (last : ℕ) :
    let pass := groupStep debug g maxCycles cyclesPerIterate cyclesPerSuspend consumed s last
    let twin := groupStep debug g.exact maxCycles cyclesPerIterate cyclesPerSuspend consumed t last
    pass = .inl (.error .panicked) ∨ (∃ result, pass = .inl result ∧ twin = .inl result) ∨
      ∃ tr' s' t' last', pass = .inr (s', last') ∧ twin = .inr (t', last') ∧
        Reachable maxInstantiatedVms g.env tr' s' ∧ Twins g.env s' t' := by
  dsimp only
  rw [groupStep, groupStep, ← h.totalCycles]
  by_cases hmax : maxCycles < s.totalCycles
  · rw [if_pos hmax, if_pos hmax]
    exact Or.inr (Or.inl ⟨_, rfl, rfl⟩)
  rw [if_neg hmax, if_neg hmax]
  cases checkedSubCycles s.totalCycles last with
  | none => exact Or.inr (Or.inl ⟨_, rfl, rfl⟩)
  | some ran =>
    dsimp only
    rcases suspendAfter_twins htracking h ran last with
      hsuspend | ⟨s₁, t₁, last₁, hsuspend, hsuspend', h₁⟩
    · rw [hsuspend]
      exact Or.inl rfl
    obtain ⟨tr₁, hreach₁⟩ := suspendAfter_reachable hreach hsuspend
    have hrun := run_twins htracking hloads hreach₁ h₁ (.limitCycles cyclesPerIterate)
    rw [hsuspend, show suspendAfter g.exact.env cyclesPerSuspend ran last t = _ from hsuspend']
    dsimp only
    cases hresult : run maxInstantiatedVms g.env (.limitCycles cyclesPerIterate) s₁ with
    | panic => exact Or.inl rfl
    | ok v s₂ l =>
      rw [hresult] at hrun
      obtain ⟨t₂, hresult', _⟩ := hrun
      rw [show run maxInstantiatedVms g.exact.env (.limitCycles cyclesPerIterate) t₁ = _
        from hresult']
      exact Or.inr (Or.inl ⟨_, rfl, rfl⟩)
    | err e s₂ l =>
      rw [hresult] at hrun
      obtain ⟨t₂, hresult', h₂⟩ := hrun.resolve_left id
      rw [show run maxInstantiatedVms g.exact.env (.limitCycles cyclesPerIterate) t₁ = _
        from hresult']
      dsimp only
      by_cases he : e = .cyclesExceeded
      · rw [if_pos he, if_pos he]
        exact Or.inr (Or.inr ⟨_, s₂, t₂, last₁, rfl, rfl,
          hreach₁.run_interrupted hresult (Or.inl he), h₂⟩)
      · rw [if_neg he, if_neg he]
        exact Or.inr (Or.inl ⟨_, rfl, rfl⟩)

/-- The loop over a group ends as that over its twin. The induction is on the fuel; the
loops are at twins. -/
theorem groupLoop_twins (hreach : Reachable maxInstantiatedVms g.env tr s)
    (h : Twins g.env s t) (fuel last : ℕ) :
    groupLoop debug g maxCycles cyclesPerIterate cyclesPerSuspend consumed fuel s last =
        .error .panicked ∨
      groupLoop debug g maxCycles cyclesPerIterate cyclesPerSuspend consumed fuel s last =
        groupLoop debug g.exact maxCycles cyclesPerIterate cyclesPerSuspend consumed fuel
          t last := by
  induction fuel generalizing tr s t last with
  | zero => exact Or.inr rfl
  | succ fuel ih =>
    rw [groupLoop, groupLoop]
    rcases groupStep_twins htracking hloads hreach h last with
      hpass | ⟨result, hpass, htwin⟩ | ⟨tr', s', t', last', hpass, htwin, hreach', h'⟩
    · rw [hpass]
      exact Or.inl rfl
    · rw [hpass, htwin]
      exact Or.inr rfl
    · rw [hpass, htwin]
      exact ih hreach' h' last'

/-- What some driver comes to, the same driver of the twin comes to. -/
theorem finalOutcome_twins (hreach : Reachable maxInstantiatedVms g.env tr s)
    (h : Twins g.env s t) {calls : List Call} {f : Final μ κ}
    (hf : finalOutcome maxInstantiatedVms g.env calls s = some f) :
    ∃ f', finalOutcome maxInstantiatedVms g.env.exact calls t = some f' ∧ f'.result = f.result := by
  induction calls generalizing tr s t f with
  | nil => cases hf
  | cons call calls ih =>
    cases call with
    | run mode =>
      have hrun := run_twins htracking hloads hreach h mode
      rw [finalOutcome] at hf ⊢
      cases hresult : run maxInstantiatedVms g.env mode s with
      | panic =>
        rw [hresult] at hf
        cases hf
      | ok v s' l =>
        rw [hresult] at hf hrun
        obtain ⟨t', hresult', _⟩ := hrun
        cases hf
        rw [hresult']
        exact ⟨_, rfl, rfl⟩
      | err e s' l =>
        rw [hresult] at hf hrun
        obtain ⟨t', hresult', h'⟩ := hrun.resolve_left id
        rw [hresult']
        dsimp only at hf ⊢
        by_cases he : e.Interrupt
        · rw [if_pos he, Option.map_eq_some_iff] at hf
          obtain ⟨f₁, hf₁, rfl⟩ := hf
          obtain ⟨f', hf', hsame⟩ := ih (hreach.run_interrupted hresult he) h' hf₁
          rw [if_pos he, hf']
          exact ⟨_, rfl, hsame⟩
        · rw [if_neg he] at hf ⊢
          cases hf
          exact ⟨_, rfl, rfl⟩
    | suspend =>
      rw [finalOutcome] at hf ⊢
      cases hsuspend : suspend g.env s with
      | panic =>
        rw [hsuspend] at hf
        cases hf
      | err e s' l =>
        rw [hsuspend] at hf
        cases hf
      | ok full s' l =>
        rw [hsuspend] at hf
        dsimp only at hf
        rw [Option.map_eq_some_iff] at hf
        obtain ⟨f₁, hf₁, rfl⟩ := hf
        obtain ⟨full', t', hsuspend', h'⟩ := suspend_twins htracking h hsuspend
        obtain ⟨f', hf', hsame⟩ := ih (hreach.tail (.suspended hsuspend)) h' hf₁
        rw [hsuspend']
        dsimp only
        rw [hf']
        exact ⟨_, rfl, hsame⟩

theorem ScriptGroup.Exits.exact {total : ℕ} (h : g.Exits total) : g.exact.Exits total := by
  obtain ⟨calls, f, hf, hresult⟩ := h
  obtain ⟨f', hf', hsame⟩ := finalOutcome_twins htracking hloads .refl .new hf
  exact ⟨calls, f', hf', hsame.trans hresult⟩

end Twins

section Groups

variable [Memory μ] {groups : List (ScriptGroup Mirrors κ)}
  {maxCycles cyclesPerIterate cyclesPerSuspend consumed : ℕ}
  (htracking : ∀ g ∈ groups, g.env.Tracking)
  (hloads : ∀ g ∈ groups, LoadsCover maxInstantiatedVms g.env)

include htracking hloads

theorem TotalOf.exact {c : ℕ} (h : TotalOf groups c) :
    TotalOf (groups.map ScriptGroup.exact) c := by
  obtain ⟨totals, hexits, hsum⟩ := h
  refine ⟨totals, ?_, hsum⟩
  rw [List.forall₂_map_left_iff]
  clear hsum
  induction hexits with
  | nil => exact .nil
  | @cons g _ groups _ hexit _ ih =>
    have hhead := hexit.exact (htracking g List.mem_cons_self) (hloads g List.mem_cons_self)
    exact .cons hhead (ih (fun g' hmem => htracking g' (List.mem_cons_of_mem _ hmem))
      fun g' hmem => hloads g' (List.mem_cons_of_mem _ hmem))

theorem verifyGroups_twins (fuel : ℕ) :
    groups.foldlM (fun consumed g => groupLoop debug g maxCycles cyclesPerIterate
        cyclesPerSuspend consumed fuel new 0) consumed = .error .panicked ∨
      groups.foldlM (fun consumed g => groupLoop debug g maxCycles cyclesPerIterate
          cyclesPerSuspend consumed fuel new 0) consumed =
        (groups.map ScriptGroup.exact).foldlM (fun consumed g => groupLoop debug g maxCycles
          cyclesPerIterate cyclesPerSuspend consumed fuel new 0) consumed := by
  induction groups generalizing consumed with
  | nil => exact Or.inr rfl
  | cons g groups ih =>
    have htracking' : ∀ g' ∈ groups, g'.env.Tracking :=
      fun g' hmem => htracking g' (List.mem_cons_of_mem _ hmem)
    have hloads' : ∀ g' ∈ groups, LoadsCover maxInstantiatedVms g'.env :=
      fun g' hmem => hloads g' (List.mem_cons_of_mem _ hmem)
    rw [List.map_cons, List.foldlM_cons, List.foldlM_cons]
    rcases groupLoop_twins (htracking g List.mem_cons_self) (hloads g List.mem_cons_self) .refl
      .new fuel 0 with hpanic | htwin
    · rw [hpanic]
      exact Or.inl rfl
    · rw [← htwin]
      cases groupLoop debug g maxCycles cyclesPerIterate cyclesPerSuspend consumed fuel new 0 with
      | error halt => exact Or.inr rfl
      | ok c => exact ih htracking' hloads'

omit htracking hloads in
theorem verifyTx_exact_verdict (fuel : ℕ) : Verdict debug (groups.map ScriptGroup.exact)
    (TotalOf (groups.map ScriptGroup.exact)) maxCycles 0 (verifyTx debug fuel
      (groups.map ScriptGroup.exact) maxCycles cyclesPerIterate cyclesPerSuspend) :=
  verifyGroups_verdict (exactGroups_snapshotsTotal groups) (Nat.zero_le _)

/-- A verification that returns accepts exactly a total within the maximum. -/
theorem verifyTx_ok_iff {fuel c : ℕ} (hreturns : Returns debug groups
      (verifyTx debug fuel groups maxCycles cyclesPerIterate cyclesPerSuspend)) :
    verifyTx debug fuel groups maxCycles cyclesPerIterate cyclesPerSuspend = .ok c ↔
      TotalOf groups c ∧ c ≤ maxCycles := by
  have hsame : verifyTx debug fuel groups maxCycles cyclesPerIterate cyclesPerSuspend =
      verifyTx debug fuel (groups.map ScriptGroup.exact) maxCycles cyclesPerIterate
        cyclesPerSuspend := by
    refine (verifyGroups_twins htracking hloads fuel).resolve_left fun hpanic => ?_
    rw [verifyTx, hpanic] at hreturns
    rcases hreturns with ⟨_, hok⟩ | ⟨_, hrejected, _⟩
    · cases hok
    · cases hrejected
  have haccepts := (verifyTx_exact_verdict fuel).accepts (exactGroups_snapshotsTotal groups)
    (by rw [← hsame]; exact returns_exact hreturns)
  constructor
  · intro hok
    obtain ⟨t, ht, rfl⟩ := verifyGroups_exits hok
    rw [Nat.zero_add] at hok ⊢
    rw [hsame] at hok
    exact ⟨ht, ((haccepts t).mp hok).2⟩
  · rintro ⟨hc, hle⟩
    rw [hsame]
    exact (haccepts c).mpr ⟨hc.exact htracking hloads, hle⟩

end Groups

/-- Two groups that load `contentSize` bytes of a cell into a page. -/
def pageGroups (cell : Bytes) (contentSize : UInt64) :
    List (ScriptGroup PageMirrors (Cpu PageMemory)) :=
  [⟨"Lock", "0x1", pageLibrary cell contentSize⟩, ⟨"Type", "0x2", pageLibrary cell contentSize⟩]

theorem pageGroups_tracking {cell : Bytes} (contentSize : UInt64) (hlength : cell.length < 2 ^ 64) :
    ∀ g ∈ pageGroups cell contentSize, g.env.Tracking := by
  simp only [pageGroups, List.forall_mem_cons]
  exact ⟨pageLibrary_tracking hlength, pageLibrary_tracking hlength, by simp⟩

/-- A page of zeros but for its first byte. -/
def zeroCell : Bytes := 7 :: List.replicate 4095 0

end DeterministicScheduler
