import DeterministicScheduler.Guest
import DeterministicScheduler.Reachability

/-!
# The assertions of the entry point

The entry point asserts that the first VM booted is the root, that the root is
there once it has booted, and that answering the messages of a round leaves none.
They are followed through histories of calls: whatever a call returns, an error
from any place included, the next one starts from the scheduler it left behind,
and a suspended scheduler can be resumed with other transaction data.
-/
namespace DeterministicScheduler

open ProgramLogic Program Outcome Std

variable {μ κ : Type}

/-- Whether the root can be booted: the script selects a version, and the program
of the transaction is found and loaded. -/
def Library.BootsRoot {Mirrors : TxData → μ → Prop} (env : Library Mirrors κ) : Prop :=
  env.selectVersion = .ok () ∧ ∃ program length core bytes,
    env.txData.loadData .program 0 0xffffffffffffffff = .ok (program, length) ∧
    env.loadProgram .program 0 program [] = .ok (core, bytes)

namespace Scheduler

variable {cap : Option ℕ} {env : Env μ κ} {s s' : Scheduler μ κ} {l : List (Event μ)} {n : ℕ}

/-- A scheduler that holds no VM, with the id of the next one. -/
structure Unbooted (n : ℕ) (s : Scheduler μ κ) : Prop where
  states : s.states = ∅
  instantiated : s.instantiated = ∅
  nextVmId : s.nextVmId.toNat = n

theorem new_unbooted : Unbooted 0 (new : Scheduler μ κ) := ⟨rfl, rfl, rfl⟩

/-- Booting the root uses up an id even when it fails. -/
theorem Unbooted.bootVm (cap : Option ℕ) (env : Env μ κ) (h : Unbooted n s) :
    (2 ^ 64 ≤ n + 1 ∧ bootVm cap env .program 0 0xffffffffffffffff [] s = .panic) ∨
    (n + 1 < 2 ^ 64 ∧ ¬ env.BootsRoot ∧
      ∃ e s', bootVm cap env .program 0 0xffffffffffffffff [] s = .err e s' [] ∧
        Unbooted (n + 1) s') ∨
    (n + 1 < 2 ^ 64 ∧ env.BootsRoot ∧
      ∃ s' l, bootVm cap env .program 0 0xffffffffffffffff [] s = .ok s.nextVmId s' l ∧
        s'.states = s.states.insert s.nextVmId .runnable) := by
  have hevict : evictUntilRoom cap env s.instantiated.size s = .ok ⟨⟩ s [] := by
    rw [h.instantiated]
    rfl
  have hnext : ∀ nextVmId, checkedAdd s.nextVmId 1 = some nextVmId →
      n + 1 < 2 ^ 64 ∧ nextVmId.toNat = n + 1 := by
    intro nextVmId hnext
    have hlt : s.nextVmId.toNat + (1 : UInt64).toNat < 2 ^ 64 := by
      by_contra hge
      rw [checkedAdd, if_neg hge] at hnext
      cases hnext
    rw [checkedAdd, if_pos hlt, Option.some.injEq] at hnext
    have hone : (1 : UInt64).toNat = 1 := rfl
    rw [h.nextVmId, hone] at hlt
    rw [← hnext, UInt64.toNat_add, h.nextVmId, hone, Nat.mod_eq_of_lt hlt]
    exact ⟨hlt, rfl⟩
  simp only [Scheduler.bootVm, get_bind_run, bind_of_ok hevict, after_nil]
  cases hchecked : checkedAdd s.nextVmId 1 with
  | none =>
    apply Or.inl
    refine ⟨?_, rfl⟩
    by_contra hlt
    rw [checkedAdd, if_pos] at hchecked
    · cases hchecked
    · rw [h.nextVmId]
      have hone : (1 : UInt64).toNat = 1 := rfl
      omega
  | some nextVmId =>
    obtain ⟨hlt, hid⟩ := hnext nextVmId hchecked
    have hunbooted : Unbooted (n + 1) { s with nextVmId } := ⟨h.states, h.instantiated, hid⟩
    apply Or.inr
    simp only [unwrap_some, pure_bind_run, modify_bind_run, createDummyVm]
    cases hversion : env.selectVersion with
    | error e =>
      refine Or.inl ⟨hlt, ?_, _, _, rfl, hunbooted⟩
      rintro ⟨hok, _⟩
      rw [hversion] at hok
      cases hok
    | ok _ =>
      simp only [pure_bind_run]
      cases hload : env.txData.loadData .program 0 0xffffffffffffffff with
      | error e =>
        refine Or.inl ⟨hlt, ?_, _, _, rfl, hunbooted⟩
        rintro ⟨_, _, _, _, _, hok, _⟩
        rw [hload] at hok
        cases hok
      | ok loaded =>
        obtain ⟨program, length⟩ := loaded
        simp only [ofExcept_ok, pure_bind_run]
        cases hprogram : env.loadProgram .program 0 program [] with
        | error e =>
          refine Or.inl ⟨hlt, ?_, _, _, rfl, hunbooted⟩
          rintro ⟨_, _, _, _, _, hloaded, hok⟩
          rw [hload] at hloaded
          cases hloaded
          rw [hprogram] at hok
          cases hok
        | ok loaded =>
          obtain ⟨core, bytes⟩ := loaded
          exact Or.inr ⟨hlt, ⟨hversion, program, length, core, bytes, hload, hprogram⟩, _, _, rfl,
            rfl⟩

section

variable [Memory μ]

/-- A program that keeps the root, however it ends. -/
def KeepsRoot {α : Type} (x : SchedulerM μ κ α) : Prop :=
  Regular (fun _ => True) (· = rootVmId) False (fun _ => True) x

omit [Memory μ] in
theorem Regular.keepsRoot {α : Type} {E : Error → Prop} {N : Event μ → Prop}
    {x : SchedulerM μ κ α} (h : Regular E (· = rootVmId) False N x) : KeepsRoot x :=
  h.mono (fun _ _ => trivial) fun _ _ => trivial

theorem iterate_keepsRoot (pause : Pause) (limitCycles : ℕ) :
    KeepsRoot (iterate cap env pause limitCycles) := by
  refine regular_bind (regular_emit trivial) fun _ => ?_
  refine regular_bind (regular_processIo cap env).keepsRoot fun _ => regular_get_bind fun s => ?_
  split
  · exact regular_throw trivial
  refine regular_bind (regular_runVm cap env _ pause limitCycles).keepsRoot fun executed => ?_
  refine regular_bind (regular_processMessageBox cap env).keepsRoot fun _ => ?_
  refine regular_get_bind fun s => regular_ite ?_ regular_crash
  split
  · exact regular_bind (regular_terminateVm cap env _ _).keepsRoot fun _ => regular_pure _
  · exact regular_ite (regular_pure _) (regular_throw trivial)

theorem runLoop_keepsRoot (pause : ℕ → Pause) (fuel k limitCycles : ℕ) :
    KeepsRoot (runLoop cap env pause fuel k limitCycles) := by
  induction fuel generalizing k limitCycles with
  | zero => exact regular_pure _
  | succ fuel ih =>
    refine regular_get_bind fun s => regular_bind (regular_unwrap _) fun state => ?_
    refine regular_ite (regular_pure _) ?_
    refine regular_bind (iterate_keepsRoot _ _) fun consumedCycles => ?_
    split
    · exact ih _ _
    · exact regular_throw trivial

/-- Whatever a call returns, the root stays. -/
theorem run_keepsRoot (mode : RunMode) : KeepsRoot (run cap env mode) := by
  refine regular_bind (regular_bootRoot cap env).keepsRoot fun _ => ?_
  refine regular_get_bind fun s => regular_ite ?_ regular_crash
  refine regular_bind (runLoop_keepsRoot _ _ _ _) fun finished => ?_
  split
  · refine regular_bind (regular_get_bind fun _ => regular_unwrap _) fun root => ?_
    exact regular_get_bind fun s => regular_pure _
  · exact regular_crash

end

/-- A scheduler is resumed with the VMs it was suspended with. -/
theorem suspend_states {full : FullSuspendedState κ} (h : suspend env s = .ok full s' l) :
    Keeps (fun _ => True) False s (resume full) := by
  rw [suspend, get_bind_run] at h
  obtain ⟨_, s₁, l₁, l₂, hsuspended, hlist, _⟩ := bind_eq_ok.mp h
  have hkeeps : Regular Error.Fatal (fun _ => True) False Event.Inner
      (s.instantiated.keys.forM (suspendVm env)) :=
    regular_forM (regular_suspendVm env) _
  have hmeets := hkeeps s
  rw [hsuspended] at hmeets
  rw [get_bind_run] at hlist
  change (unwrap (s₁.states.toList.mapM (listedVm s₁.suspended)) >>= _ : SchedulerM μ κ _) s₁ = _
    at hlist
  cases hvms : s₁.states.toList.mapM (listedVm s₁.suspended) with
  | none =>
    rw [hvms] at hlist
    cases hlist
  | some vms =>
    have hfull : full.vms = vms := by
      rw [hvms] at hlist
      cases hlist
      rfl
    refine ⟨fun id hid hin => ?_, False.elim⟩
    simp only [resume, hfull, (mapM_listedVm hvms).1, ofList_toList]
    exact hmeets.1.vms id hid hin

theorem Unbooted.suspended (env : Env μ κ) (h : Unbooted n s) :
    ∃ full, suspend env s = .ok full s [] ∧ Unbooted n (resume full : Scheduler μ κ) := by
  have hkeys : s.instantiated.keys = [] := by
    rw [h.instantiated]
    rfl
  have hlist : s.states.toList = [] := by
    rw [h.states]
    rfl
  rw [suspend, get_bind_run, hkeys, bind_of_ok (forM_nil_run _), after_nil, get_bind_run, hlist]
  exact ⟨_, rfl, rfl, rfl, h.nextVmId⟩

/-- The assertions of one call of the entry point: booting a scheduler that holds
no VM yields the root, the root is there once it has booted, and no answer to the
messages of a round leaves a message behind. -/
structure AssertionsHold [Memory μ] (cap : Option ℕ) (env : Env μ κ) (s : Scheduler μ κ) :
    Prop where
  booted : s.states.isEmpty → ∀ id s' l,
    bootVm cap env .program 0 0xffffffffffffffff [] s = .ok id s' l → id = rootVmId
  root : ∀ s' l, bootRoot cap env s = .ok ⟨⟩ s' l → rootVmId ∈ s'.states
  box : ∀ t s' l, processMessageBox cap env t = .ok ⟨⟩ s' l → s'.messageBox = []

/-- One use of a scheduler: a call of the entry point, or a suspension after which
it is resumed with the given transaction. -/
inductive Use (μ κ : Type) where
  | run (mode : RunMode)
  | resume (env : Env μ κ)

/-- Whether the assertions hold in each call of a history, whatever the calls
before it returned. Only a crash ends a history early. -/
def AssertionsHoldIn [Memory μ] (cap : Option ℕ) : List (Use μ κ) → Env μ κ → Scheduler μ κ → Prop
  | [], _, _ => True
  | .run mode :: uses, env, s => AssertionsHold cap env s ∧
      ∀ s', (run cap env mode s).state? = some s' → AssertionsHoldIn cap uses env s'
  | .resume env' :: uses, env, s => ∀ full s' l, suspend env s = .ok full s' l →
      AssertionsHoldIn cap uses env' (resume full)

/-- The transaction that each call of a history runs with. -/
def runEnvs : List (Use μ κ) → Env μ κ → List (Env μ κ)
  | [], _ => []
  | .run _ :: uses, env => env :: runEnvs uses env
  | .resume env' :: uses, _ => runEnvs uses env'

/-- Whether the first call that can boot the root is the first of all, `n` calls
having been made before. After so many calls that the ids are used up no call
boots anything. -/
def BootsAtFirst : ℕ → List (Env μ κ) → Prop
  | _, [] => True
  | n, env :: envs => (env.BootsRoot ∧ (n = 0 ∨ 2 ^ 64 ≤ n + 1)) ∨
      (¬ env.BootsRoot ∧ BootsAtFirst (n + 1) envs)

theorem bootsAtFirst_of_le (hn : 2 ^ 64 ≤ n + 1) (envs : List (Env μ κ)) : BootsAtFirst n envs := by
  induction envs generalizing n with
  | nil => trivial
  | cons env envs ih =>
    by_cases hboots : env.BootsRoot
    · exact Or.inl ⟨hboots, Or.inr hn⟩
    · exact Or.inr ⟨hboots, ih (hn.trans (Nat.le_succ _))⟩

section

variable [Memory μ]

omit [Memory μ] in
theorem isEmpty_of_unbooted (h : Unbooted n s) : s.states.isEmpty = true := by
  rw [h.states]
  rfl

theorem AssertionsHold.of_root (hroot : rootVmId ∈ s.states) : AssertionsHold cap env s := by
  constructor
  · intro hempty
    rw [ExtTreeMap.isEmpty_iff] at hempty
    simp [hempty] at hroot
  · intro s' l hboot
    rw [bootRoot_noop hroot] at hboot
    cases hboot
    exact hroot
  · exact fun _ _ _ => processMessageBox_clears cap env

theorem run_keeps_root (hroot : rootVmId ∈ s.states) {mode : RunMode}
    (h : (run cap env mode s).state? = some s') : rootVmId ∈ s'.states := by
  have hmeets : (run cap env mode s).Meets _ _ _ := run_keepsRoot mode s
  cases hrun : run cap env mode s with
  | panic =>
    rw [hrun] at h
    cases h
  | err e s₁ l =>
    rw [hrun] at h hmeets
    cases h
    exact hmeets.2.1.vms rootVmId rfl hroot
  | ok a s₁ l =>
    rw [hrun] at h hmeets
    cases h
    exact hmeets.1.vms rootVmId rfl hroot

/-- A call that boots the root goes on as one on the scheduler it is booted in. -/
theorem run_booted {s₁ : Scheduler μ κ} (hboot : bootRoot cap env s = .ok ⟨⟩ s₁ l)
    (hroot : rootVmId ∈ s₁.states) (mode : RunMode) :
    run cap env mode s = (run cap env mode s₁).after l := by
  rw [run, bind_of_ok hboot, bind_of_ok (bootRoot_noop hroot), after_nil]

/-- Once the root has booted, no assertion fails any more. -/
theorem assertionsHoldIn_of_root (hroot : rootVmId ∈ s.states) (uses : List (Use μ κ)) :
    AssertionsHoldIn cap uses env s := by
  induction uses generalizing s env with
  | nil => trivial
  | cons use uses ih =>
    cases use with
    | run mode => exact ⟨.of_root hroot, fun s' hs' => ih (run_keeps_root hroot hs')⟩
    | resume env' =>
      intro full s' l hsuspend
      exact ih ((suspend_states hsuspend).vms rootVmId trivial hroot)

omit [Memory μ] in
theorem Unbooted.bootRoot (cap : Option ℕ) (env : Env μ κ) (h : Unbooted n s) :
    bootRoot cap env s = (Scheduler.bootVm cap env .program 0 0xffffffffffffffff [] >>= fun id =>
      if id = rootVmId then return () else crash) s := by
  rw [Scheduler.bootRoot, get_bind_run, if_pos (isEmpty_of_unbooted h)]

/-- Without a booted VM the assertions of a call fail when a VM is booted that is
not the root. -/
theorem Unbooted.assertionsHold (h : Unbooted n s)
    (hfirst : ∀ id s' l, Scheduler.bootVm cap env .program 0 0xffffffffffffffff [] s =
      .ok id s' l → id = rootVmId ∧ rootVmId ∈ s'.states) : AssertionsHold cap env s := by
  constructor
  · intro _ id s' l hboot
    exact (hfirst id s' l hboot).1
  · intro s' l hboot
    rw [h.bootRoot] at hboot
    obtain ⟨id, s₁, l₁, l₂, hvm, hcheck, _⟩ := bind_eq_ok.mp hboot
    obtain ⟨hid, hroot⟩ := hfirst id s₁ l₁ hvm
    rw [if_pos hid] at hcheck
    cases hcheck
    exact hroot
  · exact fun _ _ _ => processMessageBox_clears cap env

/-- The assertions hold in a history that begins without a VM exactly when the
root boots at first. -/
theorem Unbooted.assertionsHoldIn (h : Unbooted n s) (uses : List (Use μ κ)) :
    AssertionsHoldIn cap uses env s ↔ BootsAtFirst n (runEnvs uses env) := by
  induction uses generalizing s env n with
  | nil => exact Iff.rfl
  | cons use uses ih =>
    cases use with
    | run mode =>
      have hboot := h.bootRoot cap env
      rcases h.bootVm cap env with
        ⟨hle, hpanic⟩ | ⟨_, hnot, e, s₁, herr, hunbooted⟩ | ⟨hlt, hboots, s₁, l, hok, hstates⟩
      · -- the ids are used up
        rw [bind_of_panic hpanic] at hboot
        apply iff_of_true
        · constructor
          · exact h.assertionsHold (by simp [hpanic])
          · intro s' hs'
            rw [run, bind_of_panic hboot] at hs'
            cases hs'
        · exact bootsAtFirst_of_le hle _
      · -- the boot fails
        rw [bind_of_err herr] at hboot
        have hrun : run cap env mode s = .err e s₁ [] := by
          rw [run, bind_of_err hboot]
        have hfirst : BootsAtFirst n (runEnvs (.run mode :: uses) env) ↔
            BootsAtFirst (n + 1) (runEnvs uses env) := by
          simp only [runEnvs, BootsAtFirst, hnot, false_and, not_false_eq_true, true_and, false_or]
        rw [hfirst, ← ih hunbooted]
        constructor
        · rintro ⟨_, hrest⟩
          exact hrest s₁ (by rw [hrun]; rfl)
        · intro hrest
          refine ⟨h.assertionsHold (by simp [herr]), ?_⟩
          intro s' hs'
          rw [hrun] at hs'
          cases hs'
          exact hrest
      · -- a VM is booted
        have hfirst : BootsAtFirst n (runEnvs (.run mode :: uses) env) ↔ n = 0 := by
          simp only [runEnvs, BootsAtFirst, hboots, true_and, not_true_eq_false, false_and,
            or_false]
          omega
        rw [hfirst]
        constructor
        · rintro ⟨hhold, _⟩
          have hid := hhold.booted (isEmpty_of_unbooted h) _ _ _ hok
          rw [← h.nextVmId, hid]
          rfl
        · intro hn
          have hid : s.nextVmId = rootVmId := by
            apply UInt64.toNat_inj.mp
            rw [h.nextVmId, hn]
            rfl
          have hroot : rootVmId ∈ s₁.states := by
            rw [hstates, hid]
            exact mem_insert.mpr (Or.inl rfl)
          constructor
          · apply h.assertionsHold
            intro id s' l' hok'
            rw [hok] at hok'
            cases hok'
            exact ⟨hid, hroot⟩
          · intro s' hs'
            rw [bind_of_ok hok, if_pos hid] at hboot
            rw [run_booted hboot hroot, state?_after] at hs'
            exact assertionsHoldIn_of_root (run_keeps_root hroot hs') uses
    | resume env' =>
      obtain ⟨full, hsuspend, hunbooted⟩ := h.suspended env
      have hiff := @ih env' _ _ hunbooted
      constructor
      · intro hhold
        exact hiff.mp (hhold full s [] hsuspend)
      · intro hfirst full' s' l hsuspend'
        rw [hsuspend] at hsuspend'
        cases hsuspend'
        exact hiff.mpr hfirst

omit [Memory μ] in
/-- In a history with one transaction throughout the root boots at first or never. -/
theorem bootsAtFirst_same {uses : List (Use μ κ)} (hsame : ∀ env', .resume env' ∈ uses → env' = env)
    (hn : n = 0 ∨ ¬ env.BootsRoot) : BootsAtFirst n (runEnvs uses env) := by
  induction uses generalizing n with
  | nil => trivial
  | cons use uses ih =>
    have hrest : ∀ env', .resume env' ∈ uses → env' = env := fun env' hin =>
      hsame env' (List.mem_cons_of_mem _ hin)
    cases use with
    | run mode =>
      by_cases hboots : env.BootsRoot
      · exact Or.inl ⟨hboots, Or.inl (hn.resolve_right fun hnot => hnot hboots)⟩
      · exact Or.inr ⟨hboots, ih hrest (Or.inr hboots)⟩
    | resume env' =>
      obtain rfl := hsame env' List.mem_cons_self
      exact ih hrest hn

/-- In a history of calls on a new scheduler the assertions of the entry point hold
exactly when the first call that can boot the root is the first call made. In
particular they hold when it is never resumed with another transaction. -/
theorem assertions_hold (env : Env μ κ) (uses : List (Use μ κ)) :
    (AssertionsHoldIn maxInstantiatedVms uses env new ↔ BootsAtFirst 0 (runEnvs uses env)) ∧
      ((∀ env', .resume env' ∈ uses → env' = env) →
        AssertionsHoldIn maxInstantiatedVms uses env new) :=
  have hiff := new_unbooted.assertionsHoldIn uses
  ⟨hiff, fun hsame => hiff.mpr (bootsAtFirst_same hsame (Or.inl rfl))⟩

end

/-- A transaction whose program cannot be parsed when it is empty, and otherwise
exits at once. -/
def programEnv (program : Bytes) : Env Ram (Cpu Ram) :=
  { exitEnv 0 with
    txData := { scriptTx 0 with program }
    loadProgram := fun _ _ program _ =>
      if program = [] then .error (.other 1)
      else .ok ({ registers := fun _ => 0, pc := 0, memory := Ram.blank }, 0)
    loadProgram_error := by
      intro _ _ program _ e h
      split at h
      · cases h
        decide
      · cases h }

/-- A scheduler whose root failed to boot is suspended, and resumed with a
transaction whose program boots. -/
theorem assertions_hold_resumed : ¬ AssertionsHoldIn maxInstantiatedVms
    [.run (.limitCycles 9), .resume (programEnv [0]), .run (.limitCycles 9)]
    (programEnv []) new := by
  rw [new_unbooted.assertionsHoldIn]
  have hnot : ¬ (programEnv []).BootsRoot := by
    rintro ⟨_, program, length, core, bytes, hload, hprogram⟩
    cases hload
    cases hprogram
  have hboots : (programEnv [0]).BootsRoot := ⟨rfl, _, _, _, _, rfl, rfl⟩
  simp [runEnvs, BootsAtFirst, hnot, hboots]

end Scheduler

end DeterministicScheduler
