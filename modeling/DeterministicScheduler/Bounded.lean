import DeterministicScheduler.Guest
import DeterministicScheduler.Reachability

/-!
# Bounded instantiation

Under any sequence of pauses and limits the scheduler and the reference go
through the same rounds: the same results and logs, and after each round the
same VMs, wherever the scheduler holds their machines.
-/
namespace DeterministicScheduler.Scheduler

open ProgramLogic Program Outcome Std

variable {μ κ : Type}

/-- A round as it is seen from outside. -/
structure Round (μ κ : Type) where
  result : Except Error ℕ
  log : List (Event μ)
  after : Scheduler μ κ

/-- The rounds under a sequence of pauses and limits, up to a crash. -/
def rounds [Memory μ] (cap : Option ℕ) (env : Env μ κ) :
    List (Pause × ℕ) → Scheduler μ κ → List (Round μ κ)
  | [], _ => []
  | (pause, limitCycles) :: calls, s =>
    match iterate cap env pause limitCycles s with
    | .ok consumedCycles s' l => ⟨.ok consumedCycles, l, s'⟩ :: rounds cap env calls s'
    | .err e s' l => ⟨.error e, l, s'⟩ :: rounds cap env calls s'
    | .panic => []

/-- The VM that a round ran. -/
def Round.selected (round : Round μ κ) : Option VmId :=
  round.log.findSome? fun
    | .exec id _ _ _ _ => some id
    | _ => none

/-- A scheduler holds a VM as `cpu`, instantiated or else suspended. -/
def Holds (env : Env μ κ) (s : Scheduler μ κ) (id : VmId) (cpu : Cpu μ) : Prop :=
  (∃ m, s.instantiated[id]? = some m ∧ m.toCpu = cpu ∧ s.suspended[id]? = none) ∨
    ∃ snapshot, s.suspended[id]? = some snapshot ∧ env.resumeSnapshot snapshot = .ok cpu ∧
      s.instantiated[id]? = none

/-- A bounded round and a round of the reference that cannot be told apart. -/
structure Round.Matches (env : Env μ κ) (bounded reference : Round μ κ) : Prop where
  result : bounded.result = reference.result
  log : bounded.log = reference.log
  selected : bounded.selected = reference.selected
  states : bounded.after.states = reference.after.states
  pipes : bounded.after.pipes = reference.after.pipes
  nextVmId : bounded.after.nextVmId = reference.after.nextVmId
  nextPipeSlot : bounded.after.nextPipeSlot = reference.after.nextPipeSlot
  terminatedVms : bounded.after.terminatedVms = reference.after.terminatedVms
  totalCycles : bounded.after.totalCycles = reference.after.totalCycles
  unsuspended : reference.after.suspended = ∅
  vms : ∀ id, id ∈ reference.after.states → ∃ m, reference.after.instantiated[id]? = some m ∧
    Holds env bounded.after id m.toCpu

variable {cap : Option ℕ} {env : Env μ κ} {w r : Scheduler μ κ}

theorem Linked.holds (h : Linked cap env w r) {id : VmId} (hid : id ∈ r.states) :
    ∃ m, r.instantiated[id]? = some m ∧ Holds env w id m.toCpu := by
  obtain ⟨m, hm⟩ := h.resident.machine hid
  have hcpu := h.same.cpu id
  rw [cpu?_of_instantiated hm] at hcpu
  refine ⟨m, hm, ?_⟩
  cases hin : w.instantiated[id]? with
  | some m' =>
    rw [cpu?_of_instantiated hin, Option.some.injEq] at hcpu
    refine Or.inl ⟨m', hin, hcpu, ?_⟩
    rw [ExtTreeMap.getElem?_eq_none]
    exact h.stored.disjoint id (mem_iff_getElem?.mpr ⟨m', hin⟩)
  | none =>
    have hnot : id ∉ w.instantiated := by
      rw [mem_iff_getElem?, hin]
      simp
    have hsus := ((h.stored.cover id).mp (h.same.states ▸ hid)).resolve_left hnot
    obtain ⟨snapshot, hsnapshot⟩ := mem_iff_getElem?.mp hsus
    obtain ⟨cpu, hmake⟩ := h.stored.taken id snapshot hsnapshot
    have hresume := env.resume_make trivial hmake
    simp only [cpu?, hin, hsnapshot, Option.bind_some, hresume, Except.toOption,
      Option.some.injEq] at hcpu
    exact Or.inr ⟨snapshot, hsnapshot, hcpu ▸ hresume, hin⟩

theorem Linked.matches (h : Linked cap env w r) (result : Except Error ℕ) (l : List (Event μ)) :
    Round.Matches env ⟨result, l, w⟩ ⟨result, l, r⟩ where
  result := rfl
  log := rfl
  selected := rfl
  states := h.same.states
  pipes := h.same.pipes
  nextVmId := h.same.nextVmId
  nextPipeSlot := h.same.nextPipeSlot
  terminatedVms := h.same.terminatedVms
  totalCycles := h.same.totalCycles
  unsuspended := h.resident.suspended
  vms _ hid := h.holds hid

variable [Memory μ]

/-- Linked schedulers go through the same rounds, up to a crash of the bounded one. -/
theorem Linked.rounds (hcap : ∀ c, cap = some c → 2 ≤ c) (htotal : env.SnapshotsTotal)
    (h : Linked cap env w r) (calls : List (Pause × ℕ)) :
    List.Forall₂ (Round.Matches env) (rounds cap env calls w)
      ((rounds none env calls r).take (rounds cap env calls w).length) := by
  induction calls generalizing w r with
  | nil => exact .nil
  | cons call calls ih =>
    obtain ⟨pause, limitCycles⟩ := call
    have hsim := iterate_simulates hcap h pause limitCycles
    simp only [Scheduler.rounds]
    cases hiterate : iterate cap env pause limitCycles w with
    | panic => exact .nil
    | ok consumedCycles w' l =>
      rw [hiterate] at hsim
      obtain ⟨r', hr', h'⟩ := hsim
      rw [hr']
      exact .cons (h'.matches _ _) (ih h')
    | err e w' l =>
      rw [hiterate] at hsim
      obtain ⟨r', hr', h'⟩ := hsim.resolve_left htotal.no_error
      rw [hr']
      exact .cons (h'.matches _ _) (ih h')

/-- With at most four machines instantiated the scheduler refines the reference,
round by round and under every sequence of pauses and limits. -/
theorem rounds_refine (env : Env μ κ) (htotal : env.SnapshotsTotal) {w : Scheduler μ κ}
    {l : List (Event μ)} (hboot : bootRoot maxInstantiatedVms env new = .ok ⟨⟩ w l)
    (calls : List (Pause × ℕ)) :
    ∃ r, bootRoot none env new = .ok ⟨⟩ r l ∧
      List.Forall₂ (Round.Matches env) (rounds maxInstantiatedVms env calls w)
        ((rounds none env calls r).take (rounds maxInstantiatedVms env calls w).length) := by
  obtain ⟨r, hr, hrefines⟩ := Refines.booted two_le_maxInstantiatedVms hboot
  exact ⟨r, hr, hrefines.1.rounds two_le_maxInstantiatedVms htotal calls⟩

/-- An interruption and sixteen rounds. -/
def crowdCalls : List (Pause × ℕ) :=
  (some 0, 99) :: List.replicate 16 (none, 99)

/-- The rounds of seven VMs, five of which are left at the end, one of
them suspended. -/
theorem rounds_refine_crowd : ∃ w r l,
    bootRoot maxInstantiatedVms crowdEnv new = .ok ⟨⟩ w l ∧
      bootRoot none crowdEnv new = .ok ⟨⟩ r l ∧
      List.Forall₂ (Round.Matches crowdEnv) (rounds maxInstantiatedVms crowdEnv crowdCalls w)
        ((rounds none crowdEnv crowdCalls r).take 17) ∧
      ∃ round ∈ rounds maxInstantiatedVms crowdEnv crowdCalls w,
        round.after.states.keys = [0, 3, 4, 5, 6] ∧ (3 : VmId) ∈ round.after.suspended := by
  obtain ⟨w, l, hboot⟩ : ∃ w l, bootRoot maxInstantiatedVms crowdEnv new = .ok ⟨⟩ w l := ⟨_, _, rfl⟩
  have hrun : (bootRoot maxInstantiatedVms crowdEnv new).state?.any (fun w =>
      (rounds maxInstantiatedVms crowdEnv crowdCalls w).length == 17 &&
        (rounds maxInstantiatedVms crowdEnv crowdCalls w).any fun round =>
          round.after.states.keys == [0, 3, 4, 5, 6] && round.after.suspended.contains 3) =
            true := by
    decide +kernel
  rw [hboot] at hrun
  simp only [state?, Option.any_some, Bool.and_eq_true, beq_iff_eq, List.any_eq_true] at hrun
  obtain ⟨hlength, round, hmem, hkeys, hsuspended⟩ := hrun
  obtain ⟨r, hr, hrounds⟩ := rounds_refine crowdEnv (scriptEnv_snapshotsTotal _ _ _ _)
    hboot crowdCalls
  rw [hlength] at hrounds
  exact ⟨w, r, l, hboot, hr, hrounds, round, hmem, hkeys, ExtTreeMap.contains_iff_mem.mp hsuspended⟩

end DeterministicScheduler.Scheduler
