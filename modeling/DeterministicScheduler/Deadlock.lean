import DeterministicScheduler.Guest
import DeterministicScheduler.Reachability

/-!
# The deadlock error is exact

A round reports a deadlock when no VM is runnable after its pass over the pipes.
In a reachable scheduler that is so exactly when every live VM was blocked before
the pass with nothing to wake it: one pass resolves all that can be resolved.
-/
namespace DeterministicScheduler.Scheduler

open ProgramLogic Program Outcome Std

variable {μ κ : Type} {cap : Option ℕ} {env : Env μ κ} {s s' r : Scheduler μ κ}

/-- Whether a VM in this state waits with nothing to wake it: for a live VM to
exit, or on a pipe that is open and has no partner on its other end. -/
def Stuck (s : Scheduler μ κ) : VmState → Prop
  | .runnable | .terminated => False
  | .join target _ => target ∈ s.states
  | .waitForRead pipe _ _ _ => pipe.otherPipe ∈ s.pipes ∧
    ∀ (k : VmId) (state : VmState), s.states[k]? = some state →
      state.writing? ≠ some pipe.otherPipe
  | .waitForWrite pipe _ _ _ _ => pipe.otherPipe ∈ s.pipes ∧
    ∀ (k : VmId) (state : VmState), s.states[k]? = some state →
      state.reading? ≠ some pipe.otherPipe

/-- Every live VM is stuck, so none is runnable. -/
def Deadlocked (s : Scheduler μ κ) : Prop :=
  ∀ (id : VmId) (state : VmState), s.states[id]? = some state → s.Stuck state

theorem Stuck.congr (hstates : s'.states = s.states) (hpipes : s'.pipes = s.pipes)
    {state : VmState} (h : s.Stuck state) : s'.Stuck state := by
  cases state with
  | join target addr =>
    unfold Stuck
    rw [hstates]
    exact h
  | waitForRead pipe length bufferAddr lengthAddr =>
    unfold Stuck
    rw [hstates, hpipes]
    exact h
  | waitForWrite pipe consumed length bufferAddr lengthAddr =>
    unfold Stuck
    rw [hstates, hpipes]
    exact h
  | _ => exact h

theorem vmIdToRun_eq_none {states : BTreeMap VmId VmState} :
    vmIdToRun states = none ↔ ∀ id : VmId, states[id]? ≠ some .runnable := by
  rw [vmIdToRun, Option.map_eq_none_iff, List.find?_eq_none]
  constructor
  · intro h id hid
    have hmem := ExtTreeMap.mem_toList_iff_getElem?_eq_some.mpr hid
    exact h (id, .runnable) (List.mem_reverse.mpr hmem) (by simp)
  · rintro h ⟨id, state⟩ hmem hstate
    rw [List.mem_reverse, ExtTreeMap.mem_toList_iff_getElem?_eq_some] at hmem
    rw [beq_iff_eq] at hstate
    exact h id (hmem.trans (congrArg some hstate))

theorem Deadlocked.closedVms_eq (h : Deadlocked s) : s.closedVms = [] := by
  apply List.eq_nil_iff_forall_not_mem.mpr
  intro id hid
  obtain ⟨state, hstate, hclosed⟩ := mem_closedVms.mp hid
  have hstuck := h id state hstate
  have hopen : ∀ pipe : PipeId, pipe.otherPipe ∈ s.pipes →
      isClosed s.pipes (some pipe) = false := by
    intro pipe hpipe
    rw [isClosed, Option.any_some, ExtTreeMap.contains_iff_mem.mpr hpipe]
    rfl
  cases state with
  | waitForRead pipe length bufferAddr lengthAddr =>
    rw [VmState.waiting?, hopen pipe hstuck.1] at hclosed
    cases hclosed
  | waitForWrite pipe consumed length bufferAddr lengthAddr =>
    rw [VmState.waiting?, hopen pipe hstuck.1] at hclosed
    cases hclosed
  | _ => cases hclosed

theorem Deadlocked.pairedVms_eq (h : Deadlocked s) : s.pairedVms = [] := by
  apply List.eq_nil_iff_forall_not_mem.mpr
  intro pair hpair
  obtain ⟨hread, hwrite, p, hp, hp', _⟩ := of_mem_pairedVms hpair
  have hstuck := h _ _ hwrite
  cases hstate : pair.2.2 with
  | waitForWrite pipe consumed length bufferAddr lengthAddr =>
    rw [hstate] at hstuck hp
    cases hp
    exact hstuck.2 _ _ hread hp'
  | _ =>
    rw [hstate] at hp
    cases hp

theorem Deadlocked.vmIdToRun_eq (h : Deadlocked s) : vmIdToRun s.states = none :=
  vmIdToRun_eq_none.mpr fun id hid => h id .runnable hid

variable [Memory μ]

/-- Nothing moves in a deadlocked scheduler, and its round says so. -/
theorem Deadlocked.iterate_eq (h : Deadlocked s) (pause : Pause) (limitCycles : ℕ) :
    iterate cap env pause limitCycles s = .err .deadlock s [.iterate limitCycles] := by
  have hio : processIo cap env s = .ok ⟨⟩ s [] := by
    rw [processIo_run, h.closedVms_eq, h.pairedVms_eq]
    rfl
  rw [iterate, emit_bind_run, bind_of_ok hio, after_nil, get_bind_run]
  simp only [h.vmIdToRun_eq, throw_run, Outcome.after, List.append_nil]

/-- When a pass leaves no VM runnable it had nothing to do, and every VM is stuck. -/
theorem Running.deadlocked (h : Running r) (hinv : Invariant r) {r₁ : Scheduler μ κ}
    {l : List (Event μ)} (hio : processIo none env r = .ok ⟨⟩ r₁ l)
    (hnone : vmIdToRun r₁.states = none) : Deadlocked r := by
  obtain ⟨hpass, hclosed, hpaired⟩ := processIo_passes hinv h hio
  have hidle := vmIdToRun_eq_none.mp hnone
  have hclosedNil : r.closedVms = [] := by
    apply List.eq_nil_iff_forall_not_mem.mpr
    intro id hid
    exact hidle id (hclosed id hid)
  have hpairedNil : r.pairedVms = [] := by
    apply List.eq_nil_iff_forall_not_mem.mpr
    intro pair hpair
    exact hidle pair.1.1 (hpaired pair hpair)
  have hselected : r.selectedVms = [] := by
    rw [selectedVms, hclosedNil, hpairedNil]
    rfl
  have hopen : ∀ (id : VmId) (state : VmState) (p : PipeId), r.states[id]? = some state →
      state.waiting? = some p → p.otherPipe ∈ r.pipes := by
    intro id state p hstate hwait
    by_contra hnot
    have hin : id ∈ r.closedVms := by
      refine mem_closedVms.mpr ⟨state, hstate, ?_⟩
      rw [hwait, isClosed, Option.any_some, Bool.not_eq_true', ← Bool.not_eq_true,
        ExtTreeMap.contains_iff_mem]
      exact hnot
    rw [hclosedNil] at hin
    cases hin
  intro id state hstate
  have hallowed := h.allowed id state hstate
  cases state with
  | runnable =>
    have hkept := hpass.states id (by rw [hselected]; simp)
    exact hidle id (hkept.trans hstate)
  | terminated => exact hallowed
  | join target addr => exact hallowed
  | waitForRead pipe length bufferAddr lengthAddr =>
    have hother := hopen id _ pipe hstate rfl
    refine ⟨hother, fun k state' hk hwriting => ?_⟩
    have hreading : VmState.reading? (.waitForRead pipe length bufferAddr lengthAddr) =
        some pipe.otherPipe.otherPipe := by
      rw [PipeId.otherPipe_otherPipe]
      rfl
    exact List.ne_nil_of_mem (h.mem_pairedVms hstate hk hreading hwriting) hpairedNil
  | waitForWrite pipe consumed length bufferAddr lengthAddr =>
    have hother := hopen id _ pipe hstate rfl
    refine ⟨hother, fun k state' hk hreading => ?_⟩
    exact List.ne_nil_of_mem (h.mem_pairedVms hk hstate hreading rfl) hpairedNil

/-- A round of a reachable scheduler whose root has not exited reports a deadlock
exactly when every live VM is stuck. -/
theorem deadlock_exact (env : Env μ κ) {tr : List (Event μ)} {s : Scheduler μ κ}
    (h : Reachable maxInstantiatedVms env tr s) (hroot : s.states[rootVmId]? ≠ some .terminated)
    (pause : Pause) (limitCycles : ℕ) :
    (∃ s' l, iterate maxInstantiatedVms env pause limitCycles s = .err .deadlock s' l) ↔
      Deadlocked s := by
  constructor
  · rintro ⟨s', l, hiterate⟩
    rcases h.driven two_le_maxInstantiatedVms with ⟨rfl, _⟩ | ⟨r, hlinked, hr⟩
    · intro id state hid
      simp [new] at hid
    have hstates := hlinked.same.states
    have hrun : Running r := by
      refine hr.invariant.phase.resolve_right fun hdone => hroot ?_
      rw [hstates, hdone, getElem?_insert, if_pos rfl]
    have hsim := iterate_simulates two_le_maxInstantiatedVms hlinked pause limitCycles
    have hmeets : (iterate none env pause limitCycles r).Meets _ _ _ :=
      iterate_meets hr.invariant hrun pause limitCycles
    rw [hiterate] at hsim
    rcases hsim with herror | ⟨r', hr', _⟩
    · exact absurd (by simp [Error.Reserved]) herror.not_reserved
    rw [hr'] at hmeets
    rcases hmeets with ⟨hinterrupt, _⟩ | hfatal | ⟨_, l₁, hio, hnone⟩
    · simp [Error.Interrupt, Error.deadlock] at hinterrupt
    · exact absurd rfl hfatal.2.2
    · intro id state hid
      rw [hstates] at hid
      exact (hrun.deadlocked hr.invariant hio hnone id state hid).congr hstates hlinked.same.pipes
  · intro hdead
    exact ⟨s, _, hdead.iterate_eq pause limitCycles⟩

/-- A root that reads from its own pipe, to which nobody writes. -/
def selfReadEnv : Env Ram (Cpu Ram) :=
  scriptEnv 0 (pipeImage 3) 0 fun
    | 0 => pipeCall 0x100
    | 1 => readCall 2 0x400 0x500
    | _ => .exit 0

theorem deadlock_exact_selfRead : ∃ tr s, Reachable maxInstantiatedVms selfReadEnv tr s ∧
    s.states[rootVmId]? = some (.waitForRead 2 8 0x400 0x500) ∧ Deadlocked s := by
  obtain ⟨tr, s, h, hs⟩ := exists_reachable maxInstantiatedVms selfReadEnv
    [.boot, .round none 9, .round none 9] (fun _ s =>
      s.states[rootVmId]? == some (.waitForRead 2 8 0x400 0x500) &&
        (iterate maxInstantiatedVms selfReadEnv none 9 s).error?.any fun p => p.1 == .deadlock)
    (by decide +kernel)
  rw [Bool.and_eq_true, beq_iff_eq] at hs
  obtain ⟨hroot, hs⟩ := hs
  obtain ⟨⟨e, l⟩, herror, hdeadlock⟩ := (Option.any_eq_true _ _).mp hs
  obtain ⟨s', hiterate⟩ := (error?_eq_some _ _ _).mp herror
  obtain rfl : e = .deadlock := eq_of_beq hdeadlock
  refine ⟨tr, s, h, hroot, ?_⟩
  exact (deadlock_exact selfReadEnv h (by rw [hroot]; decide) none 9).mp ⟨s', l, hiterate⟩

end DeterministicScheduler.Scheduler
