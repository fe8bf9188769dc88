import DeterministicScheduler.Scheduler
import DeterministicScheduler.Logic.Simulation

/-!
# Which machines are instantiated

Suspending and resuming move machines between two maps. What a scheduler means
by a VM is its `Cpu`, wherever it is held; `SameVms` says that two schedulers
agree on everything but that place. `Stored` is the invariant that makes every
request for machines succeed.
-/
namespace DeterministicScheduler

open ProgramLogic Program Outcome Std

variable {μ κ : Type}

/-- An error that a failing snapshot raised. -/
def SnapshotError (env : Env μ κ) (e : Error) : Prop :=
  ∃ m, env.makeSnapshot m = .error e

theorem SnapshotError.not_reserved {env : Env μ κ} {e : Error} (h : SnapshotError env e) :
    ¬ e.Reserved := by
  obtain ⟨m, hm⟩ := h
  exact env.makeSnapshot_error hm

theorem Library.SnapshotsTotal.no_error {env : Env μ κ} (h : env.SnapshotsTotal) {e : Error} :
    ¬ SnapshotError env e := by
  rintro ⟨m, hm⟩
  obtain ⟨snapshot, hsnapshot⟩ := h m
  cases hm.symm.trans hsnapshot

namespace Scheduler

variable {cap : Option ℕ} {env : Env μ κ} {s t : Scheduler μ κ}

theorem mem_iff_getElem? {α : Type} {m : ExtTreeMap UInt64 α} {k : UInt64} :
    k ∈ m ↔ ∃ x, m[k]? = some x := by
  rw [← ExtTreeMap.contains_iff_mem, ExtTreeMap.contains_eq_isSome_getElem?,
    Option.isSome_iff_exists]

theorem mem_insert {α : Type} {m : ExtTreeMap UInt64 α} {k id : UInt64} {a : α} :
    k ∈ m.insert id a ↔ k = id ∨ k ∈ m := by
  rw [ExtTreeMap.mem_insert, Std.compare_eq_iff_eq, @eq_comm _ id]

theorem mem_insert_of_mem {α : Type} {m : ExtTreeMap UInt64 α} {k id : UInt64} {a : α}
    (hid : id ∈ m) : k ∈ m.insert id a ↔ k ∈ m := by
  rw [mem_insert, or_iff_right_of_imp]
  rintro rfl
  exact hid

theorem mem_erase {α : Type} {m : ExtTreeMap UInt64 α} {k id : UInt64} :
    k ∈ m.erase id ↔ k ≠ id ∧ k ∈ m := by
  rw [ExtTreeMap.mem_erase, Ne, Std.compare_eq_iff_eq, @eq_comm _ id]

theorem getElem?_insert {α : Type} {m : ExtTreeMap UInt64 α} {k id : UInt64} {a : α} :
    (m.insert id a)[k]? = if k = id then some a else m[k]? := by
  rw [ExtTreeMap.getElem?_insert]
  simp only [Std.compare_eq_iff_eq, @eq_comm _ id]

theorem getElem?_erase {α : Type} {m : ExtTreeMap UInt64 α} {k id : UInt64} :
    (m.erase id)[k]? = if k = id then none else m[k]? := by
  rw [ExtTreeMap.getElem?_erase]
  simp only [Std.compare_eq_iff_eq, @eq_comm _ id]

theorem getElem?_filter_key {α : Type} {m : ExtTreeMap UInt64 α} {k id : UInt64} :
    (m.filter fun k _ => k == id)[k]? = if k = id then m[k]? else none := by
  rw [ExtTreeMap.getElem?_filter']
  by_cases hk : k = id
  · cases hm : m[k]? <;> simp [hk]
  · simp [hk]

/-- The core and the cycles of a VM, instantiated or suspended. -/
def cpu? (env : Env μ κ) (s : Scheduler μ κ) (id : VmId) : Option (Cpu μ) :=
  match s.instantiated[id]? with
  | some m => some m.toCpu
  | none => (s.suspended[id]?).bind fun snapshot => (env.resumeSnapshot snapshot).toOption

/-- Every live VM is held in exactly one place, and no more are instantiated than
the bound allows. -/
structure Placement (cap : Option ℕ) (s : Scheduler μ κ) : Prop where
  disjoint : ∀ id, id ∈ s.instantiated → id ∉ s.suspended
  cover : ∀ id, id ∈ s.states ↔ id ∈ s.instantiated ∨ id ∈ s.suspended
  bound : ∀ c, cap = some c → s.instantiated.size ≤ c

/-- Every live VM has exactly one machine or snapshot, within the bound. -/
structure Stored (cap : Option ℕ) (env : Env μ κ) (s : Scheduler μ κ) : Prop where
  disjoint : ∀ id, id ∈ s.instantiated → id ∉ s.suspended
  cover : ∀ id, id ∈ s.states ↔ id ∈ s.instantiated ∨ id ∈ s.suspended
  bound : ∀ c, cap = some c → s.instantiated.size ≤ c
  taken : ∀ (id : VmId) (snapshot : κ), s.suspended[id]? = some snapshot →
    ∃ m, env.makeSnapshot m = .ok snapshot
  version : ∀ id, id ∈ s.states → env.selectVersion = .ok ()

theorem Stored.placement (h : Stored cap env s) : Placement cap s :=
  ⟨h.disjoint, h.cover, h.bound⟩

/-- Agreement on all fields but the two that hold machines, and on every VM. -/
structure SameVms (env : Env μ κ) (s t : Scheduler μ κ) : Prop where
  totalCycles : s.totalCycles = t.totalCycles
  nextVmId : s.nextVmId = t.nextVmId
  nextPipeSlot : s.nextPipeSlot = t.nextPipeSlot
  states : s.states = t.states
  pipes : s.pipes = t.pipes
  terminatedVms : s.terminatedVms = t.terminatedVms
  messageBox : s.messageBox = t.messageBox
  cpu : ∀ id, s.cpu? env id = t.cpu? env id

theorem SameVms.refl (s : Scheduler μ κ) : SameVms env s s := by
  constructor <;> intros <;> rfl

theorem SameVms.symm (h : SameVms env s t) : SameVms env t s where
  totalCycles := h.totalCycles.symm
  nextVmId := h.nextVmId.symm
  nextPipeSlot := h.nextPipeSlot.symm
  states := h.states.symm
  pipes := h.pipes.symm
  terminatedVms := h.terminatedVms.symm
  messageBox := h.messageBox.symm
  cpu id := (h.cpu id).symm

theorem SameVms.trans {u : Scheduler μ κ} (h : SameVms env s t) (h' : SameVms env t u) :
    SameVms env s u where
  totalCycles := h.totalCycles.trans h'.totalCycles
  nextVmId := h.nextVmId.trans h'.nextVmId
  nextPipeSlot := h.nextPipeSlot.trans h'.nextPipeSlot
  states := h.states.trans h'.states
  pipes := h.pipes.trans h'.pipes
  terminatedVms := h.terminatedVms.trans h'.terminatedVms
  messageBox := h.messageBox.trans h'.messageBox
  cpu id := (h.cpu id).trans (h'.cpu id)

theorem cpu?_of_instantiated {id : VmId} {m : Machine μ} (h : s.instantiated[id]? = some m) :
    s.cpu? env id = some m.toCpu := by
  simp [cpu?, h]

/-- The scheduler after a VM is resumed as `cpu`. -/
def resumed (s : Scheduler μ κ) (id : VmId) (cpu : Cpu μ) : Scheduler μ κ :=
  { s with
    instantiated := s.instantiated.insert id { cpu with exitCode := 0 }
    suspended := s.suspended.erase id }

/-- The scheduler after a VM is suspended as `snapshot`. -/
def evicted (s : Scheduler μ κ) (id : VmId) (snapshot : κ) : Scheduler μ κ :=
  { s with
    suspended := s.suspended.insert id snapshot
    instantiated := s.instantiated.erase id }

theorem mem_resumed {id : VmId} {cpu : Cpu μ} {k : VmId} :
    k ∈ (s.resumed id cpu).instantiated ↔ k = id ∨ k ∈ s.instantiated := by
  simp [resumed, @eq_comm _ k]

theorem mem_evicted {id : VmId} {snapshot : κ} {k : VmId} :
    k ∈ (s.evicted id snapshot).instantiated ↔ k ≠ id ∧ k ∈ s.instantiated := by
  simp [evicted, @eq_comm _ k]

/-- A suspended VM that a machine can be made of. -/
def CanResume (env : Env μ κ) (s : Scheduler μ κ) (id : VmId) : Prop :=
  ∃ snapshot cpu, s.suspended[id]? = some snapshot ∧ env.selectVersion = .ok () ∧
    env.resumeSnapshot snapshot = .ok cpu

theorem CanResume.suspended {id : VmId} (h : CanResume env s id) : id ∈ s.suspended := by
  obtain ⟨snapshot, _, hsnapshot, _⟩ := h
  exact mem_iff_getElem?.mpr ⟨snapshot, hsnapshot⟩

/-- A suspended VM of a well-stored scheduler can be resumed. -/
theorem Stored.canResume (h : Stored cap env s) {id : VmId} (hid : id ∈ s.suspended) :
    CanResume env s id := by
  obtain ⟨snapshot, hsnapshot⟩ := mem_iff_getElem?.mp hid
  obtain ⟨cpu, hmake⟩ := h.taken id snapshot hsnapshot
  have hversion := h.version id ((h.cover id).mpr (Or.inr hid))
  exact ⟨snapshot, cpu, hsnapshot, hversion, env.resume_make trivial hmake⟩

theorem resumeVm_run {id : VmId} {snapshot : κ} {cpu : Cpu μ}
    (hsnapshot : s.suspended[id]? = some snapshot) (hversion : env.selectVersion = .ok ())
    (hresume : env.resumeSnapshot snapshot = .ok cpu) :
    resumeVm env id s = .ok ⟨⟩ (s.resumed id cpu) [] := by
  simp [resumeVm, hsnapshot, createDummyVm, hversion, hresume, resumed]

theorem Placement.resumed (h : Placement cap s) {id : VmId} (cpu : Cpu μ)
    (hid : id ∈ s.suspended) (hroom : ∀ c, cap = some c → s.instantiated.size < c) :
    Placement cap (s.resumed id cpu) := by
  constructor
  · intro k hk
    simp only [Scheduler.resumed, ExtTreeMap.mem_erase, not_and]
    rcases mem_resumed.mp hk with rfl | hk
    · simp
    · exact fun _ => h.disjoint k hk
  · intro k
    rw [mem_resumed]
    simp only [Scheduler.resumed, ExtTreeMap.mem_erase, h.cover k]
    by_cases hk : k = id
    · subst k; simp [hid]
    · simp [hk, Ne.symm hk]
  · intro c hc
    have := hroom c hc
    simp only [Scheduler.resumed, ExtTreeMap.size_insert]
    split <;> omega

theorem Stored.resumed (h : Stored cap env s) {id : VmId} (cpu : Cpu μ)
    (hid : id ∈ s.suspended) (hroom : ∀ c, cap = some c → s.instantiated.size < c) :
    Stored cap env (s.resumed id cpu) := by
  obtain ⟨hdisjoint, hcover, hbound⟩ := h.placement.resumed cpu hid hroom
  refine ⟨hdisjoint, hcover, hbound, ?_, h.version⟩
  intro k snapshot hk
  simp only [Scheduler.resumed, ExtTreeMap.getElem?_erase] at hk
  split at hk
  · contradiction
  · exact h.taken k snapshot hk

theorem SameVms.resumed {id : VmId} {cpu : Cpu μ} (hcpu : s.cpu? env id = some cpu) :
    SameVms env s (s.resumed id cpu) := by
  constructor <;> try rfl
  intro k
  by_cases hk : id = k
  · subst k
    rw [hcpu]
    simp [cpu?, Scheduler.resumed]
  · simp [cpu?, Scheduler.resumed, ExtTreeMap.getElem?_insert, ExtTreeMap.getElem?_erase, hk]

/-- Suspending an instantiated VM succeeds unless the snapshot fails. -/
theorem suspendVm_run (env : Env μ κ) {id : VmId} {m : Machine μ}
    (hm : s.instantiated[id]? = some m) :
    (∃ e, env.makeSnapshot m.toCpu = .error e ∧ suspendVm env id s = .err e s []) ∨
    ∃ snapshot, env.makeSnapshot m.toCpu = .ok snapshot ∧
      suspendVm env id s = .ok ⟨⟩ (s.evicted id snapshot) [] := by
  cases hmake : env.makeSnapshot m.toCpu with
  | error e => exact Or.inl ⟨e, rfl, by simp [suspendVm, hm, hmake]⟩
  | ok snapshot => exact Or.inr ⟨snapshot, rfl, by simp [suspendVm, hm, hmake, evicted]⟩

theorem Placement.evicted (h : Placement cap s) {id : VmId} {snapshot : κ}
    (hid : id ∈ s.instantiated) : Placement cap (s.evicted id snapshot) := by
  constructor
  · intro k hk
    rw [mem_evicted] at hk
    simp only [Scheduler.evicted, ExtTreeMap.mem_insert, Std.compare_eq_iff_eq, not_or]
    exact ⟨Ne.symm hk.1, h.disjoint k hk.2⟩
  · intro k
    rw [mem_evicted]
    simp only [Scheduler.evicted, ExtTreeMap.mem_insert, Std.compare_eq_iff_eq, h.cover k]
    by_cases hk : k = id
    · subst k; simp [hid]
    · simp [hk, Ne.symm hk]
  · intro c hc
    have hle : (s.evicted id snapshot).instantiated.size ≤ s.instantiated.size :=
      ExtTreeMap.size_erase_le
    exact hle.trans (h.bound c hc)

theorem Stored.evicted (h : Stored cap env s) {id : VmId} {m : Machine μ} {snapshot : κ}
    (hm : s.instantiated[id]? = some m) (hmake : env.makeSnapshot m.toCpu = .ok snapshot) :
    Stored cap env (s.evicted id snapshot) := by
  obtain ⟨hdisjoint, hcover, hbound⟩ :=
    h.placement.evicted (mem_iff_getElem?.mpr ⟨m, hm⟩)
  refine ⟨hdisjoint, hcover, hbound, ?_, h.version⟩
  intro k snapshot' hk
  simp only [Scheduler.evicted, ExtTreeMap.getElem?_insert, Std.compare_eq_iff_eq] at hk
  split at hk
  · simp only [Option.some.injEq] at hk
    exact ⟨m.toCpu, by rw [← hk, hmake]⟩
  · exact h.taken k snapshot' hk

theorem size_evicted {id : VmId} (snapshot : κ) (hid : id ∈ s.instantiated) :
    (s.evicted id snapshot).instantiated.size + 1 = s.instantiated.size := by
  have hpos : s.instantiated.size ≠ 0 := by
    rw [Ne, ← ExtTreeMap.eq_empty_iff_size_eq_zero]
    rintro hempty
    simp [hempty] at hid
  simp only [Scheduler.evicted, ExtTreeMap.size_erase, ExtTreeMap.contains_iff_mem, hid, if_true]
  omega

theorem SameVms.evicted {id : VmId} {m : Machine μ} {snapshot : κ}
    (hm : s.instantiated[id]? = some m) (hmake : env.makeSnapshot m.toCpu = .ok snapshot) :
    SameVms env s (s.evicted id snapshot) := by
  constructor <;> try rfl
  intro k
  by_cases hk : id = k
  · subst k
    simp [cpu?, Scheduler.evicted, hm, env.resume_make trivial hmake, Except.toOption]
  · simp [cpu?, Scheduler.evicted, ExtTreeMap.getElem?_insert, ExtTreeMap.getElem?_erase, hk]

end Scheduler

end DeterministicScheduler
