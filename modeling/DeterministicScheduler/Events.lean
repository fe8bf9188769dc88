import DeterministicScheduler.Scheduler

/-!
# What an event does to a machine

Between two executions a scheduler changes a machine through four kinds of
access. Each is logged as it is carried out, and the event alone determines the
change: the functions of the scheduler are one function of their event.
-/
namespace DeterministicScheduler

open ProgramLogic Program Outcome Std

variable {μ κ : Type}

namespace Event

/-- The VM whose machine an event changes. -/
def target : Event μ → Option VmId
  | store8 id _ _ | store64 id _ _ | storeBytes id _ _ | setA0 id _ => some id
  | _ => none

/-- The VM that an event runs. -/
def runs : Event μ → Option VmId
  | exec id _ _ _ _ => some id
  | _ => none

/-- The limit that a round starts with. -/
def limit? : Event μ → Option ℕ
  | iterate limitCycles => some limitCycles
  | _ => none

/-- An event inside a round, other than its execution. -/
def Inner (ev : Event μ) : Prop :=
  ev.limit? = none ∧ ev.runs = none

/-- Whether an event is one of the accesses and transfers of a scheduler, which
run no machine and answer no message. -/
def quiet : Event μ → Bool
  | store8 _ _ _ | store64 _ _ _ | storeBytes _ _ _ | setA0 _ _ | transfer _ _ _ _ => true
  | _ => false

variable [Memory μ]

/-- What an event does to the core of its target. -/
def update : Event μ → Core μ → Except Error (Core μ)
  | store8 _ addr value, c =>
    (Memory.store8 c.memory addr value).map fun memory => { c with memory }
  | store64 _ addr value, c =>
    (Memory.store64 c.memory addr value).map fun memory => { c with memory }
  | storeBytes _ addr data, c =>
    (Memory.storeBytes c.memory addr data).map fun memory => { c with memory }
  | setA0 _ value, c => .ok (c.setRegister A0 value)
  | _, c => .ok c

/-- A failing access is a failing store, so the scheduler reserves no such error. -/
theorem update_error {ev : Event μ} {c : Core μ} {e : Error} (h : ev.update c = .error e) :
    ¬ e.Reserved := by
  have hmap {α β : Type} {x : Except Error α} {f : α → β} (hx : x.map f = .error e) :
      x = .error e := by
    cases x with
    | error e' => rw [Except.error.inj hx]
    | ok a => cases hx
  cases ev with
  | store8 id addr value => exact Memory.store8_error (hmap h)
  | store64 id addr value => exact Memory.store64_error (hmap h)
  | storeBytes id addr data => exact Memory.storeBytes_error (hmap h)
  | _ => cases h

end Event

namespace Scheduler

variable [Memory μ] {s : Scheduler μ κ} {id : VmId} {ev : Event μ} {m : Machine μ}

/-- Carry out an event on an instantiated machine. -/
def access (id : VmId) (ev : Event μ) : SchedulerM μ κ Unit := do
  let m ← machine id
  let core ← ofExcept (ev.update m.toCore)
  emit ev
  setMachine id { m with toCore := core }

omit [Memory μ] in
theorem machine_run (h : s.instantiated[id]? = some m) :
    (machine id : SchedulerM μ κ (Machine μ)) s = .ok m s [] := by
  simp only [machine, get_bind_run, h, unwrap_some, pure_run]

omit [Memory μ] in
theorem machine_panic (h : s.instantiated[id]? = none) :
    (machine id : SchedulerM μ κ (Machine μ)) s = .panic := by
  simp only [machine, get_bind_run, h, unwrap_none, crash_run]

theorem access_panic (h : s.instantiated[id]? = none) :
    (access id ev : SchedulerM μ κ Unit) s = .panic := by
  rw [access, bind_of_panic (machine_panic h)]

theorem access_error {e : Error} (h : s.instantiated[id]? = some m)
    (hupdate : ev.update m.toCore = .error e) :
    (access id ev : SchedulerM μ κ Unit) s = .err e s [] := by
  rw [access, bind_of_ok (machine_run h), hupdate]
  rfl

theorem access_run {core : Core μ} (h : s.instantiated[id]? = some m)
    (hupdate : ev.update m.toCore = .ok core) :
    (access id ev : SchedulerM μ κ Unit) s =
      .ok ⟨⟩ { s with instantiated := s.instantiated.insert id { m with toCore := core } }
        [ev] := by
  rw [access, bind_of_ok (machine_run h), hupdate]
  rfl

theorem setA0_eq (value : UInt64) :
    (setA0 id value : SchedulerM μ κ Unit) = access id (.setA0 id value) := by
  funext s
  cases h : s.instantiated[id]? with
  | none => rw [access_panic h, setA0, bind_of_panic (machine_panic h)]
  | some m => rw [access_run h rfl, setA0, bind_of_ok (machine_run h)]; rfl

theorem store8_eq (addr value : UInt64) :
    (store8 id addr value : SchedulerM μ κ Unit) = access id (.store8 id addr value) := by
  funext s
  cases h : s.instantiated[id]? with
  | none => rw [access_panic h, store8, bind_of_panic (machine_panic h)]
  | some m =>
    rw [access, store8, bind_of_ok (machine_run h), bind_of_ok (machine_run h)]
    simp only [Event.update]
    cases Memory.store8 m.memory addr value <;> rfl

theorem store64_eq (addr value : UInt64) :
    (store64 id addr value : SchedulerM μ κ Unit) = access id (.store64 id addr value) := by
  funext s
  cases h : s.instantiated[id]? with
  | none => rw [access_panic h, store64, bind_of_panic (machine_panic h)]
  | some m =>
    rw [access, store64, bind_of_ok (machine_run h), bind_of_ok (machine_run h)]
    simp only [Event.update]
    cases Memory.store64 m.memory addr value <;> rfl

theorem storeBytes_eq (addr : UInt64) (data : Bytes) :
    (storeBytes id addr data : SchedulerM μ κ Unit) = access id (.storeBytes id addr data) := by
  funext s
  cases h : s.instantiated[id]? with
  | none => rw [access_panic h, storeBytes, bind_of_panic (machine_panic h)]
  | some m =>
    rw [access, storeBytes, bind_of_ok (machine_run h), bind_of_ok (machine_run h)]
    simp only [Event.update]
    cases Memory.storeBytes m.memory addr data <;> rfl

end Scheduler

end DeterministicScheduler
