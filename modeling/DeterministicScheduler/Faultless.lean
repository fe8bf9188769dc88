import DeterministicScheduler.Rounds

/-!
# What cannot fail

Where no access to a memory faults, the reference answers a call, finishes reads and writes and
ends a VM without an error.
-/
namespace DeterministicScheduler

open ProgramLogic Program Outcome

variable {μ κ α β : Type} [Memory μ]

/-- A memory on which every access succeeds. -/
class TotalMemory (μ : Type) [Memory μ] : Prop where
  loadBytes (m : μ) (addr size : UInt64) : ∃ data, Memory.loadBytes m addr size = .ok data
  store8 (m : μ) (addr value : UInt64) : ∃ m', Memory.store8 m addr value = .ok m'
  store64 (m : μ) (addr value : UInt64) : ∃ m', Memory.store64 m addr value = .ok m'
  storeBytes (m : μ) (addr : UInt64) (data : Bytes) :
    ∃ m', Memory.storeBytes m addr data = .ok m'

theorem Event.update_total [TotalMemory μ] (ev : Event μ) (c : Core μ) :
    ∃ c', ev.update c = .ok c' := by
  cases ev with
  | store8 id addr value =>
    obtain ⟨m', h⟩ := TotalMemory.store8 c.memory addr value
    exact ⟨_, by rw [Event.update, h]; rfl⟩
  | store64 id addr value =>
    obtain ⟨m', h⟩ := TotalMemory.store64 c.memory addr value
    exact ⟨_, by rw [Event.update, h]; rfl⟩
  | storeBytes id addr data =>
    obtain ⟨m', h⟩ := TotalMemory.storeBytes c.memory addr data
    exact ⟨_, by rw [Event.update, h]; rfl⟩
  | _ => exact ⟨_, rfl⟩

namespace Scheduler

variable {Q : VmId → Prop}

/-- A program that does not fail where the VMs of `Q` are instantiated, and that leaves them
instantiated. -/
def Faultless (Q : VmId → Prop) (x : SchedulerM μ κ α) : Prop :=
  ∀ s : Scheduler μ κ, (∀ k, Q k → k ∈ s.instantiated) →
    (x s).Meets (fun _ s' _ => ∀ k, Q k → k ∈ s'.instantiated) (fun _ _ _ => False) True

omit [Memory μ] in
theorem Faultless.not_err {x : SchedulerM μ κ α} (h : Faultless Q x) {s s' : Scheduler μ κ}
    {e : Error} {l : List (Event μ)} (hs : ∀ k, Q k → k ∈ s.instantiated) :
    x s ≠ .err e s' l := by
  intro hx
  have hmeets := h s hs
  rw [hx] at hmeets
  exact hmeets

section Rules

variable {x y : SchedulerM μ κ α} {f : α → SchedulerM μ κ β}

omit [Memory μ]

theorem faultless_pure (a : α) : Faultless Q (pure a : SchedulerM μ κ α) := fun _ hs => hs

theorem faultless_crash : Faultless Q (crash : SchedulerM μ κ α) := fun _ _ => trivial

theorem faultless_emit (ev : Event μ) : Faultless Q (emit ev : SchedulerM μ κ Unit) :=
  fun _ hs => hs

theorem faultless_unwrap (a : Option α) : Faultless Q (unwrap a : SchedulerM μ κ α) := by
  cases a with
  | none => exact faultless_crash
  | some a => exact faultless_pure a

theorem faultless_ofExcept {a : Except Error α} (ha : ∃ b, a = .ok b) :
    Faultless Q (ofExcept a : SchedulerM μ κ α) := by
  obtain ⟨b, rfl⟩ := ha
  exact faultless_pure b

theorem faultless_modify {g : Scheduler μ κ → Scheduler μ κ}
    (hg : ∀ (s : Scheduler μ κ) (k : VmId), k ∈ s.instantiated → k ∈ (g s).instantiated) :
    Faultless Q (modify g : SchedulerM μ κ Unit) :=
  fun s hs k hk => hg s k (hs k hk)

theorem faultless_setState (id : VmId) (state : VmState) :
    Faultless Q (setState id state : SchedulerM μ κ Unit) :=
  faultless_modify fun _ _ h => h

theorem faultless_bind (hx : Faultless Q x) (hf : ∀ a, Faultless Q (f a)) :
    Faultless Q (x >>= f) := by
  intro s hs
  have hfirst := hx s hs
  rw [bind_run]
  cases ho : x s with
  | panic => trivial
  | err e s' l =>
    rw [ho] at hfirst
    exact hfirst
  | ok a s' l =>
    rw [ho] at hfirst
    exact Meets.after (hf a s' hfirst)

theorem faultless_get_bind {f : Scheduler μ κ → SchedulerM μ κ β}
    (hf : ∀ s, Faultless Q (f s)) : Faultless Q (get >>= f) := by
  intro s hs
  rw [get_bind_run]
  exact hf s s hs

theorem faultless_ofExcept_bind {a : Except Error α} {b : α} (ha : a = .ok b)
    (hf : Faultless Q (f b)) : Faultless Q (ofExcept a >>= f) := by
  subst ha
  intro s hs
  have hrun : (ofExcept (.ok b) >>= f) s = f b s := by
    rw [ofExcept_ok, pure_bind_run]
  rw [hrun]
  exact hf s hs

theorem faultless_ite {p : Prop} [Decidable p] (hx : Faultless Q x) (hy : Faultless Q y) :
    Faultless Q (if p then x else y) := by
  split
  · exact hx
  · exact hy

theorem faultless_forM {f : α → SchedulerM μ κ PUnit} {xs : List α}
    (hf : ∀ a ∈ xs, Faultless Q (f a)) : Faultless Q (xs.forM f) := by
  induction xs with
  | nil => exact faultless_pure _
  | cons x xs ih =>
    rw [forM_cons]
    exact faultless_bind (hf x (by simp)) fun _ => ih fun a ha => hf a (by simp [ha])

/-- There is room for all VMs in the reference. -/
theorem faultless_ensure (env : Env μ κ) {ids : List VmId} (hids : ∀ id ∈ ids, Q id) :
    Faultless Q (ensureVmsInstantiated none env ids) := by
  intro s hs
  rw [ensureVmsInstantiated_noop (fun id hid => hs id (hids id hid)) (by simp)]
  exact hs

end Rules

section Parts

variable [TotalMemory μ] {env : Env μ κ} {id : VmId}

theorem faultless_access (id : VmId) (ev : Event μ) :
    Faultless Q (access id ev : SchedulerM μ κ Unit) := by
  refine faultless_bind (faultless_get_bind fun _ => faultless_unwrap _) fun m => ?_
  refine faultless_bind (faultless_ofExcept (ev.update_total m.toCore)) fun core => ?_
  refine faultless_bind (faultless_emit ev) fun _ => faultless_modify ?_
  exact fun s k hk => mem_insert.mpr (.inr hk)

theorem faultless_setA0 (id : VmId) (value : UInt64) :
    Faultless Q (setA0 id value : SchedulerM μ κ Unit) := by
  rw [setA0_eq]
  exact faultless_access id _

theorem faultless_store8 (id : VmId) (addr value : UInt64) :
    Faultless Q (store8 id addr value : SchedulerM μ κ Unit) := by
  rw [store8_eq]
  exact faultless_access id _

theorem faultless_store64 (id : VmId) (addr value : UInt64) :
    Faultless Q (store64 id addr value : SchedulerM μ κ Unit) := by
  rw [store64_eq]
  exact faultless_access id _

theorem faultless_storeBytes (id : VmId) (addr : UInt64) (data : Bytes) :
    Faultless Q (storeBytes id addr data : SchedulerM μ κ Unit) := by
  rw [storeBytes_eq]
  exact faultless_access id _

theorem faultless_rejectCall (code : UInt64) (hid : Q id) :
    Faultless Q (rejectCall none env id code) :=
  faultless_bind (faultless_ensure env (by simpa using hid)) fun _ => faultless_setA0 _ _

theorem faultless_finishJoin (exitCodeAddr : UInt64) (code : Int8) (hid : Q id) :
    Faultless Q (finishJoin none env id exitCodeAddr code) := by
  refine faultless_bind (faultless_ensure env (by simpa using hid)) fun _ => ?_
  refine faultless_bind (faultless_store8 _ _ _) fun _ => ?_
  exact faultless_bind (faultless_setA0 _ _) fun _ => faultless_setState _ _

omit [TotalMemory μ] [Memory μ] in
theorem faultless_blockVm (state : VmState) :
    Faultless Q (blockVm id state : SchedulerM μ κ Unit) :=
  faultless_bind (faultless_emit _) fun _ => faultless_setState _ _

theorem faultless_processPipeIo (pipe : PipeId) (waiting : VmState) (hid : Q id) :
    Faultless Q (processPipeIo none env id pipe waiting) := by
  refine faultless_get_bind fun s => faultless_ite (faultless_rejectCall _ hid) ?_
  exact faultless_ite (faultless_rejectCall _ hid) (faultless_blockVm _)

theorem faultless_processJoin (args : JoinArgs) (hid : Q id) :
    Faultless Q (processJoin none env id args) := by
  refine faultless_get_bind fun s => ?_
  cases s.terminatedVms[args.targetId]? with
  | some code => exact faultless_finishJoin _ _ hid
  | none => exact faultless_ite (faultless_blockVm _) (faultless_rejectCall _ hid)

theorem faultless_processPipe (args : PipeArgs) (hid : Q id) :
    Faultless Q (processPipe none env id args) := by
  refine faultless_get_bind fun s => faultless_bind (faultless_unwrap _) fun created => ?_
  refine faultless_bind (faultless_modify fun _ _ h => h) fun _ => ?_
  refine faultless_bind (faultless_ensure env (by simpa using hid)) fun _ => ?_
  refine faultless_bind (faultless_store64 _ _ _) fun _ => ?_
  exact faultless_bind (faultless_store64 _ _ _) fun _ => faultless_setA0 _ _

omit [TotalMemory μ] [Memory μ] in
theorem evictUntilRoom_none (env : Env μ κ) (fuel : ℕ) (s : Scheduler μ κ) :
    evictUntilRoom none env fuel s = .ok ⟨⟩ s [] := by
  cases fuel with
  | zero => rfl
  | succ fuel =>
    rw [evictUntilRoom, get_bind_run]
    rfl

omit [TotalMemory μ] [Memory μ] in
/-- A VM is booted where a version is selected and its program loads. -/
theorem faultless_bootVm {args : SpawnArgs} {charge : ℕ} {machine : Machine μ}
    (hversion : env.selectVersion = .ok ()) (hboot : Boots env args charge machine) :
    Faultless Q (bootVm none env args.dataPieceId args.offset args.length args.argv) := by
  obtain ⟨program, length, core, bytes, hload, hprogram, -, -⟩ := hboot
  have hevict : ∀ fuel, Faultless Q (evictUntilRoom none env fuel) := by
    intro fuel s hs
    rw [evictUntilRoom_none]
    exact hs
  have hdummy : Faultless Q (createDummyVm env : SchedulerM μ κ Unit) := by
    unfold createDummyVm
    rw [hversion]
    exact faultless_pure _
  refine faultless_get_bind fun s => faultless_bind (hevict _) fun _ => ?_
  refine faultless_get_bind fun s => faultless_bind (faultless_unwrap _) fun nextVmId => ?_
  refine faultless_bind (faultless_modify fun _ _ h => h) fun _ => ?_
  refine faultless_bind hdummy fun _ => ?_
  refine faultless_ofExcept_bind hload (faultless_ofExcept_bind hprogram ?_)
  refine faultless_bind (faultless_emit _) fun _ => ?_
  exact faultless_bind (faultless_modify fun s k hk => mem_insert.mpr (.inr hk)) fun _ =>
    faultless_pure _

omit env in
theorem faultless_finishClosed (id : VmId) :
    Faultless Q (finishClosed id : SchedulerM μ κ Unit) := by
  refine faultless_get_bind fun s => faultless_bind (faultless_unwrap _) fun state => ?_
  cases state with
  | waitForRead pipe length bufferAddr lengthAddr =>
    refine faultless_bind (faultless_store64 _ _ _) fun _ => ?_
    exact faultless_bind (faultless_setA0 _ _) fun _ => faultless_setState _ _
  | waitForWrite pipe consumed length bufferAddr lengthAddr =>
    refine faultless_bind (faultless_store64 _ _ _) fun _ => ?_
    exact faultless_bind (faultless_setA0 _ _) fun _ => faultless_setState _ _
  | _ => exact faultless_pure _

theorem faultless_transferPair {pair : (VmId × VmState) × (VmId × VmState)}
    (hread : Q pair.1.1) (hwrite : Q pair.2.1) : Faultless Q (transferPair none env pair) := by
  obtain ⟨⟨readVmId, readState⟩, ⟨writeVmId, writeState⟩⟩ := pair
  cases readState with
  | waitForRead readPipe readLength readBufferAddr readLengthAddr =>
    cases writeState with
    | waitForWrite writePipe consumed writeLength writeBufferAddr writeLengthAddr =>
      refine faultless_bind (faultless_ensure env (by simpa using ⟨hread, hwrite⟩)) fun _ => ?_
      refine faultless_bind (faultless_unwrap _) fun _ => ?_
      refine faultless_bind (faultless_bind (faultless_get_bind fun _ => faultless_unwrap _)
        fun m => faultless_ofExcept (TotalMemory.loadBytes _ _ _)) fun _ => ?_
      refine faultless_bind (faultless_storeBytes _ _ _) fun _ => ?_
      refine faultless_bind (faultless_emit _) fun _ => ?_
      refine faultless_bind (faultless_store64 _ _ _) fun _ => ?_
      refine faultless_bind (faultless_setA0 _ _) fun _ => ?_
      refine faultless_bind (faultless_setState _ _) fun _ =>
        faultless_ite ?_ (faultless_setState _ _)
      refine faultless_bind (faultless_store64 _ _ _) fun _ => ?_
      exact faultless_bind (faultless_setA0 _ _) fun _ => faultless_setState _ _
    | _ => exact faultless_crash
  | _ => exact faultless_crash

variable {s s' : Scheduler μ κ} {e : Error} {l : List (Event μ)}

/-- A pass over the pipes does not fail. -/
theorem processIo_not_err (hres : Resident s) : processIo none env s ≠ .err e s' l := by
  rw [processIo_run]
  have hclosed : Faultless (· ∈ s.states) (s.closedVms.forM finishClosed : SchedulerM μ κ Unit) :=
    faultless_forM fun id _ => faultless_finishClosed id
  have hpaired : Faultless (· ∈ s.states) (s.pairedVms.forM (transferPair none env)) := by
    refine faultless_forM fun pair hpair => ?_
    obtain ⟨hread, hwrite, -⟩ := of_mem_pairedVms hpair
    exact faultless_transferPair (mem_iff_getElem?.mpr ⟨_, hread⟩)
      (mem_iff_getElem?.mpr ⟨_, hwrite⟩)
  have hpass : Faultless (· ∈ s.states) (passInOrder none env s.closedVms s.pairedVms) :=
    faultless_bind hclosed fun _ => hpaired
  exact hpass.not_err fun k hk => (hres.cover k).mp hk

/-- A spawn does not fail, when it has a program to load and passes pipes of its VM only. -/
theorem processSpawn_not_err {args : SpawnArgs} {charge : ℕ} {machine : Machine μ}
    (hid : id ∈ s.instantiated) (hversion : env.selectVersion = .ok ())
    (hboot : Boots env args charge machine) (howns : s.firstForeignPipe id args.pipes = none) :
    processSpawn none env id args s ≠ .err e s' l := by
  have hmeets : (processSpawn none env id args s).Meets
      (fun _ s' _ => ∀ k, k = id → k ∈ s'.instantiated) (fun _ _ _ => False) True := by
    rw [processSpawn, get_bind_run, howns]
    refine faultless_bind (faultless_bootVm hversion hboot) (fun _ => ?_) s fun k hk => hk ▸ hid
    refine faultless_bind (faultless_modify fun _ _ h => h) fun _ => ?_
    refine faultless_bind (faultless_ensure env (by simp)) fun _ => ?_
    exact faultless_bind (faultless_store64 _ _ _) fun _ => faultless_setA0 _ _
  intro h
  rw [h] at hmeets
  exact hmeets

/-- The answer to a call does not fail, when a spawn does not. -/
theorem processMessage_not_err {msg : Message} (hid : msg.vmId ∈ s.instantiated)
    (hspawn : ∀ v args, msg = .spawn v args → s.firstForeignPipe v args.pipes = none ∧
      env.selectVersion = .ok () ∧ ∃ charge machine, Boots env args charge machine) :
    processMessage none env msg s ≠ .err e s' l := by
  intro h
  have hone : ∀ k, k = msg.vmId → k ∈ s.instantiated := fun k hk => hk ▸ hid
  simp only [processMessage, emit_bind_run, after_eq_err] at h
  obtain ⟨l', h, -⟩ := h
  cases msg with
  | spawn v args =>
    obtain ⟨howns, hversion, charge, machine, hboot⟩ := hspawn v args rfl
    exact processSpawn_not_err hid hversion hboot howns h
  | join v args => exact (faultless_processJoin (Q := (· = v)) args rfl).not_err hone h
  | pipe v args => exact (faultless_processPipe (Q := (· = v)) args rfl).not_err hone h
  | pipeRead v args => exact (faultless_processPipeIo (Q := (· = v)) _ _ rfl).not_err hone h
  | pipeWrite v args => exact (faultless_processPipeIo (Q := (· = v)) _ _ rfl).not_err hone h

/-- The end of a VM does not fail. -/
theorem terminateVm_not_err {code : Int8} (hres : Resident s) (hid : id ∈ s.states) :
    terminateVm none env id code s ≠ .err e s' l := by
  intro h
  have hres' : Resident { s with terminatedVms := s.terminatedVms.insert id code } :=
    ⟨hres.suspended, hres.cover, hres.fresh⟩
  simp only [terminateVm, modify_bind_run] at h
  split at h
  · rw [hres'.ensure_bind (by simpa using hid)] at h
    cases h
  · have hjoin : Faultless (· ∈ s.states)
        ((joiningVms s.states id).forM fun p => finishJoin none env p.1 p.2 code) := by
      refine faultless_forM fun p hp => faultless_finishJoin _ _ ?_
      exact mem_iff_getElem?.mpr ⟨_, mem_joiningVms.mp hp⟩
    rw [get_bind_run] at h
    rcases bind_eq_err.mp h with h | ⟨_, s₁, l₁, l₂, _, h, _⟩
    · exact hjoin.not_err (fun k hk => (hres'.cover k).mp hk) h
    · cases h

end Parts

end Scheduler

end DeterministicScheduler
