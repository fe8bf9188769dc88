import DeterministicScheduler.PageTracking
import DeterministicScheduler.Reachability

/-!
# A scheduler and its twin with exact snapshots

The twin of a scheduler runs on the same transaction, with snapshots that are the machines
themselves. While memories mirror the transaction, what a snapshot restores is what its
twin holds, and the two take every step together.
-/
namespace DeterministicScheduler.Scheduler

open ProgramLogic Program Outcome Std

variable {μ κ : Type} {Mirrors : TxData → μ → Prop} {cap : Option ℕ} {env : Library Mirrors κ}
  {s : Scheduler μ κ} {t : Scheduler μ (Cpu μ)} {α : Type}

/-- A scheduler and one with exact snapshots that agree on everything else, where each
snapshot restores the machine of the twin and every memory mirrors the transaction. -/
structure Twins (env : Library Mirrors κ) (s : Scheduler μ κ) (t : Scheduler μ (Cpu μ)) :
    Prop where
  totalCycles : s.totalCycles = t.totalCycles
  nextVmId : s.nextVmId = t.nextVmId
  nextPipeSlot : s.nextPipeSlot = t.nextPipeSlot
  states : s.states = t.states
  pipes : s.pipes = t.pipes
  instantiated : s.instantiated = t.instantiated
  terminatedVms : s.terminatedVms = t.terminatedVms
  messageBox : s.messageBox = t.messageBox
  restored : ∀ id : VmId, (s.suspended[id]?).map env.resumeSnapshot = (t.suspended[id]?).map .ok
  mirrored : ∀ (id : VmId) m, t.instantiated[id]? = some m → Mirrors env.txData m.memory
  saved : ∀ (id : VmId) m, t.suspended[id]? = some m → Mirrors env.txData m.memory

theorem Twins.new : Twins env (Scheduler.new : Scheduler μ κ) Scheduler.new := by
  constructor <;> simp [Scheduler.new]

/-- Two programs that end alike on twins and leave twins. -/
abbrev InStep (env : Library Mirrors κ) (x : SchedulerM μ κ α) (y : SchedulerM μ (Cpu μ) α) :
    Prop :=
  Lockstep (fun _ : Error => False) (Twins env) x y

theorem Twins.setMachine (h : Twins env s t) (id : VmId) {m : Machine μ}
    (hm : Mirrors env.txData m.memory) :
    Twins env { s with instantiated := s.instantiated.insert id m }
      { t with instantiated := t.instantiated.insert id m } := by
  refine { h with instantiated := ?_, mirrored := ?_ }
  · rw [h.instantiated]
  · intro k n hk
    rw [getElem?_insert] at hk
    split at hk
    · cases hk
      exact hm
    · exact h.mirrored k n hk

theorem inStep_setState (id : VmId) (state : VmState) :
    InStep env (setState id state) (setState id state) := by
  refine lockstep_modify fun s t h => { h with states := ?_ }
  rw [h.states]

theorem inStep_blockVm (id : VmId) (state : VmState) :
    InStep env (blockVm id state) (blockVm id state) :=
  lockstep_bind (lockstep_emit _) fun _ => inStep_setState id state

theorem inStep_createDummyVm : InStep env (createDummyVm env) (createDummyVm env.exact) := by
  rw [createDummyVm, createDummyVm, Library.exact_selectVersion]
  cases env.selectVersion with
  | error e => exact lockstep_throw _
  | ok _ => exact lockstep_pure _

/-- A snapshot restores the machine that the twin holds. -/
theorem inStep_resumeVm (id : VmId) : InStep env (resumeVm env id) (resumeVm env.exact id) := by
  intro s t h
  have hrestored := h.restored id
  simp only [resumeVm, get_bind_run]
  cases hs : s.suspended[id]? with
  | none =>
    rw [hs, Option.map_none, eq_comm, Option.map_eq_none_iff] at hrestored
    rw [hrestored]
    exact Or.inr ⟨t, rfl, h⟩
  | some snapshot =>
    rw [hs, Option.map_some, eq_comm, Option.map_eq_some_iff] at hrestored
    obtain ⟨cpu, ht, hcpu⟩ := hrestored
    rw [ht]
    simp only [createDummyVm, Library.exact_selectVersion]
    cases env.selectVersion with
    | error e => exact Or.inr ⟨t, rfl, h⟩
    | ok _ =>
      simp only [pure_bind_run, ← hcpu, Library.exact_resumeSnapshot, ofExcept_ok, modify_run]
      have hset := h.setMachine id (m := { cpu with exitCode := 0 }) (h.saved id cpu ht)
      refine ⟨_, rfl, { hset with restored := ?_, saved := ?_ }⟩
      · intro k
        rw [getElem?_erase, getElem?_erase]
        split
        · rfl
        · exact h.restored k
      · intro k m hk
        rw [getElem?_erase] at hk
        split at hk
        · cases hk
        · exact h.saved k m hk

theorem inStep_resumeWhileRoom (ids : List VmId) :
    InStep env (resumeWhileRoom cap env ids) (resumeWhileRoom cap env.exact ids) := by
  induction ids with
  | nil => exact lockstep_pure _
  | cons id ids ih =>
    refine lockstep_get_bind fun s t h => ?_
    rw [h.instantiated]
    exact lockstep_ite (fun _ => lockstep_bind (inStep_resumeVm id) fun _ => ih)
      fun _ => lockstep_pure _

theorem inStep_checkRequest (n : ℕ) : InStep env (checkRequest cap n) (checkRequest cap n) := by
  cases cap with
  | none => exact lockstep_pure _
  | some c => exact lockstep_ite (fun _ => lockstep_throw _) fun _ => lockstep_pure _

/-- A snapshot can be taken of every machine of the twins. -/
theorem inStep_suspendVm (htracking : ∀ m : Cpu μ, Mirrors env.txData m.memory →
      ∃ snapshot, env.makeSnapshot m = .ok snapshot) (id : VmId) :
    InStep env (suspendVm env id) (suspendVm env.exact id) := by
  intro s t h
  simp only [suspendVm, get_bind_run, h.instantiated]
  cases hm : t.instantiated[id]? with
  | none => exact Or.inr ⟨t, rfl, h⟩
  | some m =>
    have hmirrors := h.mirrored id m hm
    obtain ⟨snapshot, hmake⟩ := htracking m.toCpu hmirrors
    have hresume := env.resume_make hmirrors hmake
    simp only [hmake, Library.exact_makeSnapshot, ofExcept_ok, pure_bind_run, modify_run]
    refine ⟨_, rfl, { h with instantiated := ?_, restored := ?_, mirrored := ?_, saved := ?_ }⟩
    · rw [h.instantiated]
    · intro k
      rw [getElem?_insert, getElem?_insert]
      split
      · rw [Option.map_some, Option.map_some, hresume]
      · exact h.restored k
    · intro k n hk
      rw [getElem?_erase] at hk
      split at hk
      · cases hk
      · exact h.mirrored k n hk
    · intro k n hk
      rw [getElem?_insert] at hk
      split at hk
      · cases hk
        exact hmirrors
      · exact h.saved k n hk

variable [Memory μ]

/-- An access of the scheduler keeps a memory in step with the transaction. -/
theorem update_mirrors (htracking : env.Tracking) {ev : Event μ} {c c' : Core μ}
    (hc : Mirrors env.txData c.memory) (hupdate : ev.update c = .ok c') :
    Mirrors env.txData c'.memory := by
  have hmap {α β : Type} {x : Except Error α} {f : α → β} {b : β} (hx : x.map f = .ok b) :
      ∃ a, x = .ok a ∧ f a = b := by
    cases x with
    | error e => cases hx
    | ok a => exact ⟨a, rfl, Except.ok.inj hx⟩
  cases ev with
  | store8 id addr value =>
    obtain ⟨memory, hstore, rfl⟩ := hmap hupdate
    exact htracking.store8 hc hstore
  | store64 id addr value =>
    obtain ⟨memory, hstore, rfl⟩ := hmap hupdate
    exact htracking.store64 hc hstore
  | storeBytes id addr data =>
    obtain ⟨memory, hstore, rfl⟩ := hmap hupdate
    exact htracking.storeBytes hc hstore
  | _ =>
    cases hupdate
    exact hc

/-- Both read the same bytes, from the machines that they share. -/
theorem inStep_loadBytes (id : VmId) (addr size : UInt64) :
    InStep env (loadBytes id addr size) (loadBytes id addr size) := by
  intro s t h
  cases hm : s.instantiated[id]? with
  | none =>
    rw [loadBytes, bind_of_panic (machine_panic hm)]
    trivial
  | some m =>
    have hm' : t.instantiated[id]? = some m := h.instantiated ▸ hm
    rw [loadBytes, bind_of_ok (machine_run hm), loadBytes, bind_of_ok (machine_run hm')]
    exact Simulates.after _ (lockstep_ofExcept _ s t h)

section Tracking

variable (htracking : env.Tracking)

include htracking

/-- An access to the machine of a VM, which both hold or neither. -/
theorem inStep_access (id : VmId) (ev : Event μ) : InStep env (access id ev) (access id ev) := by
  intro s t h
  cases hm : s.instantiated[id]? with
  | none =>
    rw [access_panic hm]
    trivial
  | some m =>
    have hm' : t.instantiated[id]? = some m := h.instantiated ▸ hm
    cases hupdate : ev.update m.toCore with
    | error e =>
      rw [access_error hm hupdate, access_error hm' hupdate]
      exact Or.inr ⟨t, rfl, h⟩
    | ok core =>
      rw [access_run hm hupdate, access_run hm' hupdate]
      exact ⟨_, rfl, h.setMachine id (update_mirrors htracking (h.mirrored id m hm') hupdate)⟩

theorem inStep_setA0 (id : VmId) (value : UInt64) :
    InStep env (setA0 id value) (setA0 id value) := by
  rw [setA0_eq, setA0_eq]
  exact inStep_access htracking _ _

theorem inStep_store8 (id : VmId) (addr value : UInt64) :
    InStep env (store8 id addr value) (store8 id addr value) := by
  rw [store8_eq, store8_eq]
  exact inStep_access htracking _ _

theorem inStep_store64 (id : VmId) (addr value : UInt64) :
    InStep env (store64 id addr value) (store64 id addr value) := by
  rw [store64_eq, store64_eq]
  exact inStep_access htracking _ _

theorem inStep_storeBytes (id : VmId) (addr : UInt64) (data : Bytes) :
    InStep env (storeBytes id addr data) (storeBytes id addr data) := by
  rw [storeBytes_eq, storeBytes_eq]
  exact inStep_access htracking _ _

theorem inStep_suspend (id : VmId) : InStep env (suspendVm env id) (suspendVm env.exact id) :=
  inStep_suspendVm (fun _ => htracking.saved) id

/-- The same machines are swapped in and out. -/
theorem inStep_ensure (ids : List VmId) : InStep env (ensureVmsInstantiated cap env ids)
    (ensureVmsInstantiated cap env.exact ids) := by
  refine lockstep_bind (inStep_checkRequest _) fun _ => lockstep_get_bind fun s t h => ?_
  rw [h.instantiated]
  refine lockstep_bind (inStep_resumeWhileRoom _) fun rest => ?_
  refine lockstep_ite (fun _ => lockstep_pure _) fun _ => lockstep_get_bind fun s₁ t₁ h₁ => ?_
  rw [h₁.instantiated]
  refine lockstep_ite (fun _ => lockstep_crash) fun _ => lockstep_forM _ fun p _ => ?_
  exact lockstep_bind (inStep_suspend htracking p.1) fun _ => inStep_resumeVm p.2

theorem inStep_evictUntilRoom (fuel : ℕ) :
    InStep env (evictUntilRoom cap env fuel) (evictUntilRoom cap env.exact fuel) := by
  induction fuel with
  | zero => exact lockstep_pure _
  | succ fuel ih =>
    refine lockstep_get_bind fun s t h => ?_
    rw [h.instantiated]
    refine lockstep_ite (fun _ => lockstep_pure _) fun _ => ?_
    refine lockstep_bind (lockstep_unwrap _) fun id => ?_
    exact lockstep_bind (inStep_suspend htracking id) fun _ => ih

/-- A new machine has nothing recorded that the transaction does not back. -/
theorem inStep_bootVm (dataPieceId : DataPieceId) (offset length : UInt64) (args : List Bytes) :
    InStep env (bootVm cap env dataPieceId offset length args)
      (bootVm cap env.exact dataPieceId offset length args) := by
  refine lockstep_get_bind fun s t h => ?_
  rw [h.instantiated]
  refine lockstep_bind (inStep_evictUntilRoom htracking _) fun _ => ?_
  refine lockstep_get_bind fun s₁ t₁ h₁ => ?_
  rw [h₁.nextVmId]
  refine lockstep_bind (lockstep_unwrap _) fun nextVmId => ?_
  refine lockstep_bind (lockstep_modify fun _ _ h' => { h' with nextVmId := rfl }) fun _ => ?_
  refine lockstep_bind inStep_createDummyVm fun _ => ?_
  rw [Library.exact_txData, Library.exact_loadProgram]
  refine lockstep_bind (lockstep_ofExcept _) fun loaded => ?_
  refine lockstep_ofExcept_bind fun booted hload => ?_
  refine lockstep_bind (lockstep_emit _) fun _ => ?_
  refine lockstep_bind (lockstep_modify fun s₂ t₂ h₂ => ?_) fun _ => lockstep_pure _
  have hset := h₂.setMachine t₁.nextVmId
    (m := { booted.1 with cycles := transferredByteCycles booted.2, exitCode := 0 })
    (htracking.loaded hload)
  refine { hset with states := ?_ }
  rw [h₂.states]

theorem inStep_rejectCall (id : VmId) (code : UInt64) :
    InStep env (rejectCall cap env id code) (rejectCall cap env.exact id code) :=
  lockstep_bind (inStep_ensure htracking [id]) fun _ => inStep_setA0 htracking id code

theorem inStep_processSpawn (id : VmId) (args : SpawnArgs) :
    InStep env (processSpawn cap env id args) (processSpawn cap env.exact id args) := by
  refine lockstep_get_bind fun s t h => ?_
  have hforeign : s.firstForeignPipe id args.pipes = t.firstForeignPipe id args.pipes := by
    simp only [firstForeignPipe, ownsPipe, h.pipes]
  rw [hforeign]
  cases t.firstForeignPipe id args.pipes with
  | some p => exact lockstep_throw _
  | none =>
    refine lockstep_bind (inStep_bootVm htracking _ _ _ _) fun spawned => ?_
    refine lockstep_bind (lockstep_modify fun s₁ t₁ h₁ => { h₁ with pipes := ?_ }) fun _ => ?_
    · rw [h₁.pipes]
    refine lockstep_bind (inStep_ensure htracking _) fun _ => ?_
    exact lockstep_bind (inStep_store64 htracking _ _ _) fun _ => inStep_setA0 htracking _ _

theorem inStep_finishJoin (id : VmId) (exitCodeAddr : UInt64) (code : Int8) :
    InStep env (finishJoin cap env id exitCodeAddr code)
      (finishJoin cap env.exact id exitCodeAddr code) := by
  refine lockstep_bind (inStep_ensure htracking _) fun _ => ?_
  refine lockstep_bind (inStep_store8 htracking _ _ _) fun _ => ?_
  exact lockstep_bind (inStep_setA0 htracking _ _) fun _ => inStep_setState _ _

theorem inStep_processJoin (id : VmId) (args : JoinArgs) :
    InStep env (processJoin cap env id args) (processJoin cap env.exact id args) := by
  refine lockstep_get_bind fun s t h => ?_
  rw [h.terminatedVms, h.states]
  cases t.terminatedVms[args.targetId]? with
  | some exitCode => exact inStep_finishJoin htracking _ _ _
  | none =>
    exact lockstep_ite (fun _ => inStep_blockVm _ _) fun _ => inStep_rejectCall htracking _ _

theorem inStep_processPipe (id : VmId) (args : PipeArgs) :
    InStep env (processPipe cap env id args) (processPipe cap env.exact id args) := by
  refine lockstep_get_bind fun s t h => ?_
  rw [h.nextPipeSlot]
  refine lockstep_bind (lockstep_unwrap _) fun created => ?_
  refine lockstep_bind (lockstep_modify fun s₁ t₁ h₁ =>
    { h₁ with nextPipeSlot := rfl, pipes := ?_ }) fun _ => ?_
  · rw [h₁.pipes]
  refine lockstep_bind (inStep_ensure htracking _) fun _ => ?_
  refine lockstep_bind (inStep_store64 htracking _ _ _) fun _ => ?_
  exact lockstep_bind (inStep_store64 htracking _ _ _) fun _ => inStep_setA0 htracking _ _

theorem inStep_processPipeIo (id : VmId) (pipe : PipeId) (waiting : VmState) :
    InStep env (processPipeIo cap env id pipe waiting)
      (processPipeIo cap env.exact id pipe waiting) := by
  refine lockstep_get_bind fun s t h => ?_
  have howns : s.ownsPipe id pipe = t.ownsPipe id pipe := by
    simp only [ownsPipe, h.pipes]
  rw [howns, h.pipes]
  refine lockstep_ite (fun _ => inStep_rejectCall htracking _ _) fun _ => ?_
  exact lockstep_ite (fun _ => inStep_rejectCall htracking _ _) fun _ => inStep_blockVm _ _

/-- A message is answered alike. -/
theorem inStep_processMessage (msg : Message) :
    InStep env (processMessage cap env msg) (processMessage cap env.exact msg) := by
  refine lockstep_bind (lockstep_emit _) fun _ => ?_
  cases msg with
  | spawn id args => exact inStep_processSpawn htracking id args
  | join id args => exact inStep_processJoin htracking id args
  | pipe id args => exact inStep_processPipe htracking id args
  | pipeRead id args => exact inStep_processPipeIo htracking _ _ _
  | pipeWrite id args => exact inStep_processPipeIo htracking _ _ _

theorem inStep_processMessageBox :
    InStep env (processMessageBox cap env) (processMessageBox cap env.exact) := by
  refine lockstep_get_bind fun s t h => ?_
  rw [h.messageBox]
  refine lockstep_bind (lockstep_modify fun _ _ h₁ => { h₁ with messageBox := rfl }) fun _ => ?_
  exact lockstep_forM _ fun msg _ => inStep_processMessage htracking msg

theorem inStep_finishClosed (id : VmId) :
    InStep env (finishClosed id) (finishClosed id) := by
  refine lockstep_get_bind fun s t h => ?_
  rw [h.states]
  refine lockstep_bind (lockstep_unwrap _) fun state => ?_
  cases state with
  | waitForRead pipe length bufferAddr lengthAddr =>
    refine lockstep_bind (inStep_store64 htracking _ _ _) fun _ => ?_
    exact lockstep_bind (inStep_setA0 htracking _ _) fun _ => inStep_setState _ _
  | waitForWrite pipe consumed length bufferAddr lengthAddr =>
    refine lockstep_bind (inStep_store64 htracking _ _ _) fun _ => ?_
    exact lockstep_bind (inStep_setA0 htracking _ _) fun _ => inStep_setState _ _
  | _ => exact lockstep_pure _

theorem inStep_transferPair (pair : (VmId × VmState) × (VmId × VmState)) :
    InStep env (transferPair cap env pair) (transferPair cap env.exact pair) := by
  obtain ⟨⟨readVmId, readState⟩, ⟨writeVmId, writeState⟩⟩ := pair
  cases readState with
  | waitForRead readPipe readLength readBufferAddr readLengthAddr =>
    cases writeState with
    | waitForWrite writePipe consumed writeLength writeBufferAddr writeLengthAddr =>
      refine lockstep_bind (inStep_ensure htracking _) fun _ => ?_
      refine lockstep_bind (lockstep_unwrap _) fun consumable => ?_
      refine lockstep_bind (inStep_loadBytes _ _ _) fun data => ?_
      refine lockstep_bind (inStep_storeBytes htracking _ _ _) fun _ => ?_
      refine lockstep_bind (lockstep_emit _) fun _ => ?_
      refine lockstep_bind (inStep_store64 htracking _ _ _) fun _ => ?_
      refine lockstep_bind (inStep_setA0 htracking _ _) fun _ => ?_
      refine lockstep_bind (inStep_setState _ _) fun _ => lockstep_ite (fun _ => ?_) fun _ => ?_
      · refine lockstep_bind (inStep_store64 htracking _ _ _) fun _ => ?_
        exact lockstep_bind (inStep_setA0 htracking _ _) fun _ => inStep_setState _ _
      · exact inStep_setState _ _
    | _ => exact lockstep_crash
  | _ => exact lockstep_crash

/-- The same reads and writes are finished. -/
theorem inStep_processIo : InStep env (processIo cap env) (processIo cap env.exact) := by
  refine lockstep_get_bind fun s t h => ?_
  rw [h.pipes, h.states]
  refine lockstep_bind (lockstep_forM _ fun id _ => inStep_finishClosed htracking id) fun _ => ?_
  exact lockstep_forM _ fun pair _ => inStep_transferPair htracking pair

theorem inStep_terminateVm (id : VmId) (code : Int8) :
    InStep env (terminateVm cap env id code) (terminateVm cap env.exact id code) := by
  refine lockstep_bind (lockstep_modify fun s t h => { h with terminatedVms := ?_ }) fun _ => ?_
  · rw [h.terminatedVms]
  refine lockstep_ite (fun _ => ?_) fun _ => ?_
  · refine lockstep_bind (inStep_ensure htracking _) fun _ => lockstep_modify fun s t h => ?_
    refine { h with instantiated := ?_, states := rfl, restored := ?_, mirrored := ?_, saved := ?_ }
    · rw [h.instantiated]
    · simp
    · intro k m hk
      rw [getElem?_filter_key, Option.ite_none_right_eq_some] at hk
      exact h.mirrored k m hk.2
    · simp
  · refine lockstep_get_bind fun s t h => ?_
    rw [h.states]
    refine lockstep_bind (lockstep_forM _ fun joiner _ => inStep_finishJoin htracking _ _ _)
      fun _ => lockstep_modify fun s₁ t₁ h₁ => ?_
    refine { h₁ with
      states := ?_, pipes := ?_, instantiated := ?_, restored := ?_, mirrored := ?_, saved := ?_ }
    · rw [h₁.states]
    · rw [h₁.pipes]
    · rw [h₁.instantiated]
    · intro k
      rw [getElem?_erase, getElem?_erase]
      split
      · rfl
      · exact h₁.restored k
    · intro k m hk
      rw [getElem?_erase, Option.ite_none_left_eq_some] at hk
      exact h₁.mirrored k m hk.2
    · intro k m hk
      rw [getElem?_erase, Option.ite_none_left_eq_some] at hk
      exact h₁.saved k m hk.2

omit htracking [Memory μ] in
/-- A machine has stopped with its memory in step. -/
theorem Twins.executed (h : Twins env s t) (id : VmId) (m : Machine μ) {cpu : Cpu μ}
    (hcpu : Mirrors env.txData cpu.memory) (result : Except Error Int8) (posted : List Message) :
    Simulates (fun _ => False) (s.execution id m result cpu posted)
      (t.execution id m result cpu posted) (fun _ => Twins env) (Twins env) := by
  have hset := h.setMachine id
    (m := { cpu with cycles := 0, exitCode := result.toOption.getD m.exitCode }) hcpu
  have hexecuted : Twins env (s.executed id m result cpu posted)
      (t.executed id m result cpu posted) := by
    refine { hset with messageBox := ?_ }
    simp only [Scheduler.executed, h.messageBox]
  rw [execution, execution, ← h.totalCycles]
  split
  · exact ⟨_, rfl, { hexecuted with totalCycles := rfl }⟩
  · exact Or.inr ⟨_, rfl, hexecuted⟩

/-- A machine that is run comes to covered loads only. -/
theorem runVm_twins (h : Twins env s t) {id : VmId}
    (hloads : ∀ s' l m, ensureVmsInstantiated cap env [id] s = .ok ⟨⟩ s' l →
      s'.instantiated[id]? = some m → CoversLoads env ⟨id, s'.totalCycles⟩ m.toCpu)
    (pause : Pause) (limitCycles : ℕ) :
    Simulates (fun _ => False) (runVm cap env id pause limitCycles s)
      (runVm cap env.exact id pause limitCycles t) (fun _ => Twins env) (Twins env) := by
  refine simulates_bind_run (inStep_ensure htracking [id] s t h) fun _ s' t' l hensure h' => ?_
  cases hm : s'.instantiated[id]? with
  | none =>
    rw [bind_of_panic (machine_panic hm)]
    trivial
  | some m =>
    have hm' : t'.instantiated[id]? = some m := h'.instantiated ▸ hm
    have hmirrored := runMachine_mirrored htracking (hloads s' l m hensure hm)
      (h'.mirrored id m hm') limitCycles pause
    rw [bind_of_ok (machine_run hm), bind_of_ok (machine_run hm'), after_nil, after_nil]
    simp only [get_bind_run, ← h'.totalCycles, runMachine_exact]
    cases hrun : runMachine env ⟨id, s'.totalCycles⟩ limitCycles pause m.toCpu with
    | panic => trivial
    | ok code cpu posted =>
      rw [EndsMirrored, hrun] at hmirrored
      convert h'.executed id m hmirrored (.ok code) posted using 1
      · simp only [pure_bind_run, emit_bind_run, modify_bind_run, execution]
        split <;> rfl
      · simp only [pure_bind_run, emit_bind_run, modify_bind_run, execution, h'.totalCycles]
        split <;> rfl
    | err e cpu posted =>
      rw [EndsMirrored, hrun] at hmirrored
      convert h'.executed id m hmirrored (.error e) posted using 1
      · simp only [pure_bind_run, emit_bind_run, modify_bind_run, execution]
        split <;> rfl
      · simp only [pure_bind_run, emit_bind_run, modify_bind_run, execution, h'.totalCycles]
        split <;> rfl

omit htracking in
/-- The machine that the next round executes, and its context. -/
def Dispatches (cap : Option ℕ) (env : Library Mirrors κ) (s : Scheduler μ κ)
    (ctx : MachineContext) (m : Machine μ) : Prop :=
  ∃ s₁ s₂ l₁ l₂, processIo cap env s = .ok ⟨⟩ s₁ l₁ ∧ vmIdToRun s₁.states = some ctx.id ∧
    ensureVmsInstantiated cap env [ctx.id] s₁ = .ok ⟨⟩ s₂ l₂ ∧
    s₂.instantiated[ctx.id]? = some m ∧ ctx.baseCycles = s₂.totalCycles

/-- A round of the twins, where the machine that it executes comes to covered loads only. -/
theorem iterate_twins (h : Twins env s t)
    (hloads : ∀ ctx m, Dispatches cap env s ctx m → CoversLoads env ctx m.toCpu) (pause : Pause)
    (limitCycles : ℕ) :
    Simulates (fun _ => False) (iterate cap env pause limitCycles s)
      (iterate cap env.exact pause limitCycles t) (fun _ => Twins env) (Twins env) := by
  rw [iterate, iterate, emit_bind_run, emit_bind_run]
  refine Simulates.after _ ?_
  refine simulates_bind_run (inStep_processIo htracking s t h) fun _ s₁ t₁ l₁ hio h₁ => ?_
  rw [get_bind_run, get_bind_run, ← h₁.states]
  cases hrun : vmIdToRun s₁.states with
  | none => exact Or.inr ⟨t₁, rfl, h₁⟩
  | some id =>
    refine simulates_bind (runVm_twins htracking h₁ ?_ pause limitCycles) ?_
    · intro s₂ l₂ m hensure hm
      exact hloads ⟨id, s₂.totalCycles⟩ m ⟨s₁, s₂, l₁, l₂, hio, hrun, hensure, hm, rfl⟩
    rintro ⟨result, consumedCycles⟩ s₂ t₂ h₂
    refine simulates_bind (inStep_processMessageBox htracking s₂ t₂ h₂) fun _ s₃ t₃ h₃ => ?_
    rw [get_bind_run, get_bind_run, h₃.messageBox]
    refine lockstep_ite (fun _ => ?_) (fun _ => lockstep_crash) s₃ t₃ h₃
    cases result with
    | ok code =>
      exact lockstep_bind (inStep_terminateVm htracking id code) fun _ => lockstep_pure _
    | error e => exact lockstep_ite (fun _ => lockstep_pure _) fun _ => lockstep_throw e

omit htracking in
/-- Every load as code in any run of a scheduler is covered by its cell. -/
def LoadsCover (cap : Option ℕ) (env : Library Mirrors κ) : Prop :=
  ∀ tr s ctx m, Reachable cap env tr s → Dispatches cap env s ctx m → CoversLoads env ctx m.toCpu

variable (hloads : LoadsCover cap env) {tr : List (Event μ)}

include hloads

/-- The rounds of a call, one by one. The induction is on the fuel; each round starts at a
scheduler that can be reached. -/
theorem runLoop_twins (hreach : Reachable cap env tr s) (h : Twins env s t) (pause : ℕ → Pause)
    (fuel k limitCycles : ℕ) :
    Simulates (fun _ => False) (runLoop cap env pause fuel k limitCycles s)
      (runLoop cap env.exact pause fuel k limitCycles t) (fun _ => Twins env) (Twins env) := by
  induction fuel generalizing tr s t k limitCycles with
  | zero => exact ⟨t, rfl, h⟩
  | succ fuel ih =>
    simp only [runLoop, get_bind_run, ← h.states]
    cases hroot : s.states[rootVmId]? with
    | none => trivial
    | some state =>
      simp only [unwrap_some, pure_bind_run]
      by_cases hstate : state = .terminated
      · rw [if_pos hstate, if_pos hstate]
        exact ⟨t, rfl, h⟩
      rw [if_neg hstate, if_neg hstate]
      refine simulates_bind_run (iterate_twins htracking h (hloads tr s · · hreach) _ _)
        fun consumedCycles s' t' l hiterate h' => ?_
      simp only [checkedSubCycles, if_pos le_rfl]
      exact ih (hreach.tail (.iterated hroot hstate hiterate)) h' _ _

omit hloads in
theorem inStep_bootRoot : InStep env (bootRoot cap env) (bootRoot cap env.exact) := by
  refine lockstep_get_bind fun s t h => ?_
  rw [h.states]
  refine lockstep_ite (fun _ => ?_) fun _ => lockstep_pure _
  refine lockstep_bind (inStep_bootVm htracking _ _ _ _) fun id => ?_
  exact lockstep_ite (fun _ => lockstep_pure _) fun _ => lockstep_crash

/-- A call of the twins, from a scheduler that can be reached. -/
theorem run_twins (hreach : Reachable cap env tr s) (h : Twins env s t) (mode : RunMode) :
    Simulates (fun _ => False) (run cap env mode s) (run cap env.exact mode t)
      (fun _ => Twins env) (Twins env) := by
  refine simulates_bind_run (inStep_bootRoot htracking s t h) fun _ s₁ t₁ l₁ hboot h₁ => ?_
  rw [get_bind_run, get_bind_run, h₁.states]
  split
  · refine simulates_bind (runLoop_twins htracking hloads (hreach.tail (.booted hboot)) h₁ _ _ _ _)
      fun finished s₂ t₂ h₂ => ?_
    cases finished with
    | none => trivial
    | some _ =>
      dsimp only
      cases hm : s₂.instantiated[rootVmId]? with
      | none =>
        rw [bind_of_panic (machine_panic hm)]
        trivial
      | some m =>
        have hm' : t₂.instantiated[rootVmId]? = some m := h₂.instantiated ▸ hm
        rw [bind_of_ok (machine_run hm), bind_of_ok (machine_run hm'), get_bind_run, get_bind_run,
          h₂.totalCycles]
        exact ⟨t₂, rfl, h₂⟩
  · trivial

omit htracking hloads [Memory μ] in
/-- Twins are resumed as twins. -/
theorem Twins.resumed (h : Twins env s t) {vms : List (VmId × VmState × κ)}
    {vms' : List (VmId × VmState × Cpu μ)}
    (hvms : s.states.toList.mapM (listedVm s.suspended) = some vms)
    (hvms' : t.states.toList.mapM (listedVm t.suspended) = some vms') :
    Twins env (resume (s.fullState vms)) (resume (t.fullState vms')) := by
  obtain ⟨hstates, _⟩ := mapM_listedVm hvms
  obtain ⟨hstates', _⟩ := mapM_listedVm hvms'
  constructor
  · exact h.totalCycles
  · exact h.nextVmId
  · exact h.nextPipeSlot
  · show ExtTreeMap.ofList (vms.map fun vm => (vm.1, vm.2.1)) =
      ExtTreeMap.ofList (vms'.map fun vm => (vm.1, vm.2.1))
    rw [hstates, hstates', h.states]
  · show ExtTreeMap.ofList s.pipes.toList = ExtTreeMap.ofList t.pipes.toList
    rw [h.pipes]
  · rfl
  · show ExtTreeMap.ofList s.terminatedVms.toList = ExtTreeMap.ofList t.terminatedVms.toList
    rw [h.terminatedVms]
  · rfl
  · intro k
    show ((ExtTreeMap.ofList (vms.map fun vm => (vm.1, vm.2.2)))[k]?).map _ =
      ((ExtTreeMap.ofList (vms'.map fun vm => (vm.1, vm.2.2)))[k]?).map _
    rw [getElem?_listed hvms, getElem?_listed hvms', h.states]
    split
    · exact h.restored k
    · rfl
  · simp [resume]
  · intro k m hk
    change (ExtTreeMap.ofList (vms'.map fun vm => (vm.1, vm.2.2)))[k]? = some m at hk
    rw [getElem?_listed hvms', Option.ite_none_right_eq_some] at hk
    exact h.saved k m hk.2

omit hloads in
/-- A full suspension and the schedulers resumed from it. -/
theorem suspend_twins (h : Twins env s t) {full : FullSuspendedState κ} {s' : Scheduler μ κ}
    {l : List (Event μ)} (hsuspend : suspend env s = .ok full s' l) :
    ∃ full' t', suspend env.exact t = .ok full' t' l ∧ Twins env (resume full) (resume full') := by
  rw [suspend, get_bind_run] at hsuspend
  obtain ⟨_, s₁, l₁, l₂, hkeys, hrest, rfl⟩ := bind_eq_ok.mp hsuspend
  have hstep := lockstep_forM s.instantiated.keys (fun id _ => inStep_suspend htracking id) s t h
  rw [hkeys] at hstep
  obtain ⟨t₁, hkeys', h₁⟩ := hstep
  rw [get_bind_run] at hrest
  change (unwrap (s₁.states.toList.mapM (listedVm s₁.suspended)) >>= _ : SchedulerM μ κ _) s₁ = _
    at hrest
  cases hvms : s₁.states.toList.mapM (listedVm s₁.suspended) with
  | none =>
    rw [hvms] at hrest
    cases hrest
  | some vms =>
    rw [hvms] at hrest
    cases hrest
    obtain ⟨hstates, htaken⟩ := mapM_listedVm hvms
    have hlisted : ∃ vms', t₁.states.toList.mapM (listedVm t₁.suspended) = some vms' := by
      refine mapM_isSome fun v hv => ?_
      rw [← h₁.states, ← hstates] at hv
      obtain ⟨vm, hvm, rfl⟩ := List.mem_map.mp hv
      have hrestored := h₁.restored vm.1
      rw [htaken vm hvm, Option.map_some, eq_comm, Option.map_eq_some_iff] at hrestored
      obtain ⟨cpu, hcpu, _⟩ := hrestored
      exact ⟨(vm.1, vm.2.1, cpu), by rw [listedVm, hcpu, Option.map_some]⟩
    obtain ⟨vms', hvms'⟩ := hlisted
    refine ⟨t₁.fullState vms', t₁, ?_, h₁.resumed hvms hvms'⟩
    rw [suspend, get_bind_run, ← h.instantiated, bind_of_ok hkeys', get_bind_run]
    change Outcome.after l₁ ((unwrap (t₁.states.toList.mapM (listedVm t₁.suspended)) >>= _ :
      SchedulerM μ (Cpu μ) _) t₁) = _
    rw [hvms']
    rfl

end Tracking

end DeterministicScheduler.Scheduler
