import DeterministicScheduler.Events
import DeterministicScheduler.Execution
import DeterministicScheduler.Instantiation
import DeterministicScheduler.Waiting

/-!
# How the parts of a round can end

Only an execution is interrupted or yields, and only the selection of a VM
reports a deadlock. Whatever else fails in a round fails fatally. However a part
ends, an error among them, it removes no VM from the scheduler but one that exits. -/
namespace DeterministicScheduler.Scheduler

open ProgramLogic Program Outcome

variable {μ κ α β : Type} {Mirrors : TxData → μ → Prop} {P : VmId → Prop} {B : Prop}
  {N : Event μ → Prop}

/-- A program whose only errors are fatal ones. -/
def FailsFatally (x : SchedulerM μ κ α) : Prop :=
  ∀ s, (x s).Meets (fun _ _ _ => True) (fun e _ _ => e.Fatal) True

/-- What a part of a round leaves as it was: every VM of `P` that the scheduler
holds is still there, and, if `B`, the message box is the same. -/
structure Keeps (P : VmId → Prop) (B : Prop) (s s' : Scheduler μ κ) : Prop where
  vms : ∀ id, P id → id ∈ s.states → id ∈ s'.states
  box : B → s'.messageBox = s.messageBox

theorem Keeps.refl (s : Scheduler μ κ) : Keeps P B s s := ⟨fun _ _ h => h, fun _ => rfl⟩

/-- What two parts keep, they keep together. -/
theorem Keeps.trans {s t s' : Scheduler μ κ} (h : Keeps P B s t) (h' : Keeps P B t s') :
    Keeps P B s s' :=
  ⟨fun id hid hin => h'.vms id hid (h.vms id hid hin), fun hb => (h'.box hb).trans (h.box hb)⟩

/-- A program whose errors are among `E`, whose events are among `N` and which,
however it ends, keeps the VMs of `P` and, if `B`, the message box. -/
def Regular (E : Error → Prop) (P : VmId → Prop) (B : Prop) (N : Event μ → Prop)
    (x : SchedulerM μ κ α) : Prop :=
  ∀ s, (x s).Meets (fun _ s' l => Keeps P B s s' ∧ ∀ ev ∈ l, N ev)
    (fun e s' l => E e ∧ Keeps P B s s' ∧ ∀ ev ∈ l, N ev) True

/-- With fatal errors only, a regular program fails fatally. -/
theorem Regular.fails {x : SchedulerM μ κ α} (h : Regular Error.Fatal P B N x) : FailsFatally x :=
  fun s => (h s).mono (fun _ _ _ _ => trivial) (fun _ _ _ he => he.1) (fun h => h)

section Rules

variable {E : Error → Prop} {x : SchedulerM μ κ α} {f : α → SchedulerM μ κ β}

/-- A wider set of errors or of events is allowed as well. -/
theorem Regular.mono {E' : Error → Prop} {N' : Event μ → Prop} (h : Regular E P B N x)
    (hE : ∀ e, E e → E' e) (hN : ∀ ev, N ev → N' ev) : Regular E' P B N' x :=
  fun s => (h s).mono (fun _ _ _ h => ⟨h.1, fun ev hev => hN ev (h.2 ev hev)⟩)
    (fun e _ _ he => ⟨hE e he.1, he.2.1, fun ev hev => hN ev (he.2.2 ev hev)⟩) (fun h => h)

theorem regular_pure (a : α) : Regular E P B N (pure a : SchedulerM μ κ α) :=
  fun s => ⟨.refl s, by simp⟩

theorem regular_crash : Regular E P B N (crash : SchedulerM μ κ α) := fun _ => trivial

theorem regular_throw {e : Error} (he : E e) : Regular E P B N (throw e : SchedulerM μ κ α) :=
  fun s => ⟨he, .refl s, by simp⟩

/-- A change of the state is regular where the state is kept. -/
theorem regular_change {g : Scheduler μ κ → Scheduler μ κ} (hkeeps : ∀ s, Keeps P B s (g s)) :
    Regular E P B N (modify g : SchedulerM μ κ Unit) :=
  fun s => ⟨hkeeps s, by simp⟩

/-- A change of the other fields keeps both VMs and messages. -/
theorem regular_modify {g : Scheduler μ κ → Scheduler μ κ}
    (h : ∀ s, (g s).states = s.states ∧ (g s).messageBox = s.messageBox) :
    Regular E P B N (modify g : SchedulerM μ κ Unit) :=
  regular_change fun s => ⟨fun _ _ hin => (h s).1 ▸ hin, fun _ => (h s).2⟩

theorem regular_emit {ev : Event μ} (hev : N ev) :
    Regular E P B N (emit ev : SchedulerM μ κ Unit) :=
  fun s => ⟨.refl s, by simpa using hev⟩

/-- An error of either part is one of the whole, and what the first part logged is logged then
too. -/
theorem regular_bind (hx : Regular E P B N x) (hf : ∀ a, Regular E P B N (f a)) :
    Regular E P B N (x >>= f) := by
  intro s
  rw [bind_run]
  have hfirst := hx s
  cases ho : x s with
  | panic => trivial
  | err e s' l =>
    rw [ho] at hfirst
    exact hfirst
  | ok a s' l =>
    rw [ho] at hfirst
    obtain ⟨hkeeps, hlog⟩ := hfirst
    have happend : ∀ l' : List (Event μ), (∀ ev ∈ l', N ev) → ∀ ev ∈ l ++ l', N ev := by
      intro l' hl' ev hev
      rcases List.mem_append.mp hev with hev | hev
      · exact hlog ev hev
      · exact hl' ev hev
    apply Meets.after
    exact (hf a s').mono (fun _ _ l' h => ⟨hkeeps.trans h.1, happend l' h.2⟩)
      (fun _ _ l' h => ⟨h.1, hkeeps.trans h.2.1, happend l' h.2.2⟩) (fun h => h)

/-- A program that looks at the state first is regular if it is for any state it may find. -/
theorem regular_get_bind {f : Scheduler μ κ → SchedulerM μ κ β} (hf : ∀ s, Regular E P B N (f s)) :
    Regular E P B N (get >>= f) := by
  intro s
  rw [get_bind_run]
  exact hf s s

theorem regular_ite {p : Prop} [Decidable p] {x y : SchedulerM μ κ α} (hx : Regular E P B N x)
    (hy : Regular E P B N y) : Regular E P B N (if p then x else y) := by
  split
  · exact hx
  · exact hy

theorem regular_unwrap (a : Option α) : Regular E P B N (unwrap a : SchedulerM μ κ α) := by
  cases a with
  | none => exact regular_crash
  | some a => exact regular_pure a

/-- The errors of the library are none that the scheduler fixes, so they are fatal. -/
theorem regular_ofExcept {a : Except Error α} (ha : ∀ e, a = .error e → ¬ e.Reserved) :
    Regular Error.Fatal P B N (ofExcept a : SchedulerM μ κ α) := by
  cases a with
  | error e => exact regular_throw (Error.fatal_of_not_reserved (ha e rfl))
  | ok a => exact regular_pure a

theorem regular_forM {f : α → SchedulerM μ κ PUnit} (hf : ∀ a, Regular E P B N (f a))
    (xs : List α) : Regular E P B N (xs.forM f) := by
  induction xs with
  | nil => exact regular_pure _
  | cons x xs ih =>
    rw [forM_cons]
    exact regular_bind (hf x) fun _ => ih

/-- A message other than that of a deadlock is a fatal error. -/
theorem regular_unexpected {msg : String} (h : Unlike msg) :
    Regular Error.Fatal P B N (throw (.unexpected msg) : SchedulerM μ κ α) :=
  regular_throw (Error.fatal_of_not_reserved h.not_reserved)

/-- A new state of a VM removes none. -/
theorem regular_setState (id : VmId) (state : VmState) :
    Regular E P B N (setState id state : SchedulerM μ κ Unit) :=
  regular_change fun _ => ⟨fun _ _ h => mem_insert.mpr (Or.inr h), fun _ => rfl⟩

end Rules

section Instantiation

variable (cap : Option ℕ) (env : Library Mirrors κ)

theorem regular_createDummyVm : Regular Error.Fatal P B N (createDummyVm env) := by
  unfold createDummyVm
  split
  · exact regular_pure _
  · refine regular_unexpected (Unlike.append ?_ _)
    unfold Unlike
    decide

/-- A snapshot that cannot be resumed fails fatally. -/
theorem regular_resumeVm (id : VmId) : Regular Error.Fatal P B N (resumeVm env id) := by
  refine regular_get_bind fun s => ?_
  split
  · refine regular_unexpected ((Unlike.append ?_ _).append _)
    unfold Unlike
    decide
  · refine regular_bind (regular_createDummyVm env) fun _ => ?_
    refine regular_bind (regular_ofExcept fun _ => env.resumeSnapshot_error) fun _ => ?_
    exact regular_modify fun _ => ⟨rfl, rfl⟩

theorem regular_suspendVm (id : VmId) : Regular Error.Fatal P B N (suspendVm env id) := by
  refine regular_get_bind fun s => ?_
  split
  · refine regular_unexpected ((Unlike.append ?_ _).append _)
    unfold Unlike
    decide
  · refine regular_bind (regular_ofExcept fun _ => env.makeSnapshot_error) fun _ => ?_
    exact regular_modify fun _ => ⟨rfl, rfl⟩

/-- The induction is on the VMs left to resume. -/
theorem regular_resumeWhileRoom (ids : List VmId) :
    Regular Error.Fatal P B N (resumeWhileRoom cap env ids) := by
  induction ids with
  | nil => exact regular_pure _
  | cons id ids ih =>
    refine regular_get_bind fun s => regular_ite ?_ (regular_pure _)
    exact regular_bind (regular_resumeVm env id) fun _ => ih

/-- A refused request is a fatal error. -/
theorem regular_checkRequest (n : ℕ) :
    Regular Error.Fatal P B N (checkRequest cap n : SchedulerM μ κ Unit) := by
  unfold checkRequest
  split
  · refine regular_ite (regular_unexpected ?_) (regular_pure _)
    refine Unlike.append (Unlike.append (Unlike.append (Unlike.append ?_ _) _) _) _
    unfold Unlike
    decide
  · exact regular_pure _

theorem regular_ensure (ids : List VmId) :
    Regular Error.Fatal P B N (ensureVmsInstantiated cap env ids) := by
  refine regular_bind (regular_checkRequest cap _) fun _ => regular_get_bind fun s => ?_
  refine regular_bind (regular_resumeWhileRoom cap env _) fun rest => ?_
  refine regular_ite (regular_pure _) ?_
  refine regular_get_bind fun s => regular_ite regular_crash (regular_forM (fun p => ?_) _)
  exact regular_bind (regular_suspendVm env _) fun _ => regular_resumeVm env _

/-- The induction is on the fuel, one VM for each unit. -/
theorem regular_evictUntilRoom (fuel : ℕ) :
    Regular Error.Fatal P B N (evictUntilRoom cap env fuel) := by
  induction fuel with
  | zero => exact regular_pure _
  | succ fuel ih =>
    refine regular_get_bind fun s => regular_ite (regular_pure _) ?_
    refine regular_bind (regular_unwrap _) fun id => ?_
    exact regular_bind (regular_suspendVm env id) fun _ => ih

/-- A VM that cannot be booted takes none away. -/
theorem regular_bootVm (dataPieceId : DataPieceId) (offset length : UInt64) (args : List Bytes) :
    Regular Error.Fatal P B Event.Inner (bootVm cap env dataPieceId offset length args) := by
  refine regular_get_bind fun s => regular_bind (regular_evictUntilRoom cap env _) fun _ => ?_
  refine regular_get_bind fun s => regular_bind (regular_unwrap _) fun nextVmId => ?_
  refine regular_bind (regular_modify fun _ => ⟨rfl, rfl⟩) fun _ => ?_
  refine regular_bind (regular_createDummyVm env) fun _ => ?_
  refine regular_bind (regular_ofExcept fun _ => TxData.loadData_error) fun loaded => ?_
  refine regular_bind (regular_ofExcept fun _ => env.loadProgram_error) fun program => ?_
  refine regular_bind (regular_emit ⟨rfl, rfl⟩) fun _ => regular_bind ?_ fun _ => regular_pure _
  exact regular_change fun _ => ⟨fun _ _ h => mem_insert.mpr (Or.inr h), fun _ => rfl⟩

end Instantiation

section Messages

variable [Memory μ] (cap : Option ℕ) (env : Library Mirrors κ)

/-- A store or a result goes to a machine, and to no state. -/
theorem regular_access (id : VmId) {ev : Event μ} (hev : ev.Inner) :
    Regular Error.Fatal P B Event.Inner (access id ev : SchedulerM μ κ Unit) := by
  refine regular_bind (regular_get_bind fun _ => regular_unwrap _) fun m => ?_
  refine regular_bind (regular_ofExcept fun _ => Event.update_error) fun core => ?_
  exact regular_bind (regular_emit hev) fun _ => regular_modify fun _ => ⟨rfl, rfl⟩

theorem regular_setA0 (id : VmId) (value : UInt64) :
    Regular Error.Fatal P B Event.Inner (setA0 id value : SchedulerM μ κ Unit) := by
  rw [setA0_eq]
  exact regular_access id ⟨rfl, rfl⟩

theorem regular_store8 (id : VmId) (addr value : UInt64) :
    Regular Error.Fatal P B Event.Inner (store8 id addr value : SchedulerM μ κ Unit) := by
  rw [store8_eq]
  exact regular_access id ⟨rfl, rfl⟩

theorem regular_store64 (id : VmId) (addr value : UInt64) :
    Regular Error.Fatal P B Event.Inner (store64 id addr value : SchedulerM μ κ Unit) := by
  rw [store64_eq]
  exact regular_access id ⟨rfl, rfl⟩

theorem regular_storeBytes (id : VmId) (addr : UInt64) (data : Bytes) :
    Regular Error.Fatal P B Event.Inner (storeBytes id addr data : SchedulerM μ κ Unit) := by
  rw [storeBytes_eq]
  exact regular_access id ⟨rfl, rfl⟩

theorem regular_loadBytes (id : VmId) (addr size : UInt64) :
    Regular Error.Fatal P B Event.Inner (loadBytes id addr size : SchedulerM μ κ Bytes) :=
  regular_bind (regular_get_bind fun _ => regular_unwrap _) fun _ =>
    regular_ofExcept fun _ => Memory.loadBytes_error

omit [Memory μ] in
/-- A VM that waits is still there. -/
theorem regular_blockVm (id : VmId) (state : VmState) :
    Regular Error.Fatal P B Event.Inner (blockVm id state : SchedulerM μ κ Unit) :=
  regular_bind (regular_emit ⟨rfl, rfl⟩) fun _ => regular_setState id state

/-- A refused call costs no VM either. -/
theorem regular_rejectCall (id : VmId) (code : UInt64) :
    Regular Error.Fatal P B Event.Inner (rejectCall cap env id code) :=
  regular_bind (regular_ensure cap env _) fun _ => regular_setA0 id code

/-- The joiner is handed the code and goes on. -/
theorem regular_finishJoin (id : VmId) (exitCodeAddr : UInt64) (code : Int8) :
    Regular Error.Fatal P B Event.Inner (finishJoin cap env id exitCodeAddr code) := by
  refine regular_bind (regular_ensure cap env _) fun _ => ?_
  refine regular_bind (regular_store8 _ _ _) fun _ => ?_
  exact regular_bind (regular_setA0 _ _) fun _ => regular_setState _ _

/-- A pipe that is not the caller's is refused, any other is waited for. -/
theorem regular_processPipeIo (id : VmId) (pipe : PipeId) (waiting : VmState) :
    Regular Error.Fatal P B Event.Inner (processPipeIo cap env id pipe waiting) := by
  refine regular_get_bind fun s => regular_ite (regular_rejectCall cap env _ _) ?_
  exact regular_ite (regular_rejectCall cap env _ _) (regular_blockVm _ _)

/-- One case for each message. -/
theorem regular_processMessage (msg : Message) :
    Regular Error.Fatal P B Event.Inner (processMessage cap env msg) := by
  refine regular_bind (regular_emit ⟨rfl, rfl⟩) fun _ => ?_
  cases msg with
  | spawn id args =>
    refine regular_get_bind fun s => ?_
    cases s.firstForeignPipe id args.pipes with
    | some p =>
      refine regular_unexpected ?_
      refine Unlike.append (Unlike.append (Unlike.append (Unlike.append ?_ _) _) _) _
      unfold Unlike
      decide
    | none =>
      refine regular_bind (regular_bootVm cap env _ _ _ _) fun _ => ?_
      refine regular_bind (regular_modify fun _ => ⟨rfl, rfl⟩) fun _ => ?_
      refine regular_bind (regular_ensure cap env _) fun _ => ?_
      exact regular_bind (regular_store64 _ _ _) fun _ => regular_setA0 _ _
  | join id args =>
    refine regular_get_bind fun s => ?_
    cases s.terminatedVms[args.targetId]? with
    | some code => exact regular_finishJoin cap env _ _ _
    | none => exact regular_ite (regular_blockVm _ _) (regular_rejectCall cap env _ _)
  | pipe id args =>
    refine regular_get_bind fun s => regular_bind (regular_unwrap _) fun created => ?_
    refine regular_bind (regular_modify fun _ => ⟨rfl, rfl⟩) fun _ => ?_
    refine regular_bind (regular_ensure cap env _) fun _ => ?_
    refine regular_bind (regular_store64 _ _ _) fun _ => ?_
    refine regular_bind (regular_store64 _ _ _) fun _ => ?_
    exact regular_setA0 _ _
  | pipeRead id args => exact regular_processPipeIo cap env _ _ _
  | pipeWrite id args => exact regular_processPipeIo cap env _ _ _

theorem regular_processMessageBox :
    Regular Error.Fatal P False Event.Inner (processMessageBox cap env) :=
  regular_get_bind fun _ => regular_bind (regular_change fun _ => ⟨fun _ _ h => h, False.elim⟩)
    fun _ => regular_forM (regular_processMessage cap env) _

/-- Answering the messages of the box posts no other. -/
theorem processMessageBox_clears {s s' : Scheduler μ κ} {l : List (Event μ)}
    (h : processMessageBox cap env s = .ok ⟨⟩ s' l) : s'.messageBox = [] := by
  have hkeeps : Regular Error.Fatal (fun _ => False) True Event.Inner
      (s.messageBox.forM (processMessage cap env)) :=
    regular_forM (regular_processMessage cap env) _
  rw [processMessageBox, get_bind_run, modify_bind_run] at h
  have hmeets := hkeeps { s with messageBox := [] }
  rw [h] at hmeets
  exact hmeets.1.box trivial

omit cap env in
/-- Only a VM that waits on a pipe is finished, and any other is left alone. -/
theorem regular_finishClosed (id : VmId) :
    Regular Error.Fatal P B Event.Inner (finishClosed id : SchedulerM μ κ Unit) := by
  refine regular_get_bind fun s => regular_bind (regular_unwrap _) fun state => ?_
  cases state with
  | waitForRead pipe length bufferAddr lengthAddr =>
    refine regular_bind (regular_store64 _ _ _) fun _ => ?_
    exact regular_bind (regular_setA0 _ _) fun _ => regular_setState _ _
  | waitForWrite pipe consumed length bufferAddr lengthAddr =>
    refine regular_bind (regular_store64 _ _ _) fun _ => ?_
    exact regular_bind (regular_setA0 _ _) fun _ => regular_setState _ _
  | _ => exact regular_pure _

/-- A pair other than a reader and a writer crashes the host. -/
theorem regular_transferPair (pair : (VmId × VmState) × (VmId × VmState)) :
    Regular Error.Fatal P B Event.Inner (transferPair cap env pair) := by
  obtain ⟨⟨readVmId, readState⟩, ⟨writeVmId, writeState⟩⟩ := pair
  cases readState with
  | waitForRead readPipe readLength readBufferAddr readLengthAddr =>
    cases writeState with
    | waitForWrite writePipe consumed writeLength writeBufferAddr writeLengthAddr =>
      refine regular_bind (regular_ensure cap env _) fun _ => ?_
      refine regular_bind (regular_unwrap _) fun _ => ?_
      refine regular_bind (regular_loadBytes _ _ _) fun _ => ?_
      refine regular_bind (regular_storeBytes _ _ _) fun _ => ?_
      refine regular_bind (regular_emit ⟨rfl, rfl⟩) fun _ => ?_
      refine regular_bind (regular_store64 _ _ _) fun _ => ?_
      refine regular_bind (regular_setA0 _ _) fun _ => ?_
      refine regular_bind (regular_setState _ _) fun _ => regular_ite ?_ (regular_setState _ _)
      refine regular_bind (regular_store64 _ _ _) fun _ => ?_
      exact regular_bind (regular_setA0 _ _) fun _ => regular_setState _ _
    | _ => exact regular_crash
  | _ => exact regular_crash

/-- The pass over the closed pipes and the pairs. -/
theorem regular_processIo : Regular Error.Fatal P B Event.Inner (processIo cap env) := by
  intro s
  rw [processIo_run]
  have hclosed : Regular Error.Fatal P B Event.Inner
      (s.closedVms.forM finishClosed : SchedulerM μ κ Unit) :=
    regular_forM (fun id => regular_finishClosed id) _
  have hpaired : Regular Error.Fatal P B Event.Inner (s.pairedVms.forM (transferPair cap env)) :=
    regular_forM (fun pair => regular_transferPair cap env pair) _
  exact regular_bind hclosed (fun _ => hpaired) s

/-- Only a VM that exits is removed, and the root is kept even then. -/
theorem regular_terminateVm (id : VmId) (code : Int8) :
    Regular Error.Fatal (· = rootVmId) B Event.Inner (terminateVm cap env id code) := by
  refine regular_bind (regular_modify fun _ => ⟨rfl, rfl⟩) fun _ => ?_
  split
  · rename_i hroot
    refine regular_bind (regular_ensure cap env [id]) fun _ => regular_change ?_
    intro s
    refine ⟨?_, fun _ => rfl⟩
    rintro k rfl _
    exact mem_insert.mpr (Or.inl hroot.symm)
  · rename_i hroot
    refine regular_get_bind fun s => ?_
    have hjoin : Regular Error.Fatal (· = rootVmId) B Event.Inner
        ((joiningVms s.states id).forM fun p => finishJoin cap env p.1 p.2 code) := by
      refine regular_forM ?_ _
      intro p
      exact regular_finishJoin cap env p.1 p.2 code
    refine regular_bind hjoin fun _ => regular_change ?_
    intro s
    refine ⟨?_, fun _ => rfl⟩
    rintro k rfl hin
    exact mem_erase.mpr ⟨Ne.symm hroot, hin⟩

/-- The errors of an execution are values, so running a machine fails fatally only.
The messages it posts go to the box. -/
theorem regular_runVm (id : VmId) (pause : Pause) (limitCycles : ℕ) :
    Regular Error.Fatal P False (fun ev => ev.limit? = none)
      (runVm cap env id pause limitCycles) := by
  refine regular_bind (regular_ensure cap env _) fun _ => ?_
  refine regular_bind (regular_get_bind fun _ => regular_unwrap _) fun m => ?_
  refine regular_get_bind fun s => ?_
  dsimp only
  split
  case h_3 => exact fun _ => trivial
  all_goals
    refine regular_bind (regular_pure _) fun executed => regular_bind (regular_emit rfl) fun _ => ?_
    refine regular_bind (regular_change fun _ => ⟨fun _ _ h => h, False.elim⟩) fun _ => ?_
    refine regular_ite ?_ (regular_throw Error.fatal_cyclesOverflow)
    exact regular_bind (regular_modify fun _ => ⟨rfl, rfl⟩) fun _ => regular_pure _

end Messages

end DeterministicScheduler.Scheduler
