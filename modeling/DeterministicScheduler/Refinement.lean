import DeterministicScheduler.Events
import DeterministicScheduler.Execution
import DeterministicScheduler.Requests
import DeterministicScheduler.Waiting

/-!
# The bounded scheduler refines the unbounded one

The reference scheduler is the same code with no bound: every machine stays
instantiated and no snapshot is ever taken. `Related` holds between a bounded
scheduler and a reference that agree on everything but where machines are held.
Every function keeps it, apart from errors that a failing snapshot raises and
crashes of the bounded scheduler.
-/
namespace DeterministicScheduler.Scheduler

open ProgramLogic Program Outcome Std

variable {μ κ : Type}

/-- A scheduler that holds all of its VMs instantiated. -/
structure Resident (r : Scheduler μ κ) : Prop where
  suspended : r.suspended = ∅
  cover : ∀ id, id ∈ r.states ↔ id ∈ r.instantiated
  fresh : ∀ id, id ∈ r.states → id < r.nextVmId

/-- A scheduler and its reference. The VMs of `P` are live and `box` is the
message box of both. -/
structure Related (cap : Option ℕ) (env : Env μ κ) (P : VmId → Prop) (box : List Message)
    (w r : Scheduler μ κ) : Prop where
  stored : Stored cap env w
  resident : Resident r
  same : SameVms env w r
  live : ∀ id, P id → id ∈ r.states
  box : r.messageBox = box

variable {cap : Option ℕ} {env : Env μ κ} {P Q : VmId → Prop} {box : List Message}
  {w r : Scheduler μ κ} {α β : Type}

theorem Related.weaken (h : Related cap env P box w r) (hQ : ∀ id, Q id → id ∈ r.states) :
    Related cap env Q box w r :=
  { h with live := hQ }

/-- An instantiated VM is also instantiated in the reference, with the same core
and cycles. -/
theorem Related.machine (h : Related cap env P box w r) {id : VmId} {m : Machine μ}
    (hm : w.instantiated[id]? = some m) :
    ∃ m', r.instantiated[id]? = some m' ∧ m'.toCpu = m.toCpu := by
  have hlive : id ∈ r.states := by
    rw [← h.same.states, h.stored.cover]
    exact Or.inl (mem_iff_getElem?.mpr ⟨m, hm⟩)
  obtain ⟨m', hm'⟩ := mem_iff_getElem?.mp ((h.resident.cover id).mp hlive)
  have hcpu := h.same.cpu id
  rw [cpu?_of_instantiated hm, cpu?_of_instantiated hm', Option.some.injEq] at hcpu
  exact ⟨m', hm', hcpu.symm⟩

theorem cpu?_insert {s : Scheduler μ κ} {id k : VmId} {m : Machine μ} :
    cpu? env { s with instantiated := s.instantiated.insert id m } k =
      if k = id then some m.toCpu else s.cpu? env k := by
  simp only [cpu?, getElem?_insert]
  by_cases hk : k = id
  · simp only [if_pos hk]
  · simp only [if_neg hk]

theorem Stored.congr {s t : Scheduler μ κ} (h : Stored cap env s)
    (hin : t.instantiated = s.instantiated) (hsus : t.suspended = s.suspended)
    (hstates : t.states = s.states) : Stored cap env t := by
  obtain ⟨hdisjoint, hcover, hbound, htaken, hversion⟩ := h
  constructor
  · rwa [hin, hsus]
  · rwa [hin, hsus, hstates]
  · rwa [hin]
  · rwa [hsus]
  · rwa [hstates]

/-- Replacing the machine of an instantiated VM, alike on both sides. -/
theorem Related.setMachine (h : Related cap env P box w r) {id : VmId} {m n n' : Machine μ}
    (hm : w.instantiated[id]? = some m) (hn : n'.toCpu = n.toCpu) :
    Related cap env P box { w with instantiated := w.instantiated.insert id n }
      { r with instantiated := r.instantiated.insert id n' } := by
  have hid : id ∈ w.instantiated := mem_iff_getElem?.mpr ⟨m, hm⟩
  have hid' : id ∈ r.instantiated := by
    obtain ⟨m', hm', _⟩ := h.machine hm
    exact mem_iff_getElem?.mpr ⟨m', hm'⟩
  refine ⟨⟨?_, ?_, ?_, h.stored.taken, h.stored.version⟩,
    ⟨h.resident.suspended, ?_, h.resident.fresh⟩, ?_, h.live, h.box⟩
  · intro k hk
    exact h.stored.disjoint k ((mem_insert_of_mem hid).mp hk)
  · intro k
    rw [h.stored.cover, mem_insert_of_mem hid]
  · intro c hc
    have hsize : (w.instantiated.insert id n).size = w.instantiated.size := by
      rw [ExtTreeMap.size_insert, if_pos (ExtTreeMap.contains_iff_mem.mpr hid)]
    simpa only [hsize] using h.stored.bound c hc
  · intro k
    rw [h.resident.cover, mem_insert_of_mem hid']
  · refine { h.same with cpu := ?_ }
    intro k
    rw [cpu?_insert, cpu?_insert, hn, h.same.cpu k]

/-- Changing the state of a live VM. -/
theorem Related.setState (h : Related cap env P box w r) {id : VmId} (hid : id ∈ r.states)
    (state : VmState) :
    Related cap env P box { w with states := w.states.insert id state }
      { r with states := r.states.insert id state } := by
  have hsame : w.states.insert id state = r.states.insert id state := by
    rw [h.same.states]
  refine ⟨⟨h.stored.disjoint, ?_, h.stored.bound, h.stored.taken, ?_⟩,
    ⟨h.resident.suspended, ?_, ?_⟩, { h.same with states := hsame }, ?_, h.box⟩
  · intro k
    rw [hsame, mem_insert_of_mem hid, ← h.same.states]
    exact h.stored.cover k
  · intro k hk
    rw [hsame, mem_insert_of_mem hid, ← h.same.states] at hk
    exact h.stored.version k hk
  · intro k
    rw [mem_insert_of_mem hid]
    exact h.resident.cover k
  · intro k hk
    exact h.resident.fresh k ((mem_insert_of_mem hid).mp hk)
  · intro k hk
    exact (mem_insert_of_mem hid).mpr (h.live k hk)

/-- Two programs that end alike on related schedulers, which stay related. -/
abbrev Tracks (cap : Option ℕ) (env : Env μ κ) (P : VmId → Prop) (box : List Message)
    (x y : SchedulerM μ κ α) : Prop :=
  Lockstep (SnapshotError env) (Related cap env P box) x y

section Accesses

variable [Memory μ]

theorem tracks_access (id : VmId) (ev : Event μ) :
    Tracks cap env P box (access id ev : SchedulerM μ κ Unit) (access id ev) := by
  intro w r h
  cases hm : w.instantiated[id]? with
  | none => rw [access_panic hm]; trivial
  | some m =>
    obtain ⟨m', hm', hcpu⟩ := h.machine hm
    have hcore : m'.toCore = m.toCore := by rw [hcpu]
    cases hupdate : ev.update m.toCore with
    | error e =>
      rw [access_error hm hupdate, access_error hm' (hcore ▸ hupdate)]
      exact Or.inr ⟨r, rfl, h⟩
    | ok core =>
      rw [access_run hm hupdate, access_run hm' (hcore ▸ hupdate)]
      refine ⟨_, rfl, h.setMachine hm ?_⟩
      simp only [hcpu]

theorem tracks_setA0 (id : VmId) (value : UInt64) :
    Tracks cap env P box (setA0 id value : SchedulerM μ κ Unit) (setA0 id value) := by
  rw [setA0_eq]
  exact tracks_access _ _

theorem tracks_store8 (id : VmId) (addr value : UInt64) :
    Tracks cap env P box (store8 id addr value : SchedulerM μ κ Unit) (store8 id addr value) := by
  rw [store8_eq]
  exact tracks_access _ _

theorem tracks_store64 (id : VmId) (addr value : UInt64) :
    Tracks cap env P box (store64 id addr value : SchedulerM μ κ Unit)
      (store64 id addr value) := by
  rw [store64_eq]
  exact tracks_access _ _

theorem tracks_storeBytes (id : VmId) (addr : UInt64) (data : Bytes) :
    Tracks cap env P box (storeBytes id addr data : SchedulerM μ κ Unit)
      (storeBytes id addr data) := by
  rw [storeBytes_eq]
  exact tracks_access _ _

theorem tracks_loadBytes (id : VmId) (addr size : UInt64) :
    Tracks cap env P box (loadBytes id addr size : SchedulerM μ κ Bytes)
      (loadBytes id addr size) := by
  intro w r h
  cases hm : w.instantiated[id]? with
  | none => rw [loadBytes, bind_of_panic (machine_panic hm)]; trivial
  | some m =>
    obtain ⟨m', hm', hcpu⟩ := h.machine hm
    have hcore : m'.toCore = m.toCore := by rw [hcpu]
    rw [loadBytes, bind_of_ok (machine_run hm), bind_of_ok (machine_run hm'), hcore]
    exact Simulates.after _ (lockstep_ofExcept _ w r h)

omit [Memory μ] in
theorem tracks_setState {id : VmId} (hid : P id) (state : VmState) :
    Tracks cap env P box (setState id state : SchedulerM μ κ Unit) (setState id state) :=
  lockstep_modify fun _ _ h => h.setState (h.live id hid) state

omit [Memory μ] in
theorem tracks_blockVm {id : VmId} (hid : P id) (state : VmState) :
    Tracks cap env P box (blockVm id state : SchedulerM μ κ Unit) (blockVm id state) :=
  lockstep_bind (lockstep_emit _) fun _ => tracks_setState hid state

end Accesses

theorem tracks_ensure (hcap : ∀ c, cap = some c → 2 ≤ c) {ids : List VmId}
    (hids : ∀ id ∈ ids, P id) (hnodup : ids.Nodup) (hlen : ids.length ≤ 2) :
    Tracks cap env P box (ensureVmsInstantiated cap env ids)
      (ensureVmsInstantiated none env ids) := by
  intro w r h
  have hresident : ∀ id ∈ ids, id ∈ r.instantiated := fun id hid =>
    (h.resident.cover id).mp (h.live id (hids id hid))
  have hlive : ∀ id ∈ ids, id ∈ w.states := fun id hid =>
    h.same.states ▸ h.live id (hids id hid)
  have hmeets := ensureVmsInstantiated_meets h.stored hlive hnodup
    fun c hc => hlen.trans (hcap c hc)
  rw [ensureVmsInstantiated_noop hresident (by simp)]
  cases ho : ensureVmsInstantiated cap env ids w with
  | ok a w' l =>
    rw [ho] at hmeets
    obtain ⟨rfl, hstored, hsame, _⟩ := hmeets
    exact ⟨r, rfl, { h with stored := hstored, same := hsame.symm.trans h.same }⟩
  | err e w' l =>
    rw [ho] at hmeets
    exact Or.inl hmeets
  | panic => trivial

theorem checkedAdd_one_toNat {a b : UInt64} (h : checkedAdd a 1 = some b) :
    b.toNat = a.toNat + 1 := by
  simp only [checkedAdd, Option.ite_none_right_eq_some, Option.some.injEq] at h
  obtain ⟨hlt, rfl⟩ := h
  rw [UInt64.toNat_add, Nat.mod_eq_of_lt hlt]
  rfl

theorem checkedAdd_one_eq_some {a b : UInt64} (h : checkedAdd a 1 = some b) :
    b = a + 1 ∧ ∀ c, c ≤ a ↔ c < b := by
  simp only [checkedAdd] at h
  split at h
  · rename_i hlt
    cases h
    refine ⟨rfl, fun c => ?_⟩
    rw [UInt64.le_iff_toNat_le, UInt64.lt_iff_toNat_lt, UInt64.toNat_add]
    have hone : (1 : UInt64).toNat = 1 := rfl
    rw [hone] at hlt ⊢
    rw [Nat.mod_eq_of_lt hlt]
    omega
  · cases h

/-- A new VM, alike on both sides. -/
theorem Related.boot (h : Related cap env P box w r) {id : VmId} {m : Machine μ}
    (hnew : id ∉ r.states) (hfresh : id < r.nextVmId) (hversion : env.selectVersion = .ok ())
    (hroom : ∀ c, cap = some c → w.instantiated.size < c) :
    Related cap env P box
      { w with
        instantiated := w.instantiated.insert id m
        states := w.states.insert id .runnable }
      { r with
        instantiated := r.instantiated.insert id m
        states := r.states.insert id .runnable } := by
  have hnew' : id ∉ w.suspended := by
    intro hin
    rw [← h.same.states, h.stored.cover] at hnew
    exact hnew (Or.inr hin)
  refine ⟨⟨?_, ?_, ?_, h.stored.taken, fun _ _ => hversion⟩,
    ⟨h.resident.suspended, ?_, ?_⟩, { h.same with states := ?_, cpu := ?_ }, ?_, h.box⟩
  · intro k hk
    rcases mem_insert.mp hk with rfl | hk
    · exact hnew'
    · exact h.stored.disjoint k hk
  · intro k
    rw [mem_insert, mem_insert, h.stored.cover, or_assoc]
  · intro c hc
    have := hroom c hc
    simp only [ExtTreeMap.size_insert]
    split <;> omega
  · intro k
    rw [mem_insert, mem_insert, h.resident.cover]
  · intro k hk
    rcases mem_insert.mp hk with rfl | hk
    · exact hfresh
    · exact h.resident.fresh k hk
  · rw [h.same.states]
  · intro k
    have hinsert := h.same.cpu k
    simp only [cpu?, getElem?_insert] at hinsert ⊢
    by_cases hk : k = id
    · simp only [if_pos hk]
    · simpa only [if_neg hk] using hinsert
  · intro k hk
    exact mem_insert.mpr (Or.inr (h.live k hk))

theorem tracks_bootVm (hcap : ∀ c, cap = some c → 2 ≤ c) (dataPieceId : DataPieceId)
    (offset length : UInt64) (args : List Bytes) :
    Tracks cap env P box (bootVm cap env dataPieceId offset length args)
      (bootVm none env dataPieceId offset length args) := by
  intro w r h
  have hevict := evictUntilRoom_meets (fun c hc => (hcap c hc).trans_lt' (by decide))
    w.instantiated.size h.stored le_rfl
  have hnone : evictUntilRoom none env r.instantiated.size r = .ok ⟨⟩ r [] := by
    cases r.instantiated.size <;> simp [evictUntilRoom, hasRoom]
  simp only [bootVm, get_bind_run]
  rw [bind_of_ok hnone, after_nil]
  cases ho : evictUntilRoom cap env w.instantiated.size w with
  | panic => rw [bind_of_panic ho]; trivial
  | err e w' l =>
    rw [bind_of_err ho]
    rw [ho] at hevict
    exact Or.inl hevict
  | ok a w₁ l =>
    rw [ho] at hevict
    obtain ⟨rfl, hstored, hsame, hroom⟩ := hevict
    have h₁ : Related cap env P box w₁ r :=
      { h with stored := hstored, same := hsame.symm.trans h.same }
    rw [bind_of_ok ho, after_nil]
    simp only [get_bind_run, h₁.same.nextVmId]
    cases hnext : checkedAdd r.nextVmId 1 with
    | none => trivial
    | some nextVmId =>
      obtain ⟨_, hle⟩ := checkedAdd_one_eq_some hnext
      have hnew : r.nextVmId ∉ r.states := fun hin =>
        (UInt64.lt_irrefl _) (h.resident.fresh _ hin)
      have h₂ : Related cap env P box { w₁ with nextVmId } { r with nextVmId } := by
        refine ⟨h₁.stored.congr rfl rfl rfl, ⟨h.resident.suspended, h.resident.cover, ?_⟩,
          { h₁.same with nextVmId := rfl }, h₁.live, h₁.box⟩
        intro k hk
        exact (hle k).mp (UInt64.le_of_lt (h.resident.fresh k hk))
      simp only [unwrap_some, pure_bind_run, modify_bind_run, createDummyVm]
      cases hversion : env.selectVersion with
      | error e => exact Or.inr ⟨_, rfl, h₂⟩
      | ok _ =>
        simp only [pure_bind_run]
        cases env.txData.loadData dataPieceId offset length with
        | error e => exact Or.inr ⟨_, rfl, h₂⟩
        | ok loaded =>
          simp only [ofExcept_ok, pure_bind_run]
          cases env.loadProgram dataPieceId offset loaded.1 args with
          | error e => exact Or.inr ⟨_, rfl, h₂⟩
          | ok booted =>
            simp only [ofExcept_ok, pure_bind_run, emit_bind_run]
            refine Simulates.after _ ⟨_, rfl, ?_⟩
            exact h₂.boot hnew ((hle _).mp (UInt64.le_refl _)) hversion hroom

/-- A change of the pipes and the next slot, alike on both sides. -/
theorem Related.setPipes (h : Related cap env P box w r) (pipes : HashMap PipeId VmId)
    (nextPipeSlot : UInt64) :
    Related cap env P box { w with pipes, nextPipeSlot } { r with pipes, nextPipeSlot } :=
  ⟨h.stored.congr rfl rfl rfl, ⟨h.resident.suspended, h.resident.cover, h.resident.fresh⟩,
    { h.same with pipes := rfl, nextPipeSlot := rfl }, h.live, h.box⟩

section Messages

variable [Memory μ] (hcap : ∀ c, cap = some c → 2 ≤ c)

include hcap

omit [Memory μ] in
theorem tracks_ensure_one {id : VmId} (hid : P id) :
    Tracks cap env P box (ensureVmsInstantiated cap env [id])
      (ensureVmsInstantiated none env [id]) :=
  tracks_ensure hcap (by simpa using hid) (by simp) (by simp)

theorem tracks_rejectCall {id : VmId} (hid : P id) (code : UInt64) :
    Tracks cap env P box (rejectCall cap env id code) (rejectCall none env id code) :=
  lockstep_bind (tracks_ensure_one hcap hid) fun _ => tracks_setA0 id code

theorem tracks_processSpawn {id : VmId} (hid : P id) (args : SpawnArgs) :
    Tracks cap env P box (processSpawn cap env id args) (processSpawn none env id args) := by
  refine lockstep_get_bind fun w r h => ?_
  have hforeign : w.firstForeignPipe id args.pipes = r.firstForeignPipe id args.pipes := by
    simp only [firstForeignPipe, ownsPipe, h.same.pipes]
  rw [hforeign]
  cases r.firstForeignPipe id args.pipes with
  | some p => exact lockstep_throw _
  | none =>
    refine lockstep_bind (tracks_bootVm hcap _ _ _ _) fun spawned => ?_
    refine lockstep_bind (lockstep_modify fun w' r' h' => ?_) fun _ => ?_
    · rw [h'.same.pipes]
      exact h'.same.nextPipeSlot ▸ h'.setPipes _ _
    refine lockstep_bind (tracks_ensure_one hcap hid) fun _ => ?_
    exact lockstep_bind (tracks_store64 _ _ _) fun _ => tracks_setA0 _ _

theorem tracks_finishJoin {id : VmId} (hid : P id) (exitCodeAddr : UInt64) (code : Int8) :
    Tracks cap env P box (finishJoin cap env id exitCodeAddr code)
      (finishJoin none env id exitCodeAddr code) := by
  refine lockstep_bind (tracks_ensure_one hcap hid) fun _ => ?_
  refine lockstep_bind (tracks_store8 _ _ _) fun _ => ?_
  exact lockstep_bind (tracks_setA0 _ _) fun _ => tracks_setState hid _

theorem tracks_processJoin {id : VmId} (hid : P id) (args : JoinArgs) :
    Tracks cap env P box (processJoin cap env id args) (processJoin none env id args) := by
  refine lockstep_get_bind fun w r h => ?_
  rw [h.same.terminatedVms, h.same.states]
  cases r.terminatedVms[args.targetId]? with
  | some exitCode => exact tracks_finishJoin hcap hid _ _
  | none =>
    exact lockstep_ite (fun _ => tracks_blockVm hid _) fun _ => tracks_rejectCall hcap hid _

theorem tracks_processPipe {id : VmId} (hid : P id) (args : PipeArgs) :
    Tracks cap env P box (processPipe cap env id args) (processPipe none env id args) := by
  refine lockstep_get_bind fun w r h => ?_
  rw [h.same.nextPipeSlot]
  refine lockstep_bind (lockstep_unwrap _) fun created => ?_
  refine lockstep_bind (lockstep_modify fun w' r' h' => ?_) fun _ => ?_
  · rw [h'.same.pipes]
    exact h'.setPipes _ _
  refine lockstep_bind (tracks_ensure_one hcap hid) fun _ => ?_
  refine lockstep_bind (tracks_store64 _ _ _) fun _ => ?_
  exact lockstep_bind (tracks_store64 _ _ _) fun _ => tracks_setA0 _ _

theorem tracks_processPipeIo {id : VmId} (hid : P id) (pipe : PipeId) (waiting : VmState) :
    Tracks cap env P box (processPipeIo cap env id pipe waiting)
      (processPipeIo none env id pipe waiting) := by
  refine lockstep_get_bind fun w r h => ?_
  have howns : w.ownsPipe id pipe = r.ownsPipe id pipe := by
    simp only [ownsPipe, h.same.pipes]
  rw [howns, h.same.pipes]
  refine lockstep_ite (fun _ => tracks_rejectCall hcap hid _) fun _ => ?_
  exact lockstep_ite (fun _ => tracks_rejectCall hcap hid _) fun _ => tracks_blockVm hid _

theorem tracks_processMessage {msg : Message} (hid : P msg.vmId) :
    Tracks cap env P box (processMessage cap env msg) (processMessage none env msg) := by
  refine lockstep_bind (lockstep_emit _) fun _ => ?_
  cases msg with
  | spawn id args => exact tracks_processSpawn hcap hid args
  | join id args => exact tracks_processJoin hcap hid args
  | pipe id args => exact tracks_processPipe hcap hid args
  | pipeRead id args => exact tracks_processPipeIo hcap hid _ _
  | pipeWrite id args => exact tracks_processPipeIo hcap hid _ _

/-- Emptying the message box, alike on both sides. -/
theorem processMessageBox_simulates (h : Related cap env P box w r)
    (hbox : ∀ msg ∈ box, P msg.vmId) :
    Simulates (SnapshotError env) (processMessageBox cap env w) (processMessageBox none env r)
      (fun _ => Related cap env P []) (Related cap env P []) := by
  have hempty : Related cap env P [] { w with messageBox := [] } { r with messageBox := [] } :=
    ⟨h.stored.congr rfl rfl rfl, ⟨h.resident.suspended, h.resident.cover, h.resident.fresh⟩,
      { h.same with messageBox := rfl }, h.live, rfl⟩
  simp only [processMessageBox, get_bind_run, modify_bind_run]
  rw [h.same.messageBox, h.box]
  exact lockstep_forM box (fun msg hmsg => tracks_processMessage hcap (hbox msg hmsg)) _ _ hempty

end Messages

section Io

variable [Memory μ]

theorem tracks_finishClosed {id : VmId} (hid : P id) :
    Tracks cap env P box (finishClosed id : SchedulerM μ κ Unit) (finishClosed id) := by
  refine lockstep_get_bind fun w r h => ?_
  rw [h.same.states]
  refine lockstep_bind (lockstep_unwrap _) fun state => ?_
  cases state with
  | waitForRead pipe length bufferAddr lengthAddr =>
    refine lockstep_bind (tracks_store64 _ _ _) fun _ => ?_
    exact lockstep_bind (tracks_setA0 _ _) fun _ => tracks_setState hid _
  | waitForWrite pipe consumed length bufferAddr lengthAddr =>
    refine lockstep_bind (tracks_store64 _ _ _) fun _ => ?_
    exact lockstep_bind (tracks_setA0 _ _) fun _ => tracks_setState hid _
  | _ => exact lockstep_pure _

theorem tracks_transferPair (hcap : ∀ c, cap = some c → 2 ≤ c)
    {pair : (VmId × VmState) × (VmId × VmState)} (hread : P pair.1.1) (hwrite : P pair.2.1)
    (hne : pair.1.1 ≠ pair.2.1) :
    Tracks cap env P box (transferPair cap env pair) (transferPair none env pair) := by
  obtain ⟨⟨readVmId, readState⟩, ⟨writeVmId, writeState⟩⟩ := pair
  cases readState with
  | waitForRead readPipe readLength readBufferAddr readLengthAddr =>
    cases writeState with
    | waitForWrite writePipe consumed writeLength writeBufferAddr writeLengthAddr =>
      have hensure : Tracks cap env P box (ensureVmsInstantiated cap env [readVmId, writeVmId])
          (ensureVmsInstantiated none env [readVmId, writeVmId]) := by
        refine tracks_ensure hcap ?_ (by simpa using hne) (by simp)
        simpa using ⟨hread, hwrite⟩
      refine lockstep_bind hensure fun _ => lockstep_bind (lockstep_unwrap _) fun consumable => ?_
      refine lockstep_bind (tracks_loadBytes _ _ _) fun data => ?_
      refine lockstep_bind (tracks_storeBytes _ _ _) fun _ => lockstep_bind (lockstep_emit _)
        fun _ => ?_
      refine lockstep_bind (tracks_store64 _ _ _) fun _ =>
        lockstep_bind (tracks_setA0 _ _) fun _ => ?_
      refine lockstep_bind (tracks_setState hread _) fun _ => lockstep_ite (fun _ => ?_) fun _ => ?_
      · refine lockstep_bind (tracks_store64 _ _ _) fun _ => ?_
        exact lockstep_bind (tracks_setA0 _ _) fun _ => tracks_setState hwrite _
      · exact tracks_setState hwrite _
    | _ => exact lockstep_crash
  | _ => exact lockstep_crash

theorem tracks_passInOrder (hcap : ∀ c, cap = some c → 2 ≤ c) {ids : List VmId}
    {pairs : List ((VmId × VmState) × (VmId × VmState))} (hids : ∀ id ∈ ids, P id)
    (hpairs : ∀ pair ∈ pairs, P pair.1.1 ∧ P pair.2.1 ∧ pair.1.1 ≠ pair.2.1) :
    Tracks cap env P box (passInOrder cap env ids pairs) (passInOrder none env ids pairs) := by
  refine lockstep_bind (lockstep_forM _ fun id hid => tracks_finishClosed (hids id hid)) fun _ => ?_
  refine lockstep_forM _ fun pair hpair => ?_
  obtain ⟨hread, hwrite, hne⟩ := hpairs pair hpair
  exact tracks_transferPair hcap hread hwrite hne

omit [Memory μ] in
/-- A pass selects live VMs, and a pair is of two different ones. -/
theorem selected_live (s : Scheduler μ κ) : (∀ id ∈ s.closedVms, id ∈ s.states) ∧
    ∀ pair ∈ s.pairedVms, pair.1.1 ∈ s.states ∧ pair.2.1 ∈ s.states ∧ pair.1.1 ≠ pair.2.1 := by
  constructor
  · intro id hid
    obtain ⟨state, hstate, _⟩ := mem_closedVms.mp hid
    exact mem_iff_getElem?.mpr ⟨state, hstate⟩
  · intro pair hpair
    obtain ⟨hread, hwrite, _⟩ := of_mem_pairedVms hpair
    exact ⟨mem_iff_getElem?.mpr ⟨_, hread⟩, mem_iff_getElem?.mpr ⟨_, hwrite⟩,
      ne_of_mem_pairedVms hpair⟩

omit [Memory μ] in
theorem SameVms.selected (h : SameVms env w r) :
    w.closedVms = r.closedVms ∧ w.pairedVms = r.pairedVms := by
  simp only [closedVms, pairedVms, h.states, h.pipes, and_self]

theorem tracks_processIo (hcap : ∀ c, cap = some c → 2 ≤ c) :
    Tracks cap env P box (processIo cap env) (processIo none env) := by
  intro w r h
  let Q : VmId → Prop := fun id => P id ∨ id ∈ r.states
  have hQ : Related cap env Q box w r :=
    h.weaken fun id hid => hid.elim (h.live id) (fun hid => hid)
  obtain ⟨hclosed, hpaired⟩ := h.same.selected
  obtain ⟨hids, hpairs⟩ := selected_live r
  have htracks : Tracks cap env Q box (passInOrder cap env r.closedVms r.pairedVms)
      (passInOrder none env r.closedVms r.pairedVms) := by
    apply tracks_passInOrder hcap
    · exact fun id hid => Or.inr (hids id hid)
    · intro pair hpair
      obtain ⟨hread, hwrite, hne⟩ := hpairs pair hpair
      exact ⟨Or.inr hread, Or.inr hwrite, hne⟩
  rw [processIo_run, processIo_run, hclosed, hpaired]
  have hweaken : ∀ w' r', Related cap env Q box w' r' → Related cap env P box w' r' :=
    fun w' r' h' => h'.weaken fun id hid => h'.live id (Or.inl hid)
  exact (htracks w r hQ).mono (fun _ => hweaken) hweaken

end Io

/-- A scheduler and its reference, with the senders of pending messages live. -/
def Linked (cap : Option ℕ) (env : Env μ κ) (w r : Scheduler μ κ) : Prop :=
  Related cap env (fun id => ∃ msg ∈ r.messageBox, msg.vmId = id) r.messageBox w r

theorem Related.linked (h : Related cap env P box w r) (hbox : ∀ msg ∈ box, P msg.vmId) :
    Linked cap env w r := by
  have hlive : ∀ id, (∃ msg ∈ r.messageBox, msg.vmId = id) → id ∈ r.states := by
    rintro id ⟨msg, hmsg, rfl⟩
    exact h.live _ (hbox msg (h.box ▸ hmsg))
  exact { h.weaken hlive with box := rfl }

section Running

variable [Memory μ] {id : VmId} {m m' : Machine μ} {result : Except Error Int8} {cpu : Cpu μ}
  {posted : List Message}

/-- The scheduler after an execution of one machine, its cycles not yet in the total. -/
def executed (s : Scheduler μ κ) (id : VmId) (m : Machine μ) (result : Except Error Int8)
    (cpu : Cpu μ) (posted : List Message) : Scheduler μ κ :=
  { s with
    instantiated := s.instantiated.insert id
      { cpu with cycles := 0, exitCode := result.toOption.getD m.exitCode }
    messageBox := s.messageBox ++ posted }

/-- How running a VM ends once its machine has stopped. -/
def execution (s : Scheduler μ κ) (id : VmId) (m : Machine μ) (result : Except Error Int8)
    (cpu : Cpu μ) (posted : List Message) :
    Outcome Error (Event μ) (Scheduler μ κ) (Except Error Int8 × ℕ) :=
  if s.totalCycles + cpu.cycles < 2 ^ 64 then
    .ok (result, cpu.cycles)
      { s.executed id m result cpu posted with totalCycles := s.totalCycles + cpu.cycles }
      [.exec id m.toCpu cpu result posted]
  else
    .err .cyclesOverflow (s.executed id m result cpu posted)
      [.exec id m.toCpu cpu result posted]

omit [Memory μ] in
theorem execution_ok {s s' : Scheduler μ κ} {l : List (Event μ)} {result' : Except Error Int8}
    {consumedCycles : ℕ}
    (h : s.execution id m result cpu posted = .ok (result', consumedCycles) s' l) :
    result' = result ∧ consumedCycles = cpu.cycles ∧
      s' = { s.executed id m result cpu posted with totalCycles := s.totalCycles + cpu.cycles } ∧
      l = [.exec id m.toCpu cpu result posted] := by
  rw [execution] at h
  split at h
  · cases h
    exact ⟨rfl, rfl, rfl, rfl⟩
  · cases h

theorem runVm_run {s s' : Scheduler μ κ} {pause : Pause} {limitCycles : ℕ}
    (hensure : ensureVmsInstantiated cap env [id] s = .ok ⟨⟩ s' [])
    (hm : s'.instantiated[id]? = some m) :
    runVm cap env id pause limitCycles s =
      match runMachine env ⟨id, s'.totalCycles⟩ limitCycles pause m.toCpu with
      | .ok code cpu posted => s'.execution id m (.ok code) cpu posted
      | .err e cpu posted => s'.execution id m (.error e) cpu posted
      | .panic => .panic := by
  rw [runVm, bind_of_ok hensure, after_nil, bind_of_ok (machine_run hm), after_nil]
  simp only [get_bind_run]
  cases runMachine env ⟨id, s'.totalCycles⟩ limitCycles pause m.toCpu with
  | panic => rfl
  | ok code cpu posted =>
    simp only [pure_bind_run, emit_bind_run, modify_bind_run, execution]
    split <;> rfl
  | err e cpu posted =>
    simp only [pure_bind_run, emit_bind_run, modify_bind_run, execution]
    split <;> rfl

omit [Memory μ] in
theorem execution_simulates (h : Related cap env P box w r) (hid : P id)
    (hm : w.instantiated[id]? = some m) (hcpu : m'.toCpu = m.toCpu)
    (hbox : ∀ msg ∈ box, P msg.vmId) (hposted : ∀ msg ∈ posted, msg.vmId = id) :
    Simulates (SnapshotError env) (w.execution id m result cpu posted)
      (r.execution id m' result cpu posted)
      (fun _ w' r' => ∃ box, Related cap env P box w' r' ∧ ∀ msg ∈ box, P msg.vmId)
      (Linked cap env) := by
  have hbox' : ∀ msg ∈ box ++ posted, P msg.vmId := by
    intro msg hmsg
    rcases List.mem_append.mp hmsg with hmsg | hmsg
    · exact hbox msg hmsg
    · exact hposted msg hmsg ▸ hid
  let n : Machine μ := { cpu with cycles := 0, exitCode := result.toOption.getD m.exitCode }
  let n' : Machine μ := { cpu with cycles := 0, exitCode := result.toOption.getD m'.exitCode }
  have hsame : n'.toCpu = n.toCpu := rfl
  have hset := h.setMachine hm hsame
  have hexec : Related cap env P (box ++ posted) (w.executed id m result cpu posted)
      (r.executed id m' result cpu posted) := by
    refine ⟨hset.stored.congr rfl rfl rfl,
      ⟨hset.resident.suspended, hset.resident.cover, hset.resident.fresh⟩,
      { hset.same with messageBox := ?_ }, hset.live, ?_⟩
    · simp only [executed, h.same.messageBox]
    · simp only [executed, h.box]
  simp only [execution, h.same.totalCycles, hcpu]
  split
  · refine ⟨_, rfl, box ++ posted, ?_, hbox'⟩
    exact ⟨hexec.stored.congr rfl rfl rfl,
      ⟨hexec.resident.suspended, hexec.resident.cover, hexec.resident.fresh⟩,
      { hexec.same with totalCycles := rfl }, hexec.live, hexec.box⟩
  · exact Or.inr ⟨_, rfl, hexec.linked hbox'⟩

theorem runVm_simulates (hcap : ∀ c, cap = some c → 2 ≤ c) (h : Related cap env P box w r)
    (hid : P id) (hbox : ∀ msg ∈ box, P msg.vmId) (pause : Pause) (limitCycles : ℕ) :
    Simulates (SnapshotError env) (runVm cap env id pause limitCycles w)
      (runVm none env id pause limitCycles r)
      (fun _ w' r' => ∃ box, Related cap env P box w' r' ∧ ∀ msg ∈ box, P msg.vmId)
      (Linked cap env) := by
  have hnoop : ensureVmsInstantiated none env [id] r = .ok ⟨⟩ r [] := by
    refine ensureVmsInstantiated_noop ?_ (by simp)
    simpa using (h.resident.cover id).mp (h.live id hid)
  have hensure := tracks_ensure_one hcap hid w r h
  rw [hnoop] at hensure
  cases ho : ensureVmsInstantiated cap env [id] w with
  | panic => rw [runVm, bind_of_panic ho]; trivial
  | err e w₁ l =>
    rw [ho] at hensure
    rw [runVm, bind_of_err ho]
    rcases hensure with hX | ⟨r₁, hr, _⟩
    · exact Or.inl hX
    · cases hr
  | ok a w₁ l =>
    rw [ho] at hensure
    obtain ⟨r₁, hr, h₁⟩ := hensure
    cases hr
    cases hm : w₁.instantiated[id]? with
    | none => rw [runVm, bind_of_ok ho, bind_of_panic (machine_panic hm)]; trivial
    | some m =>
      obtain ⟨m', hm', hcpu⟩ := h₁.machine hm
      rw [runVm_run ho hm, runVm_run hnoop hm', hcpu, h₁.same.totalCycles]
      have hmeets := runMachine_meets env ⟨id, r.totalCycles⟩ limitCycles pause m.toCpu
      cases hrun : runMachine env ⟨id, r.totalCycles⟩ limitCycles pause m.toCpu with
      | panic => trivial
      | ok code cpu posted =>
        rw [hrun] at hmeets
        exact execution_simulates h₁ hid hm hcpu hbox (by simp [hmeets.1])
      | err e cpu posted =>
        rw [hrun] at hmeets
        exact execution_simulates h₁ hid hm hcpu hbox hmeets.1.vmId

omit [Memory μ] in
theorem mem_joiningVms {states : BTreeMap VmId VmState} {target k : VmId} {addr : UInt64} :
    (k, addr) ∈ joiningVms states target ↔ states[k]? = some (.join target addr) := by
  simp only [joiningVms, List.mem_filterMap, Prod.exists]
  constructor
  · rintro ⟨id, state, hmem, hjoin⟩
    rw [ExtTreeMap.mem_toList_iff_getElem?_eq_some] at hmem
    cases state with
    | join targetVmId exitCodeAddr =>
      simp only [Option.ite_none_right_eq_some, Option.some.injEq, Prod.mk.injEq] at hjoin
      obtain ⟨rfl, rfl, rfl⟩ := hjoin
      exact hmem
    | _ => simp at hjoin
  · intro hstate
    exact ⟨k, _, ExtTreeMap.mem_toList_iff_getElem?_eq_some.mpr hstate, by simp⟩

omit [Memory μ] in
/-- A terminated VM is purged, alike on both sides. -/
theorem Related.purge (h : Related cap env P [] w r) (id : VmId) (pipes : HashMap PipeId VmId) :
    Related cap env (fun _ => False) []
      { w with
        pipes
        states := w.states.erase id
        instantiated := w.instantiated.erase id
        suspended := w.suspended.erase id }
      { r with
        pipes
        states := r.states.erase id
        instantiated := r.instantiated.erase id
        suspended := r.suspended.erase id } := by
  refine ⟨⟨?_, ?_, ?_, ?_, ?_⟩, ⟨?_, ?_, ?_⟩, { h.same with pipes := rfl, states := ?_, cpu := ?_ },
    by simp, h.box⟩
  · intro k hk
    rw [mem_erase] at hk ⊢
    exact fun hk' => h.stored.disjoint k hk.2 hk'.2
  · intro k
    rw [mem_erase, mem_erase, mem_erase, h.stored.cover, ← and_or_left]
  · intro c hc
    exact ExtTreeMap.size_erase_le.trans (h.stored.bound c hc)
  · intro k snapshot hk
    rw [getElem?_erase] at hk
    split at hk
    · cases hk
    · exact h.stored.taken k snapshot hk
  · intro k hk
    exact h.stored.version k (mem_erase.mp hk).2
  · rw [h.resident.suspended]
    simp
  · intro k
    rw [mem_erase, mem_erase, h.resident.cover]
  · intro k hk
    exact h.resident.fresh k (mem_erase.mp hk).2
  · rw [h.same.states]
  · intro k
    have hcpu := h.same.cpu k
    simp only [cpu?, getElem?_erase] at hcpu ⊢
    by_cases hk : k = id
    · simp only [if_pos hk, Option.bind_none]
    · simpa only [if_neg hk] using hcpu

omit [Memory μ] in
/-- The root is the only VM kept when it terminates, alike on both sides. -/
theorem Related.keepOnly (h : Related cap env P [] w r) {id : VmId} (hid : id ∈ w.instantiated) :
    Related cap env (fun _ => False) []
      { w with
        instantiated := w.instantiated.filter fun k _ => k == id
        suspended := ∅
        states := (∅ : BTreeMap VmId VmState).insert id .terminated }
      { r with
        instantiated := r.instantiated.filter fun k _ => k == id
        suspended := ∅
        states := (∅ : BTreeMap VmId VmState).insert id .terminated } := by
  have hmem : ∀ {s : Scheduler μ κ}, id ∈ s.instantiated →
      ∀ k, k ∈ s.instantiated.filter (fun k _ => k == id) ↔ k = id := by
    intro s hs k
    rw [mem_iff_getElem?, getElem?_filter_key]
    by_cases hk : k = id
    · subst k
      simpa using mem_iff_getElem?.mp hs
    · simp [hk]
  have hlive : id ∈ w.states := (h.stored.cover id).mpr (Or.inl hid)
  have hid' : id ∈ r.instantiated := by
    rw [← h.resident.cover, ← h.same.states]
    exact hlive
  refine ⟨⟨by simp, ?_, ?_, by simp, fun _ _ => h.stored.version id hlive⟩, ⟨rfl, ?_, ?_⟩,
    { h.same with states := rfl, cpu := ?_ }, by simp, h.box⟩
  · intro k
    rw [mem_insert, hmem hid]
    simp
  · intro c hc
    exact ExtTreeMap.size_filter_le_size.trans (h.stored.bound c hc)
  · intro k
    rw [mem_insert, hmem hid']
    simp
  · intro k hk
    rcases mem_insert.mp hk with rfl | hk
    · exact h.resident.fresh _ ((h.resident.cover _).mpr hid')
    · simp at hk
  · intro k
    simp only [cpu?, getElem?_filter_key]
    by_cases hk : k = id
    · subst k
      have hcpu := h.same.cpu id
      obtain ⟨m, hm⟩ := mem_iff_getElem?.mp hid
      obtain ⟨m', hm'⟩ := mem_iff_getElem?.mp hid'
      simpa [cpu?, hm, hm'] using hcpu
    · simp [hk]

theorem terminateVm_simulates (hcap : ∀ c, cap = some c → 2 ≤ c) (h : Related cap env P [] w r)
    (hid : P id) (code : Int8) :
    Simulates (SnapshotError env) (terminateVm cap env id code w) (terminateVm none env id code r)
      (fun _ => Related cap env (fun _ => False) []) (Linked cap env) := by
  have hlinked : ∀ {Q : VmId → Prop} (w' r' : Scheduler μ κ),
      Related cap env Q [] w' r' → Linked cap env w' r' :=
    fun w' r' h' => h'.linked (by simp)
  have hcode : Related cap env P []
      { w with terminatedVms := w.terminatedVms.insert id code }
      { r with terminatedVms := r.terminatedVms.insert id code } := by
    refine ⟨h.stored.congr rfl rfl rfl,
      ⟨h.resident.suspended, h.resident.cover, h.resident.fresh⟩,
      { h.same with terminatedVms := ?_ }, h.live, h.box⟩
    rw [h.same.terminatedVms]
  simp only [terminateVm, modify_bind_run]
  split
  · have hlive : ∀ k ∈ [id], k ∈ w.states := by
      simpa using h.same.states ▸ h.live id hid
    have hensure := ensureVmsInstantiated_meets hcode.stored hlive (by simp)
      fun c hc => (hcap c hc).trans' (by simp)
    have htracks := tracks_ensure_one hcap hid _ _ hcode
    rw [bind_run, bind_run]
    cases ho : ensureVmsInstantiated cap env [id]
        { w with terminatedVms := w.terminatedVms.insert id code } with
    | panic => trivial
    | err e w' l =>
      rw [ho] at hensure
      exact Or.inl hensure
    | ok a w' l =>
      rw [ho] at hensure htracks
      obtain ⟨r', hr', h'⟩ := htracks
      rw [hr']
      exact ⟨_, rfl, h'.keepOnly (hensure.2.2.2 id (by simp))⟩
  · simp only [get_bind_run]
    have hjoiners : joiningVms w.states id = joiningVms r.states id := by
      rw [h.same.states]
    rw [hjoiners]
    let Q : VmId → Prop := fun k => k ∈ r.states
    have hjoin : Tracks cap env Q []
        ((joiningVms r.states id).forM fun p => finishJoin cap env p.1 p.2 code)
        ((joiningVms r.states id).forM fun p => finishJoin none env p.1 p.2 code) := by
      refine lockstep_forM _ fun joiner hjoiner => tracks_finishJoin hcap ?_ _ _
      exact mem_iff_getElem?.mpr ⟨_, mem_joiningVms.mp hjoiner⟩
    refine simulates_bind ((hjoin _ _ (hcode.weaken fun k hk => hk)).mono (fun _ _ _ h => h)
      hlinked) ?_
    intro _ w' r' h'
    rw [modify_run, modify_run, h'.same.pipes]
    exact ⟨_, rfl, h'.purge id _⟩

omit [Memory μ] in
theorem of_vmIdToRun {states : BTreeMap VmId VmState} (h : vmIdToRun states = some id) :
    states[id]? = some .runnable := by
  obtain ⟨⟨k, state⟩, hfind, rfl⟩ := Option.map_eq_some_iff.mp h
  have hmem := List.mem_of_find?_eq_some hfind
  have hrunnable : state = .runnable := by simpa using List.find?_some hfind
  rw [List.mem_reverse, ExtTreeMap.mem_toList_iff_getElem?_eq_some] at hmem
  exact hrunnable ▸ hmem

/-- One round of the bounded scheduler is one round of the reference. -/
theorem iterate_simulates (hcap : ∀ c, cap = some c → 2 ≤ c) (h : Linked cap env w r)
    (pause : Pause) (limitCycles : ℕ) :
    Simulates (SnapshotError env) (iterate cap env pause limitCycles w)
      (iterate none env pause limitCycles r) (fun _ => Linked cap env) (Linked cap env) := by
  have hsenders : ∀ msg ∈ r.messageBox, ∃ msg' ∈ r.messageBox, msg'.vmId = msg.vmId :=
    fun msg hmsg => ⟨msg, hmsg, rfl⟩
  simp only [iterate, emit_bind_run]
  refine Simulates.after _ (simulates_bind ((tracks_processIo hcap w r h).mono
    (fun _ _ _ h => h) fun w' r' h' => h'.linked hsenders) ?_)
  intro _ w₁ r₁ h₁
  simp only [get_bind_run, h₁.same.states]
  cases hrun : vmIdToRun r₁.states with
  | none => exact Or.inr ⟨r₁, rfl, h₁.linked hsenders⟩
  | some id =>
    let P : VmId → Prop := fun k => k = id ∨ ∃ msg ∈ r.messageBox, msg.vmId = k
    have hlive : ∀ k, P k → k ∈ r₁.states := by
      rintro k (rfl | hk)
      · exact mem_iff_getElem?.mpr ⟨_, of_vmIdToRun hrun⟩
      · exact h₁.live k hk
    refine simulates_bind (runVm_simulates hcap (h₁.weaken hlive) (Or.inl rfl)
      (fun msg hmsg => Or.inr (hsenders msg hmsg)) pause limitCycles) ?_
    rintro ⟨result, consumedCycles⟩ w₂ r₂ ⟨box, h₂, hbox⟩
    refine simulates_bind ((processMessageBox_simulates hcap h₂ hbox).mono (fun _ _ _ h => h)
      fun w' r' h' => h'.linked (by simp)) ?_
    intro _ w₃ r₃ h₃
    have hempty : w₃.messageBox = r₃.messageBox := h₃.same.messageBox
    simp only [get_bind_run, hempty, h₃.box, List.isEmpty_nil, if_true]
    cases result with
    | ok code =>
      refine simulates_bind (terminateVm_simulates hcap h₃ (Or.inl rfl) code) ?_
      intro _ w₄ r₄ h₄
      exact ⟨r₄, rfl, h₄.linked (by simp)⟩
    | error e =>
      dsimp only
      split
      · exact ⟨r₃, rfl, h₃.linked (by simp)⟩
      · exact Or.inr ⟨r₃, rfl, h₃.linked (by simp)⟩

end Running

end DeterministicScheduler.Scheduler
