import DeterministicScheduler.Crashes

/-!
# The steps of the reference are taken

What the steps of the reference allow is what its code does: where the accesses of an
operation, of an answer or of a join go through, the function that makes them returns.
-/
namespace DeterministicScheduler.Scheduler

open ProgramLogic Program Outcome Std

variable {μ κ : Type} [Memory μ] {env : Env μ κ} {s s' t : Scheduler μ κ} {id : VmId}
  {m : Machine μ} {core : Core μ} {α : Type} {l : List (Event μ)}

omit [Memory μ] in
/-- A VM whose machine is left alone and whose state is set. -/
theorem settled_self {state : VmState} (hm : s.instantiated[id]? = some m) :
    s.settled id m m.toCore state = { s with states := s.states.insert id state } := by
  simp only [settled, accessed, insert_self hm]

theorem access_bind_run {ev : Event μ} {x : SchedulerM μ κ α} (hm : s.instantiated[id]? = some m)
    (hupdate : ev.update m.toCore = .ok core) :
    (do access id ev; x : SchedulerM μ κ α) s = (x (s.accessed id m core)).after [ev] := by
  rw [bind_of_ok (access_run hm hupdate)]
  rfl

theorem access_accessed {ev : Event μ} (hm : s.instantiated[id]? = some m)
    (hupdate : ev.update m.toCore = .ok core) :
    (access id ev : SchedulerM μ κ Unit) s = .ok ⟨⟩ (s.accessed id m core) [ev] :=
  access_run hm hupdate

theorem transferPair_run {rd : Read} {wr : Write} {readPipe : PipeId} {mr mw : Machine μ}
    {data : Bytes} {readCore writeCore : Core μ} (hr : Resident s)
    (hmr : s.instantiated[rd.vmId]? = some mr) (hmw : s.instantiated[wr.vmId]? = some mw)
    (hne : rd.vmId ≠ wr.vmId) (hle : wr.consumed ≤ wr.length)
    (hload : Memory.loadBytes mw.memory (wr.bufferAddr + wr.consumed) (wr.copiable rd) = .ok data)
    (hreadCore : applyEvents (rd.events data (wr.copiable rd)) mr.toCore = .ok readCore)
    (hwriteCore : applyEvents (wr.events rd) mw.toCore = .ok writeCore) :
    transferPair none env ((rd.vmId, rd.state readPipe), (wr.vmId, wr.state)) s =
      .ok ⟨⟩ ((s.settled rd.vmId mr readCore .runnable).settled wr.vmId mw writeCore (wr.next rd))
        (transferLog rd wr data) := by
  have hlive : ∀ k ∈ [rd.vmId, wr.vmId], k ∈ s.states := by
    simp only [List.mem_cons, List.not_mem_nil, or_false, hr.cover, mem_iff_getElem?]
    rintro k (rfl | rfl)
    · exact ⟨mr, hmr⟩
    · exact ⟨mw, hmw⟩
  have hconsumable : checkedSub wr.length wr.consumed = some (wr.length - wr.consumed) :=
    if_pos hle
  have hloaded : (loadBytes wr.vmId (wr.bufferAddr + wr.consumed) (wr.copiable rd) :
      SchedulerM μ κ Bytes) s = .ok data s [] := by
    rw [loadBytes, bind_of_ok (machine_run hmw), hload]
    rfl
  obtain ⟨core₁, hstore, hrest⟩ := applyEvents_cons.mp hreadCore
  have hmw' : (s.settled rd.vmId mr readCore .runnable).instantiated[wr.vmId]? = some mw := by
    simp only [settled, accessed, getElem?_insert, if_neg hne.symm, hmw]
  simp only [transferPair, Read.state, Write.state, hr.ensure_bind hlive, store64_eq, setA0_eq,
    storeBytes_eq]
  rw [hconsumable, unwrap_some, pure_bind_run]
  change ((loadBytes wr.vmId (wr.bufferAddr + wr.consumed) (wr.copiable rd) >>= fun data => do
    access rd.vmId (.storeBytes rd.vmId rd.bufferAddr data)
    emit (.transfer rd.vmId wr.vmId wr.pipe data)
    access rd.vmId (.store64 rd.vmId rd.lengthAddr (wr.copiable rd))
    access rd.vmId (.setA0 rd.vmId success)
    setState rd.vmId .runnable
    if wr.consumed + wr.copiable rd = wr.length then do
      access wr.vmId (.store64 wr.vmId wr.lengthAddr wr.length)
      access wr.vmId (.setA0 wr.vmId success)
      setState wr.vmId .runnable
    else
      setState wr.vmId (.waitForWrite wr.pipe (wr.consumed + wr.copiable rd) wr.length
        wr.bufferAddr wr.lengthAddr) : SchedulerM μ κ Unit)) s = _
  rw [bind_of_ok hloaded, access_bind_run hmr hstore, emit_bind_run,
    access_access_run accessed_machine hrest, accessed_accessed, setState, modify_bind_run]
  change (after [] (after _ (after _ (after _ ((if wr.consumed + wr.copiable rd = wr.length then _
    else _ : SchedulerM μ κ Unit) (s.settled rd.vmId mr readCore .runnable)))))) = _
  by_cases hfinishes : wr.consumed + wr.copiable rd = wr.length
  · have hfin : wr.finishes rd = true := beq_iff_eq.mpr hfinishes
    rw [Write.events, if_pos hfin] at hwriteCore
    rw [if_pos hfinishes, access_access_run hmw' hwriteCore, transferLog, Write.events, if_pos hfin,
      Write.next, if_pos hfin]
    rfl
  · have hfin : ¬ wr.finishes rd = true := fun h => hfinishes (beq_iff_eq.mp h)
    rw [Write.events, if_neg hfin] at hwriteCore
    cases hwriteCore
    rw [if_neg hfinishes, transferLog, Write.events, if_neg hfin, Write.next, if_neg hfin]
    exact congrArg (fun u => Outcome.ok PUnit.unit u _) (settled_self hmw').symm

/-- A pass whose operations go through. -/
theorem CarriedOut.run {ids : List VmId} {pairs : List ((VmId × VmState) × (VmId × VmState))}
    (h : CarriedOut env ids pairs s l s') (hinv : Invariant s)
    (hnodup : (operatingVms ids pairs).Nodup) :
    ∃ t l₁ l₂, ids.forM finishClosed s = .ok ⟨⟩ t l₁ ∧
      pairs.forM (transferPair none env) t = .ok ⟨⟩ s' l₂ ∧ l = l₁ ++ l₂ := by
  induction h with
  | done s => exact ⟨s, [], [], rfl, rfl, rfl⟩
  | @closed ids pairs s s' l id state m core hstate hclosed hm hcore _ ih =>
    have hstep : Step env s (closedEvents id state) (s.settled id m core .runnable) :=
      .closed hstate hclosed hm hcore
    obtain ⟨t, l₁, l₂, hfinished, htransferred, rfl⟩ :=
      ih (hstep.invariant hinv) (List.nodup_cons.mp hnodup).2
    refine ⟨t, closedEvents id state ++ l₁, l₂, ?_, htransferred, (List.append_assoc _ _ _).symm⟩
    rw [forM_cons, bind_of_ok (finishClosed_run hstate hclosed hm hcore), hfinished]
    rfl
  | @transferred pairs s s' l rd wr mr mw data readCore writeCore hread hwrite hopen hmr hmw hle
      hload hreadCore hwriteCore _ ih =>
    have hstep : Step env s (transferLog rd wr data) _ :=
      .transferred hread hwrite hopen hmr hmw hload hreadCore hwriteCore
    change (rd.vmId :: wr.vmId :: operatingVms [] pairs).Nodup at hnodup
    simp only [List.nodup_cons, List.mem_cons, not_or] at hnodup
    obtain ⟨⟨hne, _⟩, _, hnodup⟩ := hnodup
    obtain ⟨t, l₁, l₂, hfinished, htransferred, rfl⟩ := ih (hstep.invariant hinv) hnodup
    cases hfinished
    refine ⟨s, [], transferLog rd wr data ++ l₂, rfl, ?_, rfl⟩
    rw [forM_cons, bind_of_ok (transferPair_run hinv.resident hmr hmw hne hle hload hreadCore
      hwriteCore), htransferred]
    rfl

/-- A pass whose selected operations go through returns. -/
theorem CarriedOut.processIo (h : CarriedOut env s.closedVms s.pairedVms s l s')
    (hinv : Invariant s) (hrun : Running s) : processIo none env s = .ok ⟨⟩ s' l := by
  obtain ⟨t, l₁, l₂, hfinished, htransferred, rfl⟩ := h.run hinv hrun.selectedVms_nodup
  rw [processIo_run, passInOrder, bind_of_ok hfinished, htransferred]
  rfl

omit [Memory μ] in
theorem bootVm_run {cap : Option ℕ} {args : SpawnArgs} {charge : ℕ} {machine : Machine μ}
    (hroom : evictUntilRoom cap env s.instantiated.size s = .ok ⟨⟩ s [])
    (hversion : env.selectVersion = .ok ())
    (hnext : checkedAdd s.nextVmId 1 = some (s.nextVmId + 1))
    (hboot : Boots env args charge machine) :
    bootVm cap env args.dataPieceId args.offset args.length args.argv s =
      .ok s.nextVmId (s.booted s.nextVmId machine []) [.boot s.nextVmId charge] := by
  obtain ⟨program, length, core, bytes, hload, hprogram, rfl, rfl⟩ := hboot
  simp only [bootVm, get_bind_run]
  rw [bind_of_ok hroom, after_nil]
  simp only [get_bind_run, hnext, unwrap_some, pure_bind_run, modify_bind_run, createDummyVm,
    hversion, hload, hprogram, ofExcept_ok, emit_bind_run, pure_run]
  rfl

omit [Memory μ] in
/-- What a read or a write meets: a pipe of another VM, a closed end, or a wait. -/
theorem processPipeIo_eq {pipe : PipeId} {waiting : VmState} :
    processPipeIo none env id pipe waiting s =
      if s.pipes[pipe]? ≠ some id then rejectCall none env id invalidPipe s
      else if pipe.otherPipe ∈ s.pipes then blockVm id waiting s
      else rejectCall none env id otherEndClosed s := by
  simp only [processPipeIo, get_bind_run, ownsPipe, Bool.not_eq_true', beq_eq_false_iff_ne,
    ← ExtTreeMap.contains_iff_mem]
  by_cases howns : s.pipes[pipe]? ≠ some id
  · rw [if_pos howns, if_pos howns]
  · rw [if_neg howns, if_neg howns]
    cases s.pipes.contains pipe.otherPipe <;> rfl

/-- What a join meets: an exit code, a VM to wait for, or neither. -/
theorem processJoin_eq {args : JoinArgs} : processJoin none env id args s =
    match s.terminatedVms[args.targetId]? with
    | some code => finishJoin none env id args.exitCodeAddr code s
    | none =>
      if args.targetId ∈ s.states then blockVm id (.join args.targetId args.exitCodeAddr) s
      else rejectCall none env id joinFailure s := by
  simp only [processJoin, get_bind_run, ← ExtTreeMap.contains_iff_mem]
  cases s.terminatedVms[args.targetId]? with
  | some code => rfl
  | none => cases s.states.contains args.targetId <;> rfl

section Answers

variable (hr : Resident s) (hstate : s.states[id]? = some .runnable)
  (hm : s.instantiated[id]? = some m)

include hr hstate hm

theorem rejectCall_run (code : UInt64) : rejectCall none env id code s =
    .ok ⟨⟩ (s.settled id m (m.toCore.setRegister A0 code) .runnable) [.setA0 id code] := by
  have hid : id ∈ s.states := mem_iff_getElem?.mpr ⟨_, hstate⟩
  rw [rejectCall, hr.ensure_bind (by simpa using hid), setA0_eq, access_run hm rfl,
    settled_of_state hstate]
  rfl

omit hstate in
theorem finishJoin_run (hid : id ∈ s.states) {exitCodeAddr : UInt64} {code : Int8}
    (hcore : applyEvents (joinEvents id exitCodeAddr code) m.toCore = .ok core) :
    finishJoin none env id exitCodeAddr code s =
      .ok ⟨⟩ (s.settled id m core .runnable) (joinEvents id exitCodeAddr code) := by
  rw [finishJoin, hr.ensure_bind (by simpa using hid), store8_eq, setA0_eq,
    access_access_run hm hcore]
  rfl

theorem processPipe_run {args : PipeArgs} {p1 p2 : PipeId} {slot : UInt64}
    (hcreate : PipeId.create s.nextPipeSlot = some (p1, p2, slot))
    (hcore : applyEvents (pipeEvents id args p1 p2) m.toCore = .ok core) :
    processPipe none env id args s =
      .ok ⟨⟩ ((s.piped id p1 p2 slot).settled id m core .runnable) (pipeEvents id args p1 p2) := by
  have hid : id ∈ (s.piped id p1 p2 slot).states := mem_iff_getElem?.mpr ⟨_, hstate⟩
  have hr' : Resident (s.piped id p1 p2 slot) := ⟨hr.suspended, hr.cover, hr.fresh⟩
  have hstate' : (s.piped id p1 p2 slot).states[id]? = some .runnable := hstate
  have hm' : (s.piped id p1 p2 slot).instantiated[id]? = some m := hm
  obtain ⟨core₁, hstore, hrest⟩ := applyEvents_cons.mp hcore
  obtain ⟨core₂, hstore', hlast⟩ := applyEvents_cons.mp hrest
  cases hlast
  simp only [processPipe, get_bind_run, hcreate, unwrap_some, pure_bind_run, modify_bind_run]
  change (ensureVmsInstantiated none env [id] >>= _) (s.piped id p1 p2 slot) = _
  rw [hr'.ensure_bind (by simpa using hid), store64_eq, store64_eq, setA0_eq,
    access_bind_run hm' hstore, access_bind_run accessed_machine hstore', accessed_accessed,
    access_accessed accessed_machine rfl, accessed_accessed, settled_of_state hstate']
  rfl

theorem processSpawn_run {args : SpawnArgs} {charge : ℕ} {machine : Machine μ}
    (hversion : env.selectVersion = .ok ()) (howns : ∀ p ∈ args.pipes, s.pipes[p]? = some id)
    (hnext : checkedAdd s.nextVmId 1 = some (s.nextVmId + 1))
    (hboot : Boots env args charge machine)
    (hcore : applyEvents (spawnEvents id args.instanceIdAddr s.nextVmId) m.toCore = .ok core) :
    processSpawn none env id args s =
      .ok ⟨⟩ ((s.booted s.nextVmId machine args.pipes).settled id m core .runnable)
        (.boot s.nextVmId charge :: spawnEvents id args.instanceIdAddr s.nextVmId) := by
  have hforeign : s.firstForeignPipe id args.pipes = none := by
    simpa [firstForeignPipe, ownsPipe] using howns
  have hroom : evictUntilRoom none env s.instantiated.size s = .ok ⟨⟩ s [] := by
    cases s.instantiated.size <;> simp [evictUntilRoom, hasRoom]
  have hne : id ≠ s.nextVmId := by
    rintro rfl
    exact UInt64.lt_irrefl _ (hr.fresh _ (mem_iff_getElem?.mpr ⟨_, hstate⟩))
  have hr' := hr.booted hnext machine args.pipes
  have hstate' : (s.booted s.nextVmId machine args.pipes).states[id]? = some .runnable := by
    simp only [booted, getElem?_insert, if_neg hne, hstate]
  have hm' : (s.booted s.nextVmId machine args.pipes).instantiated[id]? = some m := by
    simp only [booted, getElem?_insert, if_neg hne, hm]
  have hid := mem_iff_getElem?.mpr ⟨_, hstate'⟩
  simp only [processSpawn, get_bind_run, hforeign]
  rw [bind_of_ok (bootVm_run hroom hversion hnext hboot), modify_bind_run]
  change ((ensureVmsInstantiated none env [id] >>= _)
    (s.booted s.nextVmId machine args.pipes)).after _ = _
  rw [hr'.ensure_bind (by simpa using hid), store64_eq, setA0_eq]
  obtain ⟨core₁, hstore, hlast⟩ := applyEvents_cons.mp hcore
  cases hlast
  rw [access_bind_run hm' hstore, access_accessed accessed_machine rfl, accessed_accessed,
    settled_of_state hstate']
  rfl

omit hr hm hstate in
theorem processMessage_rejected {msg : Message} (hid : msg.vmId = id) {code : UInt64}
    (h : s.rejection msg = some code) :
    processMessage none env msg s = (rejectCall none env id code s).after [.message msg] := by
  have hio : ∀ (pipe : PipeId) (waiting : VmState),
      (if s.pipes[pipe]? ≠ some id then some invalidPipe
        else if pipe.otherPipe ∈ s.pipes then none else some otherEndClosed) = some code →
      processPipeIo none env id pipe waiting s = rejectCall none env id code s := by
    intro pipe waiting hcode
    rw [processPipeIo_eq]
    split at hcode
    · rename_i howns
      rw [if_pos howns, Option.some.inj hcode]
    · rename_i howns
      rw [if_neg howns]
      split at hcode
      · cases hcode
      · rename_i hopen
        rw [if_neg hopen, Option.some.inj hcode]
  subst hid
  unfold processMessage
  rw [emit_bind_run]
  cases msg with
  | spawn v args => cases h
  | pipe v args => cases h
  | join v args =>
    simp only [rejection] at h
    split at h
    · cases h
    · rename_i hnone
      rw [not_or] at hnone
      rw [mem_iff_getElem?, not_exists] at hnone
      have hterminated : s.terminatedVms[args.targetId]? = none :=
        Option.eq_none_iff_forall_ne_some.mpr hnone.1
      dsimp only
      rw [processJoin_eq, hterminated, ← Option.some.inj h]
      dsimp only
      rw [if_neg hnone.2]
      rfl
  | pipeRead v args => exact congrArg (after _) (hio args.pipe _ h)
  | pipeWrite v args => exact congrArg (after _) (hio args.pipe _ h)

omit hr hm hstate in
theorem processMessage_blocked {msg : Message} (hid : msg.vmId = id) {state : VmState}
    (h : s.blocking msg = some state) :
    processMessage none env msg s = (blockVm id state s).after [.message msg] := by
  have hio : ∀ (pipe : PipeId) (waiting : VmState),
      (if s.pipes[pipe]? = some id ∧ pipe.otherPipe ∈ s.pipes then some waiting else none) =
        some state →
      processPipeIo none env id pipe waiting s = blockVm id state s := by
    intro pipe waiting hstate
    rw [processPipeIo_eq]
    split at hstate
    · rename_i hopen
      rw [if_neg (not_not_intro hopen.1), if_pos hopen.2, Option.some.inj hstate]
    · cases hstate
  subst hid
  unfold processMessage
  rw [emit_bind_run]
  cases msg with
  | spawn v args => cases h
  | pipe v args => cases h
  | join v args =>
    simp only [blocking] at h
    split at h
    · rename_i hlive
      rw [mem_iff_getElem?, not_exists] at hlive
      have hterminated : s.terminatedVms[args.targetId]? = none :=
        Option.eq_none_iff_forall_ne_some.mpr hlive.1
      dsimp only
      rw [processJoin_eq, hterminated, ← Option.some.inj h]
      dsimp only
      rw [if_pos hlive.2]
      rfl
    · cases h
  | pipeRead v args => exact congrArg (after _) (hio args.pipe _ h)
  | pipeWrite v args => exact congrArg (after _) (hio args.pipe _ h)

/-- An answer that a message may have is the one that processing it gives. -/
theorem Answer.processMessage {msg : Message} {l : List (Event μ)}
    (hversion : env.selectVersion = .ok ()) (hid : msg.vmId = id)
    (h : Answer env s id m msg l s') :
    processMessage none env msg s = .ok ⟨⟩ s' (.message msg :: l) := by
  cases h with
  | rejected hreject =>
    rw [processMessage_rejected hid hreject, rejectCall_run hr hstate hm]
    rfl
  | blocked hblock =>
    rw [processMessage_blocked hid hblock]
    rfl
  | joined hcode hcore =>
    have hlive := mem_iff_getElem?.mpr ⟨_, hstate⟩
    unfold Scheduler.processMessage
    rw [emit_bind_run]
    dsimp only
    rw [processJoin_eq, hcode]
    dsimp only
    rw [finishJoin_run hr hm hlive hcore]
    rfl
  | piped hcreate hcore =>
    unfold Scheduler.processMessage
    rw [emit_bind_run]
    dsimp only
    rw [processPipe_run hr hstate hm hcreate hcore]
    rfl
  | spawned howns hnext hboot hcore =>
    unfold Scheduler.processMessage
    rw [emit_bind_run]
    dsimp only
    rw [processSpawn_run hr hstate hm hversion howns hnext hboot hcore]
    rfl

end Answers

/-- Joins that may end do so. -/
theorem Woken.joiners {code : Int8} {joiners : List (VmId × UInt64)}
    {terminatedVms : HashMap VmId Int8} (h : Woken code joiners s l t) (hr : Resident s) :
    joiners.forM (fun p => finishJoin none env p.1 p.2 code) { s with terminatedVms } =
      .ok ⟨⟩ { t with terminatedVms } l := by
  induction h with
  | nil s => rfl
  | @cons s s' id addr m core joiners l hid hm hcore _ ih =>
    have hr' : Resident ({ s with terminatedVms } : Scheduler μ κ) :=
      ⟨hr.suspended, hr.cover, hr.fresh⟩
    have hsettled : Resident (s.settled id m core .runnable) := hr.settled hid
    rw [forM_cons, bind_of_ok (finishJoin_run hr' hm hid hcore)]
    exact congrArg (after _) (ih hsettled)

/-- A VM other than the root that exits is cleaned up after. -/
theorem Woken.terminateVm {code : Int8} (h : Woken code (joiningVms s.states id) s l t)
    (hr : Resident s) (hne : id ≠ rootVmId) :
    terminateVm none env id code s = .ok ⟨⟩ (t.purged id code) l := by
  have hterminated := h.frame.2.2.2.2.2.1
  simp only [Scheduler.terminateVm, modify_bind_run, if_neg hne, get_bind_run]
  rw [bind_of_ok (h.joiners hr)]
  simp only [purged, hterminated, modify_run, after, List.append_nil]

end DeterministicScheduler.Scheduler
