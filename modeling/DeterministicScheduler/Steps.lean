import DeterministicScheduler.Logic.Transition
import DeterministicScheduler.Refinement

/-!
# The steps of the reference scheduler

A round of the reference is a sequence of small steps: a finished operation on a
closed pipe, a transfer between two VMs, an execution that is interrupted, one
that yields together with the answer to its message, one that exits together
with the joins it ends. Each step states its guard, what it does to the machines
and what it logs, so that an invariant is proved step by step.
-/
namespace DeterministicScheduler

open ProgramLogic Program Outcome Std

variable {μ κ : Type} [Memory μ]

/-- Carry out accesses on one core in turn. -/
def applyEvents (evs : List (Event μ)) (c : Core μ) : Except Error (Core μ) :=
  evs.foldlM (fun c ev => ev.update c) c

@[simp] theorem applyEvents_nil (c : Core μ) : applyEvents [] c = .ok c := rfl

theorem applyEvents_cons {ev : Event μ} {evs : List (Event μ)} {c c' : Core μ} :
    applyEvents (ev :: evs) c = .ok c' ↔
      ∃ c₁, ev.update c = .ok c₁ ∧ applyEvents evs c₁ = .ok c' := by
  rw [applyEvents, List.foldlM_cons]
  cases hupdate : ev.update c with
  | error e =>
    constructor
    · intro h
      cases h
    · rintro ⟨c₁, h, _⟩
      cases h
  | ok c₁ =>
    constructor
    · intro h
      exact ⟨c₁, rfl, h⟩
    · rintro ⟨_, h, hrest⟩
      cases h
      exact hrest

namespace Scheduler

variable {env : Env μ κ} {s s' r : Scheduler μ κ} {id v : VmId} {m : Machine μ}
  {core core' : Core μ} {α : Type}

omit [Memory μ] in
theorem insert_self {β : Type} {t : ExtTreeMap UInt64 β} {k : UInt64} {b : β}
    (h : t[k]? = some b) : t.insert k b = t := by
  refine ExtTreeMap.ext_getElem? fun a => ?_
  rw [getElem?_insert]
  split
  · rename_i heq
    rw [heq, h]
  · rfl

/-- The scheduler with another core on one machine. -/
def accessed (s : Scheduler μ κ) (id : VmId) (m : Machine μ) (core : Core μ) : Scheduler μ κ :=
  { s with instantiated := s.instantiated.insert id { m with toCore := core } }

/-- The scheduler with another core on one machine and its VM in a new state. -/
def settled (s : Scheduler μ κ) (id : VmId) (m : Machine μ) (core : Core μ)
    (state : VmState) : Scheduler μ κ :=
  { s.accessed id m core with states := s.states.insert id state }

omit [Memory μ] in
@[simp] theorem accessed_machine :
    (s.accessed id m core).instantiated[id]? = some { m with toCore := core } := by
  simp [accessed]

omit [Memory μ] in
@[simp] theorem accessed_accessed :
    (s.accessed id m core).accessed id { m with toCore := core } core' =
      s.accessed id m core' := by
  simp only [accessed]
  congr 1
  refine ExtTreeMap.ext_getElem? fun k => ?_
  simp only [getElem?_insert]
  split <;> rfl

omit [Memory μ] in
theorem settled_of_state {state : VmState} (h : s.states[id]? = some state) :
    s.settled id m core state = s.accessed id m core := by
  simp only [settled, accessed, insert_self h]

/-- A sequence that begins with an access and returns normally. -/
theorem access_bind_ok {x : SchedulerM μ κ α} {ev : Event μ} {a : α} {l : List (Event μ)}
    (hm : s.instantiated[id]? = some m)
    (h : (do access id ev; x : SchedulerM μ κ α) s = .ok a s' l) :
    ∃ core l', ev.update m.toCore = .ok core ∧ x (s.accessed id m core) = .ok a s' l' ∧
      l = ev :: l' := by
  cases hupdate : ev.update m.toCore with
  | error e =>
    rw [bind_of_err (access_error hm hupdate)] at h
    cases h
  | ok core =>
    rw [bind_of_ok (access_run hm hupdate), after_eq_ok] at h
    obtain ⟨l', hx, rfl⟩ := h
    exact ⟨core, l', rfl, hx, rfl⟩

theorem access_ok {ev : Event μ} {l : List (Event μ)} (hm : s.instantiated[id]? = some m)
    (h : access id ev s = .ok ⟨⟩ s' l) :
    ∃ core, ev.update m.toCore = .ok core ∧ s' = s.accessed id m core ∧ l = [ev] := by
  cases hupdate : ev.update m.toCore with
  | error e =>
    rw [access_error hm hupdate] at h
    cases h
  | ok core =>
    rw [access_run hm hupdate] at h
    cases h
    exact ⟨core, rfl, rfl, rfl⟩

/-- Two accesses to the same machine. -/
theorem access_access_ok {x : SchedulerM μ κ α} {ev ev' : Event μ} {a : α}
    {l : List (Event μ)} (hm : s.instantiated[id]? = some m)
    (h : (do access id ev; access id ev'; x : SchedulerM μ κ α) s = .ok a s' l) :
    ∃ core l', applyEvents [ev, ev'] m.toCore = .ok core ∧
      x (s.accessed id m core) = .ok a s' l' ∧ l = ev :: ev' :: l' := by
  obtain ⟨core₁, l₁, hev, h₁, rfl⟩ := access_bind_ok hm h
  obtain ⟨core₂, l₂, hev', h₂, rfl⟩ := access_bind_ok accessed_machine h₁
  rw [accessed_accessed] at h₂
  refine ⟨core₂, l₂, ?_, h₂, rfl⟩
  simp only [applyEvents_cons, applyEvents_nil]
  exact ⟨core₁, hev, core₂, hev', rfl⟩

theorem loadBytes_bind_ok {f : Bytes → SchedulerM μ κ α} {addr size : UInt64} {a : α}
    {l : List (Event μ)} (hm : s.instantiated[id]? = some m)
    (h : (loadBytes id addr size >>= f) s = .ok a s' l) :
    ∃ data, Memory.loadBytes m.memory addr size = .ok data ∧ f data s = .ok a s' l := by
  rw [bind_run, loadBytes, bind_of_ok (machine_run hm)] at h
  cases hload : Memory.loadBytes m.memory addr size with
  | error e =>
    rw [hload] at h
    cases h
  | ok data =>
    rw [hload] at h
    exact ⟨data, rfl, by simpa using h⟩

omit [Memory μ] in
/-- A request for a VM of the reference changes nothing. -/
theorem Resident.ensure_bind (hr : Resident r) {ids : List VmId} (hids : ∀ id ∈ ids, id ∈ r.states)
    (f : Unit → SchedulerM μ κ α) :
    (ensureVmsInstantiated none env ids >>= f) r = f ⟨⟩ r := by
  have hnoop : ensureVmsInstantiated none env ids r = .ok ⟨⟩ r [] :=
    ensureVmsInstantiated_noop (fun id hid => (hr.cover id).mp (hids id hid)) (by simp)
  rw [bind_of_ok hnoop, after_nil]

omit [Memory μ] in
theorem Resident.machine (hr : Resident r) (hid : id ∈ r.states) :
    ∃ m, r.instantiated[id]? = some m :=
  mem_iff_getElem?.mp ((hr.cover id).mp hid)

/-- The accesses that finish an operation on a pipe with a closed end. -/
def closedEvents (id : VmId) : VmState → List (Event μ)
  | .waitForRead _ _ _ lengthAddr => [.store64 id lengthAddr 0, .setA0 id success]
  | .waitForWrite _ consumed _ _ lengthAddr =>
    [.store64 id lengthAddr consumed, .setA0 id success]
  | _ => []

theorem finishClosed_ok {state : VmState} {l : List (Event μ)} (hstate : s.states[id]? = some state)
    (hclosed : isClosed s.pipes state.waiting? = true) (hm : s.instantiated[id]? = some m)
    (h : finishClosed id s = .ok ⟨⟩ s' l) :
    ∃ core, applyEvents (closedEvents id state) m.toCore = .ok core ∧
      s' = s.settled id m core .runnable ∧ l = closedEvents id state := by
  simp only [finishClosed, get_bind_run, hstate, unwrap_some, pure_bind_run, store64_eq,
    setA0_eq] at h
  cases state with
  | waitForRead pipe length bufferAddr lengthAddr =>
    dsimp only at h
    obtain ⟨core, l', hcore, hset, rfl⟩ := access_access_ok hm h
    cases hset
    exact ⟨core, hcore, rfl, rfl⟩
  | waitForWrite pipe consumed length bufferAddr lengthAddr =>
    dsimp only at h
    obtain ⟨core, l', hcore, hset, rfl⟩ := access_access_ok hm h
    cases hset
    exact ⟨core, hcore, rfl, rfl⟩
  | _ => simp [isClosed, VmState.waiting?] at hclosed

/-- A waiting read: who reads, where to, how much at most. -/
structure Read where
  vmId : VmId
  length : UInt64
  bufferAddr : UInt64
  lengthAddr : UInt64

/-- A waiting write: who writes, to which pipe, from where, and how much of it is
done already. -/
structure Write where
  vmId : VmId
  pipe : PipeId
  consumed : UInt64
  length : UInt64
  bufferAddr : UInt64
  lengthAddr : UInt64

namespace Write

def state (w : Write) : VmState :=
  .waitForWrite w.pipe w.consumed w.length w.bufferAddr w.lengthAddr

/-- How much a transfer to a read moves. -/
def copiable (w : Write) (rd : Read) : UInt64 :=
  min rd.length (w.length - w.consumed)

theorem copiable_le_left (w : Write) (rd : Read) : w.copiable rd ≤ rd.length :=
  Std.min_le_left

/-- A transfer stays within the bytes of the write. -/
theorem copiable_toNat {w : Write} {rd : Read} (h : w.consumed ≤ w.length) :
    (w.consumed + w.copiable rd).toNat = w.consumed.toNat + (w.copiable rd).toNat ∧
      w.consumed.toNat + (w.copiable rd).toNat ≤ w.length.toNat := by
  have hsub := UInt64.toNat_sub_of_le _ _ h
  have hle : (w.copiable rd).toNat ≤ (w.length - w.consumed).toNat :=
    UInt64.le_iff_toNat_le.mp Std.min_le_right
  have hlt := w.length.toNat_lt
  have hle' := UInt64.le_iff_toNat_le.mp h
  constructor
  · rw [UInt64.toNat_add, Nat.mod_eq_of_lt]
    omega
  · omega

/-- Whether a transfer to a read finishes the write. -/
def finishes (w : Write) (rd : Read) : Bool :=
  w.consumed + w.copiable rd == w.length

/-- The state of the writer after a transfer to a read. -/
def next (w : Write) (rd : Read) : VmState :=
  if w.finishes rd then .runnable
  else .waitForWrite w.pipe (w.consumed + w.copiable rd) w.length w.bufferAddr w.lengthAddr

/-- The accesses of a transfer to the machine of the writer. -/
def events (w : Write) (rd : Read) : List (Event μ) :=
  if w.finishes rd then [.store64 w.vmId w.lengthAddr w.length, .setA0 w.vmId success] else []

end Write

namespace Read

def state (rd : Read) (pipe : PipeId) : VmState :=
  .waitForRead pipe rd.length rd.bufferAddr rd.lengthAddr

/-- The accesses of a transfer to the machine of the reader. -/
def events (rd : Read) (data : Bytes) (copied : UInt64) : List (Event μ) :=
  [.storeBytes rd.vmId rd.bufferAddr data, .store64 rd.vmId rd.lengthAddr copied,
    .setA0 rd.vmId success]

end Read

/-- What a transfer logs: the reader's accesses around the bytes moved, then the
writer's. -/
def transferLog (rd : Read) (wr : Write) (data : Bytes) : List (Event μ) :=
  [.storeBytes rd.vmId rd.bufferAddr data, .transfer rd.vmId wr.vmId wr.pipe data,
    .store64 rd.vmId rd.lengthAddr (wr.copiable rd), .setA0 rd.vmId success] ++ wr.events rd

theorem transferPair_ok {rd : Read} {wr : Write} {readPipe : PipeId} {mr mw : Machine μ}
    {l : List (Event μ)} (hr : Resident s) (hrd : s.instantiated[rd.vmId]? = some mr)
    (hwr : s.instantiated[wr.vmId]? = some mw) (hne : rd.vmId ≠ wr.vmId)
    (h : transferPair none env ((rd.vmId, rd.state readPipe), (wr.vmId, wr.state)) s =
      .ok ⟨⟩ s' l) :
    ∃ data readCore writeCore, wr.consumed ≤ wr.length ∧
      Memory.loadBytes mw.memory (wr.bufferAddr + wr.consumed) (wr.copiable rd) = .ok data ∧
      applyEvents (rd.events data (wr.copiable rd)) mr.toCore = .ok readCore ∧
      applyEvents (wr.events rd) mw.toCore = .ok writeCore ∧
      s' = (s.settled rd.vmId mr readCore .runnable).settled wr.vmId mw writeCore (wr.next rd) ∧
      l = transferLog rd wr data := by
  have hlive : ∀ id ∈ [rd.vmId, wr.vmId], id ∈ s.states := by
    simp only [List.mem_cons, List.not_mem_nil, or_false, hr.cover, mem_iff_getElem?]
    rintro id (rfl | rfl)
    · exact ⟨mr, hrd⟩
    · exact ⟨mw, hwr⟩
  simp only [transferPair, Read.state, Write.state, hr.ensure_bind hlive, store64_eq, setA0_eq,
    storeBytes_eq] at h
  cases hconsumable : checkedSub wr.length wr.consumed with
  | none =>
    rw [hconsumable] at h
    cases h
  | some consumable =>
    have hle : wr.consumed ≤ wr.length ∧ consumable = wr.length - wr.consumed := by
      simp only [checkedSub] at hconsumable
      split at hconsumable
      · cases hconsumable
        exact ⟨‹_›, rfl⟩
      · cases hconsumable
    obtain ⟨hle, rfl⟩ := hle
    rw [hconsumable, unwrap_some, pure_bind_run] at h
    obtain ⟨data, hload, h₁⟩ := loadBytes_bind_ok hwr h
    obtain ⟨core₁, l₁, hstore, h₂, rfl⟩ := access_bind_ok hrd h₁
    rw [emit_bind_run, after_eq_ok] at h₂
    obtain ⟨l₂, h₃, rfl⟩ := h₂
    obtain ⟨core₂, l₃, hcores, h₄, rfl⟩ := access_access_ok accessed_machine h₃
    rw [accessed_accessed, setState, modify_bind_run] at h₄
    have hread : applyEvents (rd.events data (wr.copiable rd)) mr.toCore = .ok core₂ :=
      applyEvents_cons.mpr ⟨core₁, hstore, hcores⟩
    have hwr' : (s.settled rd.vmId mr core₂ .runnable).instantiated[wr.vmId]? = some mw := by
      simp only [settled, accessed, getElem?_insert, if_neg hne.symm, hwr]
    change (if wr.consumed + wr.copiable rd = wr.length then _ else _ : SchedulerM μ κ Unit)
      (s.settled rd.vmId mr core₂ .runnable) = _ at h₄
    by_cases hfinishes : wr.consumed + wr.copiable rd = wr.length
    · have hfin : wr.finishes rd = true := beq_iff_eq.mpr hfinishes
      rw [if_pos hfinishes] at h₄
      obtain ⟨core₃, l₄, hwrite, h₅, rfl⟩ := access_access_ok hwr' h₄
      cases h₅
      refine ⟨data, core₂, core₃, hle, hload, hread, ?_, ?_, ?_⟩
      · rwa [Write.events, if_pos hfin]
      · rw [Write.next, if_pos hfin]
        rfl
      · rw [transferLog, Write.events, if_pos hfin]
        rfl
    · have hfin : ¬ wr.finishes rd = true := fun h => hfinishes (beq_iff_eq.mp h)
      rw [if_neg hfinishes] at h₄
      cases h₄
      refine ⟨data, core₂, mw.toCore, hle, hload, hread, ?_, ?_, ?_⟩
      · rw [Write.events, if_neg hfin]
        rfl
      · rw [Write.next, if_neg hfin]
        simp only [settled, accessed] at hwr' ⊢
        rw [insert_self hwr']
        rfl
      · rw [transferLog, Write.events, if_neg hfin]
        rfl

/-- The code with which a message is refused at once. -/
def rejection (s : Scheduler μ κ) : Message → Option UInt64
  | .join _ args =>
    if args.targetId ∈ s.terminatedVms ∨ args.targetId ∈ s.states then none
    else some joinFailure
  | .pipeRead id args | .pipeWrite id args =>
    if s.pipes[args.pipe]? ≠ some id then some invalidPipe
    else if args.pipe.otherPipe ∈ s.pipes then none
    else some otherEndClosed
  | _ => none

/-- The state in which the sender of a message waits for its answer. -/
def blocking (s : Scheduler μ κ) : Message → Option VmState
  | .join _ args =>
    if args.targetId ∉ s.terminatedVms ∧ args.targetId ∈ s.states then
      some (.join args.targetId args.exitCodeAddr)
    else none
  | .pipeRead id args =>
    if s.pipes[args.pipe]? = some id ∧ args.pipe.otherPipe ∈ s.pipes then
      some (.waitForRead args.pipe args.length args.bufferAddr args.lengthAddr)
    else none
  | .pipeWrite id args =>
    if s.pipes[args.pipe]? = some id ∧ args.pipe.otherPipe ∈ s.pipes then
      some (.waitForWrite args.pipe 0 args.length args.bufferAddr args.lengthAddr)
    else none
  | _ => none

def joinEvents (id : VmId) (exitCodeAddr : UInt64) (code : Int8) : List (Event μ) :=
  [.store8 id exitCodeAddr code.toInt64.toUInt64, .setA0 id success]

def spawnEvents (id : VmId) (instanceIdAddr : UInt64) (spawned : VmId) : List (Event μ) :=
  [.store64 id instanceIdAddr spawned, .setA0 id success]

def pipeEvents (id : VmId) (args : PipeArgs) (p1 p2 : PipeId) : List (Event μ) :=
  [.store64 id args.pipe1Addr p1, .store64 id args.pipe2Addr p2, .setA0 id success]

/-- The scheduler with one more VM, which now owns the pipes passed to it. -/
def booted (s : Scheduler μ κ) (spawned : VmId) (machine : Machine μ) (passed : List PipeId) :
    Scheduler μ κ :=
  { s with
    nextVmId := spawned + 1
    instantiated := s.instantiated.insert spawned machine
    states := s.states.insert spawned .runnable
    pipes := passed.foldl (fun pipes p => pipes.insert p spawned) s.pipes }

/-- The scheduler with one more pair of pipes. -/
def piped (s : Scheduler μ κ) (id : VmId) (p1 p2 : PipeId) (slot : UInt64) : Scheduler μ κ :=
  { s with
    nextPipeSlot := slot
    pipes := (s.pipes.insert p1 id).insert p2 id }

/-- A machine as booting leaves it, with its load charge. -/
def Boots (env : Env μ κ) (args : SpawnArgs) (charge : ℕ) (machine : Machine μ) : Prop :=
  ∃ program length core bytes,
    env.txData.loadData args.dataPieceId args.offset args.length = .ok (program, length) ∧
    env.loadProgram args.dataPieceId args.offset program args.argv = .ok (core, bytes) ∧
    charge = transferredByteCycles bytes ∧
    machine = { core with cycles := charge, exitCode := 0 }

/-- How the message of a running VM is answered. -/
inductive Answer (env : Env μ κ) (s : Scheduler μ κ) (id : VmId) (m : Machine μ) :
    Message → List (Event μ) → Scheduler μ κ → Prop
  | rejected {msg : Message} {code : UInt64} (h : s.rejection msg = some code) :
    Answer env s id m msg [.setA0 id code]
      (s.settled id m (m.toCore.setRegister A0 code) .runnable)
  | blocked {msg : Message} {state : VmState} (h : s.blocking msg = some state) :
    Answer env s id m msg [.block id state] { s with states := s.states.insert id state }
  | joined {args : JoinArgs} {code : Int8} {core : Core μ}
    (hcode : s.terminatedVms[args.targetId]? = some code)
    (hcore : applyEvents (joinEvents id args.exitCodeAddr code) m.toCore = .ok core) :
    Answer env s id m (.join id args) (joinEvents id args.exitCodeAddr code)
      (s.settled id m core .runnable)
  | piped {args : PipeArgs} {p1 p2 : PipeId} {slot : UInt64} {core : Core μ}
    (hcreate : PipeId.create s.nextPipeSlot = some (p1, p2, slot))
    (hcore : applyEvents (pipeEvents id args p1 p2) m.toCore = .ok core) :
    Answer env s id m (.pipe id args) (pipeEvents id args p1 p2)
      ((s.piped id p1 p2 slot).settled id m core .runnable)
  | spawned {args : SpawnArgs} {charge : ℕ} {machine : Machine μ} {core : Core μ}
    (howns : ∀ p ∈ args.pipes, s.pipes[p]? = some id)
    (hnext : checkedAdd s.nextVmId 1 = some (s.nextVmId + 1))
    (hboot : Boots env args charge machine)
    (hcore : applyEvents (spawnEvents id args.instanceIdAddr s.nextVmId) m.toCore = .ok core) :
    Answer env s id m (.spawn id args)
      (.boot s.nextVmId charge :: spawnEvents id args.instanceIdAddr s.nextVmId)
      ((s.booted s.nextVmId machine args.pipes).settled id m core .runnable)

section Answers

variable {l : List (Event μ)}

omit [Memory μ] in
theorem checkedAdd_eq_some {a b c : UInt64} (h : checkedAdd a b = some c) : c = a + b := by
  simp only [checkedAdd] at h
  split at h
  · cases h
    rfl
  · cases h

omit [Memory μ] in
theorem bootVm_ok {args : SpawnArgs} {spawned : VmId}
    (h : bootVm none env args.dataPieceId args.offset args.length args.argv s =
      .ok spawned s' l) :
    spawned = s.nextVmId ∧ checkedAdd s.nextVmId 1 = some (s.nextVmId + 1) ∧
      ∃ charge machine, Boots env args charge machine ∧ l = [.boot s.nextVmId charge] ∧
        s' = s.booted s.nextVmId machine [] := by
  have hnone : evictUntilRoom none env s.instantiated.size s = .ok ⟨⟩ s [] := by
    cases s.instantiated.size <;> simp [evictUntilRoom, hasRoom]
  simp only [bootVm, get_bind_run] at h
  rw [bind_of_ok hnone, after_nil] at h
  simp only [get_bind_run] at h
  cases hnext : checkedAdd s.nextVmId 1 with
  | none =>
    rw [hnext] at h
    cases h
  | some nextVmId =>
    obtain rfl := checkedAdd_eq_some hnext
    simp only [hnext, unwrap_some, pure_bind_run, modify_bind_run, createDummyVm] at h
    cases hversion : env.selectVersion with
    | error e =>
      rw [hversion] at h
      cases h
    | ok _ =>
      simp only [hversion, pure_bind_run] at h
      cases hload : env.txData.loadData args.dataPieceId args.offset args.length with
      | error e =>
        rw [hload] at h
        cases h
      | ok loaded =>
        simp only [hload, ofExcept_ok, pure_bind_run] at h
        cases hprogram : env.loadProgram args.dataPieceId args.offset loaded.1 args.argv with
        | error e =>
          rw [hprogram] at h
          cases h
        | ok program =>
          simp only [hprogram, ofExcept_ok, pure_bind_run, emit_bind_run, modify_bind_run,
            pure_run] at h
          cases h
          exact ⟨rfl, rfl, _, _, ⟨_, _, _, _, hload, hprogram, rfl, rfl⟩, rfl, rfl⟩

omit [Memory μ] in
theorem Resident.booted (hr : Resident s) (hnext : checkedAdd s.nextVmId 1 = some (s.nextVmId + 1))
    (machine : Machine μ) (passed : List PipeId) :
    Resident (s.booted s.nextVmId machine passed) := by
  have hle := (checkedAdd_one_eq_some hnext).2
  refine ⟨hr.suspended, ?_, ?_⟩
  · intro k
    simp only [Scheduler.booted, mem_insert, hr.cover]
  · intro k hk
    refine (hle k).mp ?_
    rcases mem_insert.mp hk with rfl | hk
    · exact UInt64.le_refl _
    · exact UInt64.le_of_lt (hr.fresh k hk)

theorem finishJoin_ok (hr : Resident s) (hid : id ∈ s.states)
    (hm : s.instantiated[id]? = some m) {exitCodeAddr : UInt64} {code : Int8}
    (h : finishJoin none env id exitCodeAddr code s = .ok ⟨⟩ s' l) :
    ∃ core, applyEvents (joinEvents id exitCodeAddr code) m.toCore = .ok core ∧
      s' = s.settled id m core .runnable ∧ l = joinEvents id exitCodeAddr code := by
  rw [finishJoin, hr.ensure_bind (by simpa using hid), store8_eq, setA0_eq] at h
  obtain ⟨core, l', hcore, hset, rfl⟩ := access_access_ok hm h
  cases hset
  exact ⟨core, hcore, rfl, rfl⟩

variable (hr : Resident s) (hstate : s.states[id]? = some .runnable)
  (hm : s.instantiated[id]? = some m)

include hr hstate hm

theorem rejectCall_ok {code : UInt64} (h : rejectCall none env id code s = .ok ⟨⟩ s' l) :
    s' = s.settled id m (m.toCore.setRegister A0 code) .runnable ∧ l = [.setA0 id code] := by
  have hid : id ∈ s.states := mem_iff_getElem?.mpr ⟨_, hstate⟩
  rw [rejectCall, hr.ensure_bind (by simpa using hid), setA0_eq, access_run hm rfl] at h
  cases h
  rw [settled_of_state hstate]
  exact ⟨rfl, rfl⟩

theorem processJoin_ok {args : JoinArgs} (h : processJoin none env id args s = .ok ⟨⟩ s' l) :
    Answer env s id m (.join id args) l s' := by
  simp only [processJoin, get_bind_run] at h
  cases hterminated : s.terminatedVms[args.targetId]? with
  | some code =>
    simp only [hterminated] at h
    obtain ⟨core, hcore, rfl, rfl⟩ := finishJoin_ok hr (mem_iff_getElem?.mpr ⟨_, hstate⟩) hm h
    exact .joined hterminated hcore
  | none =>
    have hnot : args.targetId ∉ s.terminatedVms := by
      rw [mem_iff_getElem?, hterminated]
      simp
    simp only [hterminated, ExtTreeMap.contains_iff_mem] at h
    by_cases hlive : args.targetId ∈ s.states
    · rw [if_pos hlive] at h
      cases h
      exact .blocked (by simp [blocking, hnot, hlive])
    · rw [if_neg hlive] at h
      obtain ⟨rfl, rfl⟩ := rejectCall_ok hr hstate hm h
      exact .rejected (by simp [rejection, hnot, hlive])

theorem processPipe_ok {args : PipeArgs} (h : processPipe none env id args s = .ok ⟨⟩ s' l) :
    Answer env s id m (.pipe id args) l s' := by
  simp only [processPipe, get_bind_run] at h
  cases hcreate : PipeId.create s.nextPipeSlot with
  | none =>
    rw [hcreate] at h
    cases h
  | some created =>
    obtain ⟨p1, p2, slot⟩ := created
    have hid : id ∈ (s.piped id p1 p2 slot).states := mem_iff_getElem?.mpr ⟨_, hstate⟩
    have hr' : Resident (s.piped id p1 p2 slot) := ⟨hr.suspended, hr.cover, hr.fresh⟩
    have hm' : (s.piped id p1 p2 slot).instantiated[id]? = some m := hm
    simp only [hcreate, unwrap_some, pure_bind_run, modify_bind_run] at h
    change (ensureVmsInstantiated none env [id] >>= _) (s.piped id p1 p2 slot) = _ at h
    rw [hr'.ensure_bind (by simpa using hid), store64_eq, store64_eq, setA0_eq] at h
    obtain ⟨core₁, l₁, hstore, h₁, rfl⟩ := access_bind_ok hm' h
    obtain ⟨core₂, l₂, hstore', h₂, rfl⟩ := access_bind_ok accessed_machine h₁
    rw [accessed_accessed] at h₂
    obtain ⟨core₃, hset, rfl, rfl⟩ := access_ok accessed_machine h₂
    have hstate' : (s.piped id p1 p2 slot).states[id]? = some .runnable := hstate
    rw [accessed_accessed, ← settled_of_state hstate']
    refine .piped hcreate ?_
    simp only [pipeEvents, applyEvents_cons, applyEvents_nil]
    exact ⟨core₁, hstore, core₂, hstore', core₃, hset, rfl⟩

theorem processSpawn_ok {args : SpawnArgs} (h : processSpawn none env id args s = .ok ⟨⟩ s' l) :
    Answer env s id m (.spawn id args) l s' := by
  simp only [processSpawn, get_bind_run] at h
  cases hforeign : s.firstForeignPipe id args.pipes with
  | some p =>
    rw [hforeign] at h
    cases h
  | none =>
    have howns : ∀ p ∈ args.pipes, s.pipes[p]? = some id := by
      simpa [firstForeignPipe, ownsPipe] using hforeign
    simp only [hforeign] at h
    obtain ⟨spawned, s₁, l₁, l₂, hboot, h₁, rfl⟩ := bind_eq_ok.mp h
    obtain ⟨rfl, hnext, charge, machine, hmachine, rfl, rfl⟩ := bootVm_ok hboot
    have hne : id ≠ s.nextVmId := by
      rintro rfl
      exact UInt64.lt_irrefl _ (hr.fresh _ (mem_iff_getElem?.mpr ⟨_, hstate⟩))
    have hr' := hr.booted hnext machine args.pipes
    have hstate' : (s.booted s.nextVmId machine args.pipes).states[id]? = some .runnable := by
      simp only [booted, getElem?_insert, if_neg hne, hstate]
    have hm' : (s.booted s.nextVmId machine args.pipes).instantiated[id]? = some m := by
      simp only [booted, getElem?_insert, if_neg hne, hm]
    rw [modify_bind_run] at h₁
    change (ensureVmsInstantiated none env [id] >>= _)
      (s.booted s.nextVmId machine args.pipes) = _ at h₁
    have hid := mem_iff_getElem?.mpr ⟨_, hstate'⟩
    rw [hr'.ensure_bind (by simpa using hid), store64_eq, setA0_eq] at h₁
    obtain ⟨core₁, l₃, hstore, h₂, rfl⟩ := access_bind_ok hm' h₁
    obtain ⟨core₂, hset, rfl, rfl⟩ := access_ok accessed_machine h₂
    rw [accessed_accessed, ← settled_of_state hstate']
    refine .spawned howns hnext hmachine ?_
    simp only [spawnEvents, applyEvents_cons, applyEvents_nil]
    exact ⟨core₁, hstore, core₂, hset, rfl⟩

theorem processPipeIo_ok {msg : Message} {pipe : PipeId} {waiting : VmState}
    (hreject : s.rejection msg = if s.pipes[pipe]? ≠ some id then some invalidPipe
      else if pipe.otherPipe ∈ s.pipes then none else some otherEndClosed)
    (hblock : s.blocking msg =
      if s.pipes[pipe]? = some id ∧ pipe.otherPipe ∈ s.pipes then some waiting else none)
    (h : processPipeIo none env id pipe waiting s = .ok ⟨⟩ s' l) : Answer env s id m msg l s' := by
  simp only [processPipeIo, get_bind_run, ownsPipe, Bool.not_eq_true',
    beq_eq_false_iff_ne] at h
  by_cases howns : s.pipes[pipe]? = some id
  · rw [if_neg (not_not_intro howns)] at h
    by_cases hopen : pipe.otherPipe ∈ s.pipes
    · simp only [← ExtTreeMap.contains_iff_mem] at hopen
      simp only [hopen, Bool.true_eq_false, if_false] at h
      cases h
      refine .blocked ?_
      rw [hblock, if_pos ⟨howns, ExtTreeMap.contains_iff_mem.mp hopen⟩]
    · have hclosed : s.pipes.contains pipe.otherPipe = false := by
        rwa [← Bool.not_eq_true, ExtTreeMap.contains_iff_mem]
      simp only [hclosed, if_true] at h
      obtain ⟨rfl, rfl⟩ := rejectCall_ok hr hstate hm h
      refine .rejected ?_
      rw [hreject, if_neg (not_not_intro howns), if_neg hopen]
  · rw [if_pos howns] at h
    obtain ⟨rfl, rfl⟩ := rejectCall_ok hr hstate hm h
    refine .rejected ?_
    rw [hreject, if_pos howns]

/-- A processed message is answered, or its sender waits for the answer. -/
theorem processMessage_ok {msg : Message} (hid : msg.vmId = id)
    (h : processMessage none env msg s = .ok ⟨⟩ s' l) :
    ∃ l', l = .message msg :: l' ∧ Answer env s id m msg l' s' := by
  unfold processMessage at h
  rw [emit_bind_run, after_eq_ok] at h
  obtain ⟨l', h', rfl⟩ := h
  refine ⟨l', rfl, ?_⟩
  cases msg with
  | spawn v args =>
    obtain rfl : v = id := hid
    exact processSpawn_ok hr hstate hm h'
  | join v args =>
    obtain rfl : v = id := hid
    exact processJoin_ok hr hstate hm h'
  | pipe v args =>
    obtain rfl : v = id := hid
    exact processPipe_ok hr hstate hm h'
  | pipeRead v args =>
    obtain rfl : v = id := hid
    exact processPipeIo_ok hr hstate hm rfl rfl h'
  | pipeWrite v args =>
    obtain rfl : v = id := hid
    exact processPipeIo_ok hr hstate hm rfl rfl h'

end Answers

/-- A machine after it ran, its cycles moved to the total. -/
def afterRun (m : Machine μ) (result : Except Error Int8) (cpu : Cpu μ) : Machine μ :=
  { cpu with cycles := 0, exitCode := result.toOption.getD m.exitCode }

/-- The scheduler after one machine ran. -/
def ran (s : Scheduler μ κ) (id : VmId) (m : Machine μ) (result : Except Error Int8)
    (cpu : Cpu μ) : Scheduler μ κ :=
  { s with
    instantiated := s.instantiated.insert id (afterRun m result cpu)
    totalCycles := s.totalCycles + cpu.cycles }

/-- An execution of the machine that is selected to run. -/
structure Executes (env : Env μ κ) (s : Scheduler μ κ) (id : VmId) (m : Machine μ)
    (result : Except Error Int8) (cpu : Cpu μ) (posted : List Message) : Prop where
  selected : vmIdToRun s.states = some id
  machine : s.instantiated[id]? = some m
  run : ∃ limit pause, runMachine env ⟨id, s.totalCycles⟩ limit pause m.toCpu =
    match result with
    | .ok code => .ok code cpu posted
    | .error e => .err e cpu posted
  total : s.totalCycles + cpu.cycles < 2 ^ 64

/-- Joins that end, each with the exit code at its own address. -/
inductive Woken (code : Int8) : List (VmId × UInt64) → Scheduler μ κ → List (Event μ) →
    Scheduler μ κ → Prop
  | nil (s : Scheduler μ κ) : Woken code [] s [] s
  | cons {s s' : Scheduler μ κ} {id : VmId} {addr : UInt64} {m : Machine μ} {core : Core μ}
    {joiners : List (VmId × UInt64)} {l : List (Event μ)} (hid : id ∈ s.states)
    (hm : s.instantiated[id]? = some m)
    (hcore : applyEvents (joinEvents id addr code) m.toCore = .ok core)
    (h : Woken code joiners (s.settled id m core .runnable) l s') :
    Woken code ((id, addr) :: joiners) s (joinEvents id addr code ++ l) s'

/-- The scheduler without a VM that exited, which is not the root. -/
def purged (s : Scheduler μ κ) (id : VmId) (code : Int8) : Scheduler μ κ :=
  { s with
    terminatedVms := s.terminatedVms.insert id code
    pipes := s.pipes.filter fun _ owner => owner != id
    states := s.states.erase id
    instantiated := s.instantiated.erase id
    suspended := s.suspended.erase id }

/-- The scheduler after the root exited, with no other VM. -/
def completed (s : Scheduler μ κ) (code : Int8) : Scheduler μ κ :=
  { s with
    terminatedVms := s.terminatedVms.insert rootVmId code
    instantiated := s.instantiated.filter fun k _ => k == rootVmId
    suspended := ∅
    states := (∅ : BTreeMap VmId VmState).insert rootVmId .terminated }

/-- One step of the reference, with what it logs. -/
inductive Step (env : Env μ κ) (s : Scheduler μ κ) : List (Event μ) → Scheduler μ κ → Prop
  | started (limitCycles : ℕ) (h : s.states[rootVmId]? ≠ some .terminated) :
    Step env s [.iterate limitCycles] s
  | closed {id : VmId} {state : VmState} {m : Machine μ} {core : Core μ}
    (hstate : s.states[id]? = some state)
    (hclosed : isClosed s.pipes state.waiting? = true)
    (hm : s.instantiated[id]? = some m)
    (hcore : applyEvents (closedEvents id state) m.toCore = .ok core) :
    Step env s (closedEvents id state) (s.settled id m core .runnable)
  | transferred {rd : Read} {wr : Write} {mr mw : Machine μ} {data : Bytes}
    {readCore writeCore : Core μ}
    (hread : s.states[rd.vmId]? = some (rd.state wr.pipe.otherPipe))
    (hwrite : s.states[wr.vmId]? = some wr.state)
    (hopen : wr.pipe.otherPipe ∈ s.pipes)
    (hmr : s.instantiated[rd.vmId]? = some mr) (hmw : s.instantiated[wr.vmId]? = some mw)
    (hload : Memory.loadBytes mw.memory (wr.bufferAddr + wr.consumed) (wr.copiable rd) = .ok data)
    (hreadCore : applyEvents (rd.events data (wr.copiable rd)) mr.toCore = .ok readCore)
    (hwriteCore : applyEvents (wr.events rd) mw.toCore = .ok writeCore) :
    Step env s (transferLog rd wr data)
      ((s.settled rd.vmId mr readCore .runnable).settled wr.vmId mw writeCore (wr.next rd))
  | interrupted {id : VmId} {m : Machine μ} {e : Error} {cpu : Cpu μ}
    (h : Executes env s id m (.error e) cpu []) (he : e.Interrupt) :
    Step env s [.exec id m.toCpu cpu (.error e) []] (s.ran id m (.error e) cpu)
  | answered {id : VmId} {m : Machine μ} {cpu : Cpu μ} {msg : Message} {l : List (Event μ)}
    {s' : Scheduler μ κ} (h : Executes env s id m (.error .yield) cpu [msg])
    (hid : msg.vmId = id) (hchecked : msg.Checked)
    (hanswer : Answer env (s.ran id m (.error .yield) cpu) id (afterRun m (.error .yield) cpu)
      msg l s') :
    Step env s (.exec id m.toCpu cpu (.error .yield) [msg] :: .message msg :: l) s'
  | exited {id : VmId} {m : Machine μ} {code : Int8} {cpu : Cpu μ} {l : List (Event μ)}
    {s' : Scheduler μ κ} (h : Executes env s id m (.ok code) cpu []) (hne : id ≠ rootVmId)
    (hwoken : Woken code (joiningVms s.states id) (s.ran id m (.ok code) cpu) l s') :
    Step env s (.exec id m.toCpu cpu (.ok code) [] :: l) (s'.purged id code)
  | rootExited {m : Machine μ} {code : Int8} {cpu : Cpu μ}
    (h : Executes env s rootVmId m (.ok code) cpu []) :
    Step env s [.exec rootVmId m.toCpu cpu (.ok code) []]
      ((s.ran rootVmId m (.ok code) cpu).completed code)

/-- A sequence of steps, with all they log. -/
abbrev Steps (env : Env μ κ) : Scheduler μ κ → List (Event μ) → Scheduler μ κ → Prop :=
  Path (Step env)

/-- What the joins that end leave alone. -/
theorem Woken.frame {code : Int8} {joiners : List (VmId × UInt64)} {l : List (Event μ)}
    (h : Woken code joiners s l s') :
    s'.totalCycles = s.totalCycles ∧ s'.nextVmId = s.nextVmId ∧
      s'.nextPipeSlot = s.nextPipeSlot ∧ s'.pipes = s.pipes ∧ s'.suspended = s.suspended ∧
      s'.terminatedVms = s.terminatedVms ∧ s'.messageBox = s.messageBox ∧
      (∀ k, s'.states[k]? =
        if k ∈ joiners.map Prod.fst then some .runnable else s.states[k]?) ∧
      ∀ k, k ∉ joiners.map Prod.fst → s'.instantiated[k]? = s.instantiated[k]? := by
  induction h with
  | nil s => simp
  | cons hid hm hcore h ih =>
    obtain ⟨h₁, h₂, h₃, h₄, h₅, h₆, h₇, hstates, hmachines⟩ := ih
    refine ⟨h₁, h₂, h₃, h₄, h₅, h₆, h₇, ?_, ?_⟩
    · intro k
      rw [hstates]
      simp only [settled, getElem?_insert, List.map_cons, List.mem_cons]
      split
      · simp [*]
      · split <;> simp [*]
    · intro k hk
      rw [List.map_cons, List.mem_cons, not_or] at hk
      rw [hmachines k hk.2]
      simp only [settled, accessed, getElem?_insert, if_neg hk.1]

end Scheduler

end DeterministicScheduler
