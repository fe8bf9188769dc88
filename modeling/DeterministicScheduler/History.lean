import DeterministicScheduler.Reachability

/-!
# What the log tells of a VM

Between two executions of a VM its machine changes only by the accesses logged
for it, and these are the ones that complete the system call it yielded on. The
state of a waiting VM and the machine of every VM can be read off the log.
-/
namespace DeterministicScheduler

open ProgramLogic Program Outcome Std

variable {μ κ : Type}

/-- How the last execution of a VM ended: its machine, result and messages. -/
def lastExec (v : VmId) (tr : List (Event μ)) :
    Option (Cpu μ × Except Error Int8 × List Message) :=
  tr.foldl (fun last ev =>
    match ev with
    | .exec id _ cpu result posted => if id = v then some (cpu, result, posted) else last
    | _ => last) none

/-- The accesses to the machine of a VM. -/
def own (v : VmId) (l : List (Event μ)) : List (Event μ) :=
  l.filter fun ev => ev.target == some v

/-- The accesses to the machine of a VM since its last execution. -/
def since (v : VmId) (tr : List (Event μ)) : List (Event μ) :=
  tr.foldl (fun evs ev => if ev.runs = some v then [] else evs ++ own v [ev]) []

section Histories

variable {v : VmId} {tr l : List (Event μ)}

@[simp] theorem own_nil : own v ([] : List (Event μ)) = [] := rfl

theorem own_append (l l' : List (Event μ)) : own v (l ++ l') = own v l ++ own v l' :=
  List.filter_append _ _

/-- The accesses of one VM are all its own and no other VM's. -/
theorem own_of_target {id : VmId} (h : ∀ ev ∈ l, ev.target = some id) :
    own v l = if v = id then l else [] := by
  rw [own]
  split
  · rename_i hv
    refine List.filter_eq_self.mpr fun ev hev => ?_
    rw [h ev hev, hv, beq_iff_eq]
  · rename_i hv
    refine List.filter_eq_nil_iff.mpr fun ev hev => ?_
    rw [h ev hev, beq_iff_eq, Option.some.injEq]
    exact fun heq => hv heq.symm

/-- Events that do not run a VM add their accesses to its history. -/
theorem lastExec_append (h : ∀ ev ∈ l, ev.runs ≠ some v) :
    lastExec v (tr ++ l) = lastExec v tr := by
  induction l using List.reverseRecOn with
  | nil => rw [List.append_nil]
  | append_singleton l ev ih =>
    have hev := h ev (by simp)
    rw [← List.append_assoc, lastExec, List.foldl_append, List.foldl_cons, List.foldl_nil]
    refine Eq.trans ?_ (ih fun ev' hev' => h ev' (by simp [hev']))
    cases ev with
    | exec id before cpu result posted =>
      have hne : id ≠ v := fun heq => hev (by rw [Event.runs, heq])
      simp only [if_neg hne]
      rfl
    | _ => rfl

theorem since_append (h : ∀ ev ∈ l, ev.runs ≠ some v) :
    since v (tr ++ l) = since v tr ++ own v l := by
  induction l using List.reverseRecOn with
  | nil => rw [List.append_nil, own_nil, List.append_nil]
  | append_singleton l ev ih =>
    have hrest : ∀ ev ∈ l, ev.runs ≠ some v := fun ev' hev' => h ev' (by simp [hev'])
    rw [← List.append_assoc, since, List.foldl_append, List.foldl_cons, List.foldl_nil,
      if_neg (h ev (by simp)), own_append, ← List.append_assoc, ← ih hrest]
    rfl

/-- An execution begins a new history. -/
theorem lastExec_exec {before cpu : Cpu μ} {result : Except Error Int8} {posted : List Message}
    (h : ∀ ev ∈ l, ev.runs ≠ some v) :
    lastExec v (tr ++ .exec v before cpu result posted :: l) = some (cpu, result, posted) := by
  rw [List.append_cons, lastExec_append h, lastExec, List.foldl_append, List.foldl_cons]
  exact if_pos rfl

theorem since_exec {before cpu : Cpu μ} {result : Except Error Int8} {posted : List Message}
    (h : ∀ ev ∈ l, ev.runs ≠ some v) :
    since v (tr ++ .exec v before cpu result posted :: l) = own v l := by
  have hrun : since v (tr ++ [.exec v before cpu result posted]) = [] := by
    rw [since, List.foldl_append, List.foldl_cons]
    exact if_pos rfl
  rw [List.append_cons, since_append h, hrun, List.nil_append]

end Histories

/-- The codes with which a message may be refused. -/
def Message.refusals : Message → List UInt64
  | .join _ _ => [joinFailure]
  | .pipeRead _ _ | .pipeWrite _ _ => [invalidPipe, otherEndClosed]
  | _ => []

theorem Message.refusals_ne_success {msg : Message} {code : UInt64} (h : code ∈ msg.refusals) :
    code ≠ success := by
  cases msg <;> simp [refusals] at h <;> rcases h with rfl | rfl <;> decide

/-- How far a system call has got: the state of its VM and the accesses to its
machine so far, given the exit codes of terminated VMs. -/
inductive Settles (terminatedVms : HashMap VmId Int8) (v : VmId) :
    Message → VmState → List (Event μ) → Prop
  | rejected {msg : Message} {code : UInt64} (hcode : code ∈ msg.refusals) :
    Settles terminatedVms v msg .runnable [.setA0 v code]
  | joining {args : JoinArgs} : Settles terminatedVms v (.join v args)
      (.join args.targetId args.exitCodeAddr) []
  | joined {args : JoinArgs} {code : Int8} (hcode : terminatedVms[args.targetId]? = some code) :
    Settles terminatedVms v (.join v args) .runnable
      (Scheduler.joinEvents v args.exitCodeAddr code)
  | spawned {args : SpawnArgs} {spawned : VmId} : Settles terminatedVms v (.spawn v args) .runnable
      (Scheduler.spawnEvents v args.instanceIdAddr spawned)
  | piped {args : PipeArgs} {p1 p2 : PipeId} : Settles terminatedVms v (.pipe v args) .runnable
      (Scheduler.pipeEvents v args p1 p2)
  | reading {args : PipeIoArgs} : Settles terminatedVms v (.pipeRead v args)
      (.waitForRead args.pipe args.length args.bufferAddr args.lengthAddr) []
  | read {args : PipeIoArgs} {data : Bytes} {copied : UInt64} (hdata : data.length = copied.toNat)
    (hle : copied ≤ args.length) : Settles terminatedVms v (.pipeRead v args) .runnable
      [.storeBytes v args.bufferAddr data, .store64 v args.lengthAddr copied, .setA0 v success]
  | readClosed {args : PipeIoArgs} : Settles terminatedVms v (.pipeRead v args) .runnable
      [.store64 v args.lengthAddr 0, .setA0 v success]
  | writing {args : PipeIoArgs} {consumed : UInt64} : Settles terminatedVms v (.pipeWrite v args)
      (.waitForWrite args.pipe consumed args.length args.bufferAddr args.lengthAddr) []
  | written {args : PipeIoArgs} {copied : UInt64} : Settles terminatedVms v (.pipeWrite v args)
      .runnable [.store64 v args.lengthAddr copied, .setA0 v success]

/-- Exit codes are kept. -/
theorem Settles.mono {terminatedVms terminatedVms' : HashMap VmId Int8} {v : VmId} {msg : Message}
    {state : VmState} {evs : List (Event μ)} (h : Settles terminatedVms v msg state evs)
    (hkept : ∀ (t : VmId) (code : Int8), terminatedVms[t]? = some code →
      terminatedVms'[t]? = some code) :
    Settles terminatedVms' v msg state evs := by
  cases h with
  | rejected hcode => exact .rejected hcode
  | joining => exact .joining
  | joined hcode => exact .joined (hkept _ _ hcode)
  | spawned => exact .spawned
  | piped => exact .piped
  | reading => exact .reading
  | read hdata hle => exact .read hdata hle
  | readClosed => exact .readClosed
  | writing => exact .writing
  | written => exact .written

/-- A VM that waits has had no access to its machine yet. -/
theorem Settles.waiting {terminatedVms : HashMap VmId Int8} {v : VmId} {msg : Message}
    {state : VmState} {evs : List (Event μ)} (h : Settles terminatedVms v msg state evs)
    (hstate : state ≠ .runnable) : evs = [] := by
  cases h <;> first | rfl | exact absurd rfl hstate

namespace Scheduler

variable [Memory μ] {env : Env μ κ} {s s' r r' : Scheduler μ κ} {tr l : List (Event μ)}
  {id v : VmId} {m : Machine μ} {state state' : VmState} {core core' : Core μ}
  {terminatedVms terminatedVms' : HashMap VmId Int8}

/-- What the log tells of a VM that has not exited: it has not run yet, was
interrupted and not touched since, or yielded and its system call has got to
where the accesses since then have brought it. -/
inductive Tracked (tr : List (Event μ)) (terminatedVms : HashMap VmId Int8) (v : VmId)
    (state : VmState) (core : Core μ) : Prop
  | booted (hlast : lastExec v tr = none) (hsince : since v tr = []) (hstate : state = .runnable)
  | interrupted {cpu : Cpu μ} {e : Error} (hlast : lastExec v tr = some (cpu, .error e, []))
    (he : e.Interrupt) (hsince : since v tr = []) (hstate : state = .runnable)
    (hcore : core = cpu.toCore)
  | yielded {cpu : Cpu μ} {msg : Message}
    (hlast : lastExec v tr = some (cpu, .error .yield, [msg])) (hid : msg.vmId = v)
    (hchecked : msg.Checked) (hsettles : Settles terminatedVms v msg state (since v tr))
    (hcore : applyEvents (since v tr) cpu.toCore = .ok core)

/-- Events that do not concern a VM tell nothing new of it. -/
theorem Tracked.idle (h : Tracked tr terminatedVms v state core) (hown : own v l = [])
    (hruns : ∀ ev ∈ l, ev.runs ≠ some v)
    (hkept : ∀ (t : VmId) (code : Int8), terminatedVms[t]? = some code →
      terminatedVms'[t]? = some code) :
    Tracked (tr ++ l) terminatedVms' v state core := by
  have hlast' : lastExec v (tr ++ l) = lastExec v tr := lastExec_append hruns
  have hsince' : since v (tr ++ l) = since v tr ++ own v l := since_append hruns
  rw [hown, List.append_nil] at hsince'
  cases h with
  | booted hlast hsince hstate => exact .booted (hlast'.trans hlast) (hsince'.trans hsince) hstate
  | interrupted hlast he hsince hstate hcore =>
    exact .interrupted (hlast'.trans hlast) he (hsince'.trans hsince) hstate hcore
  | yielded hlast hid hchecked hsettles hcore =>
    refine .yielded (hlast'.trans hlast) hid hchecked ?_ ?_
    · rw [hsince']
      exact hsettles.mono hkept
    · rw [hsince', hcore]

/-- The accesses to a waiting VM settle its system call further. -/
theorem Tracked.accessed (h : Tracked tr terminatedVms v state core) (hstate : state ≠ .runnable)
    (hruns : ∀ ev ∈ l, ev.runs ≠ some v) (hcore : applyEvents (own v l) core = .ok core')
    (hsettles : ∀ msg, Settles terminatedVms v msg state ([] : List (Event μ)) →
      Settles terminatedVms' v msg state' (own v l)) :
    Tracked (tr ++ l) terminatedVms' v state' core' := by
  have hlast' : lastExec v (tr ++ l) = lastExec v tr := lastExec_append hruns
  have hsince' : since v (tr ++ l) = since v tr ++ own v l := since_append hruns
  cases h with
  | booted _ _ hrunnable => exact absurd hrunnable hstate
  | interrupted _ _ _ hrunnable _ => exact absurd hrunnable hstate
  | yielded hlast hid hchecked hold hcpu =>
    have hnone := hold.waiting hstate
    rw [hnone] at hold hcpu
    rw [hnone, List.nil_append] at hsince'
    cases hcpu
    exact .yielded (hlast'.trans hlast) hid hchecked (hsince' ▸ hsettles _ hold)
      (hsince' ▸ hcore)

omit [Memory μ] in
theorem closedEvents_target {ev : Event μ} (h : ev ∈ closedEvents id state) :
    ev.target = some id ∧ ev.runs = none := by
  cases state <;> simp [closedEvents] at h <;> rcases h with rfl | rfl <;> exact ⟨rfl, rfl⟩

omit [Memory μ] in
theorem joinEvents_target {addr : UInt64} {code : Int8} {ev : Event μ}
    (h : ev ∈ joinEvents id addr code) : ev.target = some id ∧ ev.runs = none := by
  simp only [joinEvents, List.mem_cons, List.not_mem_nil, or_false] at h
  rcases h with rfl | rfl <;> exact ⟨rfl, rfl⟩

omit [Memory μ] in
/-- A finished operation on a closed pipe completes its system call. -/
theorem settles_closed {pipes : HashMap PipeId VmId} {msg : Message}
    (hclosed : isClosed pipes state.waiting? = true)
    (h : Settles terminatedVms v msg state ([] : List (Event μ))) :
    Settles terminatedVms v msg .runnable (closedEvents v state : List (Event μ)) := by
  cases h with
  | joining => simp [isClosed, VmState.waiting?] at hclosed
  | reading => exact .readClosed
  | writing => exact .written

omit [Memory μ] in
/-- A transfer brings a write further or completes it. -/
theorem settles_transferred {rd : Read} {wr : Write} {msg : Message}
    (h : Settles terminatedVms wr.vmId msg wr.state ([] : List (Event μ))) :
    Settles terminatedVms wr.vmId msg (wr.next rd) (wr.events rd : List (Event μ)) := by
  obtain ⟨vmId, pipe, consumed, length, bufferAddr, lengthAddr⟩ := wr
  rw [Write.next, Write.events]
  cases h with
  | writing =>
    split
    · exact .written
    · exact .writing

omit [Memory μ] in
/-- A transfer completes a read. -/
theorem settles_read {rd : Read} {msg : Message} {p : PipeId} {data : Bytes} {copied : UInt64}
    (hdata : data.length = copied.toNat) (hle : copied ≤ rd.length)
    (h : Settles terminatedVms rd.vmId msg (rd.state p) ([] : List (Event μ))) :
    Settles terminatedVms rd.vmId msg .runnable (rd.events data copied : List (Event μ)) := by
  obtain ⟨vmId, length, bufferAddr, lengthAddr⟩ := rd
  cases h with
  | reading => exact .read hdata hle

theorem Woken.own {code : Int8} {joiners : List (VmId × UInt64)}
    (h : Woken code joiners s l s') (hnodup : (joiners.map Prod.fst).Nodup) :
    (∀ ev ∈ l, ev.runs = none) ∧
      (∀ k, k ∉ joiners.map Prod.fst → own k l = []) ∧
      ∀ k addr, (k, addr) ∈ joiners → own k l = joinEvents k addr code ∧
        ∃ m core, s.instantiated[k]? = some m ∧
          applyEvents (joinEvents k addr code) m.toCore = .ok core ∧
          s'.instantiated[k]? = some { m with toCore := core } := by
  induction h with
  | nil s => simp
  | @cons s s' id addr m core joiners l hid hm hcore h ih =>
    rw [List.map_cons, List.nodup_cons] at hnodup
    obtain ⟨hruns, hothers, hjoiners⟩ := ih hnodup.2
    have htarget : ∀ ev ∈ (joinEvents id addr code : List (Event μ)), ev.target = some id :=
      fun ev hev => (joinEvents_target hev).1
    refine ⟨?_, ?_, ?_⟩
    · intro ev hev
      rcases List.mem_append.mp hev with hev | hev
      · exact (joinEvents_target hev).2
      · exact hruns ev hev
    · intro k hk
      rw [List.map_cons, List.mem_cons, not_or] at hk
      rw [own_append, own_of_target htarget, if_neg hk.1, hothers k hk.2, List.append_nil]
    · intro k addr' hk
      rcases List.mem_cons.mp hk with heq | hk
      · cases heq
        refine ⟨?_, m, core, hm, hcore, ?_⟩
        · rw [own_append, own_of_target htarget, if_pos rfl, hothers id hnodup.1, List.append_nil]
        · rw [h.frame.2.2.2.2.2.2.2.2 id hnodup.1]
          simp only [settled, accessed, getElem?_insert, if_pos]
      · have hne : k ≠ id := by
          intro heq
          exact hnodup.1 (List.mem_map.mpr ⟨_, hk, heq⟩)
        obtain ⟨hown, m', core', hm', hcore', hs'⟩ := hjoiners k addr' hk
        refine ⟨?_, m', core', ?_, hcore', hs'⟩
        · rw [own_append, own_of_target htarget, if_neg hne, hown, List.nil_append]
        · simpa only [settled, accessed, getElem?_insert, if_neg hne] using hm'

omit [Memory μ] in
/-- The state in which a sender waits is where its system call has got to. -/
theorem settles_blocking {msg : Message} (hid : msg.vmId = v)
    (h : s.blocking msg = some state) :
    Settles terminatedVms v msg state ([] : List (Event μ)) := by
  cases msg with
  | spawn id args => cases h
  | pipe id args => cases h
  | join id args =>
    simp only [blocking, Option.ite_none_right_eq_some, Option.some.injEq] at h
    obtain ⟨_, rfl⟩ := h
    cases hid
    exact .joining
  | pipeRead id args =>
    simp only [blocking, Option.ite_none_right_eq_some, Option.some.injEq] at h
    obtain ⟨_, rfl⟩ := h
    cases hid
    exact .reading
  | pipeWrite id args =>
    simp only [blocking, Option.ite_none_right_eq_some, Option.some.injEq] at h
    obtain ⟨_, rfl⟩ := h
    cases hid
    exact .writing

omit [Memory μ] in
theorem rejection_refusals {msg : Message} {code : UInt64} (h : s.rejection msg = some code) :
    code ∈ msg.refusals := by
  cases msg with
  | spawn id args => cases h
  | pipe id args => cases h
  | join id args =>
    simp only [rejection, Option.ite_none_left_eq_some, Option.some.injEq] at h
    simp [Message.refusals, ← h.2]
  | pipeRead id args =>
    simp only [rejection] at h
    split at h
    · cases h
      simp [Message.refusals]
    · split at h
      · cases h
      · cases h
        simp [Message.refusals]
  | pipeWrite id args =>
    simp only [rejection] at h
    split at h
    · cases h
      simp [Message.refusals]
    · split at h
      · cases h
      · cases h
        simp [Message.refusals]

/-- What an answer does to the VMs: that of the sender settles its system call,
one may be new, and no other is touched. -/
structure Answers (s : Scheduler μ κ) (id : VmId) (m : Machine μ) (msg : Message)
    (l : List (Event μ)) (s' : Scheduler μ κ) : Prop where
  runs : ∀ ev ∈ l, ev.runs = none
  own : ∀ v, v ≠ id → own v l = []
  terminatedVms : s'.terminatedVms = s.terminatedVms
  nextVmId : s.nextVmId ≤ s'.nextVmId
  others : ∀ v, v ≠ id → v ∈ s.states →
    s'.states[v]? = s.states[v]? ∧ s'.instantiated[v]? = s.instantiated[v]?
  new : ∀ v state, s'.states[v]? = some state →
    v ∈ s.states ∨ v = s.nextVmId ∧ v < s'.nextVmId ∧ state = .runnable
  sender : ∃ state core, s'.states[id]? = some state ∧
    s'.instantiated[id]? = some { m with toCore := core } ∧
    Settles s.terminatedVms id msg state (DeterministicScheduler.own id l) ∧
    applyEvents (DeterministicScheduler.own id l) m.toCore = .ok core

/-- An answer that completes a system call of a VM at once. -/
theorem Answers.settled {msg : Message} (hid : id ∈ s.states)
    (hterminated : s'.terminatedVms = s.terminatedVms) (hnext : s'.nextVmId = s.nextVmId)
    (hstates : s'.states = s.states.insert id .runnable)
    (hmachines : s'.instantiated = s.instantiated.insert id { m with toCore := core })
    (hl : ∀ ev ∈ l, ev.target = some id ∧ ev.runs = none)
    (hsettles : Settles s.terminatedVms id msg .runnable l)
    (hcore : applyEvents l m.toCore = .ok core) : Answers s id m msg l s' where
  runs ev hev := (hl ev hev).2
  own v hv := by
    rw [own_of_target fun ev hev => (hl ev hev).1, if_neg hv]
  terminatedVms := hterminated
  nextVmId := hnext ▸ UInt64.le_refl _
  others v hv _ := by
    rw [hstates, hmachines, getElem?_insert, getElem?_insert, if_neg hv, if_neg hv]
    exact ⟨rfl, rfl⟩
  new v state hv := by
    rw [hstates] at hv
    exact Or.inl ((mem_insert_of_mem hid).mp (mem_iff_getElem?.mpr ⟨_, hv⟩))
  sender := by
    rw [hstates, hmachines, getElem?_insert, getElem?_insert, if_pos rfl, if_pos rfl,
      own_of_target fun ev hev => (hl ev hev).1, if_pos rfl]
    exact ⟨_, core, rfl, rfl, hsettles, hcore⟩

theorem Answer.answers {msg : Message} (h : Answer env s id m msg l s') (hres : Resident s)
    (hm : s.instantiated[id]? = some m) (hstate : s.states[id]? = some .runnable)
    (hid : msg.vmId = id) : Answers s id m msg l s' := by
  have hlive : id ∈ s.states := mem_iff_getElem?.mpr ⟨_, hstate⟩
  cases h with
  | rejected hcode =>
    refine .settled hlive rfl rfl rfl rfl ?_ (.rejected (rejection_refusals hcode)) rfl
    simp [Event.target, Event.runs]
  | joined hcode hcore =>
    exact .settled hlive rfl rfl rfl rfl (fun ev => joinEvents_target) (.joined hcode) hcore
  | piped hcreate hcore =>
    refine .settled hlive rfl rfl rfl rfl ?_ .piped hcore
    simp [pipeEvents, Event.target, Event.runs]
  | @blocked msg state hblock =>
    have hown : ∀ v, DeterministicScheduler.own v ([.block id state] : List (Event μ)) = [] :=
      fun _ => rfl
    refine ⟨by simp [Event.runs], fun v _ => hown v, rfl, UInt64.le_refl _, ?_, ?_, ?_⟩
    · intro v hv _
      rw [getElem?_insert, if_neg hv]
      exact ⟨rfl, rfl⟩
    · intro v state' hv
      exact Or.inl ((mem_insert_of_mem hlive).mp (mem_iff_getElem?.mpr ⟨_, hv⟩))
    · rw [hown, getElem?_insert, if_pos rfl]
      exact ⟨state, m.toCore, rfl, hm, settles_blocking hid hblock, rfl⟩
  | @spawned args charge machine core howns hnext hboot hcore =>
    have hle := (checkedAdd_one_eq_some hnext).2
    have hlt : id < s.nextVmId := hres.fresh id hlive
    have hne : ∀ v, v ∈ s.states → v ≠ s.nextVmId := by
      rintro v hv rfl
      exact UInt64.lt_irrefl _ (hres.fresh _ hv)
    have htarget : ∀ ev ∈ (spawnEvents id args.instanceIdAddr s.nextVmId : List (Event μ)),
        ev.target = some id := by
      simp [spawnEvents, Event.target]
    have hown : ∀ v, DeterministicScheduler.own v (Event.boot s.nextVmId charge ::
        spawnEvents id args.instanceIdAddr s.nextVmId : List (Event μ)) =
          if v = id then spawnEvents id args.instanceIdAddr s.nextVmId else [] :=
      fun v => own_of_target htarget
    refine ⟨by simp [spawnEvents, Event.runs], fun v hv => by rw [hown, if_neg hv], rfl, ?_, ?_, ?_,
      ?_⟩
    · exact UInt64.le_of_lt ((hle _).mp (UInt64.le_refl _))
    · intro v hv hlive'
      constructor <;>
        simp only [Scheduler.settled, accessed, booted, getElem?_insert, if_neg hv,
          if_neg (hne v hlive')]
    · intro v state hv
      simp only [Scheduler.settled, accessed, booted, getElem?_insert] at hv ⊢
      split at hv
      · rename_i hvid
        exact Or.inl (hvid ▸ hlive)
      split at hv
      · rename_i hnew
        subst hnew
        refine Or.inr ⟨rfl, ?_, (Option.some.inj hv).symm⟩
        exact (hle _).mp (UInt64.le_refl _)
      · exact Or.inl (mem_iff_getElem?.mpr ⟨_, hv⟩)
    · rw [hown, if_pos rfl]
      refine ⟨.runnable, core, ?_, ?_, .spawned, hcore⟩
      · simp only [Scheduler.settled, getElem?_insert, if_pos]
      · simp only [Scheduler.settled, accessed, getElem?_insert, if_pos]

/-- What the log tells of all VMs. -/
structure Recorded (tr : List (Event μ)) (s : Scheduler μ κ) : Prop where
  tracked : ∀ v state m, s.states[v]? = some state → state ≠ .terminated →
    s.instantiated[v]? = some m → Tracked tr s.terminatedVms v state m.toCore
  fresh : ∀ v, s.nextVmId ≤ v → lastExec v tr = none ∧ since v tr = []

/-- Exit codes are kept by every step. -/
theorem Step.terminatedVms_kept (h : Step env s l s') (hinv : Invariant s) {t : VmId} {code : Int8}
    (ht : s.terminatedVms[t]? = some code) : s'.terminatedVms[t]? = some code := by
  have hnot : ∀ {id : VmId}, s.states[id]? = some .runnable → t ≠ id := by
    rintro id hid rfl
    have hrun := hinv.running hid (by simp)
    exact hrun.separate t (mem_iff_getElem?.mpr ⟨_, hid⟩) (mem_iff_getElem?.mpr ⟨_, ht⟩)
  cases h with
  | answered hexec hid hchecked hanswer =>
    cases hanswer <;> exact ht
  | exited hexec hne hwoken =>
    have hframe : _ = s.terminatedVms := hwoken.frame.2.2.2.2.2.1
    simp only [purged, getElem?_insert, if_neg (hnot hexec.state), hframe, ht]
  | rootExited hexec =>
    simp only [completed, getElem?_insert, if_neg (hnot hexec.state)]
    exact ht
  | _ => exact ht

omit [Memory μ] in
/-- A reader and a writer are different VMs. -/
theorem ne_of_reading_writing {rd : Read} {wr : Write} {p : PipeId}
    (hread : s.states[rd.vmId]? = some (rd.state p))
    (hwrite : s.states[wr.vmId]? = some wr.state) : rd.vmId ≠ wr.vmId := by
  intro heq
  rw [heq, hwrite] at hread
  cases hread

omit [Memory μ] in
theorem ran_machine {result : Except Error Int8} {cpu : Cpu μ} :
    (s.ran id m result cpu).instantiated[id]? = some (afterRun m result cpu) := by
  simp only [ran, getElem?_insert, if_pos]

theorem joiningVms_nodup {states : BTreeMap VmId VmState} {target : VmId} :
    ((joiningVms states target).map Prod.fst).Nodup := by
  rw [List.Nodup, List.pairwise_map, joiningVms, List.pairwise_filterMap]
  refine ExtTreeMap.distinct_keys_toList.imp ?_
  rintro ⟨k, state⟩ ⟨k', state'⟩ hne p hp p' hp' heq
  have hkey : p.1 = k := by
    cases state <;> simp at hp
    rw [← hp.2]
  have hkey' : p'.1 = k' := by
    cases state' <;> simp at hp'
    rw [← hp'.2]
  exact hne (Std.compare_eq_iff_eq.mpr (hkey.symm.trans (heq.trans hkey')))

omit [Memory μ] in
theorem own_transferLog {rd : Read} {wr : Write} {data : Bytes} (hne : rd.vmId ≠ wr.vmId) :
    own v (transferLog rd wr data : List (Event μ)) =
      if v = rd.vmId then rd.events data (wr.copiable rd)
      else if v = wr.vmId then wr.events rd else [] := by
  have hwrite : ∀ ev ∈ (wr.events rd : List (Event μ)), ev.target = some wr.vmId := by
    simp only [Write.events]
    split <;> simp [Event.target]
  rw [transferLog, own_append, own_of_target hwrite]
  by_cases hrd : v = rd.vmId
  · rw [if_pos hrd, if_neg (hrd ▸ hne), List.append_nil]
    subst hrd
    simp [own, Event.target, Read.events]
  · rw [if_neg hrd]
    have hnone : own v ([.storeBytes rd.vmId rd.bufferAddr data,
        .transfer rd.vmId wr.vmId wr.pipe data, .store64 rd.vmId rd.lengthAddr (wr.copiable rd),
        .setA0 rd.vmId success] : List (Event μ)) = [] := by
      simp [own, Event.target, Ne.symm hrd]
    rw [hnone, List.nil_append]

omit [Memory μ] in
theorem transferLog_runs {rd : Read} {wr : Write} {data : Bytes} {ev : Event μ}
    (h : ev ∈ (transferLog rd wr data : List (Event μ))) : ev.runs = none := by
  have hnone : (transferLog rd wr data : List (Event μ)).all (·.runs.isNone) = true := by
    simp only [transferLog, Write.events]
    split <;> rfl
  exact Option.isNone_iff_eq_none.mp (List.all_eq_true.mp hnone ev h)

/-- A step does not concern a VM that is not live. -/
theorem Step.unconcerned (h : Step env s l s') (hinv : Invariant s) (hv : v ∉ s.states) :
    own v l = [] ∧ ∀ ev ∈ l, ev.runs ≠ some v := by
  have hne : ∀ {id : VmId} {state : VmState}, s.states[id]? = some state → v ≠ id := by
    rintro id state hid rfl
    exact hv (mem_iff_getElem?.mpr ⟨_, hid⟩)
  cases h with
  | started => simp [own, Event.target, Event.runs]
  | closed hstate =>
    refine ⟨?_, fun ev hev => by simp [(closedEvents_target hev).2]⟩
    rw [own_of_target fun ev hev => (closedEvents_target hev).1, if_neg (hne hstate)]
  | transferred hread hwrite =>
    refine ⟨?_, fun ev hev => by simp [transferLog_runs hev]⟩
    have hdiff := ne_of_reading_writing hread hwrite
    rw [own_transferLog hdiff, if_neg (hne hread), if_neg (hne hwrite)]
  | interrupted hexec =>
    simp [own, Event.target, Event.runs, (hne hexec.state).symm]
  | @answered id m cpu msg l s' hexec hid hchecked hanswer =>
    have hlive : id ∈ s.states := mem_iff_getElem?.mpr ⟨_, hexec.state⟩
    have hanswers := hanswer.answers (hinv.resident.ran hlive) ran_machine hexec.state hid
    refine ⟨hanswers.own v (hne hexec.state), ?_⟩
    rw [List.forall_mem_cons, List.forall_mem_cons]
    refine ⟨by simp [Event.runs, (hne hexec.state).symm], by simp [Event.runs], fun ev hev => ?_⟩
    simp [hanswers.runs ev hev]
  | @exited id m code cpu l s' hexec hne' hwoken =>
    obtain ⟨hruns, hothers, _⟩ := hwoken.own joiningVms_nodup
    refine ⟨hothers v ?_, ?_⟩
    · intro hin
      obtain ⟨⟨k, addr⟩, hk, rfl⟩ := List.mem_map.mp hin
      exact hne (mem_joiningVms.mp hk) rfl
    · rw [List.forall_mem_cons]
      exact ⟨by simp [Event.runs, (hne hexec.state).symm], fun ev hev => by simp [hruns ev hev]⟩
  | rootExited hexec =>
    simp [own, Event.target, Event.runs, (hne hexec.state).symm]

theorem Step.nextVmId_le (h : Step env s l s') (hinv : Invariant s) :
    s.nextVmId ≤ s'.nextVmId := by
  cases h with
  | @answered id m cpu msg l s' hexec hid hchecked hanswer =>
    have hlive : id ∈ s.states := mem_iff_getElem?.mpr ⟨_, hexec.state⟩
    exact (hanswer.answers (hinv.resident.ran hlive) ran_machine hexec.state hid).nextVmId
  | exited hexec hne hwoken =>
    have hframe : _ = s.nextVmId := hwoken.frame.2.1
    simp only [purged, hframe]
    exact UInt64.le_refl _
  | _ => exact UInt64.le_refl _

/-- What holds of every VM that is not concerned, and of every id still unused,
carries over; what is left is told of the VMs that are concerned. -/
theorem Recorded.step (h : Recorded tr s) (hstep : Step env s l s') (hinv : Invariant s)
    (htracked : ∀ v state m, s'.states[v]? = some state → state ≠ .terminated →
      s'.instantiated[v]? = some m →
      (s.states[v]? = some state ∧ (∃ m', s.instantiated[v]? = some m' ∧ m'.toCore = m.toCore) ∧
        own v l = [] ∧ ∀ ev ∈ l, ev.runs ≠ some v) ∨
      Tracked (tr ++ l) s'.terminatedVms v state m.toCore) : Recorded (tr ++ l) s' where
  tracked v state m hstate hne hm := by
    rcases htracked v state m hstate hne hm with ⟨hold, ⟨m', hm', hcore⟩, hown, hruns⟩ | hnew
    · exact hcore ▸ (h.tracked v state m' hold hne hm').idle hown hruns
        fun t code => hstep.terminatedVms_kept hinv
    · exact hnew
  fresh v hv := by
    have hle := UInt64.le_trans (hstep.nextVmId_le hinv) hv
    have hnot : v ∉ s.states := fun hlive =>
      UInt64.lt_irrefl _ (UInt64.lt_of_lt_of_le (hinv.resident.fresh v hlive) hle)
    obtain ⟨hown, hruns⟩ := hstep.unconcerned hinv hnot
    obtain ⟨hlast, hsince⟩ := h.fresh v hle
    exact ⟨(lastExec_append hruns).trans hlast,
      (since_append hruns).trans (by rw [hsince, hown, List.append_nil])⟩

theorem Step.recorded (hstep : Step env s l s') (hinv : Invariant s) (h : Recorded tr s) :
    Recorded (tr ++ l) s' := by
  refine h.step hstep hinv fun v state m hstate hne hm => ?_
  cases hstep with
  | started =>
    exact Or.inl ⟨hstate, ⟨m, hm, rfl⟩, rfl, by simp [Event.runs]⟩
  | @closed id state' m' core hstate' hclosed hm' hcore =>
    have htarget : ∀ ev ∈ (closedEvents id state' : List (Event μ)), ev.target = some id :=
      fun ev hev => (closedEvents_target hev).1
    have hruns : ∀ ev ∈ (closedEvents id state' : List (Event μ)), ev.runs ≠ some v :=
      fun ev hev => by simp [(closedEvents_target hev).2]
    simp only [settled, accessed, getElem?_insert] at hstate hm
    by_cases hv : v = id
    · subst hv
      rw [if_pos rfl] at hstate hm
      cases hstate
      cases hm
      have hwait : state' ≠ .terminated ∧ state' ≠ .runnable := by
        constructor <;> rintro rfl <;> simp [isClosed, VmState.waiting?] at hclosed
      refine Or.inr ((h.tracked v state' m' hstate' hwait.1 hm').accessed hwait.2 hruns ?_ ?_)
      · rw [own_of_target htarget, if_pos rfl, hcore]
      · intro msg hmsg
        rw [own_of_target htarget, if_pos rfl]
        exact settles_closed hclosed hmsg
    · rw [if_neg hv] at hstate hm
      exact Or.inl ⟨hstate, ⟨m, hm, rfl⟩, by rw [own_of_target htarget, if_neg hv], hruns⟩
  | @transferred rd wr mr mw data readCore writeCore hread hwrite hopen hmr hmw hload hreadCore
      hwriteCore =>
    have hdiff := ne_of_reading_writing hread hwrite
    have hruns : ∀ ev ∈ (transferLog rd wr data : List (Event μ)), ev.runs ≠ some v :=
      fun ev hev => by simp [transferLog_runs hev]
    have hown : own v (transferLog rd wr data : List (Event μ)) = _ := own_transferLog hdiff
    simp only [settled, accessed, getElem?_insert] at hstate hm
    by_cases hwr : v = wr.vmId
    · subst hwr
      rw [if_pos rfl] at hstate hm
      cases hstate
      cases hm
      rw [if_neg hdiff.symm, if_pos rfl] at hown
      refine Or.inr ((h.tracked _ _ mw hwrite (by simp [Write.state]) hmw).accessed
        (by simp [Write.state]) hruns (by rw [hown, hwriteCore]) fun msg hmsg => ?_)
      exact hown ▸ settles_transferred hmsg
    rw [if_neg hwr] at hstate hm
    by_cases hrd : v = rd.vmId
    · subst hrd
      rw [if_pos rfl] at hstate hm
      cases hstate
      cases hm
      rw [if_pos rfl] at hown
      refine Or.inr ((h.tracked _ _ mr hread (by simp [Read.state]) hmr).accessed
        (by simp [Read.state]) hruns (by rw [hown, hreadCore]) fun msg hmsg => ?_)
      have hlength : data.length = (wr.copiable rd).toNat := by
        rw [Memory.loadBytes_eq hload, List.length_map, List.length_range]
      exact hown ▸ settles_read hlength (wr.copiable_le_left rd) hmsg
    · rw [if_neg hrd] at hstate hm
      exact Or.inl ⟨hstate, ⟨m, hm, rfl⟩, by rw [hown, if_neg hrd, if_neg hwr], hruns⟩
  | @interrupted id m' e cpu hexec he =>
    simp only [ran, getElem?_insert] at hstate hm
    by_cases hv : v = id
    · subst hv
      rw [if_pos rfl] at hm
      cases hm
      have hrunnable := Option.some.inj (hstate.symm.trans hexec.state)
      exact Or.inr (.interrupted (lastExec_exec (by simp)) he (since_exec (by simp)) hrunnable rfl)
    · rw [if_neg hv] at hm
      exact Or.inl ⟨hstate, ⟨m, hm, rfl⟩, rfl, by simp [Event.runs, Ne.symm hv]⟩
  | @answered id m' cpu msg l s' hexec hid hchecked hanswer =>
    have hlive : id ∈ s.states := mem_iff_getElem?.mpr ⟨_, hexec.state⟩
    have hanswers := hanswer.answers (hinv.resident.ran hlive) ran_machine hexec.state hid
    have hruns : ∀ ev ∈ Event.message msg :: l, ev.runs ≠ some v := by
      rw [List.forall_mem_cons]
      exact ⟨by simp [Event.runs], fun ev hev => by simp [hanswers.runs ev hev]⟩
    by_cases hv : v = id
    · subst hv
      obtain ⟨state', core, hstate', hm', hsettles, hcore⟩ := hanswers.sender
      rw [hstate'] at hstate
      rw [hm'] at hm
      cases hstate
      cases hm
      refine Or.inr (.yielded (lastExec_exec hruns) hid hchecked ?_ ?_)
      · rw [since_exec hruns, hanswers.terminatedVms]
        exact hsettles
      · rw [since_exec hruns]
        exact hcore
    · have hruns' : ∀ ev ∈ Event.exec id m'.toCpu cpu (.error .yield) [msg] :: .message msg :: l,
          ev.runs ≠ some v := by
        rw [List.forall_mem_cons]
        exact ⟨by simp [Event.runs, Ne.symm hv], hruns⟩
      have hown : own v (.exec id m'.toCpu cpu (.error .yield) [msg] :: .message msg :: l) = [] :=
        hanswers.own v hv
      rcases hanswers.new v state hstate with hold | ⟨rfl, hlt, rfl⟩
      · obtain ⟨hstate', hm'⟩ := hanswers.others v hv hold
        rw [hstate'] at hstate
        rw [hm'] at hm
        simp only [ran, getElem?_insert, if_neg hv] at hm
        exact Or.inl ⟨hstate, ⟨m, hm, rfl⟩, hown, hruns'⟩
      · obtain ⟨hlast, hsince⟩ := h.fresh _ (UInt64.le_refl s.nextVmId)
        refine Or.inr (.booted ((lastExec_append hruns').trans hlast) ?_ rfl)
        exact (since_append hruns').trans (by rw [hown, List.append_nil]; exact hsince)
  | @exited id m' code cpu l s' hexec hne' hwoken =>
    obtain ⟨hruns, hothers, hjoiners⟩ := hwoken.own joiningVms_nodup
    simp only [purged, getElem?_erase] at hstate hm
    split at hstate
    · cases hstate
    rename_i hv
    rw [if_neg hv] at hm
    have hruns' : ∀ ev ∈ Event.exec id m'.toCpu cpu (.ok code) [] :: l, ev.runs ≠ some v := by
      rw [List.forall_mem_cons]
      exact ⟨by simp [Event.runs, Ne.symm hv], fun ev hev => by simp [hruns ev hev]⟩
    have hstates := hwoken.frame.2.2.2.2.2.2.2.1 v
    have hmachines := hwoken.frame.2.2.2.2.2.2.2.2 v
    by_cases hjoins : v ∈ (joiningVms s.states id).map Prod.fst
    · obtain ⟨⟨k, addr⟩, hk, rfl⟩ := List.mem_map.mp hjoins
      obtain ⟨hown, m₀, core, hm₀, hcore, hm₁⟩ := hjoiners k addr hk
      rw [hstates, if_pos hjoins] at hstate
      rw [hm₁] at hm
      cases hstate
      cases hm
      simp only [ran, getElem?_insert, if_neg hv] at hm₀
      have hjoin : s.states[k]? = some (.join id addr) := mem_joiningVms.mp hk
      have hown' : own k (.exec id m'.toCpu cpu (.ok code) [] :: l) = joinEvents k addr code := hown
      refine Or.inr ((h.tracked k _ m₀ hjoin (by simp) hm₀).accessed (by simp) hruns'
        (by rw [hown', hcore]) fun msg hmsg => ?_)
      rw [hown']
      cases hmsg with
      | joining => exact .joined (by simp [purged])
    · rw [hstates, if_neg hjoins] at hstate
      rw [hmachines hjoins] at hm
      simp only [ran, getElem?_insert, if_neg hv] at hm
      exact Or.inl ⟨hstate, ⟨m, hm, rfl⟩, hothers v hjoins, hruns'⟩
  | rootExited =>
    simp only [completed, getElem?_insert] at hstate
    split at hstate
    · exact absurd (Option.some.inj hstate).symm hne
    · simp at hstate

/-- The exit codes of a scheduler are those that its log tells. -/
def Exits (tr : List (Event μ)) (s : Scheduler μ κ) : Prop :=
  ∀ (t : VmId) (code : Int8), s.terminatedVms[t]? = some code ↔
    ∃ before after posted, Event.exec t before after (.ok code) posted ∈ tr

omit [Memory μ] in
/-- Events that end no VM leave the exit codes alone. -/
theorem Exits.idle (h : Exits tr s) (hterminated : s'.terminatedVms = s.terminatedVms)
    (hl : ∀ ev ∈ l, ∀ t before after code posted, ev ≠ .exec t before after (.ok code) posted) :
    Exits (tr ++ l) s' := by
  intro t code
  rw [hterminated, h t code]
  constructor
  · rintro ⟨before, after, posted, hmem⟩
    exact ⟨before, after, posted, List.mem_append_left _ hmem⟩
  · rintro ⟨before, after, posted, hmem⟩
    rcases List.mem_append.mp hmem with hmem | hmem
    · exact ⟨before, after, posted, hmem⟩
    · exact absurd rfl (hl _ hmem t before after code posted)

omit [Memory μ] in
/-- An exit adds its code. -/
theorem Exits.exited (h : Exits tr s) {code : Int8} {before after : Cpu μ}
    {posted : List Message} (hnot : id ∉ s.terminatedVms)
    (hterminated : s'.terminatedVms = s.terminatedVms.insert id code)
    (hl : ∀ ev ∈ l, ev.runs = none) :
    Exits (tr ++ .exec id before after (.ok code) posted :: l) s' := by
  intro t code'
  rw [hterminated, getElem?_insert]
  split
  · rename_i ht
    subst ht
    constructor
    · intro hcode
      cases hcode
      exact ⟨before, after, posted, by simp⟩
    · rintro ⟨before', after', posted', hmem⟩
      rcases List.mem_append.mp hmem with hmem | hmem
      · exact absurd (mem_iff_getElem?.mpr ⟨code', (h t code').mpr ⟨_, _, _, hmem⟩⟩) hnot
      rcases List.mem_cons.mp hmem with heq | hmem
      · cases heq
        rfl
      · exact absurd (hl _ hmem) (by simp [Event.runs])
  · rename_i ht
    rw [h t code']
    constructor
    · rintro ⟨before', after', posted', hmem⟩
      exact ⟨before', after', posted', List.mem_append_left _ hmem⟩
    · rintro ⟨before', after', posted', hmem⟩
      rcases List.mem_append.mp hmem with hmem | hmem
      · exact ⟨before', after', posted', hmem⟩
      rcases List.mem_cons.mp hmem with heq | hmem
      · cases heq
        exact absurd rfl ht
      · exact absurd (hl _ hmem) (by simp [Event.runs])

theorem Step.exits (hstep : Step env s l s') (hinv : Invariant s) (h : Exits tr s) :
    Exits (tr ++ l) s' := by
  have hnone : ∀ {l : List (Event μ)}, (∀ ev ∈ l, ev.runs = none) →
      ∀ ev ∈ l, ∀ t before after code posted, ev ≠ .exec t before after (.ok code) posted := by
    rintro l hl ev hev t before after code posted rfl
    cases hl _ hev
  have hnot : ∀ {id : VmId}, s.states[id]? = some .runnable → id ∉ s.terminatedVms := fun hid =>
    (hinv.running hid (by simp)).separate _ (mem_iff_getElem?.mpr ⟨_, hid⟩)
  cases hstep with
  | started => exact h.idle rfl (hnone (by simp [Event.runs]))
  | closed => exact h.idle rfl (hnone fun ev hev => (closedEvents_target hev).2)
  | transferred => exact h.idle rfl (hnone fun ev hev => transferLog_runs hev)
  | interrupted => exact h.idle rfl (by simp)
  | @answered id m cpu msg l s' hexec hid hchecked hanswer =>
    have hlive : id ∈ s.states := mem_iff_getElem?.mpr ⟨_, hexec.state⟩
    have hanswers := hanswer.answers (hinv.resident.ran hlive) ran_machine hexec.state hid
    refine h.idle hanswers.terminatedVms ?_
    rw [List.forall_mem_cons, List.forall_mem_cons]
    exact ⟨by simp, by simp, hnone hanswers.runs⟩
  | exited hexec hne hwoken =>
    refine h.exited (hnot hexec.state) ?_ (hwoken.own joiningVms_nodup).1
    have hframe : _ = s.terminatedVms := hwoken.frame.2.2.2.2.2.1
    simp only [purged, hframe]
  | rootExited hexec => exact h.exited (hnot hexec.state) rfl (by simp)

/-- The log of a run tells all exit codes. -/
theorem Run.exits (h : Run env tr r) : Exits tr r := by
  refine (h.keeps (I := fun tr r => Invariant r ∧ Exits tr r) ?_ ?_).2
  · intro charge machine _
    refine ⟨booted_invariant machine, fun t code => ?_⟩
    simp [booted, new]
  · rintro tr r l r' ⟨hinv, hr⟩ hstep
    exact ⟨hstep.invariant hinv, hstep.exits hinv hr⟩

theorem Steps.terminatedVms_kept (h : Steps env s l s') (hinv : Invariant s) {t : VmId}
    {code : Int8} (ht : s.terminatedVms[t]? = some code) : s'.terminatedVms[t]? = some code := by
  have hkept : Invariant s' ∧ s'.terminatedVms[t]? = some code := by
    refine Path.invariant (I := fun s => Invariant s ∧ s.terminatedVms[t]? = some code) ?_ h
      ⟨hinv, ht⟩
    rintro s l s' ⟨hinv, ht⟩ hstep
    exact ⟨hstep.invariant hinv, hstep.terminatedVms_kept hinv ht⟩
  exact hkept.2

/-- The log of a run tells of all its VMs. -/
theorem Run.recorded (h : Run env tr r) : Recorded tr r := by
  refine (h.keeps (I := fun tr r => Invariant r ∧ Recorded tr r) ?_ ?_).2
  · intro charge machine _
    refine ⟨booted_invariant machine, ?_, fun v _ => ⟨rfl, rfl⟩⟩
    intro v state m hstate _ _
    simp only [booted, new, getElem?_insert] at hstate
    split at hstate
    · exact .booted rfl rfl (Option.some.inj hstate).symm
    · simp at hstate
  · rintro tr r l r' ⟨hinv, hr⟩ hstep
    exact ⟨hstep.invariant hinv, hstep.recorded hinv hr⟩

end Scheduler

end DeterministicScheduler
