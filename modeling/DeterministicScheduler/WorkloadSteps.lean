import DeterministicScheduler.WorkloadInvariant

/-!
# The steps of a workload

Each step of a scheduler that runs a workload leaves every VM where its operations say, logs
the system calls in their order, and each transfer is one of the writes. No step fails a call.
-/
namespace DeterministicScheduler

/-- What a transfer moves: its reader, its writer, the pipe written to and the bytes. -/
def Event.transfer? {μ : Type} : Event μ → Option (VmId × VmId × PipeId × Bytes)
  | .transfer readVmId writeVmId writePipe data => some (readVmId, writeVmId, writePipe, data)
  | _ => none

/-- The messages of one VM. -/
def sentBy {μ : Type} (v : VmId) (tr : List (Event μ)) : List Message :=
  (tr.filterMap Event.message?).filter fun msg => msg.vmId = v

/-- The word that an event stores for a VM, with its address. -/
def Event.word? {μ : Type} (v : VmId) : Event μ → Option (UInt64 × UInt64)
  | .store64 id addr value => if id = v then some (addr, value) else none
  | _ => none

/-- The words that the answers to one VM leave in its memory. -/
def storedTo {μ : Type} (v : VmId) (tr : List (Event μ)) : List (UInt64 × UInt64) :=
  tr.filterMap (Event.word? v)

namespace DataGraph

open ProgramLogic Program Outcome EscapeEncoding Std Scheduler

/-- System calls succeed and move something, and executions end in a system call, with code
zero or by an interrupt. -/
def Smooth : Event GuestMemory → Prop
  | .setA0 _ value => value = success
  | .store64 _ addr value => addr = segmentAddr 2 → value ≠ 0
  | .exec _ _ _ result _ => result = .ok 0 ∨ result = .error .yield ∨
    ∃ e, result = .error e ∧ e.Interrupt
  | _ => True

/-- A transfer carries out a write. -/
def Fulfils (P : Progress) (t : VmId × VmId × PipeId × Bytes) (w : Write) : Prop :=
  P.vm w.toVm = some t.1 ∧ P.vm w.fromVm = some t.2.1 ∧ P.pipe w.fromPipe = some t.2.2.1 ∧
    w.getData = t.2.2.2

/-- A message asks for an operation. -/
inductive Performs (P : Progress) (i : ℕ) : Message → Op → Prop
  | create (v : VmId) (args : PipeArgs) (p : Pipe) : Performs P i (.pipe v args) (.create p)
  | spawn {v : VmId} {args : SpawnArgs} {s : Spawn}
      (hpipes : args.pipes.map some = s.pipes.map P.pipe)
    (hargv : args.argv = [encode (wordBytes (UInt64.ofNat s.child)),
      encode (wordsBytes args.pipes)]) :
    Performs P i (.spawn v args) (.spawn s)
  | write {v : VmId} {args : PipeIoArgs} {w : Write} (hvm : w.fromVm = i)
    (hpipe : P.pipe w.fromPipe = some args.pipe)
    (hlength : args.length = UInt64.ofNat w.getData.length) :
    Performs P i (.pipeWrite v args) (.move w)
  | read {v : VmId} {args : PipeIoArgs} {w : Write} (hvm : w.toVm = i)
    (hpipe : P.pipe w.toPipe = some args.pipe)
    (hlength : args.length = UInt64.ofNat w.getData.length) :
    Performs P i (.pipeRead v args) (.move w)
  | join {v : VmId} {args : JoinArgs} {child : ℕ} (htarget : P.vm child = some args.targetId) :
    Performs P i (.join v args) (.join child)

/-- The words that the answer to an operation stores: the ids of a new pipe or of a new VM, or
how much was moved. -/
inductive Tells (P : Progress) : List (UInt64 × UInt64) → Op → Prop
  | create {p : Pipe} {p1 p2 : PipeId} (hread : P.pipe p.readPipe = some p1)
    (hwrite : P.pipe p.writePipe = some p2) :
    Tells P [(segmentAddr 1, p1), (segmentAddr 1 + 8, p2)] (.create p)
  | spawn {s : Spawn} {v : VmId} (hchild : P.vm s.child = some v) :
    Tells P [(segmentAddr 6, v)] (.spawn s)
  | move (w : Write) : Tells P [(segmentAddr 2, UInt64.ofNat w.getData.length)] (.move w)
  | join (child : ℕ) : Tells P [] (.join child)

/-- These words are stored by the answers to these operations, one answer after another. -/
def Told (P : Progress) (words : List (UInt64 × UInt64)) (done : List Op) : Prop :=
  ∃ answers, List.Forall₂ (Tells P) answers done ∧ words = answers.flatten

/-- The operation that a VM in this state has asked for and that is not done. -/
def pending (state : Option VmState) (left : List Op) : List Op :=
  match state with
  | none | some .runnable | some .terminated => []
  | some _ => left.take 1

theorem pending_append (state : Option VmState) (left : List Op) :
    ∃ todo, pending state left ++ todo = left := by
  unfold pending
  split
  · exact ⟨left, rfl⟩
  · exact ⟨left, rfl⟩
  · exact ⟨left, rfl⟩
  · exact ⟨left.drop 1, List.take_append_drop 1 left⟩

theorem pending_length (state : Option VmState) (left : List Op) :
    (pending state left).length ≤ 1 := by
  unfold pending
  split
  all_goals simp

variable {κ : Type}

/-- A VM stands where its operations left say. It has asked for those that are done, and was
told what came of them. -/
structure Follows (data : Data) (P : Progress) (tr : List (Event GuestMemory))
    (s : Scheduler GuestMemory κ) (i : ℕ) (v : VmId) : Prop where
  stands : ∀ (state : VmState) (m : Machine GuestMemory), s.states[v]? = some state →
    s.instantiated[v]? = some m → state ≠ .terminated →
      Stands data P i v (P.left i) state m.toCore
  asked : ∃ done, ops i data = done ++ P.left i ∧
    List.Forall₂ (Performs P i) (sentBy v tr) (done ++ pending s.states[v]? (P.left i))
  told : ∃ done, ops i data = done ++ P.left i ∧ Told P (storedTo v tr) done

/-- A scheduler in the middle of a workload, with all it has logged. -/
structure Underway (n : ℕ) (data : Data) (P : Progress) (tr : List (Event GuestMemory))
    (s : Scheduler GuestMemory κ) : Prop where
  sound : P.Sound data
  attends : Attends n data P s
  follows : ∀ (i : ℕ) (v : VmId), P.vm i = some v → Follows data P tr s i v
  fresh : ∀ v : VmId, s.nextVmId ≤ v → sentBy v tr = [] ∧ storedTo v tr = []
  closed : ∀ v : VmId, s.states[v]? = some .terminated → v ∈ s.terminatedVms
  smooth : ∀ ev ∈ tr, Smooth ev
  carried : ∃ done : List Write, done.Nodup ∧
    (∀ w, w ∈ done ↔ w ∈ data.writes ∧ .move w ∉ P.left w.fromVm) ∧
      List.Forall₂ (Fulfils P) (tr.filterMap Event.transfer?) done

variable {data : Data} {P P' : Progress} {tr l : List (Event GuestMemory)}
  {s s' : Scheduler GuestMemory κ} {i j n t q : ℕ} {v : VmId}
  {left rest : List Op} {id : PipeId} {state : VmState} {c : Core GuestMemory}
  {msg : Message} {op : Op} {m : Machine GuestMemory}

theorem sentBy_append (v : VmId) (tr l : List (Event GuestMemory)) :
    sentBy v (tr ++ l) = sentBy v tr ++ sentBy v l := by
  rw [sentBy, List.filterMap_append, List.filter_append]
  rfl

theorem storedTo_append (v : VmId) (tr l : List (Event GuestMemory)) :
    storedTo v (tr ++ l) = storedTo v tr ++ storedTo v l :=
  List.filterMap_append

theorem fresh_append (hfresh : sentBy v tr = [] ∧ storedTo v tr = []) (hsent : sentBy v l = [])
    (hstored : storedTo v l = []) : sentBy v (tr ++ l) = [] ∧ storedTo v (tr ++ l) = [] := by
  rw [sentBy_append, storedTo_append, hfresh.1, hfresh.2, hsent, hstored]
  exact ⟨rfl, rfl⟩

theorem Progress.Grows.performs (hP : P.Grows P') (h : Performs P i msg op) :
    Performs P' i msg op := by
  cases h with
  | create v args p => exact .create v args p
  | spawn hpipes hargv => exact .spawn (map_grows hP.pipe hpipes) hargv
  | write hvm hpipe hlength => exact .write hvm (hP.pipe _ _ hpipe) hlength
  | read hvm hpipe hlength => exact .read hvm (hP.pipe _ _ hpipe) hlength
  | join htarget => exact .join (hP.vm _ _ htarget)

theorem Progress.Grows.tells (hP : P.Grows P') {words : List (UInt64 × UInt64)}
    (h : Tells P words op) : Tells P' words op := by
  cases h with
  | create hread hwrite => exact .create (hP.pipe _ _ hread) (hP.pipe _ _ hwrite)
  | spawn hchild => exact .spawn (hP.vm _ _ hchild)
  | move w => exact .move w
  | join child => exact .join child

theorem Progress.Grows.fulfils (hP : P.Grows P') {t : VmId × VmId × PipeId × Bytes} {w : Write}
    (h : Fulfils P t w) : Fulfils P' t w :=
  ⟨hP.vm _ _ h.1, hP.vm _ _ h.2.1, hP.pipe _ _ h.2.2.1, h.2.2.2⟩

/-- What a VM posts asks for the first operation that is left. -/
theorem Posts.performs {locals : Locals} {bytes : Ram}
    (h : Posts data P i v left locals bytes msg) :
    msg.vmId = v ∧ ∃ op rest, left = op :: rest ∧ Performs P i msg op := by
  cases h with
  | pipe h hvm => exact ⟨rfl, _, _, rfl, .create ..⟩
  | spawn h hvm hids => exact ⟨rfl, _, _, rfl, .spawn hids rfl⟩
  | write h hvm hpipe hdata => exact ⟨rfl, _, _, rfl, .write hvm hpipe rfl⟩
  | read h hvm hpipe => exact ⟨rfl, _, _, rfl, .read hvm hpipe rfl⟩
  | join h =>
    have htargets := h.targets
    rw [List.map_cons, List.map_cons, List.cons.injEq] at htargets
    exact ⟨rfl, _, _, rfl, .join htargets.1.symm⟩

namespace Follows

variable (h : Follows data P tr s i v) (hP : P.Grows P')

include h hP

/-- A VM to which nothing is told. -/
theorem told_same (hleft : P'.left i = P.left i) (hstored : storedTo v l = []) :
    ∃ done, ops i data = done ++ P'.left i ∧ Told P' (storedTo v (tr ++ l)) done := by
  obtain ⟨done, hops, answers, htells, hwords⟩ := h.told
  refine ⟨done, by rw [hleft, hops], answers, htells.imp fun _ _ h => hP.tells h, ?_⟩
  rw [storedTo_append, hstored, List.append_nil, hwords]

/-- A VM whose operation is answered. -/
theorem told_more (hleft : P.left i = op :: rest) (hleft' : P'.left i = rest)
    (htold : Tells P' (storedTo v l) op) :
    ∃ done, ops i data = done ++ P'.left i ∧ Told P' (storedTo v (tr ++ l)) done := by
  obtain ⟨done, hops, answers, htells, hwords⟩ := h.told
  refine ⟨done ++ [op], by rw [hleft', hops, hleft]; simp, answers ++ [storedTo v l], ?_, ?_⟩
  · exact List.rel_append (htells.imp fun _ _ h => hP.tells h) (.cons htold .nil)
  · rw [storedTo_append, hwords, List.flatten_append, List.flatten_singleton]

/-- A VM that a step leaves alone. -/
theorem same (hleft : P'.left i = P.left i) (hstate : s'.states[v]? = s.states[v]?)
    (hmachine : s'.instantiated[v]? = s.instantiated[v]?) (hsent : sentBy v l = [])
    (hstored : storedTo v l = []) : Follows data P' (tr ++ l) s' i v := by
  refine ⟨?_, ?_, h.told_same hP hleft hstored⟩
  · intro state m hk hm hne
    rw [hstate] at hk
    rw [hmachine] at hm
    rw [hleft]
    exact hP.stands (h.stands state m hk hm hne)
  · obtain ⟨done, hops, hasked⟩ := h.asked
    refine ⟨done, by rw [hleft, hops], ?_⟩
    rw [sentBy_append, hsent, List.append_nil, hstate, hleft]
    exact hasked.imp fun _ _ h => hP.performs h

/-- A VM whose system call is answered at once. -/
theorem answered (hstate : s.states[v]? = some .runnable) (hleft : P.left i = op :: rest)
    (hperforms : Performs P i msg op) (hsent : sentBy v l = [msg])
    (htold : Tells P' (storedTo v l) op) (hleft' : P'.left i = rest)
    (hstate' : s'.states[v]? = some .runnable) (hmachine' : s'.instantiated[v]? = some m)
    (hready : AtReady data P' i rest m.toCore) : Follows data P' (tr ++ l) s' i v := by
  refine ⟨?_, ?_, h.told_more hP hleft hleft' htold⟩
  · intro state m' hk hm _
    rw [hstate', Option.some.injEq] at hk
    rw [hmachine', Option.some.injEq] at hm
    subst hk hm
    rw [hleft']
    exact .ready hready
  · obtain ⟨done, hops, hasked⟩ := h.asked
    refine ⟨done ++ [op], by rw [hleft', hops, hleft]; simp, ?_⟩
    rw [hstate] at hasked
    rw [hstate', sentBy_append, hsent]
    simp only [pending, List.append_nil] at hasked ⊢
    exact List.rel_append (hasked.imp fun _ _ h => hP.performs h)
      (.cons (hP.performs hperforms) .nil)

/-- A VM whose system call was answered later. -/
theorem resumed (hstate : pending s.states[v]? (P.left i) = [op]) (hleft : P.left i = op :: rest)
    (hsent : sentBy v l = []) (htold : Tells P' (storedTo v l) op) (hleft' : P'.left i = rest)
    (hstate' : s'.states[v]? = some .runnable) (hmachine' : s'.instantiated[v]? = some m)
    (hready : AtReady data P' i rest m.toCore) : Follows data P' (tr ++ l) s' i v := by
  refine ⟨?_, ?_, h.told_more hP hleft hleft' htold⟩
  · intro state m' hk hm _
    rw [hstate', Option.some.injEq] at hk
    rw [hmachine', Option.some.injEq] at hm
    subst hk hm
    rw [hleft']
    exact .ready hready
  · obtain ⟨done, hops, hasked⟩ := h.asked
    refine ⟨done ++ [op], by rw [hleft', hops, hleft]; simp, ?_⟩
    rw [hstate] at hasked
    rw [hstate', sentBy_append, hsent, List.append_nil]
    simp only [pending, List.append_nil]
    exact hasked.imp fun _ _ h => hP.performs h

omit hP in
/-- A VM that waits for the answer. -/
theorem blocked (hstate : s.states[v]? = some .runnable)
    (hposts : Posts data P i v (P.left i) m.memory.locals m.memory.bytes msg)
    (hwaiting : waiting msg = some state) (hsent : sentBy v l = [msg])
    (hstored : storedTo v l = [])
    (hstate' : s'.states[v]? = some state) (hmachine' : s'.instantiated[v]? = some m) :
    Follows data P (tr ++ l) s' i v := by
  refine ⟨?_, ?_, h.told_same (.refl P) rfl hstored⟩
  · intro state' m' hk hm _
    rw [hstate', Option.some.injEq] at hk
    rw [hmachine', Option.some.injEq] at hm
    subst hk hm
    exact .waits hposts hwaiting
  · obtain ⟨done, hops, hasked⟩ := h.asked
    obtain ⟨-, op, rest, hleft, hperforms⟩ := hposts.performs
    refine ⟨done, hops, ?_⟩
    have hpending : pending (some state) (P.left i) = [op] := by
      rw [hleft]
      cases msg <;> cases hwaiting <;> rfl
    rw [hstate] at hasked
    rw [hstate', sentBy_append, hsent, hpending]
    simp only [pending, List.append_nil] at hasked
    exact List.rel_append hasked (.cons hperforms .nil)

omit hP in
/-- A VM that is interrupted. -/
theorem interrupted (hstate : s.states[v]? = some .runnable) (hsent : sentBy v l = [])
    (hstored : storedTo v l = [])
    (hstate' : s'.states[v]? = some .runnable) (hmachine' : s'.instantiated[v]? = some m)
    (hready : AtReady data P i (P.left i) m.toCore) : Follows data P (tr ++ l) s' i v := by
  refine ⟨?_, ?_, h.told_same (.refl P) rfl hstored⟩
  · intro state m' hk hm _
    rw [hstate', Option.some.injEq] at hk
    rw [hmachine', Option.some.injEq] at hm
    subst hk hm
    exact .ready hready
  · obtain ⟨done, hops, hasked⟩ := h.asked
    refine ⟨done, hops, ?_⟩
    rw [hstate', ← hstate, sentBy_append, hsent, List.append_nil]
    exact hasked

/-- A VM that exits. -/
theorem exited (hleft : P'.left i = P.left i) (hstate : s.states[v]? = some .runnable)
    (hsent : sentBy v l = []) (hstored : storedTo v l = [])
    (hstate' : s'.states[v]? = none ∨ s'.states[v]? = some .terminated) :
    Follows data P' (tr ++ l) s' i v := by
  refine ⟨?_, ?_, h.told_same hP hleft hstored⟩
  · intro state m hk _ hne
    rcases hstate' with hnone | hterm
    · rw [hnone] at hk
      cases hk
    · rw [hterm, Option.some.injEq] at hk
      exact absurd hk.symm hne
  · obtain ⟨done, hops, hasked⟩ := h.asked
    refine ⟨done, by rw [hleft, hops], ?_⟩
    have hpending : pending s'.states[v]? (P'.left i) = pending s.states[v]? (P.left i) := by
      rw [hstate]
      rcases hstate' with hnone | hterm
      · rw [hnone]
        rfl
      · rw [hterm]
        rfl
    rw [hpending, sentBy_append, hsent, List.append_nil]
    exact hasked.imp fun _ _ h => hP.performs h

end Follows

theorem Posts.of_pipeWrite {locals' : Locals} {bytes : Ram} {args : PipeIoArgs}
    (h : Posts data P i v left locals' bytes (.pipeWrite v args)) :
    ∃ w todo locals, Moving data P i (w :: todo) locals ∧ w.fromVm = i ∧
      left = .move w :: (moves i todo ++ afterWrites i data) ∧
      P.pipe w.fromPipe = some args.pipe ∧
      args = ⟨args.pipe, UInt64.ofNat w.getData.length, segmentAddr 1, segmentAddr 2⟩ ∧
      locals' = { locals with stage := .wrote w args.pipe 0 todo } ∧
      bufferOf bytes w.getData.length = w.getData := by
  cases h with
  | write h hvm hpipe hdata => exact ⟨_, _, _, h, hvm, rfl, hpipe, rfl, rfl, hdata⟩

theorem Posts.of_pipeRead {locals' : Locals} {bytes : Ram} {args : PipeIoArgs}
    (h : Posts data P i v left locals' bytes (.pipeRead v args)) :
    ∃ w todo locals, Moving data P i (w :: todo) locals ∧ w.toVm = i ∧
      left = .move w :: (moves i todo ++ afterWrites i data) ∧
      P.pipe w.toPipe = some args.pipe ∧
      args = ⟨args.pipe, UInt64.ofNat w.getData.length, segmentAddr 1, segmentAddr 2⟩ ∧
      locals' = { locals with stage := .didRead w args.pipe 0 todo } := by
  cases h with
  | read h hvm hpipe => exact ⟨_, _, _, h, hvm, rfl, hpipe, rfl, rfl⟩

theorem Posts.of_join {locals' : Locals} {bytes : Ram} {args : JoinArgs}
    (h : Posts data P i v left locals' bytes (.join v args)) :
    ∃ targets child children locals, Joining P i (args.targetId :: targets)
      (child :: children) locals ∧
      left = .join child :: joins children ∧ P.vm child = some args.targetId ∧
      args = ⟨args.targetId, segmentAddr 1⟩ ∧
      locals' = { locals with stage := .joined targets } := by
  cases h with
  | join h =>
    have htargets := h.targets
    rw [List.map_cons, List.map_cons, List.cons.injEq] at htargets
    exact ⟨_, _, _, _, h, rfl, htargets.1.symm, rfl, rfl⟩

theorem Posts.of_pipe {locals' : Locals} {bytes : Ram} {args : PipeArgs}
    (h : Posts data P i v left locals' bytes (.pipe v args)) :
    ∃ p todo locals, Creating data P i (p :: todo) locals ∧ p.vm = i ∧
      left = .create p :: (creates i todo ++ afterPipes i data) ∧
      args = ⟨segmentAddr 1, segmentAddr 1 + 8⟩ ∧
      locals' = { locals with stage := .piped p todo } := by
  cases h with
  | pipe h hvm => exact ⟨_, _, _, h, hvm, rfl, rfl, rfl⟩

theorem Posts.of_spawn {locals' : Locals} {bytes : Ram} {args : SpawnArgs}
    (h : Posts data P i v left locals' bytes (.spawn v args)) :
    ∃ sp todo locals, Spawning data P i (sp :: todo) locals ∧ sp.fromVm = i ∧
      left = .spawn sp :: (spawnsFrom i todo ++ afterSpawns i data) ∧
      args.pipes.map some = sp.pipes.map P.pipe ∧
      args.argv = [encode (wordBytes (UInt64.ofNat sp.child)), encode (wordsBytes args.pipes)] ∧
      args.instanceIdAddr = segmentAddr 6 ∧ locals' = { locals with stage := .spawned todo } := by
  cases h with
  | spawn h hvm hids => exact ⟨_, _, _, h, hvm, rfl, hids, rfl, rfl, rfl⟩

/-- Every child runs the program of the first cell dep. -/
theorem Posts.program {bytes : Ram} {locals' : Locals} {args : SpawnArgs}
    (h : Posts data P i v left locals' bytes (.spawn v args)) :
    args.dataPieceId = .cellDep 0 ∧ args.offset = 0 ∧ args.length = 0 := by
  cases h with
  | spawn h hvm hids => exact ⟨rfl, rfl, rfl⟩

/-- The states of a VM that waits, with what it asked for. -/
theorem Stands.cases (h : Stands data P i v left state c) : state = .runnable ∨
    (∃ args, state = .waitForWrite args.pipe 0 args.length args.bufferAddr args.lengthAddr ∧
      Posts data P i v left c.memory.locals c.memory.bytes (.pipeWrite v args)) ∨
    (∃ args, state = .waitForRead args.pipe args.length args.bufferAddr args.lengthAddr ∧
      Posts data P i v left c.memory.locals c.memory.bytes (.pipeRead v args)) ∨
    ∃ args, state = .join args.targetId args.exitCodeAddr ∧
      Posts data P i v left c.memory.locals c.memory.bytes (.join v args) := by
  cases h with
  | ready h => exact .inl rfl
  | @waits c msg state h hstate =>
    have hvm : msg.vmId = v := h.performs.1
    cases msg with
    | pipeWrite u args =>
      obtain rfl : u = v := hvm
      exact .inr (.inl ⟨args, (Option.some.inj hstate).symm, h⟩)
    | pipeRead u args =>
      obtain rfl : u = v := hvm
      exact .inr (.inr (.inl ⟨args, (Option.some.inj hstate).symm, h⟩))
    | join u args =>
      obtain rfl : u = v := hvm
      exact .inr (.inr (.inr ⟨args, (Option.some.inj hstate).symm, h⟩))
    | _ => cases hstate

theorem Stands.ofWrite {pipe : PipeId} {consumed length bufferAddr lengthAddr : UInt64}
    (h : Stands data P i v left (.waitForWrite pipe consumed length bufferAddr lengthAddr) c) :
    consumed = 0 ∧ Posts data P i v left c.memory.locals c.memory.bytes
      (.pipeWrite v ⟨pipe, length, bufferAddr, lengthAddr⟩) := by
  rcases h.cases with h | ⟨args, h, hposts⟩ | ⟨args, h, -⟩ | ⟨args, h, -⟩ <;> cases h
  exact ⟨rfl, hposts⟩

theorem Stands.ofRead {pipe : PipeId} {length bufferAddr lengthAddr : UInt64}
    (h : Stands data P i v left (.waitForRead pipe length bufferAddr lengthAddr) c) :
    Posts data P i v left c.memory.locals c.memory.bytes
      (.pipeRead v ⟨pipe, length, bufferAddr, lengthAddr⟩) := by
  rcases h.cases with h | ⟨args, h, -⟩ | ⟨args, h, hposts⟩ | ⟨args, h, -⟩ <;> cases h
  exact hposts

theorem Stands.ofJoin {target : VmId} {exitCodeAddr : UInt64}
    (h : Stands data P i v left (.join target exitCodeAddr) c) :
    Posts data P i v left c.memory.locals c.memory.bytes (.join v ⟨target, exitCodeAddr⟩) := by
  rcases h.cases with h | ⟨args, h, -⟩ | ⟨args, h, -⟩ | ⟨args, h, hposts⟩ <;> cases h
  exact hposts

namespace Underway

variable (hu : Underway n data P tr s) (hw : Wired n data) (hi : P.vm i = some v)

include hu hw hi

/-- A VM that writes owns its end of the pipe, and the other end is open. -/
theorem write_open {locals : Locals} {bytes : Ram} {args : PipeIoArgs}
    (h : Posts data P i v (P.left i) locals bytes (.pipeWrite v args)) :
    s.pipes[args.pipe]? = some v ∧ args.pipe.otherPipe ∈ s.pipes := by
  obtain ⟨w, todo, _, hmoving, rfl, hleft, hpipe, -⟩ := h.of_pipeWrite
  have hmem := hmoving.mem
  have hhead : .move w ∈ P.left w.fromVm := hleft ▸ List.mem_cons_self
  have hother := otherPipe_of_from hu.sound.paired hw hmem hpipe
  constructor
  · exact hu.attends.owns hu.sound hw hpipe (usedBy_from hmem) hi
      (hu.attends.not_terminated hi hhead)
  · exact hu.attends.mem_pipes hother (usedBy_to hmem) ((hu.sound.moved w hmem).mp hhead)

/-- A VM that reads owns its end of the pipe, and the other end is open. -/
theorem read_open {locals : Locals} {bytes : Ram} {args : PipeIoArgs}
    (h : Posts data P i v (P.left i) locals bytes (.pipeRead v args)) :
    s.pipes[args.pipe]? = some v ∧ args.pipe.otherPipe ∈ s.pipes := by
  obtain ⟨w, todo, _, hmoving, rfl, hleft, hpipe, -⟩ := h.of_pipeRead
  have hmem := hmoving.mem
  have hhead : .move w ∈ P.left w.toVm := hleft ▸ List.mem_cons_self
  have hother := otherPipe_of_to hu.sound.paired hw hmem hpipe
  constructor
  · exact hu.attends.owns hu.sound hw hpipe (usedBy_to hmem) hi
      (hu.attends.not_terminated hi hhead)
  · exact hu.attends.mem_pipes hother (usedBy_from hmem) ((hu.sound.moved w hmem).mpr hhead)

omit hw hi in
/-- Every live VM is one of the workload. -/
theorem index (hrun : Running s) (hstate : s.states[v]? = some state) :
    ∃ i, P.vm i = some v :=
  hu.attends.covered v ((hrun.accounted v).mpr (.inl (mem_iff_getElem?.mpr ⟨state, hstate⟩)))

omit hi in
/-- No VM of a workload waits on a pipe whose other end is closed. -/
theorem not_closed (hrun : Running s) (hstate : s.states[v]? = some state)
    (hm : s.instantiated[v]? = some m) : isClosed s.pipes state.waiting? = false := by
  obtain ⟨i, hi⟩ := hu.index hrun hstate
  have hne : state ≠ .terminated := by
    rintro rfl
    exact hrun.allowed v .terminated hstate
  have hopen : ∀ pipe : PipeId, pipe.otherPipe ∈ s.pipes →
      isClosed s.pipes (some pipe) = false := by
    intro pipe hpipe
    rw [isClosed, Option.any_some, ExtTreeMap.contains_iff_mem.mpr hpipe]
    rfl
  rcases ((hu.follows i v hi).stands state m hstate hm hne).cases with
    rfl | ⟨args, rfl, hposts⟩ | ⟨args, rfl, hposts⟩ | ⟨args, rfl, -⟩
  · rfl
  · exact hopen args.pipe (hu.write_open hw hi hposts).2
  · exact hopen args.pipe (hu.read_open hw hi hposts).2
  · rfl

end Underway

/-- A writer and a reader that wait on the two ends of a pipe are at the same write, which the
transfer does as a whole. -/
theorem Underway.pair (hu : Underway n data P tr s) (hw : Wired n data) (hrun : Running s)
    {rd : Read} {wr : Scheduler.Write} {mr mw : Machine GuestMemory} {bytes : Bytes}
    (hread : s.states[rd.vmId]? = some (rd.state wr.pipe.otherPipe))
    (hwrite : s.states[wr.vmId]? = some wr.state)
    (hmr : s.instantiated[rd.vmId]? = some mr) (hmw : s.instantiated[wr.vmId]? = some mw)
    (hload : Memory.loadBytes mw.memory (wr.bufferAddr + wr.consumed) (wr.copiable rd) =
      .ok bytes) :
    ∃ w todo todo' locals locals' pipe, P.vm w.fromVm = some wr.vmId ∧ P.vm w.toVm = some rd.vmId ∧
      P.left w.fromVm = .move w :: (moves w.fromVm todo ++ afterWrites w.fromVm data) ∧
      P.left w.toVm = .move w :: (moves w.toVm todo' ++ afterWrites w.toVm data) ∧
      Moving data P w.fromVm (w :: todo) locals ∧ Moving data P w.toVm (w :: todo') locals' ∧
      mw.memory.locals = { locals with stage := .wrote w wr.pipe 0 todo } ∧
      mr.memory.locals = { locals' with stage := .didRead w pipe 0 todo' } ∧
      P.pipe w.fromPipe = some wr.pipe ∧ bytes = w.getData ∧
      wr.length = UInt64.ofNat w.getData.length ∧ wr.copiable rd = UInt64.ofNat w.getData.length ∧
      rd.bufferAddr = segmentAddr 1 ∧ rd.lengthAddr = segmentAddr 2 ∧
      wr.lengthAddr = segmentAddr 2 ∧ wr.finishes rd = true := by
  obtain ⟨j, hj⟩ := hu.index hrun hwrite
  obtain ⟨k, hk⟩ := hu.index hrun hread
  obtain ⟨hconsumed, hposts⟩ :=
    ((hu.follows j _ hj).stands _ mw hwrite hmw (by simp [Write.state])).ofWrite
  have hposts' := ((hu.follows k _ hk).stands _ mr hread hmr (by simp [Read.state])).ofRead
  obtain ⟨w, todo, locals, hmoving, rfl, hleft, hpipe, hargs, hlocals, hbuffer⟩ :=
    hposts.of_pipeWrite
  obtain ⟨w', todo', locals', hmoving', rfl, hleft', hpipe', hargs', hlocals'⟩ :=
    hposts'.of_pipeRead
  have hmem := hmoving.mem
  have hother := otherPipe_of_from hu.sound.paired hw hmem hpipe
  have hends := hu.attends.ids _ _ _ hother hpipe'
  obtain rfl : w = w' := hw.write_eq hmem hmoving'.mem (.inr rfl) (.inr hends)
  simp only [PipeIoArgs.mk.injEq] at hargs hargs'
  obtain ⟨-, hlength, haddr, hlengthAddr⟩ := hargs
  obtain ⟨-, hlength', haddr', hlengthAddr'⟩ := hargs'
  have hcopiable : wr.copiable rd = UInt64.ofNat w.getData.length := by
    rw [Write.copiable, hlength, hlength', hconsumed, UInt64.sub_zero, Std.min_self]
  have hfinishes : wr.finishes rd = true := by
    rw [Write.finishes, hcopiable, hconsumed, hlength, UInt64.zero_add, beq_self_eq_true]
  have hbytes : bytes = w.getData := by
    rw [hcopiable, haddr, hconsumed, UInt64.add_zero] at hload
    have hload := Except.ok.inj hload
    rw [toNat_length hw hmem] at hload
    rw [← hload]
    exact hbuffer
  exact ⟨w, todo, todo', locals, locals', _, hj, hk, hleft, hleft', hmoving, hmoving', hlocals,
    hlocals', hpipe, hbytes, hlength, hcopiable, haddr', hlengthAddr', hlengthAddr, hfinishes⟩

section Transfer

variable {rd : Read} {wr : Scheduler.Write} {bytes : Bytes}

/-- What is logged of a transfer that finishes its write. -/
theorem transferLog_finishes (hfinishes : wr.finishes rd = true) :
    (transferLog rd wr bytes : List (Event GuestMemory)) =
      [.storeBytes rd.vmId rd.bufferAddr bytes, .transfer rd.vmId wr.vmId wr.pipe bytes,
        .store64 rd.vmId rd.lengthAddr (wr.copiable rd), .setA0 rd.vmId success,
        .store64 wr.vmId wr.lengthAddr wr.length, .setA0 wr.vmId success] := by
  rw [transferLog, Write.events, if_pos hfinishes]
  rfl

theorem sentBy_transfer (hfinishes : wr.finishes rd = true) (u : VmId) :
    sentBy u (transferLog rd wr bytes : List (Event GuestMemory)) = [] := by
  rw [transferLog_finishes hfinishes]
  rfl

/-- A transfer tells both ends how much was moved. -/
theorem storedTo_transfer (hne : rd.vmId ≠ wr.vmId) (hfinishes : wr.finishes rd = true)
    (u : VmId) :
    storedTo u (transferLog rd wr bytes : List (Event GuestMemory)) =
      if u = wr.vmId then [(wr.lengthAddr, wr.length)]
      else if u = rd.vmId then [(rd.lengthAddr, wr.copiable rd)] else [] := by
  rw [transferLog_finishes hfinishes]
  by_cases hw : u = wr.vmId
  · subst hw
    simp [storedTo, List.filterMap_cons, Event.word?, hne]
  · by_cases hr : u = rd.vmId
    · subst hr
      simp [storedTo, List.filterMap_cons, Event.word?, hw, Ne.symm hne]
    · simp [storedTo, List.filterMap_cons, Event.word?, hw, hr, Ne.symm hw, Ne.symm hr]

theorem smooth_transfer (hfinishes : wr.finishes rd = true) (hcopiable : wr.copiable rd ≠ 0)
    (hlength : wr.length ≠ 0) :
    ∀ ev ∈ (transferLog rd wr bytes : List (Event GuestMemory)), Smooth ev := by
  rw [transferLog_finishes hfinishes]
  simp only [List.forall_mem_cons]
  exact ⟨trivial, trivial, fun _ => hcopiable, rfl, fun _ => hlength, rfl, by simp⟩

theorem transfers_transfer (hfinishes : wr.finishes rd = true) :
    (transferLog rd wr bytes : List (Event GuestMemory)).filterMap Event.transfer? =
      [(rd.vmId, wr.vmId, wr.pipe, bytes)] := by
  rw [transferLog_finishes hfinishes]
  rfl

end Transfer

theorem moving_left_from {w : Write} (hne : w.fromVm ≠ w.toVm)
    (hleft : P.left w.fromVm = op :: rest) :
    (P.moving w).left w.fromVm = rest :=
  (Progress.advance_left_ne hne).trans (Progress.advance_left_self hleft)

theorem moving_left_to {w : Write} (hne : w.fromVm ≠ w.toVm) (hleft : P.left w.toVm = op :: rest) :
    (P.moving w).left w.toVm = rest :=
  Progress.advance_left_self ((Progress.advance_left_ne hne.symm).trans hleft)

theorem moving_left_other {w : Write} (hne : i ≠ w.fromVm) (hne' : i ≠ w.toVm) :
    (P.moving w).left i = P.left i :=
  (Progress.advance_left_ne hne').trans (Progress.advance_left_ne hne)

/-- What is logged moves nothing, so the writes done are the same. -/
theorem Underway.carried_same (hu : Underway n data P tr s) (hP : P.Grows P')
    (hnone : l.filterMap Event.transfer? = [])
    (hmoved : ∀ w : Write, .move w ∈ P'.left w.fromVm ↔ .move w ∈ P.left w.fromVm) :
    ∃ done : List Write, done.Nodup ∧
      (∀ w, w ∈ done ↔ w ∈ data.writes ∧ .move w ∉ P'.left w.fromVm) ∧
        List.Forall₂ (Fulfils P') ((tr ++ l).filterMap Event.transfer?) done := by
  obtain ⟨done, hnodup, hdone, hcarried⟩ := hu.carried
  refine ⟨done, hnodup, fun w => by rw [hmoved, hdone], ?_⟩
  rw [List.filterMap_append, hnone, List.append_nil]
  exact hcarried.imp fun _ _ h => hP.fulfils h

theorem Underway.smooth_append (hu : Underway n data P tr s) (hl : ∀ ev ∈ l, Smooth ev) :
    ∀ ev ∈ tr ++ l, Smooth ev := by
  intro ev hev
  rcases List.mem_append.mp hev with hev | hev
  · exact hu.smooth ev hev
  · exact hl ev hev

/-- A write that is done joins those that were. -/
theorem Underway.carried_moving (hu : Underway n data P tr s) (hw : Wired n data) {w : Write}
    {rest' : List Op} (hleft : P.left w.fromVm = .move w :: rest)
    (hleft' : P.left w.toVm = .move w :: rest') (hmem : w ∈ data.writes)
    {t : VmId × VmId × PipeId × Bytes} (hlog : l.filterMap Event.transfer? = [t])
    (hfulfils : Fulfils (P.moving w) t w) :
    ∃ done : List Write, done.Nodup ∧
      (∀ w', w' ∈ done ↔ w' ∈ data.writes ∧ .move w' ∉ (P.moving w).left w'.fromVm) ∧
        List.Forall₂ (Fulfils (P.moving w)) ((tr ++ l).filterMap Event.transfer?) done := by
  obtain ⟨done, hnodup, hdone, hcarried⟩ := hu.carried
  have hgrows : P.Grows (P.moving w) := ⟨fun _ _ h => h, fun _ _ h => h⟩
  have hnot : w ∉ done := by
    intro hin
    exact ((hdone w).mp hin).2 (hleft ▸ List.mem_cons_self)
  refine ⟨done ++ [w], ?_, ?_, ?_⟩
  · exact hnodup.append (List.nodup_singleton w) (by simpa using hnot)
  · intro w'
    rw [List.mem_append, List.mem_singleton, hdone, hu.sound.mem_moving hw hleft hleft']
    constructor
    · rintro (⟨hw', hnot⟩ | rfl)
      · exact ⟨hw', fun h => hnot h.1⟩
      · exact ⟨hmem, fun h => h.2 rfl⟩
    · rintro ⟨hw', hnot⟩
      by_cases heq : w' = w
      · exact .inr heq
      · exact .inl ⟨hw', fun h => hnot ⟨h, fun h => heq (Op.move.inj h)⟩⟩
  · rw [List.filterMap_append, hlog]
    exact List.rel_append (hcarried.imp fun _ _ h => hgrows.fulfils h) (.cons hfulfils .nil)

/-- The length of an item that a VM moves is not zero. -/
theorem ofNat_length_ne_zero (hw : Wired n data) {w : Write} (hmem : w ∈ data.writes) :
    UInt64.ofNat w.getData.length ≠ 0 := by
  intro hzero
  have hnat := toNat_length hw hmem
  have hlt := (length_le_payload hw hmem).1
  rw [hzero, UInt64.toNat_zero] at hnat
  omega

theorem Underway.transferred (hu : Underway n data P tr s) (hw : Wired n data) (hrun : Running s)
    {rd : Read} {wr : Scheduler.Write} {mr mw : Machine GuestMemory} {bytes : Bytes}
    {readCore writeCore : Core GuestMemory}
    (hread : s.states[rd.vmId]? = some (rd.state wr.pipe.otherPipe))
    (hwrite : s.states[wr.vmId]? = some wr.state)
    (hmr : s.instantiated[rd.vmId]? = some mr) (hmw : s.instantiated[wr.vmId]? = some mw)
    (hload : Memory.loadBytes mw.memory (wr.bufferAddr + wr.consumed) (wr.copiable rd) =
      .ok bytes)
    (hreadCore : applyEvents (rd.events bytes (wr.copiable rd)) mr.toCore = .ok readCore)
    (hwriteCore : applyEvents (wr.events rd) mw.toCore = .ok writeCore) :
    ∃ P', P.Grows P' ∧ Underway n data P' (tr ++ transferLog rd wr bytes)
      ((s.settled rd.vmId mr readCore .runnable).settled wr.vmId mw writeCore (wr.next rd)) := by
  obtain ⟨w, todo, todo', locals, locals', pipe, hj, hk, hleft, hleft', hmoving, hmoving', hlocals,
    hlocals', hpipe, rfl, hlength, hcopiable, haddr, hlengthAddr, hlengthAddr', hfinishes⟩ :=
      hu.pair hw hrun hread hwrite hmr hmw hload
  have hmem := hmoving.mem
  have hnevm := (hw.ends w hmem).1
  have hne : rd.vmId ≠ wr.vmId := by
    intro heq
    exact hnevm (hu.attends.distinct _ _ _ hj (heq ▸ hk))
  rw [Read.events, hcopiable, haddr, hlengthAddr] at hreadCore
  rw [Write.events, if_pos hfinishes, hlength, hlengthAddr'] at hwriteCore
  have hgrows : P.Grows (P.moving w) := ⟨fun _ _ h => h, fun _ _ h => h⟩
  have hsent : ∀ u : VmId, sentBy u (transferLog rd wr w.getData : List (Event GuestMemory)) = [] :=
    sentBy_transfer hfinishes
  have hstored : ∀ u : VmId,
      storedTo u (transferLog rd wr w.getData : List (Event GuestMemory)) = _ :=
    storedTo_transfer hne hfinishes
  have hnext : wr.next rd = .runnable := if_pos hfinishes
  let s' := (s.settled rd.vmId mr readCore .runnable).settled wr.vmId mw writeCore (wr.next rd)
  have hstates : ∀ k : VmId, s'.states[k]? = if k = wr.vmId then some .runnable
      else if k = rd.vmId then some .runnable else s.states[k]? := by
    intro k
    simp only [s', settled, getElem?_insert, hnext]
  have hmachines : ∀ k : VmId, s'.instantiated[k]? =
      if k = wr.vmId then some { mw with toCore := writeCore }
      else if k = rd.vmId then some { mr with toCore := readCore } else s.instantiated[k]? := by
    intro k
    simp only [s', settled, accessed, getElem?_insert]
  refine ⟨P.moving w, hgrows, ?_, ?_, ?_, ?_, ?_, ?_, ?_⟩
  · exact hu.sound.afterMove hw hleft hleft' (by simp [hj]) (by simp [hk])
  · exact (hu.attends.moves hu.sound hw hleft hleft').congr rfl rfl rfl rfl
  · intro i v hi
    have hi' : P.vm i = some v := hi
    by_cases hv : v = wr.vmId
    · subst hv
      obtain rfl := hu.attends.distinct _ _ _ hj hi'
      refine (hu.follows _ _ hi').resumed hgrows ?_ hleft (hsent _)
        (by rw [hstored, if_pos rfl, hlengthAddr', hlength]; exact .move w)
        (moving_left_from hnevm hleft) ((hstates _).trans (if_pos rfl))
          ((hmachines _).trans (if_pos rfl))
        (Moving.written (hgrows.moving hmoving) hlocals hwriteCore)
      rw [hwrite, hleft]
      rfl
    by_cases hv' : v = rd.vmId
    · subst hv'
      obtain rfl := hu.attends.distinct _ _ _ hk hi'
      refine (hu.follows _ _ hi').resumed hgrows ?_ hleft' (hsent _)
        (by rw [hstored, if_neg hv, if_pos rfl, hlengthAddr, hcopiable]; exact .move w)
        (moving_left_to hnevm hleft')
        ((hstates _).trans ((if_neg hv).trans (if_pos rfl)))
        ((hmachines _).trans ((if_neg hv).trans (if_pos rfl)))
        (Moving.wasRead (hgrows.moving hmoving') (length_le_payload hw hmem).2 hlocals' hreadCore)
      rw [hread, hleft']
      rfl
    · have hi₁ : i ≠ w.fromVm := by
        rintro rfl
        rw [hj, Option.some.injEq] at hi'
        exact hv hi'.symm
      have hi₂ : i ≠ w.toVm := by
        rintro rfl
        rw [hk, Option.some.injEq] at hi'
        exact hv' hi'.symm
      exact (hu.follows i v hi').same hgrows (moving_left_other hi₁ hi₂)
        ((hstates v).trans ((if_neg hv).trans (if_neg hv')))
        ((hmachines v).trans ((if_neg hv).trans (if_neg hv'))) (hsent v)
        ((hstored v).trans ((if_neg hv).trans (if_neg hv')))
  · intro v hv
    have hnew : ∀ {k : ℕ} {u : VmId}, P.vm k = some u → v ≠ u := by
      rintro k u hk rfl
      exact absurd (hu.attends.known k v hk).2 (UInt64.not_lt.mpr hv)
    exact fresh_append (hu.fresh v hv) (hsent v)
      ((hstored v).trans ((if_neg (hnew hj)).trans (if_neg (hnew hk))))
  · intro v hv
    have hold := (hstates v).symm.trans hv
    split at hold
    · cases hold
    · split at hold
      · cases hold
      · exact hu.closed v hold
  · have hpos := ofNat_length_ne_zero hw hmem
    exact hu.smooth_append (smooth_transfer hfinishes (hcopiable ▸ hpos) (hlength ▸ hpos))
  · exact hu.carried_moving hw hleft hleft' hmem (transfers_transfer hfinishes) ⟨hk, hj, hpipe, rfl⟩

section Executions

variable {env : Env GuestMemory κ} (henv : RunsMain data env) (hw : Fits n data)
  (hu : Underway n data P tr s) {result : Except Error Int8} {cpu : Cpu GuestMemory}
  {posted : List Message}

include henv hw hu

/-- What the execution of a VM of a workload ends with. -/
theorem Underway.executed (hrun : Running s) (hexec : Executes env s v m result cpu posted) :
    ∃ i, P.vm i = some v ∧ (∀ code, result = .ok code → code = 0 ∧ P.left i = []) ∧
      ∀ e, result = .error e → (e.Interrupt → AtReady data P i (P.left i) cpu.toCore) ∧
        (¬ e.Interrupt → e = .cyclesOverflow ∨ e = .yield ∧ ∃ msg, posted = [msg] ∧
          Posts data P i v (P.left i) cpu.memory.locals cpu.memory.bytes msg) := by
  obtain ⟨i, hi⟩ := hu.index hrun hexec.state
  have hready : AtReady data P i (P.left i) m.toCore :=
    ((hu.follows i v hi).stands _ m hexec.state hexec.machine (by simp)).atReady
  obtain ⟨limit, pause, heq⟩ := hexec.run
  have hruns := hready.runs hw henv hu.sound.paired (v := v) s.totalCycles limit pause
  rw [heq] at hruns
  refine ⟨i, hi, ?_, ?_⟩
  · rintro code rfl
    exact hruns
  · rintro e rfl
    exact hruns

omit henv hw hu

theorem ran_instantiated (k : VmId) : (s.ran v m result cpu).instantiated[k]? =
    if k = v then some (afterRun m result cpu) else s.instantiated[k]? := by
  simp only [ran, getElem?_insert]

include henv hw hu

theorem Underway.interrupted {e : Error} (hrun : Running s)
    (hexec : Executes env s v m (.error e) cpu []) (he : e.Interrupt) :
    Underway n data P (tr ++ [.exec v m.toCpu cpu (.error e) []]) (s.ran v m (.error e) cpu) := by
  obtain ⟨i, hi, -, hresult⟩ := hu.executed henv hw hrun hexec
  have hready := (hresult e rfl).1 he
  have hsent : ∀ u : VmId, sentBy u [Event.exec v m.toCpu cpu (.error e) []] = [] := fun _ => rfl
  have hstored : ∀ u : VmId, storedTo u [Event.exec v m.toCpu cpu (.error e) []] = [] :=
    fun _ => rfl
  have hgrows : P.Grows P := .refl P
  refine ⟨hu.sound, hu.attends.congr rfl rfl rfl rfl, ?_, ?_, hu.closed, hu.smooth_append ?_,
    hu.carried_same hgrows rfl fun _ => Iff.rfl⟩
  · intro j u hj
    by_cases huv : u = v
    · subst huv
      obtain rfl := hu.attends.distinct _ _ _ hi hj
      exact (hu.follows i u hj).interrupted hexec.state (hsent u) (hstored u) hexec.state
        ((ran_instantiated u).trans (if_pos rfl)) hready
    · exact (hu.follows j u hj).same hgrows rfl rfl ((ran_instantiated u).trans (if_neg huv))
        (hsent u) (hstored u)
  · intro u hu'
    exact fresh_append (hu.fresh u hu') (hsent u) (hstored u)
  · intro ev hev
    rw [List.mem_singleton] at hev
    subst hev
    exact .inr (.inr ⟨e, rfl, he⟩)

end Executions

/-- A machine that was booted is at the start of its program. -/
theorem RunsMain.atReady {env : Env GuestMemory κ} (henv : RunsMain data env) {args : SpawnArgs}
    {charge : ℕ} {machine : Machine GuestMemory} (hboot : Boots env args charge machine)
    (hstarts : Starts data P i args.argv) : AtReady data P i (ops i data) machine.toCore := by
  obtain ⟨program, length, core, bytes, -, hload, -, rfl⟩ := hboot
  obtain ⟨bytes', hmain⟩ := henv.loadProgram args.dataPieceId args.offset program args.argv
  rw [hload, Except.ok.injEq, Prod.mk.injEq] at hmain
  obtain ⟨rfl, -⟩ := hmain
  exact .start hstarts

/-- An event of an answer, which sends and moves nothing. -/
def Still (ev : Event GuestMemory) : Prop :=
  ev.message? = none ∧ ev.transfer? = none ∧ Smooth ev

/-- What an execution and the answer to its message log. -/
def exchange (v : VmId) (m cpu : Cpu GuestMemory) (msg : Message) (l : List (Event GuestMemory)) :
    List (Event GuestMemory) :=
  .exec v m cpu (.error .yield) [msg] :: .message msg :: l

section Exchanges

variable {m₀ cpu : Cpu GuestMemory} (hl : ∀ ev ∈ l, Still ev)

include hl

theorem sentBy_exchange (u : VmId) :
    sentBy u (exchange v m₀ cpu msg l) = if msg.vmId = u then [msg] else [] := by
  have hnone : l.filterMap Event.message? = [] :=
    List.filterMap_eq_nil_iff.mpr fun ev hev => (hl ev hev).1
  have hsent : (exchange v m₀ cpu msg l).filterMap Event.message? = [msg] := by
    have hsome : Event.message? (.message msg : Event GuestMemory) = some msg := rfl
    rw [exchange, List.filterMap_cons_none rfl, List.filterMap_cons_some hsome, hnone]
  rw [sentBy, hsent, List.filter_singleton]
  simp

theorem transfers_exchange : (exchange v m₀ cpu msg l).filterMap Event.transfer? = [] := by
  have hnone : l.filterMap Event.transfer? = [] :=
    List.filterMap_eq_nil_iff.mpr fun ev hev => (hl ev hev).2.1
  rw [exchange, List.filterMap_cons_none rfl, List.filterMap_cons_none rfl, hnone]

theorem smooth_exchange : ∀ ev ∈ exchange v m₀ cpu msg l, Smooth ev := by
  intro ev hev
  rw [exchange, List.mem_cons, List.mem_cons] at hev
  rcases hev with rfl | rfl | hev
  · exact .inr (.inl rfl)
  · trivial
  · exact (hl ev hev).2.2

/-- A VM whose message is answered at once goes on; the others stay as they are, and a VM
that is spawned is at the start of its program. -/
theorem Underway.answers (hu : Underway n data P tr s) (hP : P.Grows P') (hsound : P'.Sound data)
    (hattends : Attends n data P' s') (hi : P.vm i = some v)
    (hstate : s.states[v]? = some .runnable)
    (hleft : P.left i = op :: rest) (hvm : msg.vmId = v) (hperforms : Performs P i msg op)
    (htold : Tells P' (storedTo v l) op) (hstored : ∀ u : VmId, u ≠ v → storedTo u l = [])
    (hleft' : P'.left i = rest) (hstate' : s'.states[v]? = some .runnable)
    (hready : ∃ m : Machine GuestMemory, s'.instantiated[v]? = some m ∧
      AtReady data P' i rest m.toCore)
    (hothers : ∀ (j : ℕ) (u : VmId), P'.vm j = some u → u ≠ v →
      (P.vm j = some u ∧ P'.left j = P.left j ∧ s'.states[u]? = s.states[u]? ∧
        s'.instantiated[u]? = s.instantiated[u]?) ∨
      (s.nextVmId ≤ u ∧ P'.left j = ops j data ∧ s'.states[u]? = some .runnable ∧
        ∃ m' : Machine GuestMemory, s'.instantiated[u]? = some m' ∧
          AtReady data P' j (ops j data) m'.toCore))
    (hmoved : ∀ w : Write, .move w ∈ P'.left w.fromVm ↔ .move w ∈ P.left w.fromVm)
    (hnext : ∀ u : VmId, s'.nextVmId ≤ u → s.nextVmId ≤ u ∧ u ≠ v)
    (hclosed : ∀ u : VmId, s'.states[u]? = some .terminated → u ∈ s'.terminatedVms) :
    Underway n data P' (tr ++ exchange v m₀ cpu msg l) s' := by
  have hsent : ∀ u : VmId, sentBy u (exchange v m₀ cpu msg l) = _ := sentBy_exchange hl
  obtain ⟨m, hmachine', hready⟩ := hready
  refine ⟨hsound, hattends, ?_, ?_, hclosed, ?_, hu.carried_same hP (transfers_exchange hl) hmoved⟩
  · intro j u hj
    by_cases huv : u = v
    · subst huv
      obtain rfl := hattends.distinct _ _ _ (hP.vm _ _ hi) hj
      exact (hu.follows i u hi).answered hP hstate hleft hperforms
        ((hsent u).trans (if_pos hvm)) htold hleft' hstate' hmachine' hready
    · have hnone : sentBy u (exchange v m₀ cpu msg l) = [] :=
        (hsent u).trans (if_neg fun heq => huv (heq.symm.trans hvm))
      rcases hothers j u hj huv with
        ⟨hj', hleft, hstates, hmachines⟩ | ⟨hnew, hleft, hborn, m', hm', hready'⟩
      · exact (hu.follows j u hj').same hP hleft hstates hmachines hnone (hstored u huv)
      · obtain ⟨hsent', hstored'⟩ := fresh_append (hu.fresh u hnew) hnone (hstored u huv)
        refine ⟨?_, ⟨[], by rw [hleft]; rfl, ?_⟩, [], by rw [hleft]; rfl, [], .nil, hstored'⟩
        · intro state m'' hk hm _
          rw [hborn, Option.some.injEq] at hk
          rw [hm', Option.some.injEq] at hm
          subst hk hm
          rw [hleft]
          exact .ready hready'
        · rw [hsent', hborn]
          exact .nil
  · intro u hle
    obtain ⟨hle', hne⟩ := hnext u hle
    exact fresh_append (hu.fresh u hle')
      ((hsent u).trans (if_neg fun heq => hne (heq.symm.trans hvm))) (hstored u hne)
  · exact hu.smooth_append (smooth_exchange hl)

end Exchanges

theorem waiting_of_blocking (h : s.blocking msg = some state) : waiting msg = some state := by
  cases msg with
  | join v args =>
    simp only [blocking, Option.ite_none_right_eq_some] at h
    exact h.2
  | pipeRead v args =>
    simp only [blocking, Option.ite_none_right_eq_some] at h
    exact h.2
  | pipeWrite v args =>
    simp only [blocking, Option.ite_none_right_eq_some] at h
    exact h.2
  | _ => cases h

/-- A VM whose message is not answered waits in the state that says so. -/
theorem Underway.blocked {m₀ : Machine GuestMemory} {cpu : Cpu GuestMemory}
    {result : Except Error Int8} (hl : ∀ ev ∈ l, Still ev) (hstored : ∀ u : VmId, storedTo u l = [])
    (hu : Underway n data P tr s) (hi : P.vm i = some v) (hlive : s.states[v]? = some .runnable)
    (hid : msg.vmId = v)
    (hposts : Posts data P i v (P.left i) cpu.memory.locals cpu.memory.bytes msg)
    (hwaiting : waiting msg = some state) :
    Underway n data P (tr ++ exchange v m₀.toCpu cpu msg l)
      { s.ran v m₀ result cpu with states := s.states.insert v state } := by
  have hsent : ∀ u : VmId, sentBy u (exchange v m₀.toCpu cpu msg l) = _ := sentBy_exchange hl
  have hgrows : P.Grows P := .refl P
  have hstates : ∀ k : VmId, (s.states.insert v state)[k]? =
      if k = v then some state else s.states[k]? := fun k => getElem?_insert
  refine ⟨hu.sound, hu.attends.congr rfl rfl rfl rfl, ?_, ?_, ?_, ?_,
    hu.carried_same hgrows (transfers_exchange hl) fun _ => Iff.rfl⟩
  · intro j u hj
    by_cases huv : u = v
    · subst huv
      obtain rfl := hu.attends.distinct _ _ _ hi hj
      exact Follows.blocked (m := afterRun m₀ result cpu) (hu.follows i u hi) hlive hposts hwaiting
        ((hsent u).trans (if_pos hid)) (hstored u) ((hstates u).trans (if_pos rfl))
        ((ran_instantiated u).trans (if_pos rfl))
    · exact (hu.follows j u hj).same hgrows rfl ((hstates u).trans (if_neg huv))
        ((ran_instantiated u).trans (if_neg huv))
        ((hsent u).trans (if_neg fun heq => huv (heq.symm.trans hid))) (hstored u)
  · intro u hle
    have hne : msg.vmId ≠ u := by
      rintro rfl
      exact absurd (hu.attends.known i _ (hid ▸ hi)).2 (UInt64.not_lt.mpr hle)
    exact fresh_append (hu.fresh u hle) ((hsent u).trans (if_neg hne)) (hstored u)
  · intro u hu'
    have hold := (hstates u).symm.trans hu'
    split at hold
    · rw [Option.some.injEq] at hold
      subst hold
      cases msg <;> cases hwaiting
    · exact hu.closed u hold
  · exact hu.smooth_append (smooth_exchange hl)

/-- No system call of a workload is refused. -/
theorem Underway.not_rejected (hu : Underway n data P tr s) (hw : Wired n data) (hrun : Running s)
    (hi : P.vm i = some v) {locals : Locals} {bytes : Ram}
    (h : Posts data P i v (P.left i) locals bytes msg) : s.rejection msg = none := by
  have hvm : msg.vmId = v := h.performs.1
  cases msg with
  | join u args =>
    obtain rfl : u = v := hvm
    obtain ⟨-, child, -, -, -, -, hchild, -⟩ := h.of_join
    have hknown := (hrun.accounted _).mp (hu.attends.known _ _ hchild).2
    exact if_pos hknown.symm
  | pipeRead u args =>
    obtain rfl : u = v := hvm
    obtain ⟨howns, hopen⟩ := hu.read_open hw hi h
    rw [rejection, if_neg (not_not_intro howns), if_pos hopen]
  | pipeWrite u args =>
    obtain rfl : u = v := hvm
    obtain ⟨howns, hopen⟩ := hu.write_open hw hi h
    rw [rejection, if_neg (not_not_intro howns), if_pos hopen]
  | _ => rfl

section Answered

variable {env : Env GuestMemory κ} {cpu : Cpu GuestMemory} {core : Core GuestMemory}
  (hw : Fits n data) (hu : Underway n data P tr s) (hrun : Running s) (hi : P.vm i = some v)
  (hlive : s.states[v]? = some .runnable)

include hw hu hi hlive

theorem Underway.joinAnswered {args : JoinArgs} {code : Int8}
    (hposts : Posts data P i v (P.left i) cpu.memory.locals cpu.memory.bytes (.join v args))
    (hcode : s.terminatedVms[args.targetId]? = some code)
    (hcore : applyEvents (joinEvents v args.exitCodeAddr code) cpu.toCore = .ok core) :
    ∃ P', P.Grows P' ∧ Underway n data P'
      (tr ++ exchange v m.toCpu cpu (.join v args) (joinEvents v args.exitCodeAddr code))
      ((s.ran v m (.error .yield) cpu).settled v (afterRun m (.error .yield) cpu) core
        .runnable) := by
  have hl : ∀ ev ∈ joinEvents v args.exitCodeAddr code, Still ev := by
    intro ev hev
    simp only [joinEvents, List.mem_cons, List.not_mem_nil, or_false] at hev
    rcases hev with rfl | rfl <;> exact ⟨rfl, rfl, by trivial⟩
  obtain ⟨targets, child, children, locals, hjoining, hleft, hchild, hargs, hlocals⟩ :=
    hposts.of_join
  obtain rfl := (hu.attends.exited _ _ _ hchild hcode).1
  have haddr : args.exitCodeAddr = segmentAddr 1 := by rw [hargs]
  rw [haddr] at hcore
  have hgrows : P.Grows (P.advance i) := ⟨fun _ _ h => h, fun _ _ h => h⟩
  have hborn : P.vm i ≠ none := by simp [hi]
  have hne : ∀ {j : ℕ} {u : VmId}, P.vm j = some u → u ≠ v → j ≠ i := by
    rintro j u hj hne rfl
    rw [hi, Option.some.injEq] at hj
    exact hne hj.symm
  refine ⟨P.advance i, hgrows, hu.answers hl hgrows (hu.sound.afterJoin hw.toWired hleft hborn)
    ?_ hi hlive hleft rfl (.join hchild) (.join child) (fun _ _ => rfl)
    (Progress.advance_left_self hleft) ?_ ?_ ?_ ?_ ?_ ?_⟩
  · exact (hu.attends.joins hu.sound hw.toWired hi hleft hchild
      (mem_iff_getElem?.mpr ⟨_, hcode⟩)).congr rfl rfl rfl rfl
  · simp only [settled, getElem?_insert, if_true]
  · exact ⟨_, accessed_machine, Joining.answered (hgrows.joining hjoining) hlocals hcore⟩
  · intro j u hj huv
    refine .inl ⟨hj, Progress.advance_left_ne (hne hj huv), ?_, ?_⟩
    · simp only [settled, ran, getElem?_insert, if_neg huv]
    · simp only [settled, accessed, ran, getElem?_insert, if_neg huv]
  · intro w
    exact hu.sound.mem_advance_of_ne hw.toWired hleft (by simp)
  · intro u hle
    refine ⟨hle, ?_⟩
    rintro rfl
    exact absurd (hu.attends.known i u hi).2 (UInt64.not_lt.mpr hle)
  · intro u hu'
    simp only [settled, ran, getElem?_insert] at hu'
    split at hu'
    · cases hu'
    · exact hu.closed u hu'

include hrun

theorem Underway.pipeAnswered {args : PipeArgs} {p1 p2 : PipeId} {slot : UInt64}
    (hposts : Posts data P i v (P.left i) cpu.memory.locals cpu.memory.bytes (.pipe v args))
    (hcreate : PipeId.create s.nextPipeSlot = some (p1, p2, slot))
    (hcore : applyEvents (pipeEvents v args p1 p2) cpu.toCore = .ok core) :
    ∃ P', P.Grows P' ∧ Underway n data P'
      (tr ++ exchange v m.toCpu cpu (.pipe v args) (pipeEvents v args p1 p2))
      (((s.ran v m (.error .yield) cpu).piped v p1 p2 slot).settled v
        (afterRun m (.error .yield) cpu) core .runnable) := by
  obtain ⟨p, todo, locals, hcreating, hvm, hleft, rfl, hlocals⟩ := hposts.of_pipe
  have hl : ∀ ev ∈ pipeEvents v ⟨segmentAddr 1, segmentAddr 1 + 8⟩ p1 p2, Still ev := by
    intro ev hev
    simp only [pipeEvents, List.mem_cons, List.not_mem_nil, or_false] at hev
    rcases hev with rfl | rfl | rfl
    · exact ⟨rfl, rfl, fun heq => absurd heq (by decide)⟩
    · exact ⟨rfl, rfl, fun heq => absurd heq (by decide)⟩
    · exact ⟨rfl, rfl, rfl⟩
  obtain ⟨hp, -⟩ := create_mem_ops.mp (hu.sound.head_mem hleft)
  obtain ⟨hother, hread, hlow⟩ := create_ends hcreate hrun.slot_even hrun.slot_ge
  have hwrite : (P.creating i p p1).pipe p.writePipe = some p2 := by
    rw [hother]
    exact Progress.creating_write
  have hgrows : P.Grows (P.creating i p p1) := hu.sound.create_grows hleft
  have hborn : P.vm i ≠ none := by simp [hi]
  have hne : ∀ {j : ℕ} {u : VmId}, P.vm j = some u → u ≠ v → j ≠ i := by
    rintro j u hj hne rfl
    rw [hi, Option.some.injEq] at hj
    exact hne hj.symm
  refine ⟨P.creating i p p1, hgrows, hu.answers hl hgrows
    (hu.sound.afterCreate hw.toWired hleft hborn hread hlow.1 hlow.2)
    ?_ hi hlive hleft rfl (.create ..) ?_ ?_ (Progress.advance_left_self hleft) ?_ ?_ ?_ ?_ ?_ ?_⟩
  · exact (hu.attends.creates hu.sound hw.toWired hi hleft hcreate hother).congr rfl rfl rfl rfl
  · simp only [storedTo, pipeEvents, Event.word?, List.filterMap_cons, List.filterMap_nil, if_true]
    exact .create (Progress.creating_read (hw.pipe_ends_ne hp)) hwrite
  · intro u huv
    simp [storedTo, pipeEvents, List.filterMap_cons, Event.word?, Ne.symm huv]
  · simp only [settled, getElem?_insert, if_true]
  · exact ⟨_, accessed_machine, Creating.answered (hgrows.creating hcreating) hvm hlocals
      (Progress.creating_read (hw.pipe_ends_ne hp)) hwrite hcore⟩
  · intro j u hj huv
    refine .inl ⟨hj, Progress.advance_left_ne (hne hj huv), ?_, ?_⟩
    · simp only [settled, piped, ran, getElem?_insert, if_neg huv]
    · simp only [settled, accessed, piped, ran, getElem?_insert, if_neg huv]
  · intro w
    exact hu.sound.mem_advance_of_ne hw.toWired hleft (by simp)
  · intro u hle
    refine ⟨hle, ?_⟩
    rintro rfl
    exact absurd (hu.attends.known i u hi).2 (UInt64.not_lt.mpr hle)
  · intro u hu'
    simp only [settled, piped, ran, getElem?_insert] at hu'
    split at hu'
    · cases hu'
    · exact hu.closed u hu'

theorem Underway.spawnAnswered {args : SpawnArgs} {charge : ℕ} {machine : Machine GuestMemory}
    (henv : RunsMain data env)
    (hposts : Posts data P i v (P.left i) cpu.memory.locals cpu.memory.bytes (.spawn v args))
    (hnext : checkedAdd s.nextVmId 1 = some (s.nextVmId + 1))
    (hboot : Boots env args charge machine)
    (hcore : applyEvents (spawnEvents v args.instanceIdAddr s.nextVmId) cpu.toCore = .ok core) :
    ∃ P', P.Grows P' ∧ Underway n data P'
      (tr ++ exchange v m.toCpu cpu (.spawn v args)
        (.boot s.nextVmId charge :: spawnEvents v args.instanceIdAddr s.nextVmId))
      (((s.ran v m (.error .yield) cpu).booted s.nextVmId machine args.pipes).settled v
        (afterRun m (.error .yield) cpu) core .runnable) := by
  obtain ⟨sp, todo, locals, hspawning, hvm, hleft, hids, hargv, haddr, hlocals⟩ := hposts.of_spawn
  obtain ⟨hsp, -⟩ := spawn_mem_ops.mp (hu.sound.head_mem hleft)
  have hl : ∀ ev ∈ Event.boot s.nextVmId charge :: spawnEvents v args.instanceIdAddr s.nextVmId,
      Still ev := by
    intro ev hev
    simp only [spawnEvents, List.mem_cons, List.not_mem_nil, or_false, haddr] at hev
    rcases hev with rfl | rfl | rfl
    · exact ⟨rfl, rfl, trivial⟩
    · exact ⟨rfl, rfl, fun heq => absurd heq (by decide)⟩
    · exact ⟨rfl, rfl, rfl⟩
  rw [haddr] at hcore
  have hgrows : P.Grows (P.spawning i sp s.nextVmId) := hu.sound.spawn_grows hleft
  have hborn : P.vm i ≠ none := by simp [hi]
  have hfresh : ∀ {j : ℕ} {u : VmId}, P.vm j = some u → u ≠ s.nextVmId := by
    rintro j u hj rfl
    exact UInt64.lt_irrefl _ (hu.attends.known j _ hj).2
  have hne : ∀ {j : ℕ} {u : VmId}, P.vm j = some u → u ≠ v → j ≠ i := by
    rintro j u hj hne rfl
    rw [hi, Option.some.injEq] at hj
    exact hne hj.symm
  have hchildvm : sp.child ≠ i := by
    have := (hw.older sp hsp).1
    omega
  have hunborn : P.vm sp.child = none := by
    refine (hu.sound.spawned sp hsp).mpr ?_
    rw [hvm, hleft]
    exact List.mem_cons_self
  have hle := (checkedAdd_one_eq_some hnext).2
  refine ⟨P.spawning i sp s.nextVmId, hgrows, hu.answers hl hgrows
    (hu.sound.afterSpawn hw.toWired hleft hborn)
    ?_ hi hlive hleft rfl (.spawn hids hargv) ?_ ?_ (Progress.advance_left_self hleft)
    ?_ ?_ ?_ ?_ ?_ ?_⟩
  · exact (hu.attends.spawns hu.sound hw.toWired hi machine hrun hleft hids hnext).congr rfl rfl rfl
      rfl
  · simp only [storedTo, spawnEvents, Event.word?, List.filterMap_cons, List.filterMap_nil, if_true,
      haddr]
    exact .spawn Progress.spawning_child
  · intro u huv
    simp [storedTo, spawnEvents, List.filterMap_cons, Event.word?, Ne.symm huv]
  · simp only [settled, getElem?_insert, if_true]
  · exact ⟨_, accessed_machine, Spawning.answered (hgrows.spawning hspawning) hvm hlocals
      Progress.spawning_child hcore⟩
  · intro j u hj huv
    by_cases hj' : j = sp.child
    · subst hj'
      rw [Progress.spawning_child, Option.some.injEq] at hj
      subst hj
      refine .inr ⟨UInt64.le_refl _, ?_, ?_, machine, ?_, ?_⟩
      · exact (Progress.advance_left_ne hchildvm).trans (hu.sound.unborn _ hunborn)
      · simp only [settled, booted, ran, getElem?_insert, if_neg huv, if_true]
      · simp only [settled, accessed, booted, ran, getElem?_insert, if_neg huv, if_true]
      · have hstarts : Starts data (P.spawning i sp s.nextVmId) sp.child args.argv :=
          hgrows.starts (.inr ⟨sp, hsp, rfl, args.pipes, hids, hargv⟩)
        exact henv.atReady hboot hstarts
    · rw [Progress.spawning_other hj'] at hj
      have hnew := hfresh hj
      refine .inl ⟨hj, Progress.advance_left_ne (hne hj huv), ?_, ?_⟩
      · simp only [settled, booted, ran, getElem?_insert, if_neg huv, if_neg hnew]
      · simp only [settled, accessed, booted, ran, getElem?_insert, if_neg huv, if_neg hnew]
  · intro w
    exact hu.sound.mem_advance_of_ne hw.toWired hleft (by simp)
  · intro u hle'
    have hlt : s.nextVmId < u := by
      by_contra hnot
      exact absurd ((hle u).mp (UInt64.not_lt.mp hnot)) (UInt64.not_lt.mpr hle')
    refine ⟨UInt64.le_of_lt hlt, ?_⟩
    rintro rfl
    exact absurd (hu.attends.known i u hi).2 (UInt64.not_lt.mpr (UInt64.le_of_lt hlt))
  · intro u hu'
    simp only [settled, booted, ran, getElem?_insert] at hu'
    split at hu'
    · cases hu'
    · split at hu'
      · cases hu'
      · exact hu.closed u hu'

end Answered

theorem Underway.answered {env : Env GuestMemory κ} {cpu : Cpu GuestMemory}
    (henv : RunsMain data env) (hw : Fits n data) (hu : Underway n data P tr s) (hrun : Running s)
    (hexec : Executes env s v m (.error .yield) cpu [msg]) (hid : msg.vmId = v)
    (hanswer : Answer env (s.ran v m (.error .yield) cpu) v (afterRun m (.error .yield) cpu) msg l
      s') : ∃ P', P.Grows P' ∧ Underway n data P' (tr ++ exchange v m.toCpu cpu msg l) s' := by
  obtain ⟨i, hi, -, hresult⟩ := hu.executed henv hw hrun hexec
  obtain ⟨-, msg', hmsg, hposts⟩ :=
    ((hresult .yield rfl).2 (by decide)).resolve_left (by decide)
  obtain rfl : msg = msg' := by simpa using hmsg
  obtain ⟨-, op, rest, hleft, hperforms⟩ := hposts.performs
  have hlive := hexec.state
  cases hanswer with
  | rejected h =>
    have hnone : s.rejection msg = none := hu.not_rejected hw.toWired hrun hi hposts
    exact absurd (hnone.symm.trans h) (by simp)
  | @blocked msg state h =>
    have hwaiting : waiting msg = some state := waiting_of_blocking h
    have hl : ∀ ev ∈ [Event.block v state], Still ev := by
      intro ev hev
      rw [List.mem_singleton] at hev
      subst hev
      exact ⟨rfl, rfl, trivial⟩
    exact ⟨P, .refl P,
      hu.blocked hl (fun _ => rfl) hi hlive hid hposts hwaiting⟩
  | @joined args code core hcode hcore =>
    exact hu.joinAnswered hw hi hlive hposts hcode hcore
  | @piped args p1 p2 slot core hcreate hcore =>
    exact hu.pipeAnswered hw hrun hi hlive hposts hcreate hcore
  | @spawned args charge machine core howns hnext hboot hcore =>
    exact hu.spawnAnswered hw hrun hi hlive henv hposts hnext hboot hcore

/-- A VM joins its children only, so a VM has one joiner at most. -/
theorem Underway.joiner_unique (hu : Underway n data P tr s) (hw : Wired n data) (hrun : Running s)
    (hinv : Invariant s) {u u' : VmId} {addr addr' : UInt64}
    (h : s.states[u]? = some (.join v addr)) (h' : s.states[u']? = some (.join v addr')) :
    u = u' := by
  have hjoins : ∀ (k : VmId) (a : UInt64), s.states[k]? = some (.join v a) →
      ∃ j child, P.vm j = some k ∧ P.vm child = some v ∧
        ∃ sp ∈ data.spawns, sp.fromVm = j ∧ sp.child = child := by
    intro k a hk
    obtain ⟨j, hj⟩ := hu.index hrun hk
    obtain ⟨mk, hmk⟩ := hinv.resident.machine (mem_iff_getElem?.mpr ⟨_, hk⟩)
    have hposts := ((hu.follows j k hj).stands _ mk hk hmk (by simp)).ofJoin
    obtain ⟨_, child, _, _, -, hleft, hchild, -⟩ := hposts.of_join
    exact ⟨j, child, hj, hchild, join_mem_ops.mp (hu.sound.head_mem hleft)⟩
  obtain ⟨j, child, hj, hchild, sp, hsp, rfl, rfl⟩ := hjoins u addr h
  obtain ⟨j', child', hj', hchild', sp', hsp', rfl, rfl⟩ := hjoins u' addr' h'
  obtain rfl := hw.child_inj hsp hsp' (hu.attends.distinct _ _ _ hchild hchild')
  rw [hj, Option.some.injEq] at hj'
  exact hj'

section Exits

variable {env : Env GuestMemory κ} {cpu : Cpu GuestMemory} {core : Core GuestMemory}
  {result : Except Error Int8} (hl : ∀ ev ∈ l, Still ev) (hstored : ∀ u : VmId, storedTo u l = [])
  (hu : Underway n data P tr s) (hi : P.vm i = some v) (hlive : s.states[v]? = some .runnable)
    (hleft : P.left i = [])

include hl in
theorem sentBy_exit (u : VmId) :
    sentBy u (.exec v m.toCpu cpu result [] :: l) = [] := by
  have hnone : l.filterMap Event.message? = [] :=
    List.filterMap_eq_nil_iff.mpr fun ev hev => (hl ev hev).1
  rw [sentBy, List.filterMap_cons_none rfl, hnone, List.filter_nil]

include hl hstored hu hi hlive hleft

/-- When a VM exits, those that join it go on and the others stay as they are. -/
theorem Underway.exits (hP : P.Grows P') (hsound : P'.Sound data) (hattends : Attends n data P' s')
    (hleft' : P'.left i = []) (hvm : P'.vm = P.vm)
    (hstate' : s'.states[v]? = none ∨ s'.states[v]? = some .terminated)
    (hothers : ∀ (j : ℕ) (u : VmId), P.vm j = some u → u ≠ v →
      Follows data P' (tr ++ (.exec v m.toCpu cpu (.ok 0) [] :: l)) s' j u)
    (hmoved : ∀ w : Write, .move w ∈ P'.left w.fromVm ↔ .move w ∈ P.left w.fromVm)
    (hnext : s'.nextVmId = s.nextVmId)
    (hclosed : ∀ u : VmId, s'.states[u]? = some .terminated → u ∈ s'.terminatedVms) :
    Underway n data P' (tr ++ (.exec v m.toCpu cpu (.ok 0) [] :: l)) s' := by
  have hsent : ∀ u : VmId, sentBy u (.exec v m.toCpu cpu (.ok 0) [] :: l) = [] := sentBy_exit hl
  refine ⟨hsound, hattends, ?_, ?_, hclosed, ?_, ?_⟩
  · intro j u hj
    rw [hvm] at hj
    by_cases huv : u = v
    · subst huv
      obtain rfl := hu.attends.distinct _ _ _ hi hj
      exact (hu.follows i u hi).exited hP (hleft'.trans hleft.symm) hlive (hsent u)
        (hstored u) hstate'
    · exact hothers j u hj huv
  · intro u hle
    exact fresh_append (hu.fresh u (hnext ▸ hle)) (hsent u) (hstored u)
  · exact hu.smooth_append (List.forall_mem_cons.mpr ⟨.inl rfl, fun ev hev => (hl ev hev).2.2⟩)
  · have hnone : l.filterMap Event.transfer? = [] :=
      List.filterMap_eq_nil_iff.mpr fun ev hev => (hl ev hev).2.1
    exact hu.carried_same hP ((List.filterMap_cons_none rfl).trans hnone) hmoved

end Exits

theorem purged_pipes (p : PipeId) (u : VmId) (h : s.pipes[p]? = some u) (hne : u ≠ v) :
    (s.purged v 0).pipes[p]? = some u := by
  simp only [purged]
  rw [ExtTreeMap.getElem?_filter', h]
  simp [hne]

/-- Only one VM is woken by an exit. -/
theorem Underway.joiningVms_cons (hu : Underway n data P tr s) (hw : Wired n data)
    (hrun : Running s) (hinv : Invariant s) {k : VmId} {addr : UInt64}
    {joiners : List (VmId × UInt64)} (hjoiners : joiningVms s.states v = (k, addr) :: joiners) :
    joiners = [] ∧ s.states[k]? = some (.join v addr) := by
  have hjoin : ∀ (u : VmId) (a : UInt64), (u, a) ∈ (k, addr) :: joiners →
      s.states[u]? = some (.join v a) := fun u a hu => mem_joiningVms.mp (hjoiners ▸ hu)
  have hk := hjoin k addr List.mem_cons_self
  refine ⟨List.eq_nil_iff_forall_not_mem.mpr ?_, hk⟩
  rintro ⟨u, a⟩ hu'
  obtain rfl : u = k := hu.joiner_unique hw hrun hinv (hjoin u a (List.mem_cons_of_mem _ hu')) hk
  have hnodup : ((joiningVms s.states v).map Prod.fst).Nodup := joiningVms_nodup
  rw [hjoiners, List.map_cons, List.nodup_cons] at hnodup
  exact hnodup.1 (List.mem_map.mpr ⟨(u, a), hu', rfl⟩)

theorem purged_terminatedVms {s' : Scheduler GuestMemory κ}
    (h : s'.terminatedVms = s.terminatedVms) (k : VmId) :
    (s'.purged v 0).terminatedVms[k]? = if k = v then some 0 else s.terminatedVms[k]? := by
  simp only [purged, getElem?_insert, h]

section Exited

variable {cpu : Cpu GuestMemory} (hw : Wired n data) (hu : Underway n data P tr s)
  (hi : P.vm i = some v) (hlive : s.states[v]? = some .runnable) (hleft : P.left i = [])

include hu hi hlive hleft

/-- A VM exits that no other waits for. -/
theorem Underway.exitedAlone :
    Underway n data P (tr ++ [.exec v m.toCpu cpu (.ok 0) []])
      ((s.ran v m (.ok 0) cpu).purged v 0) := by
  have hgrows : P.Grows P := .refl P
  have hl : ∀ ev ∈ ([] : List (Event GuestMemory)), Still ev := by simp
  refine hu.exits hl (fun _ => rfl) hi hlive hleft hgrows hu.sound ?_ hleft rfl ?_ ?_
    (fun _ => Iff.rfl) rfl ?_
  · exact hu.attends.exits hu.sound hi hleft (purged_terminatedVms rfl) rfl rfl purged_pipes
  · left
    simp only [purged, getElem?_erase, if_true]
  · intro j u hj huv
    refine (hu.follows j u hj).same hgrows rfl ?_ ?_ (sentBy_exit hl u) rfl
    · simp only [purged, ran, getElem?_erase, if_neg huv]
    · simp only [purged, ran, getElem?_erase, getElem?_insert, if_neg huv]
  · intro u hu'
    simp only [purged, ran, getElem?_erase] at hu' ⊢
    split at hu'
    · cases hu'
    · exact mem_insert.mpr (.inr (hu.closed u hu'))

include hw

/-- A VM exits while its parent joins it. -/
theorem Underway.exitedJoined {k : VmId} {addr : UInt64} {mk : Machine GuestMemory}
    {core : Core GuestMemory} (hrun : Running s) (hk : s.states[k]? = some (.join v addr))
    (hmk : (s.ran v m (.ok 0) cpu).instantiated[k]? = some mk)
    (hcore : applyEvents (joinEvents k addr 0) mk.toCore = .ok core) :
    ∃ P', P.Grows P' ∧ Underway n data P'
      (tr ++ (.exec v m.toCpu cpu (.ok 0) [] :: joinEvents k addr 0))
      (((s.ran v m (.ok 0) cpu).settled k mk core .runnable).purged v 0) := by
  have hkv : k ≠ v := by
    rintro rfl
    rw [hlive] at hk
    cases hk
  rw [ran_instantiated, if_neg hkv] at hmk
  have hl : ∀ ev ∈ (joinEvents k addr 0 : List (Event GuestMemory)), Still ev := by
    intro ev hev
    simp only [joinEvents, List.mem_cons, List.not_mem_nil, or_false] at hev
    rcases hev with rfl | rfl <;> exact ⟨rfl, rfl, by trivial⟩
  obtain ⟨j, hj⟩ := hu.index hrun hk
  have hposts := ((hu.follows j k hj).stands _ mk hk hmk (by simp)).ofJoin
  obtain ⟨targets, child, children, locals, hjoining, hhead, hchild, hargs, hlocals⟩ :=
    hposts.of_join
  obtain rfl := hu.attends.distinct _ _ _ hi hchild
  obtain rfl : addr = segmentAddr 1 := congrArg JoinArgs.exitCodeAddr hargs
  have hgrows : P.Grows (P.advance j) := ⟨fun _ _ h => h, fun _ _ h => h⟩
  have hij : i ≠ j := by
    rintro rfl
    rw [hleft] at hhead
    cases hhead
  have hne : ∀ {j' : ℕ} {u : VmId}, P.vm j' = some u → u ≠ k → j' ≠ j := by
    rintro j' u hj' hne rfl
    rw [hj, Option.some.injEq] at hj'
    exact hne hj'.symm
  refine ⟨P.advance j, hgrows, hu.exits hl (fun _ => rfl) hi hlive hleft hgrows
    (hu.sound.afterJoin hw hhead (by simp [hj])) ?_
    ((Progress.advance_left_ne hij).trans hleft) rfl ?_ ?_ ?_ rfl ?_⟩
  · have hattends := hu.attends.exits hu.sound hi hleft (purged_terminatedVms rfl) rfl rfl
      purged_pipes
    refine (hattends.joins hu.sound hw hj hhead hchild ?_).congr rfl rfl rfl rfl
    exact mem_insert.mpr (.inl rfl)
  · left
    simp only [purged, getElem?_erase, if_true]
  · intro j' u hj' huv
    by_cases huk : u = k
    · subst huk
      obtain rfl := hu.attends.distinct _ _ _ hj hj'
      refine Follows.resumed (m := { mk with toCore := core }) (hu.follows j u hj) hgrows ?_
        hhead (sentBy_exit hl u) (.join _)
        (Progress.advance_left_self hhead) ?_ ?_
        ((hgrows.joining hjoining).answered hlocals hcore)
      · rw [hk, hhead]
        rfl
      · simp only [purged, settled, getElem?_erase, getElem?_insert, if_neg huv, if_true]
      · simp only [purged, settled, accessed, getElem?_erase, getElem?_insert, if_neg huv,
          if_true]
    · refine (hu.follows j' u hj').same hgrows (Progress.advance_left_ne (hne hj' huk)) ?_ ?_
        (sentBy_exit hl u) rfl
      · simp only [purged, settled, ran, getElem?_erase, getElem?_insert, if_neg huv,
          if_neg huk]
      · simp only [purged, settled, accessed, ran, getElem?_erase, getElem?_insert, if_neg huv,
          if_neg huk]
  · intro w
    exact hu.sound.mem_advance_of_ne hw hhead (by simp)
  · intro u hu'
    simp only [purged, settled, ran, getElem?_erase, getElem?_insert] at hu' ⊢
    split at hu'
    · cases hu'
    · split at hu'
      · cases hu'
      · exact mem_insert.mpr (.inr (hu.closed u hu'))

end Exited

theorem Underway.exited {env : Env GuestMemory κ} {cpu : Cpu GuestMemory} {code : Int8}
    (henv : RunsMain data env) (hw : Fits n data) (hu : Underway n data P tr s) (hrun : Running s)
    (hinv : Invariant s) (hexec : Executes env s v m (.ok code) cpu [])
    (hwoken : Woken code (joiningVms s.states v) (s.ran v m (.ok code) cpu) l s') :
    ∃ P', P.Grows P' ∧ Underway n data P' (tr ++ (.exec v m.toCpu cpu (.ok code) [] :: l))
      (s'.purged v code) := by
  obtain ⟨i, hi, hresult, -⟩ := hu.executed henv hw hrun hexec
  obtain ⟨rfl, hleft⟩ := hresult code rfl
  cases hjoiners : joiningVms s.states v with
  | nil =>
    rw [hjoiners] at hwoken
    cases hwoken
    exact ⟨P, .refl P, hu.exitedAlone hi hexec.state hleft⟩
  | cons joiner joiners =>
    obtain ⟨k, addr⟩ := joiner
    obtain ⟨rfl, hk⟩ := hu.joiningVms_cons hw.toWired hrun hinv hjoiners
    rw [hjoiners] at hwoken
    cases hwoken with
    | cons hid hmk hcore hrest =>
      cases hrest
      rw [List.append_nil]
      exact hu.exitedJoined hw.toWired hi hexec.state hleft hrun hk hmk hcore

/-- Once the first VM has nothing left to do, all VMs have been spawned and the others have
exited. -/
theorem Underway.all_exited (hu : Underway n data P tr s) (hw : Wired n data)
    (hleft : P.left 0 = []) (i : ℕ) (hi : i ≤ n) :
    P.left i = [] ∧ ∃ v : VmId, P.vm i = some v ∧ (i = 0 ∨ v ∈ s.terminatedVms) := by
  induction i using Nat.strong_induction_on with
  | _ i ih =>
    by_cases hzero : i = 0
    · subst hzero
      exact ⟨hleft, rootVmId, hu.attends.root, .inl rfl⟩
    · obtain ⟨sp, hsp, rfl⟩ := hw.spawned i (by omega) hi
      have holder := (hw.older sp hsp).1
      obtain ⟨hparent, -⟩ := ih sp.fromVm holder (by omega)
      obtain ⟨v, hv, hterm⟩ := hu.attends.joined sp hsp (by simp [hparent])
      obtain ⟨code, hcode⟩ := mem_iff_getElem?.mp hterm
      exact ⟨(hu.attends.exited _ v code hv hcode).2, v, hv, .inr hterm⟩

theorem Underway.rootExited {env : Env GuestMemory κ} {cpu : Cpu GuestMemory} {code : Int8}
    (henv : RunsMain data env) (hw : Fits n data) (hu : Underway n data P tr s) (hrun : Running s)
    (hinv : Invariant s) (hexec : Executes env s rootVmId m (.ok code) cpu []) :
    Underway n data P (tr ++ [.exec rootVmId m.toCpu cpu (.ok code) []])
      ((s.ran rootVmId m (.ok code) cpu).completed code) := by
  obtain ⟨i, hi, hresult, -⟩ := hu.executed henv hw hrun hexec
  obtain ⟨rfl, hleft⟩ := hresult code rfl
  obtain rfl := hu.attends.distinct _ _ _ hu.attends.root hi
  have hgrows : P.Grows P := .refl P
  have hl : ∀ ev ∈ ([] : List (Event GuestMemory)), Still ev := by simp
  refine hu.exits hl (fun _ => rfl) hi hexec.state hleft hgrows hu.sound ?_ hleft rfl ?_ ?_
    (fun _ => Iff.rfl) rfl ?_
  · refine hu.attends.exits hu.sound hi hleft (fun k => ?_) rfl rfl fun p u hp _ => hp
    simp only [completed, ran, getElem?_insert]
  · right
    simp only [completed, getElem?_insert, if_true]
  · intro j u hj hne
    have hterm : u ∈ s.terminatedVms := by
      obtain ⟨-, u', hu', rfl | hterm⟩ :=
        hu.all_exited hw.toWired hleft j (hu.attends.known j u hj).1
      · rw [hu.attends.root, Option.some.injEq] at hj
        exact absurd hj.symm hne
      · rw [hj, Option.some.injEq] at hu'
        exact hu' ▸ hterm
    have hdead : u ∉ s.states := fun hin => hrun.separate u hin hterm
    have hgone : s.states[u]? = none := by
      rwa [← Option.not_isSome_iff_eq_none, Option.isSome_iff_exists, ← mem_iff_getElem?]
    have hgone' : s.instantiated[u]? = none := by
      rw [← Option.not_isSome_iff_eq_none, Option.isSome_iff_exists, ← mem_iff_getElem?,
        ← hinv.resident.cover]
      exact hdead
    refine (hu.follows j u hj).same hgrows rfl ?_ ?_ (sentBy_exit hl u) rfl
    · rw [hgone]
      simp only [completed, getElem?_insert, if_neg hne]
      simp
    · rw [hgone']
      simp only [completed, getElem?_filter_key, if_neg hne]
  · intro u hu'
    simp only [completed, getElem?_insert] at hu'
    split at hu'
    · rename_i heq
      exact mem_insert.mpr (.inl heq)
    · simp at hu'

theorem Underway.started (hu : Underway n data P tr s) (limitCycles : ℕ) :
    Underway n data P (tr ++ [.iterate limitCycles]) s := by
  have hgrows : P.Grows P := .refl P
  refine ⟨hu.sound, hu.attends, ?_, ?_, hu.closed, ?_, hu.carried_same hgrows rfl fun _ => Iff.rfl⟩
  · intro i v hi
    exact (hu.follows i v hi).same hgrows rfl rfl rfl rfl rfl
  · intro v hv
    exact fresh_append (hu.fresh v hv) rfl rfl
  · exact hu.smooth_append (List.forall_mem_singleton.mpr trivial)

/-- Every step of a workload leaves it in the middle of the workload, further on. -/
theorem Underway.step {env : Env GuestMemory κ} (henv : RunsMain data env) (hw : Fits n data)
    (hu : Underway n data P tr s) (hinv : Invariant s) (hstep : Step env s l s') :
    ∃ P', P.Grows P' ∧ Underway n data P' (tr ++ l) s' := by
  have hrun := hstep.running hinv
  have hgrows : P.Grows P := .refl P
  cases hstep with
  | started limitCycles => exact ⟨P, hgrows, hu.started limitCycles⟩
  | closed hstate hclosed hm =>
    have hopen := hu.not_closed hw.toWired hrun hstate hm
    rw [hopen] at hclosed
    cases hclosed
  | transferred hread hwrite hopen hmr hmw hload hreadCore hwriteCore =>
    exact hu.transferred hw.toWired hrun hread hwrite hmr hmw hload hreadCore hwriteCore
  | interrupted hexec he => exact ⟨P, hgrows, hu.interrupted henv hw hrun hexec he⟩
  | answered hexec hid hchecked hanswer => exact hu.answered henv hw hrun hexec hid hanswer
  | exited hexec hne hwoken => exact hu.exited henv hw hrun hinv hexec hwoken
  | rootExited hexec => exact ⟨P, hgrows, hu.rootExited henv hw hrun hinv hexec⟩

end DataGraph

end DeterministicScheduler
