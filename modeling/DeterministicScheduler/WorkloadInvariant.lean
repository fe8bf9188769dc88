import DeterministicScheduler.GuestAnswers
import DeterministicScheduler.Streams
import DeterministicScheduler.Transparency
import DeterministicScheduler.WorkloadProgress

/-!
# The invariant of a workload

The VMs of a scheduler that runs a workload are those spawned so far. Each stands where its
operations left say, and each pipe that is still to be used is on its way to the VM that uses it.
-/
namespace DeterministicScheduler.DataGraph

open ProgramLogic Program Outcome EscapeEncoding Std Scheduler

/-- The state in which the sender of a message waits. -/
def waiting : Message → Option VmState
  | .join _ args => some (.join args.targetId args.exitCodeAddr)
  | .pipeRead _ args => some (.waitForRead args.pipe args.length args.bufferAddr args.lengthAddr)
  | .pipeWrite _ args =>
    some (.waitForWrite args.pipe 0 args.length args.bufferAddr args.lengthAddr)
  | _ => none

/-- Where a VM of a workload is, in this state and with these operations left. -/
inductive Stands (data : Data) (P : Progress) (i : ℕ) (v : VmId) (left : List Op) :
    VmState → Core GuestMemory → Prop
  | ready {c : Core GuestMemory} (h : AtReady data P i left c) :
    Stands data P i v left .runnable c
  | waits {c : Core GuestMemory} {msg : Message} {state : VmState}
    (h : Posts data P i v left c.memory.locals c.memory.bytes msg)
    (hstate : waiting msg = some state) : Stands data P i v left state c

/-- A VM uses a pipe, or has yet to spawn the child it passes the pipe to. -/
def Serves (data : Data) (P : Progress) (j q t : ℕ) : Prop :=
  j = t ∨ ∃ s ∈ data.spawns, s.fromVm = j ∧ q ∈ s.pipes ∧ P.vm s.child = none

section Attends

variable {κ : Type}

/-- The VMs and pipes of a scheduler are those of a workload so far. -/
structure Attends (n : ℕ) (data : Data) (P : Progress) (s : Scheduler GuestMemory κ) : Prop where
  root : P.vm 0 = some rootVmId
  distinct : ∀ (i j : ℕ) (v : VmId), P.vm i = some v → P.vm j = some v → i = j
  known : ∀ (i : ℕ) (v : VmId), P.vm i = some v → i ≤ n ∧ v < s.nextVmId
  covered : ∀ v : VmId, v < s.nextVmId → ∃ i, P.vm i = some v
  exited : ∀ (i : ℕ) (v : VmId) (code : Int8), P.vm i = some v →
    s.terminatedVms[v]? = some code → code = 0 ∧ P.left i = []
  joined : ∀ sp ∈ data.spawns, .join sp.child ∉ P.left sp.fromVm →
    ∃ v : VmId, P.vm sp.child = some v ∧ v ∈ s.terminatedVms
  slots : ∀ (q : ℕ) (id : PipeId), P.pipe q = some id → id < s.nextPipeSlot
  ids : ∀ (q q' : ℕ) (id : PipeId), P.pipe q = some id → P.pipe q' = some id → q = q'
  owner : ∀ (q t : ℕ) (id : PipeId), P.pipe q = some id → UsedBy data q t →
    (∀ v : VmId, P.vm t = some v → v ∉ s.terminatedVms) →
      ∃ (j : ℕ) (v : VmId), P.vm j = some v ∧ s.pipes[id]? = some v ∧ Serves data P j q t

variable {data : Data} {P P' : Progress} {s s' : Scheduler GuestMemory κ} {i j n t q : ℕ} {v : VmId}
  {left rest : List Op} {id : PipeId} {state : VmState} {c : Core GuestMemory}

theorem Progress.Grows.stands (hP : P.Grows P') (h : Stands data P i v left state c) :
    Stands data P' i v left state c := by
  cases h with
  | ready h => exact .ready (hP.ready h)
  | waits h hstate => exact .waits (hP.posts h) hstate

/-- A VM that is runnable is not about to be answered. -/
theorem Stands.atReady (h : Stands data P i v left .runnable c) : AtReady data P i left c := by
  cases h with
  | ready h => exact h
  | @waits c msg state h hstate => cases msg <;> cases hstate

theorem otherPipe_of_from (hP : P.Paired data) (hw : Wired n data) {w : Write}
    (hmem : w ∈ data.writes) (hid : P.pipe w.fromPipe = some id) :
    P.pipe w.toPipe = some id.otherPipe := by
  rcases hP.ofWrite hw hmem with ⟨-, hnone⟩ | ⟨id', -, hto, hfrom⟩
  · rw [hnone] at hid
    cases hid
  · rw [hfrom, Option.some.injEq] at hid
    rw [hto, ← hid, PipeId.otherPipe_otherPipe]

theorem otherPipe_of_to (hP : P.Paired data) (hw : Wired n data) {w : Write}
    (hmem : w ∈ data.writes) (hid : P.pipe w.toPipe = some id) :
    P.pipe w.fromPipe = some id.otherPipe := by
  rcases hP.ofWrite hw hmem with ⟨hnone, -⟩ | ⟨id', -, hto, hfrom⟩
  · rw [hnone] at hid
    cases hid
  · rw [hto, Option.some.injEq] at hid
    rw [hfrom, hid]

/-- The two ends of a new pipe. -/
theorem create_ends {slot next : UInt64} {p1 p2 : PipeId}
    (h : PipeId.create slot = some (p1, p2, next))
    (heven : slot % 2 = 0) (hlow : 2 ≤ slot) :
    p2 = p1.otherPipe ∧ p1.isRead = true ∧ 2 ≤ p1 ∧ 2 ≤ p1.otherPipe := by
  obtain ⟨rfl, rfl, -, hroom⟩ := create_eq_some h
  have hnat : (p1 % 2).toNat = 0 := by
    rw [heven]
    rfl
  rw [UInt64.toNat_mod, show (2 : UInt64).toNat = 2 from rfl] at hnat
  have hother : p1 + 1 = p1.otherPipe := by
    rw [← UInt64.toNat_inj, toNat_add_one hroom, PipeId.otherPipe, UInt64.toNat_xor,
      show (1 : UInt64).toNat = 1 from rfl, Nat.xor_one_of_even (Nat.even_iff.mpr hnat)]
  refine ⟨hother, ?_, hlow, ?_⟩
  · rw [PipeId.isRead, heven, beq_self_eq_true]
  · rw [← hother, UInt64.le_iff_toNat_le, toNat_add_one hroom]
    rw [UInt64.le_iff_toNat_le] at hlow
    omega

theorem usedBy_from {w : Write} (hmem : w ∈ data.writes) : UsedBy data w.fromPipe w.fromVm :=
  ⟨w, hmem, .inl ⟨rfl, rfl⟩⟩

theorem usedBy_to {w : Write} (hmem : w ∈ data.writes) : UsedBy data w.toPipe w.toVm :=
  ⟨w, hmem, .inr ⟨rfl, rfl⟩⟩

namespace Attends

variable (ha : Attends n data P s)

include ha

/-- A VM with something left to do has not exited. -/
theorem not_terminated {op : Op} (hi : P.vm i = some v) (hop : op ∈ P.left i) :
    v ∉ s.terminatedVms := by
  intro hterm
  obtain ⟨code, hcode⟩ := mem_iff_getElem?.mp hterm
  rw [(ha.exited i v code hi hcode).2] at hop
  cases hop

/-- A pipe is with the VM that uses it once that is spawned, until it exits. -/
theorem owns (hs : P.Sound data) (hw : Wired n data) (hq : P.pipe q = some id)
    (hused : UsedBy data q t) (ht : P.vm t = some v) (hlive : v ∉ s.terminatedVms) :
    s.pipes[id]? = some v := by
  have hnot : ∀ v' : VmId, P.vm t = some v' → v' ∉ s.terminatedVms := by
    intro v' hv'
    rw [ht, Option.some.injEq] at hv'
    exact hv' ▸ hlive
  obtain ⟨j, v', hj, hpipe, rfl | ⟨sp, hsp, -, hpass, hnone⟩⟩ := ha.owner q t id hq hused hnot
  · rw [ht, Option.some.injEq] at hj
    rw [hpipe, hj]
  · have hborn : P.vm t ≠ none := by
      rw [ht]
      simp
    exact absurd hnone (hw.above q t hused sp hsp hpass _ hs.closedUp hborn)

/-- A pipe that is still to be used has an owner. -/
theorem mem_pipes {op : Op} (hq : P.pipe q = some id) (hused : UsedBy data q t)
    (hop : op ∈ P.left t) : id ∈ s.pipes := by
  obtain ⟨j, v, -, hpipe, -⟩ :=
    ha.owner q t id hq hused fun v hv => ha.not_terminated hv hop
  exact mem_iff_getElem?.mpr ⟨v, hpipe⟩

theorem congr (hnext : s'.nextVmId = s.nextVmId) (hterm : s'.terminatedVms = s.terminatedVms)
    (hslot : s'.nextPipeSlot = s.nextPipeSlot) (hpipes : s'.pipes = s.pipes) :
    Attends n data P s' := by
  refine ⟨ha.root, ha.distinct, ?_, ?_, ?_, ?_, ?_, ha.ids, ?_⟩
  · rw [hnext]
    exact ha.known
  · rw [hnext]
    exact ha.covered
  · rw [hterm]
    exact ha.exited
  · rw [hterm]
    exact ha.joined
  · rw [hslot]
    exact ha.slots
  · rw [hterm, hpipes]
    exact ha.owner

variable (hs : P.Sound data) (hw : Wired n data) (hi : P.vm i = some v)

include hi in
/-- An operation that is done leaves the VMs that have exited alone. -/
theorem advance_exited {op : Op} (hhead : P.left i = op :: rest) :
    ∀ (j : ℕ) (u : VmId) (code : Int8), P.vm j = some u → s.terminatedVms[u]? = some code →
      code = 0 ∧ (P.advance i).left j = [] := by
  intro j u code hj hcode
  obtain ⟨rfl, hleft⟩ := ha.exited j u code hj hcode
  have hne : j ≠ i := by
    rintro rfl
    rw [hhead] at hleft
    cases hleft
  exact ⟨rfl, (Progress.advance_left_ne hne).trans hleft⟩

include hs hw hi

theorem joins {child : ℕ} {target : VmId} (hhead : P.left i = .join child :: rest)
    (hchild : P.vm child = some target) (hterm : target ∈ s.terminatedVms) :
    Attends n data (P.advance i) s := by
  refine { ha with exited := ha.advance_exited hi hhead, joined := ?_, owner := ha.owner }
  intro sp hsp hnot
  by_cases hold : .join sp.child ∈ P.left sp.fromVm
  · rw [Progress.mem_advance hw (hs.rest i) hhead] at hnot
    have heq : sp.child = child := by
      by_contra hne
      exact hnot ⟨hold, fun heq => hne (Op.join.inj heq.2)⟩
    exact ⟨target, heq ▸ hchild, hterm⟩
  · exact ha.joined sp hsp hold

theorem creates {p : Pipe} {todo : List Pipe} {p1 p2 : PipeId} {slot : UInt64}
    (hhead : P.left i = .create p :: (DataGraph.creates i todo ++ afterPipes i data))
    (hcreate : PipeId.create s.nextPipeSlot = some (p1, p2, slot)) (hother : p2 = p1.otherPipe) :
    Attends n data (P.creating i p p1) (s.piped v p1 p2 slot) := by
  obtain ⟨rfl, rfl, rfl, hroom⟩ := create_eq_some hcreate
  obtain ⟨hp, rfl⟩ := create_mem_ops.mp (hs.head_mem hhead)
  have hlt := fun id : PipeId => lt_slot_iff (p := id) hroom
  have hold : ∀ (q : ℕ) (id : PipeId), q ≠ p.readPipe → q ≠ p.writePipe →
      (P.creating p.vm p s.nextPipeSlot).pipe q = some id →
      P.pipe q = some id ∧ id ≠ s.nextPipeSlot + 1 ∧ id ≠ s.nextPipeSlot := by
    intro q id hread hwrite hq
    rw [Progress.creating_other hread hwrite] at hq
    exact ⟨hq, ne_of_lt_slot hroom (ha.slots q id hq)⟩
  have hnew : ∀ (q : ℕ) (id : PipeId), (P.creating p.vm p s.nextPipeSlot).pipe q = some id →
      (q = p.readPipe ∧ id = s.nextPipeSlot) ∨ (q = p.writePipe ∧ id = s.nextPipeSlot + 1) ∨
        (q ≠ p.readPipe ∧ q ≠ p.writePipe) := by
    intro q id hq
    by_cases hread : q = p.readPipe
    · rw [hread, Progress.creating_read (hw.pipe_ends_ne hp), Option.some.injEq] at hq
      exact .inl ⟨hread, hq.symm⟩
    by_cases hwrite : q = p.writePipe
    · rw [hwrite, Progress.creating_write, Option.some.injEq] at hq
      exact .inr (.inl ⟨hwrite, hq.symm.trans hother.symm⟩)
    · exact .inr (.inr ⟨hread, hwrite⟩)
  have hsucc : s.nextPipeSlot + 1 ≠ s.nextPipeSlot := by
    intro heq
    have hnat := congrArg UInt64.toNat heq
    rw [toNat_add_one hroom] at hnat
    omega
  refine ⟨ha.root, ha.distinct, ha.known, ha.covered, ha.advance_exited hi hhead, ?_, ?_, ?_, ?_⟩
  · intro sp hsp hnot
    exact ha.joined sp hsp (fun hmem => hnot ((hs.mem_advance_of_ne hw hhead (by simp)).mpr hmem))
  · intro q id hq
    refine (hlt id).mpr ?_
    rcases hnew q id hq with ⟨-, rfl⟩ | ⟨-, rfl⟩ | ⟨hread, hwrite⟩
    · exact .inr (.inl rfl)
    · exact .inr (.inr rfl)
    · exact .inl (ha.slots q id (hold q id hread hwrite hq).1)
  · intro q q' id hq hq'
    rcases hnew q id hq with ⟨rfl, hid⟩ | ⟨rfl, hid⟩ | ⟨hread, hwrite⟩ <;>
      rcases hnew q' id hq' with ⟨rfl, hid'⟩ | ⟨rfl, hid'⟩ | ⟨hread', hwrite'⟩
    · rfl
    · exact absurd (hid'.symm.trans hid) hsucc
    · exact absurd hid (hold q' id hread' hwrite' hq').2.2
    · exact absurd (hid.symm.trans hid') hsucc
    · rfl
    · exact absurd hid (hold q' id hread' hwrite' hq').2.1
    · exact absurd hid' (hold q id hread hwrite hq).2.2
    · exact absurd hid' (hold q id hread hwrite hq).2.1
    · exact ha.ids q q' id (hold q id hread hwrite hq).1 (hold q' id hread' hwrite' hq').1
  · intro q t id hq hused hlive
    have hmine : q = p.readPipe ∨ q = p.writePipe → Serves data P p.vm q t := by
      intro hend
      have hheld : Held data data.pipes p.vm q := .inr ⟨p, hp, rfl, hend⟩
      rcases hw.leads q t hused p.vm hheld with heq | ⟨sp, hsp, hfrom, hpass⟩
      · exact .inl heq
      · refine .inr ⟨sp, hsp, hfrom, hpass, (hs.spawned sp hsp).mpr ?_⟩
        rw [hfrom, hhead]
        simp [afterPipes, spawnsFrom, hsp, hfrom]
    rcases hnew q id hq with ⟨hread, rfl⟩ | ⟨hwrite, rfl⟩ | ⟨hread, hwrite⟩
    · refine ⟨p.vm, v, hi, ?_, hmine (.inl hread)⟩
      simp only [piped, getElem?_insert, if_neg hsucc.symm, if_true]
    · refine ⟨p.vm, v, hi, ?_, hmine (.inr hwrite)⟩
      simp only [piped, getElem?_insert, if_true]
    · obtain ⟨hq, hne, hne'⟩ := hold q id hread hwrite hq
      obtain ⟨j, u, hj, hpipe, hserves⟩ := ha.owner q t id hq hused hlive
      refine ⟨j, u, hj, ?_, hserves⟩
      simp only [piped, getElem?_insert, if_neg hne, if_neg hne', hpipe]

theorem spawns (machine : Machine GuestMemory) {sp : Spawn} {todo : List Spawn} {ids : List PipeId}
    (hrun : Running s)
    (hhead : P.left i = .spawn sp :: (spawnsFrom i todo ++ afterSpawns i data))
    (hids : ids.map some = sp.pipes.map P.pipe)
    (hnext : checkedAdd s.nextVmId 1 = some (s.nextVmId + 1)) :
    Attends n data (P.spawning i sp s.nextVmId) (s.booted s.nextVmId machine ids) := by
  obtain ⟨hsp, rfl⟩ := spawn_mem_ops.mp (hs.head_mem hhead)
  have hle := (checkedAdd_one_eq_some hnext).2
  have hgrows : P.Grows (P.spawning sp.fromVm sp s.nextVmId) := hs.spawn_grows hhead
  have hunborn : P.vm sp.child = none := (hs.spawned sp hsp).mpr (hhead ▸ List.mem_cons_self)
  have hfresh : s.nextVmId ∉ s.terminatedVms := by
    intro hterm
    exact UInt64.lt_irrefl _ ((hrun.accounted _).mpr (.inr hterm))
  have hchild : (P.spawning sp.fromVm sp s.nextVmId).vm sp.child = some s.nextVmId :=
    Progress.spawning_child
  have hold : ∀ (j : ℕ) (u : VmId), j ≠ sp.child →
      (P.spawning sp.fromVm sp s.nextVmId).vm j = some u → P.vm j = some u := by
    intro j u hne hj
    rwa [Progress.spawning_other hne] at hj
  have hnew : ∀ (j : ℕ) (u : VmId), (P.spawning sp.fromVm sp s.nextVmId).vm j = some u →
      (j = sp.child ∧ u = s.nextVmId) ∨ (j ≠ sp.child ∧ P.vm j = some u ∧ u ≠ s.nextVmId) := by
    intro j u hj
    by_cases hne : j = sp.child
    · rw [hne, hchild, Option.some.injEq] at hj
      exact .inl ⟨hne, hj.symm⟩
    · have hj' := hold j u hne hj
      refine .inr ⟨hne, hj', ?_⟩
      rintro rfl
      exact UInt64.lt_irrefl _ (ha.known j _ hj').2
  have hmem : ∀ (id : PipeId), id ∈ ids ↔ ∃ q ∈ sp.pipes, P.pipe q = some id := by
    intro id
    have hiff : some id ∈ ids.map some ↔ some id ∈ sp.pipes.map P.pipe := by rw [hids]
    simpa using hiff
  refine ⟨hgrows.vm _ _ ha.root, ?_, ?_, ?_, ?_, ?_, ha.slots, ha.ids, ?_⟩
  · intro j k u hj hk
    rcases hnew j u hj with ⟨rfl, hu⟩ | ⟨-, hj', hne⟩ <;>
      rcases hnew k u hk with ⟨rfl, hu'⟩ | ⟨-, hk', hne'⟩
    · rfl
    · exact absurd hu hne'
    · exact absurd hu' hne
    · exact ha.distinct j k u hj' hk'
  · intro j u hj
    rcases hnew j u hj with ⟨rfl, rfl⟩ | ⟨-, hj', -⟩
    · exact ⟨(hw.older sp hsp).2, (hle _).mp (UInt64.le_refl _)⟩
    · exact ⟨(ha.known j u hj').1, (hle _).mp (UInt64.le_of_lt (ha.known j u hj').2)⟩
  · intro u hu
    rcases UInt64.le_iff_lt_or_eq.mp ((hle u).mpr hu) with hlt | rfl
    · obtain ⟨j, hj⟩ := ha.covered u hlt
      exact ⟨j, hgrows.vm j u hj⟩
    · exact ⟨sp.child, hchild⟩
  · intro j u code hj hcode
    rcases hnew j u hj with ⟨rfl, rfl⟩ | ⟨-, hj', -⟩
    · exact absurd (mem_iff_getElem?.mpr ⟨code, hcode⟩) hfresh
    · exact ha.advance_exited hi hhead j u code hj' hcode
  · intro sp' hsp' hnot
    obtain ⟨u, hu, hterm⟩ := ha.joined sp' hsp'
      fun hmem => hnot ((hs.mem_advance_of_ne hw hhead (by simp)).mpr hmem)
    exact ⟨u, hgrows.vm _ _ hu, hterm⟩
  · intro q t id hq hused hlive
    by_cases hpass : q ∈ sp.pipes
    · refine ⟨sp.child, s.nextVmId, hchild, ?_, ?_⟩
      · simp only [booted, getElem?_passed, if_pos ((hmem id).mpr ⟨q, hpass, hq⟩)]
      · rcases hw.leads q t hused sp.child (.inl ⟨sp, hsp, rfl, hpass⟩) with
          heq | ⟨sp', hsp', hfrom, hpass'⟩
        · exact .inl heq
        · have hne : sp'.child ≠ sp.child := by
            have holder := (hw.older sp' hsp').1
            omega
          refine .inr ⟨sp', hsp', hfrom, hpass', ?_⟩
          rw [Progress.spawning_other hne, hs.spawned sp' hsp', hfrom]
          exact hs.unborn_mem hunborn (spawn_mem_ops.mpr ⟨hsp', hfrom⟩)
    · obtain ⟨j, u, hj, hpipe, hserves⟩ := ha.owner q t id hq hused
        fun u hu => hlive u (hgrows.vm t u hu)
      refine ⟨j, u, hgrows.vm j u hj, ?_, ?_⟩
      · have hnot : id ∉ ids := by
          intro hin
          obtain ⟨q', hpass', hq'⟩ := (hmem id).mp hin
          exact hpass (ha.ids q' q id hq' hq ▸ hpass')
        simp only [booted, getElem?_passed, if_neg hnot, hpipe]
      · rcases hserves with heq | ⟨sp', hsp', hfrom, hpass', hnone⟩
        · exact .inl heq
        · have hne : sp'.child ≠ sp.child := by
            intro heq
            exact hpass (hw.child_inj hsp' hsp heq ▸ hpass')
          exact .inr ⟨sp', hsp', hfrom, hpass', (Progress.spawning_other hne).trans hnone⟩

omit hw in
/-- A VM exits when it has nothing left to do. The pipes that others own stay open. -/
theorem exits (hleft : P.left i = [])
    (hterm : ∀ k, s'.terminatedVms[k]? = if k = v then some 0 else s.terminatedVms[k]?)
    (hnext : s'.nextVmId = s.nextVmId) (hslot : s'.nextPipeSlot = s.nextPipeSlot)
    (hpipes : ∀ (p : PipeId) (u : VmId), s.pipes[p]? = some u → u ≠ v → s'.pipes[p]? = some u) :
    Attends n data P s' := by
  have hmem : ∀ u, u ∈ s.terminatedVms → u ∈ s'.terminatedVms := by
    intro u hu
    obtain ⟨code, hcode⟩ := mem_iff_getElem?.mp hu
    rw [mem_iff_getElem?, hterm]
    split
    · exact ⟨0, rfl⟩
    · exact ⟨code, hcode⟩
  have hexited : v ∈ s'.terminatedVms := mem_iff_getElem?.mpr ⟨0, by rw [hterm, if_pos rfl]⟩
  refine ⟨ha.root, ha.distinct, ?_, ?_, ?_, ?_, ?_, ha.ids, ?_⟩
  · rw [hnext]
    exact ha.known
  · rw [hnext]
    exact ha.covered
  · intro j u code hj hcode
    rw [hterm] at hcode
    split at hcode
    · rename_i heq
      obtain rfl := ha.distinct i j v hi (heq ▸ hj)
      exact ⟨(Option.some.inj hcode).symm, hleft⟩
    · exact ha.exited j u code hj hcode
  · intro sp hsp hnot
    obtain ⟨u, hu, hu'⟩ := ha.joined sp hsp hnot
    exact ⟨u, hu, hmem u hu'⟩
  · rw [hslot]
    exact ha.slots
  · intro q t id hq hused hlive
    obtain ⟨j, u, hj, hpipe, hserves⟩ := ha.owner q t id hq hused
      fun u hu hin => hlive u hu (hmem u hin)
    refine ⟨j, u, hj, hpipes id u hpipe ?_, hserves⟩
    rintro rfl
    obtain rfl := ha.distinct i j u hi hj
    rcases hserves with rfl | ⟨sp, hsp, hfrom, -, hnone⟩
    · exact hlive u hj hexited
    · have hspawn := (hs.spawned sp hsp).mp hnone
      rw [hfrom, hleft] at hspawn
      cases hspawn

omit hi in
theorem moves {w : Write} {rest' : List Op} (hfrom : P.left w.fromVm = .move w :: rest)
    (hto : P.left w.toVm = .move w :: rest') : Attends n data (P.moving w) s := by
  refine { ha with exited := ?_, joined := ?_, owner := ha.owner }
  · intro j u code hj hcode
    obtain ⟨rfl, hleft⟩ := ha.exited j u code hj hcode
    refine ⟨rfl, List.eq_nil_iff_forall_not_mem.mpr fun x hx => ?_⟩
    have hmem := ((hs.mem_moving hw hfrom hto x).mp hx).1
    rw [hleft] at hmem
    cases hmem
  · intro sp hsp hnot
    refine ha.joined sp hsp fun hmem => hnot ?_
    exact (hs.mem_moving hw hfrom hto _).mpr ⟨hmem, by simp⟩

end Attends

end Attends

end DeterministicScheduler.DataGraph
