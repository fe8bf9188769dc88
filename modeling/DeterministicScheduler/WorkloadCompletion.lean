import DeterministicScheduler.WorkloadCounts

/-!
# What a workload does

At any time the system calls of a VM are the first of its operations and the transfers are
writes of the workload, each done once. When the root has exited nothing of it is left.
-/
namespace DeterministicScheduler.DataGraph

open ProgramLogic Program Outcome Std Scheduler

variable {κ : Type} {env : Env GuestMemory κ} {data : Data} {spawns : ℕ} {P : Progress}
  {tr l : List (Event GuestMemory)} {s s' r : Scheduler GuestMemory κ} {i n : ℕ} {v : VmId}

/-- The ids that a scheduler gave to VMs and pipes, by the indices of a workload. Each is what
the answer to the spawn or to the pipe stored for the VM that made the call. -/
structure Progress.Names (spawns : ℕ) (data : Data) (P : Progress) (tr : List (Event GuestMemory))
    (s : Scheduler GuestMemory κ) : Prop where
  root : P.vm 0 = some rootVmId
  vms : ∀ (i j : ℕ) (v : VmId), P.vm i = some v → P.vm j = some v → i = j
  pipes : ∀ (q q' : ℕ) (id : PipeId), P.pipe q = some id → P.pipe q' = some id → q = q'
  booted : ∀ v : VmId, v < s.nextVmId ↔ ∃ i ≤ spawns, P.vm i = some v
  spawned : ∀ sp ∈ data.spawns, ∀ v : VmId, P.vm sp.child = some v →
    ∃ u : VmId, P.vm sp.fromVm = some u ∧ (segmentAddr 6, v) ∈ storedTo u tr
  reads : ∀ p ∈ data.pipes, ∀ id : PipeId, P.pipe p.readPipe = some id →
    ∃ u : VmId, P.vm p.vm = some u ∧ (segmentAddr 1, id) ∈ storedTo u tr
  writes : ∀ p ∈ data.pipes, ∀ id : PipeId, P.pipe p.writePipe = some id →
    ∃ u : VmId, P.vm p.vm = some u ∧ (segmentAddr 1 + 8, id) ∈ storedTo u tr

/-- What was stored for an operation is among all that was stored. -/
theorem Told.answer {words : List (UInt64 × UInt64)} {done : List Op} {op : Op}
    (h : Told P words done) (hop : op ∈ done) :
    ∃ answer, Tells P answer op ∧ ∀ word ∈ answer, word ∈ words := by
  obtain ⟨answers, htells, rfl⟩ := h
  induction htells with
  | nil => cases hop
  | @cons answer _ answers done htell htells ih =>
    rcases List.mem_cons.mp hop with rfl | hop
    · exact ⟨answer, htell, fun word hword => List.mem_flatten_of_mem List.mem_cons_self hword⟩
    · obtain ⟨answer', htell', hwords⟩ := ih hop
      refine ⟨answer', htell', fun word hword => ?_⟩
      rw [List.flatten_cons]
      exact List.mem_append_right _ (hwords word hword)

/-- An operation that is no longer left was answered. -/
theorem Underway.answered_of (hu : Underway n data P tr s) {op : Op} (hop : op ∈ ops i data)
    (hnot : op ∉ P.left i) : ∃ (u : VmId) (answer : List (UInt64 × UInt64)), P.vm i = some u ∧
      Tells P answer op ∧ ∀ word ∈ answer, word ∈ storedTo u tr := by
  have hborn : P.vm i ≠ none := by
    intro hnone
    rw [hu.sound.unborn i hnone] at hnot
    exact hnot hop
  obtain ⟨u, hvm⟩ := Option.ne_none_iff_exists'.mp hborn
  obtain ⟨done, hops, htold⟩ := (hu.follows i u hvm).told
  rw [hops, List.mem_append] at hop
  obtain ⟨answer, htell, hwords⟩ := htold.answer (hop.resolve_right hnot)
  exact ⟨u, answer, hvm, htell, hwords⟩

/-- The ids of a pipe that was created are the ones that its VM was told. -/
theorem Underway.pipe_told (hu : Underway n data P tr s) {p : Pipe} (hp : p ∈ data.pipes)
    (hcreated : P.pipe p.readPipe ≠ none) : ∃ (u : VmId) (p1 p2 : PipeId), P.vm p.vm = some u ∧
      P.pipe p.readPipe = some p1 ∧ P.pipe p.writePipe = some p2 ∧
      (segmentAddr 1, p1) ∈ storedTo u tr ∧ (segmentAddr 1 + 8, p2) ∈ storedTo u tr := by
  have hnot : .create p ∉ P.left p.vm := fun hmem => hcreated ((hu.sound.created p hp).mpr hmem)
  obtain ⟨u, answer, hvm, htell, hwords⟩ := hu.answered_of (create_mem_ops.mpr ⟨hp, rfl⟩) hnot
  cases htell with
  | @create _ p1 p2 hread hwrite =>
    exact ⟨u, p1, p2, hvm, hread, hwrite, hwords _ (by simp), hwords _ (by simp)⟩

theorem Underway.names (hu : Underway n data P tr r) (hnext : s.nextVmId = r.nextVmId) :
    P.Names n data tr s where
  root := hu.attends.root
  vms := hu.attends.distinct
  pipes := hu.attends.ids
  booted v := by
    rw [hnext]
    constructor
    · intro hv
      obtain ⟨i, hi⟩ := hu.attends.covered v hv
      exact ⟨i, (hu.attends.known i v hi).1, hi⟩
    · rintro ⟨i, -, hi⟩
      exact (hu.attends.known i v hi).2
  spawned sp hsp v hv := by
    have hnot : .spawn sp ∉ P.left sp.fromVm := by
      intro hmem
      rw [(hu.sound.spawned sp hsp).mpr hmem] at hv
      cases hv
    obtain ⟨u, answer, hvm, htell, hwords⟩ := hu.answered_of (spawn_mem_ops.mpr ⟨hsp, rfl⟩) hnot
    cases htell with
    | spawn hchild =>
      rw [hv, Option.some.injEq] at hchild
      subst hchild
      exact ⟨u, hvm, hwords _ (by simp)⟩
  reads p hp id hid := by
    obtain ⟨u, p1, p2, hvm, hread, -, hmem, -⟩ := hu.pipe_told hp (by simp [hid])
    rw [hid, Option.some.injEq] at hread
    exact ⟨u, hvm, hread ▸ hmem⟩
  writes p hp id hid := by
    have hcreated : P.pipe p.readPipe ≠ none := by
      rcases hu.sound.paired.ends p hp with ⟨-, hnone⟩ | ⟨id', -, hread, -⟩
      · rw [hnone] at hid
        cases hid
      · simp [hread]
    obtain ⟨u, p1, p2, hvm, -, hwrite, -, hmem⟩ := hu.pipe_told hp hcreated
    rw [hid, Option.some.injEq] at hwrite
    exact ⟨u, hvm, hwrite ▸ hmem⟩

/-- When the root has exited every VM has, and has nothing left to do. -/
theorem Underway.finished (hu : Underway n data P tr s) (hw : Wired n data)
    (hroot : s.states[rootVmId]? = some .terminated) (i : ℕ) (hi : i ≤ n) :
    P.left i = [] ∧ ∃ v ∈ s.terminatedVms, P.vm i = some v := by
  have hexited := hu.closed rootVmId hroot
  obtain ⟨code, hcode⟩ := mem_iff_getElem?.mp hexited
  obtain ⟨-, hleft⟩ := hu.attends.exited 0 rootVmId code hu.attends.root hcode
  obtain ⟨hnone, v, hv, rfl | hterm⟩ := hu.all_exited hw hleft i hi
  · rw [hu.attends.root, Option.some.injEq] at hv
    exact ⟨hnone, rootVmId, hexited, hu.attends.root⟩
  · exact ⟨hnone, v, hterm, hv⟩

/-- The chain of VMs when its root has exited. -/
theorem exists_chain : ∃ tr s, Reachable maxInstantiatedVms (workloadEnv chainData) tr s ∧
    s.states[rootVmId]? = some .terminated := by
  obtain ⟨tr, s, h, hroot⟩ := exists_reachable maxInstantiatedVms (workloadEnv chainData)
    (.boot :: List.replicate 13 (.round none 99))
    (fun _ s => s.states[rootVmId]? == some .terminated) (by decide +kernel)
  exact ⟨tr, s, h, eq_of_beq hroot⟩

/-- In every reachable scheduler the system calls so far succeeded and moved something, and no
execution ended in a failure. -/
theorem workload_smooth (hw : RunsWorkload spawns data env)
    (h : Reachable maxInstantiatedVms env tr s) :
    ∀ ev ∈ tr, Smooth ev := by
  rcases underway_of_reachable two_le_maxInstantiatedVms hw h with
    ⟨-, rfl⟩ | ⟨r, P, hlinked, hr, hu⟩
  · simp
  · exact hu.smooth

theorem workload_smooth_chain : ∃ tr s,
    Reachable maxInstantiatedVms (workloadEnv chainData) tr s ∧ ∀ ev ∈ tr, Smooth ev := by
  obtain ⟨tr, s, h, -⟩ := exists_chain
  exact ⟨tr, s, h, workload_smooth runsWorkload_chain h⟩

/-- When the root has exited all VMs of the workload were booted, and all exited with code zero. -/
theorem workload_exits (hw : RunsWorkload spawns data env)
    (h : Reachable maxInstantiatedVms env tr s)
    (hroot : s.states[rootVmId]? = some .terminated) :
    s.nextVmId.toNat = spawns + 1 ∧ ∀ v : VmId, v < s.nextVmId → s.terminatedVms[v]? = some 0 := by
  rcases underway_of_reachable two_le_maxInstantiatedVms hw h with
    ⟨rfl, -⟩ | ⟨r, P, hlinked, hr, hu⟩
  · simp [new] at hroot
  · rw [hlinked.same.states] at hroot
    rw [hlinked.same.nextVmId, hlinked.same.terminatedVms]
    have hdone := hu.finished hw.fits.toWired hroot
    obtain ⟨index, hindex⟩ := hu.exists_index
    constructor
    · refine hu.booted_length fun i hi => ?_
      obtain ⟨-, v, -, hv⟩ := hdone i hi
      simp [hv]
    · intro v hv
      obtain ⟨hle, hi⟩ := hindex v hv
      obtain ⟨-, u, hterm, hu'⟩ := hdone (index v) hle
      obtain rfl := Option.some.inj (hi.symm.trans hu')
      obtain ⟨code, hcode⟩ := mem_iff_getElem?.mp hterm
      rw [hcode, (hu.attends.exited _ _ code hi hcode).1]

theorem workload_exits_chain : ∃ tr s,
    Reachable maxInstantiatedVms (workloadEnv chainData) tr s ∧ s.nextVmId.toNat = 2 + 1 ∧
      ∀ v : VmId, v < s.nextVmId → s.terminatedVms[v]? = some 0 := by
  obtain ⟨tr, s, h, hroot⟩ := exists_chain
  exact ⟨tr, s, h, workload_exits runsWorkload_chain h hroot⟩

/-- The transfers so far carry out writes of the workload, each done once, and all of them when
the root has exited. A transfer moves the whole item of its write. -/
theorem workload_transfers (hw : RunsWorkload spawns data env)
    (h : Reachable maxInstantiatedVms env tr s) (hroot : rootVmId ∈ s.states) :
    ∃ P : Progress, P.Names spawns data tr s ∧ ∃ done : List Write, done.Nodup ∧
      (∀ w ∈ done, w ∈ data.writes) ∧
      List.Forall₂ (Fulfils P) (tr.filterMap Event.transfer?) done ∧
      (s.states[rootVmId]? = some .terminated → done.Perm data.writes) := by
  rcases underway_of_reachable two_le_maxInstantiatedVms hw h with
    ⟨rfl, -⟩ | ⟨r, P, hlinked, hr, hu⟩
  · simp [new] at hroot
  · obtain ⟨done, hnodup, hdone, hcarried⟩ := hu.carried
    refine ⟨P, hu.names hlinked.same.nextVmId, done, hnodup, fun w hmem => ((hdone w).mp hmem).1,
      hcarried, fun hexited => ?_⟩
    rw [hlinked.same.states] at hexited
    rw [List.perm_ext_iff_of_nodup hnodup hw.fits.toWired.writes_nodup]
    intro w
    rw [hdone]
    refine and_iff_left_of_imp fun hmem => ?_
    have hle := (hw.fits.ends w hmem).2.1
    simp [(hu.finished hw.fits.toWired hexited w.fromVm hle).1]

theorem workload_transfers_chain : ∃ tr s,
    Reachable maxInstantiatedVms (workloadEnv chainData) tr s ∧
    ∃ (P : Progress) (done : List Write), P.Names 2 chainData tr s ∧ done.Perm chainData.writes ∧
      List.Forall₂ (Fulfils P) (tr.filterMap Event.transfer?) done := by
  obtain ⟨tr, s, h, hroot⟩ := exists_chain
  obtain ⟨P, hnames, done, -, -, hcarried, hall⟩ :=
    workload_transfers runsWorkload_chain h (mem_iff_getElem?.mpr ⟨_, hroot⟩)
  exact ⟨tr, s, h, P, done, hnames, hall hroot, hcarried⟩

/-- The system calls of a VM so far are the first of its operations in their order, and all of
them when the root has exited. All but the last have been answered, with the ids of the pipes
and VMs that the later ones use. -/
theorem workload_calls (hw : RunsWorkload spawns data env)
    (h : Reachable maxInstantiatedVms env tr s) (hroot : rootVmId ∈ s.states) :
    ∃ P : Progress, P.Names spawns data tr s ∧ ∀ (i : ℕ) (v : VmId), P.vm i = some v →
      ∃ answered asked todo : List Op, ops i data = answered ++ asked ++ todo ∧
        asked.length ≤ 1 ∧ List.Forall₂ (Performs P i) (sentBy v tr) (answered ++ asked) ∧
        Told P (storedTo v tr) answered ∧
        (s.states[rootVmId]? = some .terminated → asked = [] ∧ todo = []) := by
  rcases underway_of_reachable two_le_maxInstantiatedVms hw h with
    ⟨rfl, -⟩ | ⟨r, P, hlinked, hr, hu⟩
  · simp [new] at hroot
  · refine ⟨P, hu.names hlinked.same.nextVmId, fun i v hi => ?_⟩
    obtain ⟨done, hops, hasked⟩ := (hu.follows i v hi).asked
    obtain ⟨done', hops', htold⟩ := (hu.follows i v hi).told
    obtain rfl : done = done' := List.append_cancel_right (hops.symm.trans hops')
    obtain ⟨todo, htodo⟩ := pending_append r.states[v]? (P.left i)
    refine ⟨done, _, todo, ?_, pending_length _ _, hasked, htold, fun hexited => ?_⟩
    · rw [List.append_assoc, htodo, hops]
    · rw [hlinked.same.states] at hexited
      rw [(hu.finished hw.fits.toWired hexited i (hu.attends.known i v hi).1).1] at htodo ⊢
      exact List.append_eq_nil_iff.mp htodo

theorem workload_calls_chain : ∃ tr s,
    Reachable maxInstantiatedVms (workloadEnv chainData) tr s ∧
    ∃ P : Progress, P.Names 2 chainData tr s ∧ ∀ (i : ℕ) (v : VmId), P.vm i = some v →
      List.Forall₂ (Performs P i) (sentBy v tr) (ops i chainData) ∧
      Told P (storedTo v tr) (ops i chainData) := by
  obtain ⟨tr, s, h, hroot⟩ := exists_chain
  obtain ⟨P, hnames, hcalls⟩ :=
    workload_calls runsWorkload_chain h (mem_iff_getElem?.mpr ⟨_, hroot⟩)
  refine ⟨tr, s, h, P, hnames, fun i v hi => ?_⟩
  obtain ⟨answered, asked, todo, hops, -, hasked, htold, hall⟩ := hcalls i v hi
  obtain ⟨rfl, rfl⟩ := hall hroot
  rw [List.append_nil, List.append_nil] at hops
  rw [List.append_nil] at hasked
  rw [hops]
  exact ⟨hasked, htold⟩

/-- The executions that are not interrupted are at most three for each write and each spawn and
one for the root, so many when the root has exited, and every round that goes through has one. -/
theorem workload_executions (hw : RunsWorkload spawns data env)
    (h : Reachable maxInstantiatedVms env tr s) :
    tr.countP Event.ends ≤ 3 * data.writes.length + 3 * spawns + 1 ∧
    (s.states[rootVmId]? = some .terminated →
      tr.countP Event.ends = 3 * data.writes.length + 3 * spawns + 1) ∧
    ∀ (state : VmState) (pause : Pause) (limitCycles consumedCycles : ℕ)
      (s' : Scheduler GuestMemory κ) (l : List (Event GuestMemory)),
      s.states[rootVmId]? = some state → state ≠ .terminated →
      iterate maxInstantiatedVms env pause limitCycles s = .ok consumedCycles s' l →
      l.countP Event.ends = 1 := by
  rcases underway_of_reachable two_le_maxInstantiatedVms hw h with
    ⟨rfl, rfl⟩ | ⟨r, P, hlinked, hr, hu⟩
  · simp [new]
  · have hwired := hw.fits.toWired
    obtain ⟨hsent, hsentAll⟩ := hu.messages_length hwired
    obtain ⟨hexits, hexitsAll⟩ := hu.exits_length hr.terminated_lt
    have hends := hr.ends
    refine ⟨by omega, ?_, ?_⟩
    · intro hexited
      rw [hlinked.same.states] at hexited
      have hdone := hu.finished hwired hexited
      rw [hends, hexitsAll fun i hi => (hdone i hi).2, hsentAll fun i hi => ?_]
      · omega
      · obtain ⟨hleft, v, -, hv⟩ := hdone i hi
        exact ⟨hleft, by simp [hv]⟩
    · intro state pause limitCycles consumedCycles s' l hroot hstate hiterate
      have hrun : Running r := hr.invariant.running (hlinked.same.states ▸ hroot) hstate
      obtain ⟨r', hr', -⟩ :=
        Refines.iterated two_le_maxInstantiatedVms ⟨hlinked, hr⟩ hrun hiterate
      exact iterate_ends hr.invariant hrun hr'

theorem workload_executions_chain : ∃ tr s,
    Reachable maxInstantiatedVms (workloadEnv chainData) tr s ∧ tr.countP Event.ends = 13 := by
  obtain ⟨tr, s, h, hroot⟩ := exists_chain
  exact ⟨tr, s, h, (workload_executions runsWorkload_chain h).2.1 hroot⟩

end DeterministicScheduler.DataGraph
