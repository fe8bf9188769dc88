import DeterministicScheduler.PipeRouting

/-!
# The VMs that hold a pipe

A VM holds the pipes that it creates and those that its spawn passes to it. What a
generated workload asks of its VMs can be done: a VM passes, reads and writes only
pipes that it holds, and each pipe goes down the tree to the one VM that uses it.
-/
namespace DeterministicScheduler.DataGraph

open ProgramLogic

/-- The pairs in `made` that a VM creates hold this pipe. -/
def Creates (made : List Pipe) (i q : ℕ) : Prop :=
  ∃ p ∈ made, p.vm = i ∧ (q = p.readPipe ∨ q = p.writePipe)

/-- A VM is passed this pipe. -/
def Passed (data : Data) (i q : ℕ) : Prop :=
  ∃ s ∈ data.spawns, s.child = i ∧ q ∈ s.pipes

def Held (data : Data) (made : List Pipe) (i q : ℕ) : Prop :=
  Passed data i q ∨ Creates made i q

/-- The VM that reads or writes a pipe. -/
def UsedBy (data : Data) (q t : ℕ) : Prop :=
  ∃ w ∈ data.writes, q = w.fromPipe ∧ t = w.fromVm ∨ q = w.toPipe ∧ t = w.toVm

/-- A set of VMs that has with each VM the one that spawns it. -/
def ClosedUp (data : Data) (B : ℕ → Prop) : Prop :=
  ∀ s ∈ data.spawns, B s.child → B s.fromVm

/-- A workload on the VMs up to `n` whose pipes are passed to those that use them. -/
structure Wired (n : ℕ) (data : Data) : Prop where
  older : ∀ s ∈ data.spawns, s.fromVm < s.child ∧ s.child ≤ n
  spawned : ∀ i, 0 < i → i ≤ n → ∃ s ∈ data.spawns, s.child = i
  children : (data.spawns.map Spawn.child).Nodup
  indices : (data.writes.flatMap fun w => [w.fromPipe, w.toPipe]).Nodup
  paired : ∀ p ∈ data.pipes, ∃ w ∈ data.writes, p.readPipe = w.toPipe ∧ p.writePipe = w.fromPipe
  created : ∀ w ∈ data.writes, ∃ p ∈ data.pipes, p.readPipe = w.toPipe ∧ p.writePipe = w.fromPipe
  pipes : (data.pipes.map Pipe.readPipe).Nodup
  creators : ∀ p ∈ data.pipes, p.vm ≤ n
  ends : ∀ w ∈ data.writes, w.fromVm ≠ w.toVm ∧ w.fromVm ≤ n ∧ w.toVm ≤ n
  payload : ∀ w ∈ data.writes, 1 ≤ w.data.length ∧ w.data.length ≤ 1024
  passes : ∀ s ∈ data.spawns, ∀ q ∈ s.pipes, Held data data.pipes s.fromVm q
  arrives : ∀ q t, UsedBy data q t → Held data data.pipes t q
  leads : ∀ q t, UsedBy data q t → ∀ j, Held data data.pipes j q →
    j = t ∨ ∃ s ∈ data.spawns, s.fromVm = j ∧ q ∈ s.pipes
  above : ∀ q t, UsedBy data q t → ∀ s ∈ data.spawns, q ∈ s.pipes →
    ∀ B, ClosedUp data B → B t → B s.child

theorem Wired.child_inj {n : ℕ} {data : Data} (hw : Wired n data) {s s' : Spawn}
    (hs : s ∈ data.spawns) (hs' : s' ∈ data.spawns) (hchild : s.child = s'.child) : s = s' :=
  List.inj_on_of_nodup_map hw.children hs hs' hchild

/-- Every pipe that a VM holds is used by some VM. -/
theorem Wired.used {n : ℕ} {data : Data} (hw : Wired n data) (i q : ℕ)
    (h : Held data data.pipes i q) : ∃ t, UsedBy data q t := by
  induction i using Nat.strong_induction_on with
  | _ i ih =>
    rcases h with ⟨s, hs, rfl, hq⟩ | ⟨p, hp, -, hq⟩
    · exact ih s.fromVm (hw.older s hs).1 (hw.passes s hs q hq)
    · obtain ⟨w, hmem, hread, hwrite⟩ := hw.paired p hp
      rcases hq with rfl | rfl
      · exact ⟨w.toVm, w, hmem, .inr ⟨hread, rfl⟩⟩
      · exact ⟨w.fromVm, w, hmem, .inl ⟨hwrite, rfl⟩⟩

section Generated

variable {g : Dag} {draws : Draws} {routes : List Route} {spawnEdges : List ℕ}
  {tables : Tables} {data : Data} {q t l n j : ℕ}

/-- The way of a pipe: created at `l` and passed on the way down to `t`. -/
structure Way (g : Dag) (data : Data) (q l t : ℕ) : Prop where
  up : Ancestor g.parent? l t
  creator : ∀ j, Creates data.pipes j q ↔ j = l
  passed : ∀ s ∈ data.spawns, q ∈ s.pipes ↔ OnPath g.parent? l t s.child

/-- The data spawns every VM of the tree, from its parent. -/
def SpawnsTree (g : Dag) (data : Data) : Prop :=
  ∀ c p, g.parent? c = some p ↔ ∃ s ∈ data.spawns, s.child = c ∧ s.fromVm = p

theorem Way.held (h : Way g data q l t) (hs : SpawnsTree g data) :
    Held data data.pipes j q ↔ ∃ a b, a ≤ b ∧ ProgramLogic.up g.parent? a t = some j ∧
      ProgramLogic.up g.parent? b t = some l := by
  constructor
  · rintro (⟨s, hs', rfl, hq⟩ | hcreates)
    · obtain ⟨a, b, hlt, ha, hb⟩ := (h.passed s hs').mp hq
      exact ⟨a, b, by omega, ha, hb⟩
    · obtain rfl := (h.creator j).mp hcreates
      obtain ⟨b, hb⟩ := h.up
      exact ⟨b, b, le_rfl, hb, hb⟩
  · rintro ⟨a, b, hle, ha, hb⟩
    obtain rfl | hlt := Nat.eq_or_lt_of_le hle
    · rw [ha, Option.some.injEq] at hb
      exact .inr ((h.creator j).mpr hb)
    · obtain ⟨p, hp⟩ := up_isSome hb (show a + 1 ≤ b by omega)
      rw [up_succ, ha, Option.bind_some] at hp
      obtain ⟨s, hs', rfl, -⟩ := (hs j p).mp hp
      exact .inl ⟨s, hs', rfl, (h.passed s hs').mpr ⟨a, b, hlt, ha, hb⟩⟩

/-- A VM that holds the pipe uses it or passes it on. -/
theorem Way.leads (h : Way g data q l t) (hs : SpawnsTree g data)
    (hj : Held data data.pipes j q) : j = t ∨ ∃ s ∈ data.spawns, s.fromVm = j ∧ q ∈ s.pipes := by
  obtain ⟨a, b, hle, ha, hb⟩ := (h.held hs).mp hj
  cases a with
  | zero =>
    rw [up_zero, Option.some.injEq] at ha
    exact .inl ha.symm
  | succ a =>
    obtain ⟨c, hc, hparent⟩ := Option.bind_eq_some_iff.mp ha
    obtain ⟨s, hs', rfl, hfrom⟩ := (hs c j).mp hparent
    exact .inr ⟨s, hs', hfrom, (h.passed s hs').mpr ⟨a, b, by omega, hc, hb⟩⟩

theorem Way.passes (h : Way g data q l t) (hs : SpawnsTree g data) {s : Spawn}
    (hs' : s ∈ data.spawns) (hq : q ∈ s.pipes) : Held data data.pipes s.fromVm q := by
  obtain ⟨a, b, hlt, ha, hb⟩ := (h.passed s hs').mp hq
  refine (h.held hs).mpr ⟨a + 1, b, hlt, ?_, hb⟩
  rw [up_succ, ha, Option.bind_some]
  exact (hs _ _).mpr ⟨s, hs', rfl, rfl⟩

theorem up_closed {B : ℕ → Prop} (hs : SpawnsTree g data) (hB : ClosedUp data B) (ht : B t) (a : ℕ)
    {c : ℕ} (hc : ProgramLogic.up g.parent? a t = some c) : B c := by
  induction a generalizing c with
  | zero =>
    rw [up_zero, Option.some.injEq] at hc
    exact hc ▸ ht
  | succ a ih =>
    obtain ⟨d, hd, hparent⟩ := Option.bind_eq_some_iff.mp hc
    obtain ⟨s, hs', rfl, rfl⟩ := (hs d c).mp hparent
    exact hB s hs' (ih hd)

/-- There are at most as many writes as asked for. -/
theorem drawWriteEdges_length {daggy : Daggy} (convergingThreshold : ℕ)
    (writes k : ℕ) (dag : Dag) (writeEdges : List ℕ) :
    (drawWriteEdges daggy draws convergingThreshold writes k dag writeEdges).2.length ≤
      writeEdges.length + writes := by
  induction writes generalizing k dag writeEdges with
  | zero => exact le_rfl
  | succ writes ih =>
    rw [drawWriteEdges]
    split
    · rename_i dag' e hrun
      have hrest := ih (k + 1) dag' (writeEdges ++ [e])
      rw [List.length_append, List.length_singleton] at hrest
      omega
    · exact Nat.le_add_right _ _

theorem drawWriteDag_length {daggy : Daggy}
    (spawns writes convergingThreshold : ℕ) :
    (drawWriteDag daggy draws spawns writes convergingThreshold).1.edges.length ≤ writes := by
  have hdrawn : Drawn (spawns + 1) (drawWriteDag daggy draws spawns writes
      convergingThreshold).1 _ := drawWriteDag_drawn draws spawns writes convergingThreshold
  have hlength := congrArg List.length hdrawn.listed
  rw [List.length_range] at hlength
  rw [← hlength, drawWriteDag]
  split
  · have hle : (drawWriteEdges daggy draws convergingThreshold writes 0
        { nodes := spawns + 1, edges := [] } []).2.length ≤ ([] : List ℕ).length + writes :=
      drawWriteEdges_length convergingThreshold writes 0 _ []
    simpa using hle
  · exact Nat.zero_le _

theorem passed_length (g : Dag) (routes : List Route) (e : ℕ) :
    (passed g routes e).length ≤ 2 * routes.length := by
  induction routes using List.reverseRecOn with
  | nil => exact le_rfl
  | append_singleton routes r ih =>
    have hlast : (passedFor g e routes.length r).length ≤ 2 := by
      unfold passedFor
      split <;> split <;> simp
    simp only [passed, List.zipIdx_append, List.flatMap_append, List.zipIdx_singleton,
      List.flatMap_singleton, Nat.zero_add, List.length_append, List.length_singleton] at ih ⊢
    omega

/-- The data that is made of these routes. -/
noncomputable def routedData (g : Dag) (draws : Draws) (tables : Tables) (spawnEdges : List ℕ)
    (routes : List Route) : Data where
  spawns := spawnEdges.map (spawnOf g routes)
  pipes := buildPipes tables.pipesOps
  writes := writesOf draws routes

theorem mem_routedSpawns (ht : g.IsTree) (hedges : spawnEdges.Perm (List.range g.edges.length))
    {s : Spawn} : s ∈ (routedData g draws tables spawnEdges routes).spawns ↔
      ∃ e < g.edges.length, s = spawnOf g routes e ∧ g.parent? s.child = some s.fromVm := by
  simp only [routedData, List.mem_map, hedges.mem_iff, List.mem_range]
  constructor
  · rintro ⟨e, he, rfl⟩
    exact ⟨e, he, rfl, (ht.parent_of_edge (spawnOf_edge ht routes he)).1⟩
  · rintro ⟨e, he, rfl, -⟩
    exact ⟨e, he, rfl⟩

theorem spawnsTree (ht : g.IsTree) (hedges : spawnEdges.Perm (List.range g.edges.length)) :
    SpawnsTree g (routedData g draws tables spawnEdges routes) := by
  intro c p
  simp only [mem_routedSpawns ht hedges]
  constructor
  · intro hp
    cases c with
    | zero => cases hp
    | succ e =>
      have hedge := ht.edges_of_parent hp
      have he := (List.getElem?_eq_some_iff.mp hedge).1
      rw [spawnOf_edge ht routes he, Option.some.injEq, Prod.mk.injEq] at hedge
      refine ⟨spawnOf g routes e, ⟨e, he, rfl, ?_⟩, hedge.2, hedge.1⟩
      rw [hedge.1, hedge.2, hp]
  · rintro ⟨s, ⟨e, -, -, hp⟩, rfl, rfl⟩
    exact hp

theorem mem_writesOf {w : Write} : w ∈ writesOf draws routes ↔ ∃ k r, routes[k]? = some r ∧
    w = { fromVm := r.writer, fromPipe := writerPipeIndex k, toVm := r.reader,
          toPipe := readerPipeIndex k, data := draws.payload k } := by
  simp only [writesOf, List.mem_map, Prod.exists, List.mk_mem_zipIdx_iff_getElem?]
  constructor
  · rintro ⟨r, k, hk, rfl⟩
    exact ⟨k, r, hk, rfl⟩
  · rintro ⟨k, r, hk, rfl⟩
    exact ⟨r, k, hk, rfl⟩

theorem mem_pipesOf {p : Pipe} : p ∈ pipesOf routes ↔ ∃ k r, routes[k]? = some r ∧
    p = { vm := r.ancestor, readPipe := readerPipeIndex k, writePipe := writerPipeIndex k } := by
  simp only [pipesOf, List.mem_map, Prod.exists, List.mk_mem_zipIdx_iff_getElem?]
  constructor
  · rintro ⟨r, k, hk, rfl⟩
    exact ⟨k, r, hk, rfl⟩
  · rintro ⟨k, r, hk, rfl⟩
    exact ⟨r, k, hk, rfl⟩

theorem pipeIndex_injective {j k : ℕ} (h : writerPipeIndex j = writerPipeIndex k) : j = k := by
  unfold writerPipeIndex at h
  omega

/-- The ways of the two pipes of a route. -/
theorem way_of_route (ht : g.IsTree) (hedges : spawnEdges.Perm (List.range g.edges.length))
    {daggy : Daggy} (hrouted : Routed daggy g tables routes)
    (hlt : ∀ r ∈ routes, r.ancestor < g.nodes) {k : ℕ}
    {r : Route} (hk : routes[k]? = some r) :
    Way g (routedData g draws tables spawnEdges routes) (writerPipeIndex k) r.ancestor r.writer ∧
    Way g (routedData g draws tables spawnEdges routes)
      (readerPipeIndex k) r.ancestor r.reader := by
  have hlowest := (hrouted.ancestors r (List.mem_of_getElem? hk)).2
  have hmem : ∀ p, p ∈ (routedData g draws tables spawnEdges routes).pipes ↔ p ∈ pipesOf routes :=
    fun p => (buildPipes_perm hrouted hlt).mem_iff
  have hspawn : ∀ s ∈ (routedData g draws tables spawnEdges routes).spawns,
      ∃ e, s = spawnOf g routes e := by
    intro s hs
    obtain ⟨e, -, rfl, -⟩ := (mem_routedSpawns ht hedges).mp hs
    exact ⟨e, rfl⟩
  constructor
  · refine ⟨hlowest.left, fun j => ?_, fun s hs => ?_⟩
    · constructor
      · rintro ⟨p, hp, rfl, hq⟩
        obtain ⟨k', r', hk', rfl⟩ := mem_pipesOf.mp ((hmem p).mp hp)
        rcases hq with hq | hq
        · exact absurd hq (writerPipeIndex_ne _ _)
        · obtain rfl := pipeIndex_injective hq
          rw [hk, Option.some.injEq] at hk'
          rw [hk']
      · rintro rfl
        exact ⟨_, (hmem _).mpr (mem_pipesOf.mpr ⟨k, r, hk, rfl⟩), rfl, .inr rfl⟩
    · obtain ⟨e, rfl⟩ := hspawn s hs
      exact mem_passed_writer hk
  · refine ⟨hlowest.right, fun j => ?_, fun s hs => ?_⟩
    · constructor
      · rintro ⟨p, hp, rfl, hq⟩
        obtain ⟨k', r', hk', rfl⟩ := mem_pipesOf.mp ((hmem p).mp hp)
        rcases hq with hq | hq
        · obtain rfl := readerPipeIndex_injective hq
          rw [hk, Option.some.injEq] at hk'
          rw [hk']
        · exact absurd hq.symm (writerPipeIndex_ne _ _)
      · rintro rfl
        exact ⟨_, (hmem _).mpr (mem_pipesOf.mpr ⟨k, r, hk, rfl⟩), rfl, .inl rfl⟩
    · obtain ⟨e, rfl⟩ := hspawn s hs
      exact mem_passed_reader hk

/-- A pipe that a VM uses has its way from the VM that creates it. -/
theorem exists_way (ht : g.IsTree) (hedges : spawnEdges.Perm (List.range g.edges.length))
    {daggy : Daggy} (hrouted : Routed daggy g tables routes)
    (hlt : ∀ r ∈ routes, r.ancestor < g.nodes)
    (hused : UsedBy (routedData g draws tables spawnEdges routes) q t) :
    ∃ l, Way g (routedData g draws tables spawnEdges routes) q l t := by
  obtain ⟨w, hw, hused⟩ := hused
  obtain ⟨k, r, hk, rfl⟩ := mem_writesOf.mp hw
  have hways : Way g (routedData g draws tables spawnEdges routes) _ _ _ ∧ _ :=
    way_of_route ht hedges hrouted hlt hk
  rcases hused with ⟨rfl, rfl⟩ | ⟨rfl, rfl⟩
  · exact ⟨_, hways.1⟩
  · exact ⟨_, hways.2⟩

/-- A pipe that a spawn passes on is used by some VM. -/
theorem usedBy_of_passed (ht : g.IsTree) (hedges : spawnEdges.Perm (List.range g.edges.length))
    {s : Spawn} (hs : s ∈ (routedData g draws tables spawnEdges routes).spawns)
    (hq : q ∈ s.pipes) : ∃ t, UsedBy (routedData g draws tables spawnEdges routes) q t := by
  obtain ⟨e, -, rfl, -⟩ := (mem_routedSpawns ht hedges).mp hs
  obtain ⟨k, r, hk, hq⟩ := mem_passed.mp hq
  rcases mem_passedFor.mp hq with ⟨rfl, -⟩ | ⟨rfl, -⟩
  · exact ⟨_, _, mem_writesOf.mpr ⟨k, r, hk, rfl⟩, .inl ⟨rfl, rfl⟩⟩
  · exact ⟨_, _, mem_writesOf.mpr ⟨k, r, hk, rfl⟩, .inr ⟨rfl, rfl⟩⟩

theorem routedSpawns_nodup (hedges : spawnEdges.Perm (List.range g.edges.length)) :
    ((routedData g draws tables spawnEdges routes).spawns.map Spawn.child).Nodup := by
  have hmap : (routedData g draws tables spawnEdges routes).spawns.map Spawn.child =
      spawnEdges.map Nat.succ := by
    rw [routedData, List.map_map]
    rfl
  rw [hmap]
  exact (hedges.nodup_iff.mpr List.nodup_range).map Nat.succ_injective

theorem pipesOf_nodup (routes : List Route) : ((pipesOf routes).map Pipe.readPipe).Nodup := by
  have hmap : (pipesOf routes).map Pipe.readPipe =
      (routes.zipIdx.map Prod.snd).map readerPipeIndex := by
    rw [pipesOf, List.map_map, List.map_map]
    rfl
  rw [hmap]
  exact (List.nodup_zipIdx_map_snd routes).map readerPipeIndex_injective

end Generated

/-- Every workload that the generator returns is wired. -/
theorem generateDataGraph_wired {daggy : Daggy} {draws : Draws}
    {spawns writes convergingThreshold : ℕ} {data : Data}
    (h : generateDataGraph daggy draws spawns writes convergingThreshold = some data) :
    Wired spawns data ∧ (∀ s ∈ data.spawns, s.pipes.length ≤ 2 * writes) ∧
      ∀ w ∈ data.writes, w.fromPipe < 2 * writes ∧ w.toPipe < 2 * writes := by
  have ht := drawSpawnDag_isTree draws spawns
  have hnodes := drawSpawnDag_nodes draws spawns
  obtain ⟨tables, spawnEdges, routes, hrun, hedges, hrouted, hroutes⟩ :=
    generateDataGraph_run daggy draws spawns writes convergingThreshold
  generalize drawSpawnDag draws spawns = g at *
  obtain rfl : routedData g draws tables spawnEdges routes = data :=
    Option.some.inj (hrun.symm.trans h)
  have hends : ∀ r ∈ routes, r.writer ≠ r.reader ∧ r.writer < spawns + 1 ∧ r.reader < spawns + 1 :=
    fun r hr => routes_endpoints hroutes hr
  have hlt : ∀ r ∈ routes, r.ancestor < g.nodes := by
    intro r hr
    have hreader := (hends r hr).2.2
    rw [← hnodes] at hreader
    exact ht.ancestor_lt (hrouted.ancestors r hr).2.right hreader
  have hperm : (routedData g draws tables spawnEdges routes).pipes.Perm (pipesOf routes) :=
    buildPipes_perm hrouted hlt
  have htree : SpawnsTree g (routedData g draws tables spawnEdges routes) := spawnsTree ht hedges
  have hway : ∀ {q t}, UsedBy (routedData g draws tables spawnEdges routes) q t →
      ∃ l, Way g (routedData g draws tables spawnEdges routes) q l t :=
    exists_way ht hedges hrouted hlt
  have hlength : (drawWriteDag daggy draws spawns writes convergingThreshold).1.edges.length ≤
      writes := drawWriteDag_length spawns writes convergingThreshold
  rw [← hroutes, List.length_map] at hlength
  refine ⟨{
    older := ?_
    spawned := ?_
    children := routedSpawns_nodup hedges
    indices := writesOf_indices_nodup draws routes
    paired := ?_
    created := ?_
    pipes := (hperm.map _).nodup_iff.mpr (pipesOf_nodup routes)
    creators := ?_
    ends := ?_
    payload := ?_
    passes := ?_
    arrives := ?_
    leads := ?_
    above := ?_ }, ?_, ?_⟩
  · intro s hs
    obtain ⟨e, he, rfl, hp⟩ := (mem_routedSpawns ht hedges).mp hs
    have hchild : (spawnOf g routes e).child = e + 1 := rfl
    have := ht.parent_lt _ _ hp
    have := ht.nodes
    omega
  · intro i hi hle
    obtain ⟨e, rfl⟩ : ∃ e, i = e + 1 := ⟨i - 1, by omega⟩
    obtain ⟨p, hp⟩ := ht.exists_parent (show e + 1 < g.nodes by omega)
    obtain ⟨s, hs, hchild, -⟩ := (htree _ _).mp hp
    exact ⟨s, hs, hchild⟩
  · intro p hp
    obtain ⟨k, r, hk, rfl⟩ := mem_pipesOf.mp (hperm.mem_iff.mp hp)
    exact ⟨_, mem_writesOf.mpr ⟨k, r, hk, rfl⟩, rfl, rfl⟩
  · intro w hw
    obtain ⟨k, r, hk, rfl⟩ := mem_writesOf.mp hw
    exact ⟨_, hperm.mem_iff.mpr (mem_pipesOf.mpr ⟨k, r, hk, rfl⟩), rfl, rfl⟩
  · intro p hp
    obtain ⟨k, r, hk, rfl⟩ := mem_pipesOf.mp (hperm.mem_iff.mp hp)
    have hancestor := hlt r (List.mem_of_getElem? hk)
    rw [hnodes] at hancestor
    exact Nat.lt_succ_iff.mp hancestor
  · intro w hw
    obtain ⟨k, r, hk, rfl⟩ := mem_writesOf.mp hw
    obtain ⟨hne, hwriter, hreader⟩ := hends r (List.mem_of_getElem? hk)
    exact ⟨hne, Nat.lt_succ_iff.mp hwriter, Nat.lt_succ_iff.mp hreader⟩
  · intro w hw
    obtain ⟨k, r, hk, rfl⟩ := mem_writesOf.mp hw
    exact draws.payload_length k
  · intro s hs q hq
    obtain ⟨t, hused⟩ := usedBy_of_passed ht hedges hs hq
    obtain ⟨l, hl⟩ := hway hused
    exact hl.passes htree hs hq
  · intro q t hused
    obtain ⟨l, hl⟩ := hway hused
    obtain ⟨b, hb⟩ := hl.up
    exact (hl.held htree).mpr ⟨0, b, Nat.zero_le b, rfl, hb⟩
  · intro q t hused j hj
    obtain ⟨l, hl⟩ := hway hused
    exact hl.leads htree hj
  · intro q t hused s hs hq B hB ht
    obtain ⟨l, hl⟩ := hway hused
    obtain ⟨a, b, -, ha, -⟩ := (hl.passed s hs).mp hq
    exact up_closed htree hB ht a ha
  · intro s hs
    obtain ⟨e, -, rfl, -⟩ := (mem_routedSpawns ht hedges).mp hs
    exact (passed_length g routes e).trans (by omega)
  · intro w hw
    obtain ⟨k, r, hk, rfl⟩ := mem_writesOf.mp hw
    have hlt := (List.getElem?_eq_some_iff.mp hk).1
    show k * 2 + 1 < _ ∧ k * 2 < _
    omega

/-- The edges that `f` selects by their endpoints, with what it says of them, newest
first. -/
def Dag.incident (g : Dag) (f : ℕ × ℕ → Option ℕ) : List (ℕ × ℕ) :=
  ((List.range g.edges.length).filterMap fun e =>
    (g.edges[e]?).bind fun endpoints => (f endpoints).map fun n => (e, n)).reverse

theorem Dag.mem_incident {g : Dag} {f : ℕ × ℕ → Option ℕ} {e n : ℕ} :
    (e, n) ∈ g.incident f ↔ ∃ endpoints, g.edges[e]? = some endpoints ∧ f endpoints = some n := by
  simp only [Dag.incident, List.mem_reverse, List.mem_filterMap, List.mem_range,
    Option.bind_eq_some_iff, Option.map_eq_some_iff]
  constructor
  · rintro ⟨_, _, endpoints, he, _, hn, heq⟩
    cases heq
    exact ⟨endpoints, he, hn⟩
  · rintro ⟨endpoints, he, hn⟩
    exact ⟨e, (List.getElem?_eq_some_iff.mp he).1, endpoints, he, n, hn, rfl⟩

theorem Dag.incident_nodup (g : Dag) (f : ℕ × ℕ → Option ℕ) : (g.incident f).Nodup := by
  rw [Dag.incident, List.nodup_reverse]
  refine List.Nodup.filterMap ?_ List.nodup_range
  intro e₁ e₂ pair h₁ h₂
  simp only [Option.mem_def, Option.bind_eq_some_iff, Option.map_eq_some_iff] at h₁ h₂
  obtain ⟨_, _, _, _, rfl⟩ := h₁
  obtain ⟨_, _, _, _, heq⟩ := h₂
  exact (congrArg Prod.fst heq).symm

/-- A graph library that accepts every edge and walks over the newest edges first. -/
def newestFirst : Daggy where
  accepts _ _ := true
  parents g n := g.incident fun (source, target) => if target = n then some source else none
  children g n := g.incident fun (source, target) => if source = n then some target else none
  mem_parents := by simp [Dag.mem_incident]
  parents_nodup g n := g.incident_nodup _
  mem_children := by simp [Dag.mem_incident]
  children_nodup g n := g.incident_nodup _

/-- A chain of three VMs, the last of which writes to the other two. -/
def chainDraws : Draws where
  previous k := k
  endpoints e _ := (2, e)
  payload _ := [7, 8, 9]
  payload_length _ := by decide

def chainData : Data where
  spawns := [⟨0, 1, [1]⟩, ⟨1, 2, [1, 3]⟩]
  pipes := [⟨0, 0, 1⟩, ⟨1, 2, 3⟩]
  writes := [⟨2, 1, 0, 0, [7, 8, 9]⟩, ⟨2, 3, 1, 2, [7, 8, 9]⟩]

theorem generateDataGraph_chain :
    generateDataGraph newestFirst chainDraws 2 2 3 = some chainData := by
  decide +kernel

end DeterministicScheduler.DataGraph
