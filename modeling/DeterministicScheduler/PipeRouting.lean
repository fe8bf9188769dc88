import DeterministicScheduler.DataGraph

/-!
# Pipes are routed along the tree

The tree that the generator draws numbers its nodes as they are added, so the edge
to a node is the number before it and a parent is smaller than its children. The
search for an ancestor ends at the lowest common one, the two ways down from there
are the ones whose spawns pass the pipes, and the tables hold nothing else.
-/
namespace DeterministicScheduler.DataGraph

open ProgramLogic Std

variable {daggy : Daggy} {g : Dag} {n m k : ℕ}

/-- A tree numbered from its root: edge `e` leads to node `e + 1`, from an earlier
node. -/
structure Dag.IsTree (g : Dag) : Prop where
  nodes : g.nodes = g.edges.length + 1
  edge : ∀ e a b, g.edges[e]? = some (a, b) → b = e + 1 ∧ a ≤ e

theorem drawSpawnDag_isTree (draws : Draws) (spawns : ℕ) : (drawSpawnDag draws spawns).IsTree := by
  induction spawns with
  | zero => exact ⟨rfl, by simp [drawSpawnDag]⟩
  | succ spawns ih =>
    let dag := drawSpawnDag draws spawns
    have hdag : dag.nodes = dag.edges.length + 1 := ih.nodes
    refine ⟨by simp [drawSpawnDag, Dag.addChild, ih.nodes], ?_⟩
    intro e a b he
    change (dag.edges ++ [(genRange (draws.previous spawns) dag.nodes, dag.nodes)])[e]? = _ at he
    rcases Nat.lt_trichotomy e dag.edges.length with hlt | rfl | hgt
    · rw [List.getElem?_append_left hlt] at he
      exact ih.edge e a b he
    · rw [List.getElem?_concat_length, Option.some.injEq, Prod.mk.injEq] at he
      obtain ⟨rfl, rfl⟩ := he
      refine ⟨hdag, ?_⟩
      have := Nat.mod_lt (draws.previous spawns) (show 0 < dag.nodes by omega)
      rw [genRange]
      omega
    · rw [List.getElem?_eq_none (by simpa using hgt)] at he
      cases he

theorem drawSpawnDag_nodes (draws : Draws) (spawns : ℕ) :
    (drawSpawnDag draws spawns).nodes = spawns + 1 := by
  induction spawns with
  | zero => rfl
  | succ spawns ih =>
    rw [drawSpawnDag, Dag.addChild, ih]

/-- The VM that spawns another. -/
def Dag.parent? (g : Dag) : ℕ → Option ℕ
  | 0 => none
  | n + 1 => (g.edges[n]?).map Prod.fst

theorem Dag.IsTree.parent_lt (h : g.IsTree) (n p : ℕ) (hp : g.parent? n = some p) : p < n := by
  cases n with
  | zero => cases hp
  | succ e =>
    obtain ⟨⟨a, b⟩, he, rfl⟩ := Option.map_eq_some_iff.mp hp
    exact Nat.lt_succ_of_le (h.edge e a b he).2

theorem Dag.IsTree.edges_of_parent (h : g.IsTree) {e p : ℕ} (hp : g.parent? (e + 1) = some p) :
    g.edges[e]? = some (p, e + 1) := by
  obtain ⟨⟨a, b⟩, he, rfl⟩ := Option.map_eq_some_iff.mp hp
  rw [he, (h.edge e a b he).1]

/-- Every node has the root among its ancestors. -/
theorem Dag.IsTree.root_ancestor (h : g.IsTree) (n : ℕ) (hn : n < g.nodes) :
    Ancestor g.parent? 0 n := by
  induction n using Nat.strong_induction_on with
  | _ n ih =>
    cases n with
    | zero => exact Ancestor.refl 0
    | succ e =>
      have hlt : e < g.edges.length := by
        have := h.nodes
        omega
      obtain ⟨⟨a, b⟩, he⟩ : ∃ p, g.edges[e]? = some p := ⟨_, List.getElem?_eq_getElem hlt⟩
      have hle := (h.edge e a b he).2
      obtain ⟨k, hk⟩ := ih a (by omega) (by omega)
      refine ⟨1 + k, ?_⟩
      rw [up_add, up_succ, up_zero, Option.bind_some, Dag.parent?, he, Option.map_some,
        Option.bind_some, hk]

/-- A node of the tree has its parent only, by the edge before it. -/
theorem Dag.IsTree.parents (h : g.IsTree) (n : ℕ) :
    daggy.parents g n = ((g.parent? n).map fun p => (n - 1, p)).toList := by
  have honly : ∀ x, x ∈ daggy.parents g n ↔ ∃ p, g.parent? n = some p ∧ x = (n - 1, p) := by
    rintro ⟨e, p⟩
    rw [daggy.mem_parents]
    constructor
    · intro he
      obtain rfl := (h.edge e p n he).1
      exact ⟨p, by rw [Dag.parent?, he, Option.map_some], rfl⟩
    · rintro ⟨p', hp, heq⟩
      cases heq
      cases n with
      | zero => cases hp
      | succ e => exact h.edges_of_parent hp
  cases hp : g.parent? n with
  | none =>
    refine List.eq_nil_iff_forall_not_mem.mpr fun x hx => ?_
    obtain ⟨p, hsome, _⟩ := (honly x).mp hx
    rw [hp] at hsome
    cases hsome
  | some p =>
    refine List.perm_singleton.mp ((List.perm_ext_iff_of_nodup (daggy.parents_nodup g n)
      (List.nodup_singleton _)).mpr fun x => ?_)
    rw [honly, hp, List.mem_singleton]
    constructor
    · rintro ⟨p', hsome, rfl⟩
      cases hsome
      rfl
    · exact fun hx => ⟨p, rfl, hx⟩

theorem Daggy.children_edges_nodup (daggy : Daggy) (g : Dag) (n : ℕ) :
    ((daggy.children g n).map Prod.fst).Nodup := by
  refine (daggy.children_nodup g n).map_on ?_
  rintro ⟨e, c⟩ hc ⟨_, c'⟩ hc' rfl
  have heq := (daggy.mem_children.mp hc).symm.trans (daggy.mem_children.mp hc')
  cases heq
  rfl

theorem Dag.IsTree.parent_of_edge (h : g.IsTree) {e p c : ℕ} (he : g.edges[e]? = some (p, c)) :
    g.parent? c = some p ∧ c = e + 1 := by
  obtain rfl := (h.edge e p c he).1
  exact ⟨by rw [Dag.parent?, he, Option.map_some], rfl⟩

theorem Dag.IsTree.parent_lt_nodes (h : g.IsTree) {p : ℕ} (hp : g.parent? n = some p) :
    n < g.nodes := by
  cases n with
  | zero => cases hp
  | succ e =>
    have := (List.getElem?_eq_some_iff.mp (h.edges_of_parent hp)).1
    rw [h.nodes]
    omega

theorem Dag.IsTree.exists_parent (h : g.IsTree) {e : ℕ} (he : e + 1 < g.nodes) :
    ∃ p, g.parent? (e + 1) = some p := by
  have hlt : e < g.edges.length := by
    have := h.nodes
    omega
  exact ⟨_, by rw [Dag.parent?, List.getElem?_eq_getElem hlt, Option.map_some]⟩

theorem getElem?_foldl_insert {α β : Type} (f : α → ℕ) (b : β) (l : List α)
    (t : ExtTreeMap ℕ β) (e : ℕ) :
    (l.foldl (fun ops a => ops.insert (f a) b) t)[e]? =
      if e ∈ l.map f then some b else t[e]? := by
  induction l generalizing t with
  | nil => simp
  | cons a l ih =>
    rw [List.foldl_cons, ih, ExtTreeMap.getElem?_insert]
    simp only [List.map_cons, List.mem_cons, Nat.compare_eq_eq]
    by_cases hmem : e ∈ l.map f
    · rw [if_pos hmem, if_pos (.inr hmem)]
    · by_cases heq : e = f a
      · rw [if_neg hmem, if_pos heq.symm, if_pos (.inl heq)]
      · rw [if_neg hmem, if_neg (Ne.symm heq), if_neg (by simp [heq, hmem])]

/-- What holds between two visits: `done` are the nodes visited, `queue` those found
from them. -/
structure Traversal (g : Dag) (done queue : List ℕ) (tables : Tables) (spawnEdges : List ℕ) :
    Prop where
  nodup : (done ++ queue).Nodup
  found : ∀ c, c ∈ done ++ queue ↔ c = 0 ∨ ∃ p ∈ done, g.parent? c = some p
  edges_nodup : spawnEdges.Nodup
  edges : ∀ e, e ∈ spawnEdges ↔ ∃ p ∈ done, g.parent? (e + 1) = some p
  spawnOps : ∀ e, tables.spawnOps[e]? = if e ∈ spawnEdges then some [] else none
  pipesOps : ∀ n, tables.pipesOps[n]? = if n ∈ done then some [] else none

theorem Traversal.start (g : Dag) :
    Traversal g [] [0] { spawnOps := ∅, pipesOps := ∅ } [] where
  nodup := by simp
  found := by simp
  edges_nodup := List.nodup_nil
  edges := by simp
  spawnOps := by simp
  pipesOps := by simp

namespace Traversal

variable {done queue spawnEdges : List ℕ} {tables : Tables}

theorem lt_nodes (h : Traversal g done queue tables spawnEdges) (ht : g.IsTree)
    (hc : n ∈ done ++ queue) : n < g.nodes := by
  rcases (h.found n).mp hc with rfl | ⟨p, -, hp⟩
  · rw [ht.nodes]
    omega
  · exact ht.parent_lt_nodes hp

theorem length_le (h : Traversal g done queue tables spawnEdges) (ht : g.IsTree) :
    done.length + queue.length ≤ g.nodes := by
  have hsub : done ++ queue ⊆ List.range g.nodes := fun n hn =>
    List.mem_range.mpr (h.lt_nodes ht hn)
  have hle := (h.nodup.subperm hsub).length_le
  rwa [List.length_append, List.length_range] at hle

/-- Visiting the node in front keeps the account of the traversal. -/
theorem visit {node : ℕ} {processing : List ℕ}
    (h : Traversal g done (node :: processing) tables spawnEdges) (ht : g.IsTree) :
    Traversal g (done ++ [node]) (processing ++ ((daggy.children g node).reverse).map Prod.snd)
      { spawnOps := ((daggy.children g node).reverse).foldl (fun ops child => ops.insert child.1 [])
          tables.spawnOps
        pipesOps := tables.pipesOps.insert node [] }
      (spawnEdges ++ ((daggy.children g node).reverse).map Prod.fst) := by
  have hnode : node ∉ done := by
    intro hmem
    exact (List.nodup_append.mp h.nodup).2.2 node hmem node List.mem_cons_self rfl
  have hsnd : ∀ c, c ∈ ((daggy.children g node).reverse).map Prod.snd ↔ g.parent? c =
      some node := by
    intro c
    rw [List.map_reverse, List.mem_reverse, List.mem_map]
    constructor
    · rintro ⟨⟨e, c⟩, hmem, rfl⟩
      exact (ht.parent_of_edge (daggy.mem_children.mp hmem)).1
    · intro hp
      cases c with
      | zero => cases hp
      | succ e => exact ⟨(e, e + 1), daggy.mem_children.mpr (ht.edges_of_parent hp), rfl⟩
  have hfst : ∀ e, e ∈ ((daggy.children g node).reverse).map Prod.fst ↔
      g.parent? (e + 1) = some node := by
    intro e
    rw [List.map_reverse, List.mem_reverse, List.mem_map]
    constructor
    · rintro ⟨⟨e, c⟩, hmem, rfl⟩
      obtain ⟨hp, rfl⟩ := ht.parent_of_edge (daggy.mem_children.mp hmem)
      exact hp
    · intro hp
      exact ⟨(e, e + 1), daggy.mem_children.mpr (ht.edges_of_parent hp), rfl⟩
  have hfst_nodup : (((daggy.children g node).reverse).map Prod.fst).Nodup := by
    rw [List.map_reverse, List.nodup_reverse]
    exact daggy.children_edges_nodup g node
  have hsnd_nodup : (((daggy.children g node).reverse).map Prod.snd).Nodup := by
    have hmap : ((daggy.children g node).reverse).map Prod.snd =
        (((daggy.children g node).reverse).map Prod.fst).map (· + 1) := by
      rw [List.map_map]
      refine List.map_congr_left ?_
      rintro ⟨e, c⟩ hmem
      exact (ht.parent_of_edge (daggy.mem_children.mp (List.mem_reverse.mp hmem))).2
    rw [hmap]
    exact hfst_nodup.map (add_left_injective 1)
  refine ⟨?_, ?_, ?_, ?_, ?_, ?_⟩
  · -- a child was not found before, since its only parent was not visited
    rw [List.append_assoc, List.singleton_append, ← List.cons_append, ← List.append_assoc]
    refine List.nodup_append.mpr ⟨h.nodup, hsnd_nodup, ?_⟩
    rintro c hc _ hchild rfl
    have hp := (hsnd c).mp hchild
    rcases (h.found c).mp hc with rfl | ⟨p, hdone, hp'⟩
    · cases hp
    · rw [hp, Option.some.injEq] at hp'
      exact hnode (hp' ▸ hdone)
  · intro c
    rw [List.append_assoc, List.singleton_append, ← List.cons_append, ← List.append_assoc,
      List.mem_append, h.found, hsnd]
    simp only [List.mem_append, List.mem_singleton]
    grind
  · refine List.nodup_append.mpr ⟨h.edges_nodup, hfst_nodup, ?_⟩
    rintro e he _ hchild rfl
    obtain ⟨p, hdone, hp⟩ := (h.edges e).mp he
    rw [(hfst e).mp hchild, Option.some.injEq] at hp
    exact hnode (hp ▸ hdone)
  · intro e
    rw [List.mem_append, h.edges, hfst]
    simp only [List.mem_append, List.mem_singleton]
    grind
  · intro e
    rw [getElem?_foldl_insert, h.spawnOps]
    simp only [List.mem_append]
    grind
  · intro n
    rw [ExtTreeMap.getElem?_insert, h.pipesOps]
    simp only [List.mem_append, List.mem_singleton, Nat.compare_eq_eq]
    grind

/-- With an empty queue all nodes have been visited. -/
theorem complete (h : Traversal g done [] tables spawnEdges) (ht : g.IsTree) (hn : n < g.nodes) :
    n ∈ done := by
  induction n using Nat.strong_induction_on with
  | _ n ih =>
    have hfound := h.found n
    rw [List.append_nil] at hfound
    cases n with
    | zero => exact hfound.mpr (.inl rfl)
    | succ e =>
      obtain ⟨p, hp⟩ := ht.exists_parent hn
      have hlt := ht.parent_lt _ _ hp
      exact hfound.mpr (.inr ⟨p, ih p hlt (by omega), hp⟩)

end Traversal

/-- The traversal ends with an empty entry for every spawn and every VM. -/
structure Traversed (g : Dag) (tables : Tables) (spawnEdges : List ℕ) : Prop where
  edges : spawnEdges.Perm (List.range g.edges.length)
  spawnOps : ∀ e < g.edges.length, tables.spawnOps[e]? = some []
  pipesOps : ∀ n, tables.pipesOps[n]? = if n < g.nodes then some [] else none

theorem Traversal.traversed {done spawnEdges : List ℕ} {tables : Tables}
    (h : Traversal g done [] tables spawnEdges) (ht : g.IsTree) :
    Traversed g tables spawnEdges := by
  have hedges : ∀ e, e ∈ spawnEdges ↔ e < g.edges.length := by
    intro e
    rw [h.edges]
    have hnodes := ht.nodes
    constructor
    · rintro ⟨p, -, hp⟩
      have := ht.parent_lt_nodes hp
      omega
    · intro he
      obtain ⟨p, hp⟩ := ht.exists_parent (e := e) (by omega)
      have hlt := ht.parent_lt _ _ hp
      exact ⟨p, h.complete ht (by omega), hp⟩
  refine ⟨?_, ?_, ?_⟩
  · rw [List.perm_ext_iff_of_nodup h.edges_nodup List.nodup_range]
    simpa using hedges
  · intro e he
    rw [h.spawnOps, if_pos ((hedges e).mpr he)]
  · intro n
    rw [h.pipesOps]
    by_cases hn : n < g.nodes
    · rw [if_pos hn, if_pos (h.complete ht hn)]
    · rw [if_neg hn, if_neg]
      intro hmem
      exact hn (h.lt_nodes ht (List.mem_append_left _ hmem))

variable (daggy) in
theorem traverse_run (ht : g.IsTree) (fuel : ℕ) {done queue spawnEdges : List ℕ} {tables : Tables}
    (h : Traversal g done queue tables spawnEdges) (hfuel : g.nodes ≤ fuel + done.length) :
    ∃ tables' spawnEdges', traverse daggy g fuel queue tables spawnEdges =
      some (tables', spawnEdges') ∧
      Traversed g tables' spawnEdges' := by
  induction fuel generalizing done queue tables spawnEdges with
  | zero =>
    cases queue with
    | nil => exact ⟨tables, spawnEdges, rfl, h.traversed ht⟩
    | cons node processing =>
      have := h.length_le ht
      rw [List.length_cons] at this
      omega
  | succ fuel ih =>
    cases queue with
    | nil => exact ⟨tables, spawnEdges, rfl, h.traversed ht⟩
    | cons node processing =>
      refine ih (h.visit ht) ?_
      rw [List.length_append, List.length_singleton]
      omega

/-- One side of the search after `k` rounds that started at `start`: it has visited the
first `k` generations, and its way goes on as theirs does. -/
structure Side (g : Dag) (start k node : ℕ) (visited : List ℕ) : Prop where
  node : g.parent? node = up g.parent? (k + 1) start
  visited : ∀ x, x ∈ visited ↔ ∃ i ≤ k, up g.parent? i start = some x

theorem Side.start (g : Dag) (n : ℕ) : Side g n 0 n [n] where
  node := rfl
  visited := by
    intro x
    rw [List.mem_singleton]
    constructor
    · rintro rfl
      exact ⟨0, le_rfl, rfl⟩
    · rintro ⟨i, hi, hx⟩
      obtain rfl : i = 0 := by omega
      cases hx
      rfl

section Search

variable {start node a b i j : ℕ} {visited setA setB : List ℕ}

theorem Side.moved (h : Side g start k node visited) {parent : ℕ}
    (hp : g.parent? node = some parent) :
    Side g start (k + 1) parent (parent :: visited) := by
  have hup : up g.parent? (k + 1) start = some parent := by rw [← h.node, hp]
  refine ⟨by rw [up_succ, hup, Option.bind_some], ?_⟩
  intro x
  rw [List.mem_cons, h.visited]
  constructor
  · rintro (rfl | ⟨i, hi, hx⟩)
    · exact ⟨k + 1, le_rfl, hup⟩
    · exact ⟨i, by omega, hx⟩
  · rintro ⟨i, hi, hx⟩
    rcases Nat.lt_or_eq_of_le hi with hlt | rfl
    · exact .inr ⟨i, by omega, hx⟩
    · rw [hup, Option.some.injEq] at hx
      exact .inl hx.symm

theorem Side.stays (h : Side g start k node visited) (hp : g.parent? node = none) :
    Side g start (k + 1) node visited := by
  have hup : up g.parent? (k + 1) start = none := by rw [← h.node, hp]
  refine ⟨by rw [up_succ, hup, Option.bind_none, hp], ?_⟩
  intro x
  rw [h.visited]
  constructor
  · rintro ⟨i, hi, hx⟩
    exact ⟨i, by omega, hx⟩
  · rintro ⟨i, hi, hx⟩
    rcases Nat.lt_or_eq_of_le hi with hlt | rfl
    · exact ⟨i, by omega, hx⟩
    · rw [hup] at hx
      cases hx

/-- One round of one side, with what the test after it asks. -/
theorem Side.moveUp (ht : g.IsTree) (h : Side g start k node visited) :
    Side g start (k + 1) (moveUp (daggy.parents g node) node visited).1
        (moveUp (daggy.parents g node) node visited).2 ∧
      ((daggy.parents g node).length = 1 ↔ (up g.parent? (k + 1) start).isSome) ∧
      (daggy.parents g node = [] ↔ ¬ (up g.parent? (k + 1) start).isSome) ∧
      ((daggy.parents g node).length = 1 →
        up g.parent? (k + 1) start = some (DataGraph.moveUp (daggy.parents g node)
          node visited).1) := by
  rw [ht.parents, ← h.node]
  cases hp : g.parent? node with
  | none => exact ⟨h.stays hp, by simp, by simp, by simp⟩
  | some parent => exact ⟨h.moved hp, by simp, by simp, by simp [DataGraph.moveUp]⟩

/-- The first node of one side that the other has visited is the lowest common
ancestor. -/
theorem Side.hit (ht : g.IsTree) {l x : ℕ} (hl : LowestCommon g.parent? l a b)
    (hi : up g.parent? i a = some l) (hj : up g.parent? j b = some l) (hk : k < max i j)
    (hside : Side g b (k + 1) node visited) (hx : up g.parent? (k + 1) a = some x)
    (hmem : x ∈ visited) : x = l := by
  obtain ⟨m, hm, hxb⟩ := (hside.visited x).mp hmem
  obtain ⟨r, hir, hjr, hr⟩ := (generations_ranked ht.parent_lt).common hl hi hj hx hxb
  obtain rfl : r = 0 := by omega
  rw [up_zero, Option.some.injEq] at hr
  exact hr.symm

theorem LowestCommon.symm {α : Type*} {parent : α → Option α} {l a b : α}
    (h : LowestCommon parent l a b) : LowestCommon parent l b a :=
  ⟨h.right, h.left, fun c hb ha => h.lowest c ha hb⟩

/-- The search comes to the lowest common ancestor in the round in which the side
farther from it does. -/
theorem ancestorLoop_run (ht : g.IsTree) {l start₁ start₂ : ℕ}
    (hl : LowestCommon g.parent? l start₁ start₂) (hi : up g.parent? i start₁ = some l)
    (hj : up g.parent? j start₂ = some l) (fuel : ℕ) (hk : k < max i j)
    (hfuel : max i j ≤ fuel + k) (ha : Side g start₁ k a setA) (hb : Side g start₂ k b setB) :
    ancestorLoop daggy g fuel a b setA setB = some l := by
  induction fuel generalizing k a b setA setB with
  | zero => omega
  | succ fuel ih =>
    obtain ⟨ha', hlenA, hnilA, hupA⟩ := ha.moveUp ht
    obtain ⟨hb', hlenB, hnilB, hupB⟩ := hb.moveUp ht
    rw [ancestorLoop]
    have hassert : ((daggy.parents g a).length = 1 ∧ (daggy.parents g b).length = 1) ∨
        (daggy.parents g a = [] ∧ (daggy.parents g b).length = 1) ∨
        ((daggy.parents g a).length = 1 ∧ daggy.parents g b = []) := by
      have hsome : (up g.parent? (k + 1) start₁).isSome ∨
          (up g.parent? (k + 1) start₂).isSome := by
        rcases (by omega : k + 1 ≤ i ∨ k + 1 ≤ j) with hle | hle
        · obtain ⟨c, hc⟩ := up_isSome hi hle
          exact .inl (by rw [hc]; rfl)
        · obtain ⟨c, hc⟩ := up_isSome hj hle
          exact .inr (by rw [hc]; rfl)
      rw [hlenA, hlenB, hnilA, hnilB]
      tauto
    simp only [if_pos hassert]
    split
    · rename_i hhit
      rw [Side.hit ht hl hi hj hk hb' (hupA hhit.1) hhit.2]
    · rename_i hmissA
      split
      · rename_i hhit
        rw [Side.hit ht (LowestCommon.symm hl) hj hi (by omega) ha' (hupB hhit.1) hhit.2]
      · rename_i hmissB
        refine ih ?_ (by omega) ha' hb'
        by_contra hlast
        rcases (by omega : i = k + 1 ∨ j = k + 1) with rfl | rfl
        · have hone : (daggy.parents g a).length = 1 := hlenA.mpr (by rw [hi]; rfl)
          refine hmissA ⟨hone, (hb'.visited _).mpr ⟨j, by omega, ?_⟩⟩
          rw [hj, ← hupA hone, hi]
        · have hone : (daggy.parents g b).length = 1 := hlenB.mpr (by rw [hj]; rfl)
          refine hmissB ⟨hone, (ha'.visited _).mpr ⟨i, by omega, ?_⟩⟩
          rw [hi, ← hupB hone, hj]

variable (daggy) in
/-- Two nodes of the tree have their lowest common ancestor found. -/
theorem ancestorLoop_finds (ht : g.IsTree) (ha : a < g.nodes) (hb : b < g.nodes) (hne : a ≠ b) :
    ∃ l, ancestorLoop daggy g g.nodes a b [a] [b] = some l ∧ LowestCommon g.parent? l a b := by
  obtain ⟨l, hl⟩ := exists_lowestCommon (ht.root_ancestor a ha) (ht.root_ancestor b hb)
  obtain ⟨i, hi⟩ := hl.left
  obtain ⟨j, hj⟩ := hl.right
  refine ⟨l, ancestorLoop_run ht hl hi hj g.nodes ?_ ?_ (Side.start g a) (Side.start g b), hl⟩
  · by_contra hzero
    obtain ⟨rfl, rfl⟩ : i = 0 ∧ j = 0 := by omega
    rw [up_zero, Option.some.injEq] at hi hj
    exact hne (hi.trans hj.symm)
  · have := up_add_le ht.parent_lt hi
    have := up_add_le ht.parent_lt hj
    omega

end Search

section Down

variable {l p pipe i e : ℕ} {ops : SpawnOps}

/-- The way down to a node goes through it and on from its parent. -/
theorem onPath_iff (hp : g.parent? n = some p) (hl : up g.parent? (i + 1) n = some l)
    (c : ℕ) : OnPath g.parent? l n c ↔ c = n ∨ OnPath g.parent? l p c := by
  have hshift : ∀ k, up g.parent? (k + 1) n = up g.parent? k p := by
    intro k
    rw [Nat.add_comm, up_add, up_succ, up_zero, Option.bind_some, hp, Option.bind_some]
  constructor
  · rintro ⟨k, m, hlt, hc, hm⟩
    cases k with
    | zero =>
      cases hc
      exact .inl rfl
    | succ k =>
      obtain ⟨m, rfl⟩ : ∃ m', m = m' + 1 := ⟨m - 1, by omega⟩
      rw [hshift] at hc hm
      exact .inr ⟨k, m, by omega, hc, hm⟩
  · rintro (rfl | ⟨k, m, hlt, hc, hm⟩)
    · exact ⟨0, i + 1, by omega, rfl, hl⟩
    · exact ⟨k + 1, m + 1, by omega, (hshift k).trans hc, (hshift m).trans hm⟩

theorem not_onPath_self (ht : g.IsTree) (n c : ℕ) : ¬ OnPath g.parent? n n c := by
  rintro ⟨k, m, hlt, -, hm⟩
  have := up_add_le ht.parent_lt hm
  omega

theorem OnPath.le (ht : g.IsTree) {c : ℕ} (h : OnPath g.parent? l n c) : c ≤ n := by
  obtain ⟨k, -, -, hc, -⟩ := h
  have := up_add_le ht.parent_lt hc
  omega

variable (daggy) in
open scoped Classical in
/-- Exactly the spawns on the way pass the pipe, each once. -/
theorem passDown_run (ht : g.IsTree) (pipe fuel : ℕ) (hl : up g.parent? i n = some l)
    (hfuel : i ≤ fuel) (hops : ∀ e < g.edges.length, ∃ pipes, ops[e]? = some pipes) :
    ∃ ops', passDown daggy g l pipe fuel n ops = some ops' ∧
      ∀ e, ops'[e]? = (ops[e]?).map fun pipes =>
        if OnPath g.parent? l n (e + 1) then pipes ++ [pipe] else pipes := by
  induction i generalizing fuel n ops with
  | zero =>
    cases hl
    refine ⟨ops, ?_, ?_⟩
    · rw [passDown.eq_def]
      exact if_pos rfl
    intro e
    simp [not_onPath_self ht]
  | succ i ih =>
    obtain ⟨fuel, rfl⟩ : ∃ f, fuel = f + 1 := ⟨fuel - 1, by omega⟩
    have hne : n ≠ l := by
      rintro rfl
      have := up_add_le ht.parent_lt hl
      omega
    obtain ⟨p, hp⟩ : ∃ p, g.parent? n = some p := by
      obtain ⟨p, hp⟩ := up_isSome hl (show 1 ≤ i + 1 by omega)
      exact ⟨p, hp⟩
    obtain ⟨e₀, rfl⟩ : ∃ e₀, n = e₀ + 1 := by
      cases n with
      | zero => cases hp
      | succ e₀ => exact ⟨e₀, rfl⟩
    have hup : up g.parent? i p = some l := by
      rw [Nat.add_comm, up_add, up_succ, up_zero, Option.bind_some, hp, Option.bind_some] at hl
      exact hl
    have he₀ : e₀ < g.edges.length := (List.getElem?_eq_some_iff.mp (ht.edges_of_parent hp)).1
    obtain ⟨pipes, hpipes⟩ := hops e₀ he₀
    have hinsert : ∀ e, (ops.insert e₀ (pipes ++ [pipe]))[e]? =
        if e₀ = e then some (pipes ++ [pipe]) else ops[e]? := by
      intro e
      simp only [ExtTreeMap.getElem?_insert, Nat.compare_eq_eq]
    have hsome : ∀ e < g.edges.length, ∃ pipes', (ops.insert e₀ (pipes ++ [pipe]))[e]? =
        some pipes' := by
      intro e he
      rw [hinsert]
      split
      · exact ⟨_, rfl⟩
      · exact hops e he
    obtain ⟨ops', hrun, hops'⟩ := ih fuel hup (by omega) hsome
    refine ⟨ops', ?_, ?_⟩
    · rw [passDown, if_neg hne, ht.parents, hp]
      simp only [Option.map_some, Option.toList_some, Nat.add_sub_cancel]
      rw [hpipes]
      exact hrun
    · intro e
      have hlow := ht.parent_lt _ _ hp
      rw [hops', hinsert, onPath_iff hp hl (e + 1)]
      by_cases heq : e₀ = e
      · subst heq
        have hoff : ¬ OnPath g.parent? l p (e₀ + 1) := by
          intro hon
          have := OnPath.le ht hon
          omega
        simp [hpipes, hoff]
      · simp [heq, Ne.symm heq]

end Down

/-- A write and the VM that creates its pipes. -/
structure Route where
  writer : ℕ
  reader : ℕ
  ancestor : ℕ

open scoped Classical in
/-- The pipes of the write at position `k` that the spawn by an edge passes. -/
noncomputable def passedFor (g : Dag) (e k : ℕ) (r : Route) : List ℕ :=
  (if OnPath g.parent? r.ancestor r.writer (e + 1) then [writerPipeIndex k] else []) ++
    (if OnPath g.parent? r.ancestor r.reader (e + 1) then [readerPipeIndex k] else [])

/-- The pipes that the spawn by an edge passes. -/
noncomputable def passed (g : Dag) (routes : List Route) (e : ℕ) : List ℕ :=
  routes.zipIdx.flatMap fun (r, k) => passedFor g e k r

/-- The pairs that a VM creates. -/
def created (routes : List Route) (n : ℕ) : List (ℕ × ℕ) :=
  routes.zipIdx.filterMap fun (r, k) =>
    if r.ancestor = n then some (readerPipeIndex k, writerPipeIndex k) else none

/-- The tables hold what the routes so far ask for, and these go by the lowest common
ancestors. -/
structure Routed (daggy : Daggy) (g : Dag) (tables : Tables) (routes : List Route) : Prop where
  spawnOps : ∀ e < g.edges.length, tables.spawnOps[e]? = some (passed g routes e)
  pipesOps : ∀ n < g.nodes, tables.pipesOps[n]? = some (created routes n)
  outside : ∀ n, g.nodes ≤ n → tables.pipesOps[n]? = none
  ancestors : ∀ r ∈ routes,
    ancestorLoop daggy g g.nodes r.writer r.reader [r.writer] [r.reader] = some r.ancestor ∧
      LowestCommon g.parent? r.ancestor r.writer r.reader

theorem Traversed.routed {tables : Tables} {spawnEdges : List ℕ}
    (h : Traversed g tables spawnEdges) : Routed daggy g tables [] where
  spawnOps := h.spawnOps
  pipesOps := by
    intro n hn
    rw [h.pipesOps, if_pos hn]
    rfl
  outside := by
    intro n hn
    rw [h.pipesOps, if_neg (by omega)]
  ancestors := by simp

theorem Dag.IsTree.ancestor_lt (ht : g.IsTree) {a : ℕ} (ha : Ancestor g.parent? a n)
    (hn : n < g.nodes) : a < g.nodes := by
  obtain ⟨k, hk⟩ := ha
  have := up_add_le ht.parent_lt hk
  omega

/-- Entering one more write. -/
theorem routeWrite_run (ht : g.IsTree) {tables : Tables} {routes : List Route}
    (h : Routed daggy g tables routes) {a b : ℕ} (ha : a < g.nodes) (hb : b < g.nodes)
    (hne : a ≠ b) :
    ∃ tables' l, routeWrite daggy g routes.length a b tables = some tables' ∧
      Routed daggy g tables' (routes ++ [{ writer := a, reader := b, ancestor := l }]) := by
  obtain ⟨l, hloop, hl⟩ := ancestorLoop_finds daggy ht ha hb hne
  obtain ⟨i, hi⟩ := hl.left
  obtain ⟨j, hj⟩ := hl.right
  have hle_i := up_add_le ht.parent_lt hi
  have hle_j := up_add_le ht.parent_lt hj
  obtain ⟨ops₁, hrun₁, hops₁⟩ := passDown_run daggy ht (writerPipeIndex routes.length) g.nodes hi
    (by omega) (fun e he => ⟨_, h.spawnOps e he⟩)
  have hsome : ∀ e < g.edges.length, ∃ pipes, ops₁[e]? = some pipes := fun e he =>
    ⟨_, by rw [hops₁, h.spawnOps e he, Option.map_some]⟩
  obtain ⟨ops₂, hrun₂, hops₂⟩ := passDown_run daggy ht (readerPipeIndex routes.length) g.nodes hj
    (by omega) hsome
  have hpairs := h.pipesOps l (ht.ancestor_lt hl.left ha)
  refine ⟨_, l, by simp only [routeWrite, hloop, hrun₁, hrun₂, hpairs, Option.bind_eq_bind,
    Option.bind_some]; rfl, ?_, ?_, ?_, ?_⟩
  · intro e he
    rw [hops₂, hops₁, h.spawnOps e he]
    simp only [passed, passedFor, Option.map_some, List.zipIdx_append, List.flatMap_append,
      List.zipIdx_singleton, List.flatMap_singleton, Nat.zero_add]
    split <;> split <;> simp
  · intro n hn
    simp only [ExtTreeMap.getElem?_insert, Nat.compare_eq_eq, h.pipesOps n hn, created,
      List.zipIdx_append, List.filterMap_append, List.zipIdx_singleton, Nat.zero_add]
    split
    · rename_i heq
      subst heq
      simp
    · rename_i hother
      simp [hother]
  · intro n hn
    have := ht.ancestor_lt hl.left ha
    simp only [ExtTreeMap.getElem?_insert, Nat.compare_eq_eq]
    rw [if_neg (by omega), h.outside n hn]
  · intro r hr
    rcases List.mem_append.mp hr with hr | hr
    · exact h.ancestors r hr
    · rw [List.mem_singleton] at hr
      subst hr
      exact ⟨hloop, hl⟩

section Drawn

variable {daggy : Daggy}

theorem genRange_lt {draw n : ℕ} (hn : 0 < n) : genRange draw n < n :=
  Nat.mod_lt _ hn

theorem genOther_spec (draw first : ℕ) {n : ℕ} (hn : 1 < n) :
    genOther draw n first ≠ first ∧ genOther draw n first < n := by
  have := Nat.mod_lt draw (show 0 < n - 1 by omega)
  unfold genOther
  split <;> omega

/-- The edges drawn so far lead from a VM to another, and are listed in order. -/
structure Drawn (n : ℕ) (dag : Dag) (writeEdges : List ℕ) : Prop where
  nodes : dag.nodes = n
  listed : writeEdges = List.range dag.edges.length
  endpoints : ∀ edge ∈ dag.edges, edge.1 ≠ edge.2 ∧ edge.1 < n ∧ edge.2 < n

theorem attemptWrite_drawn {draw : ℕ → ℕ × ℕ} {dag dag' : Dag} {writeEdges : List ℕ} {n e : ℕ}
    (h : Drawn n dag writeEdges) (hn : 1 < n) (attempts k : ℕ)
    (hrun : attemptWrite daggy draw dag attempts k = some (dag', e)) :
    Drawn n dag' (writeEdges ++ [e]) := by
  induction attempts generalizing k with
  | zero => cases hrun
  | succ attempts ih =>
    simp only [attemptWrite, Daggy.addEdge, h.nodes] at hrun
    split at hrun
    · rename_i added hadded
      split at hadded
      · cases hadded
        cases hrun
        refine ⟨rfl, ?_, ?_⟩
        · rw [List.length_append, List.length_singleton, List.range_succ, h.listed]
        · intro edge hedge
          rcases List.mem_append.mp hedge with hedge | hedge
          · exact h.endpoints edge hedge
          · rw [List.mem_singleton] at hedge
            subst hedge
            obtain ⟨hne, hlt⟩ := genOther_spec (draw k).2 (genRange (draw k).1 n) hn
            exact ⟨hne.symm, genRange_lt (by omega), hlt⟩
      · cases hadded
    · exact ih _ hrun

theorem drawWriteEdges_drawn (draws : Draws) (convergingThreshold : ℕ) {n : ℕ} (hn : 1 < n)
    (writes k : ℕ) {dag : Dag} {writeEdges : List ℕ} (h : Drawn n dag writeEdges) :
    Drawn n (drawWriteEdges daggy draws convergingThreshold writes k dag writeEdges).1
      (drawWriteEdges daggy draws convergingThreshold writes k dag writeEdges).2 := by
  induction writes generalizing k dag writeEdges with
  | zero => exact h
  | succ writes ih =>
    rw [drawWriteEdges]
    split
    · rename_i hrun
      exact ih _ (attemptWrite_drawn h hn _ _ hrun)
    · exact h

theorem drawWriteDag_drawn (draws : Draws) (spawns writes convergingThreshold : ℕ) :
    Drawn (spawns + 1) (drawWriteDag daggy draws spawns writes convergingThreshold).1
      (drawWriteDag daggy draws spawns writes convergingThreshold).2 := by
  have hempty : Drawn (spawns + 1) { nodes := spawns + 1, edges := [] } [] :=
    ⟨rfl, rfl, by simp⟩
  unfold drawWriteDag
  split
  · exact drawWriteEdges_drawn draws convergingThreshold (by omega) writes 0 hempty
  · exact hempty

end Drawn

/-- The writes of a list of routes. -/
def writesOf (draws : Draws) (routes : List Route) : List Write :=
  routes.zipIdx.map fun (r, k) => {
    fromVm := r.writer
    fromPipe := writerPipeIndex k
    toVm := r.reader
    toPipe := readerPipeIndex k
    data := draws.payload k }

/-- All write edges are entered, in order. -/
theorem routeWrites_run (ht : g.IsTree) (draws : Draws) {writeDag : Dag} {writeEdges : List ℕ}
    (hdrawn : Drawn g.nodes writeDag writeEdges) (left : ℕ) {tables : Tables}
    {routes : List Route} (h : Routed daggy g tables routes)
    (hroutes : routes.map (fun r => (r.writer, r.reader)) = writeDag.edges.take routes.length)
    (hleft : routes.length + left = writeDag.edges.length) :
    ∃ tables' routes', routeWrites daggy g writeDag draws (List.range' routes.length left) tables
        (writesOf draws routes) = some (tables', writesOf draws routes') ∧
      Routed daggy g tables' routes' ∧
      routes'.map (fun r => (r.writer, r.reader)) = writeDag.edges := by
  induction left generalizing tables routes with
  | zero =>
    refine ⟨tables, routes, rfl, h, ?_⟩
    rw [hroutes, List.take_of_length_le (by omega)]
  | succ left ih =>
    have hlt : routes.length < writeDag.edges.length := by omega
    obtain ⟨⟨a, b⟩, hedge⟩ : ∃ edge, writeDag.edges[routes.length]? = some edge :=
      ⟨_, List.getElem?_eq_getElem hlt⟩
    obtain ⟨hne, ha, hb⟩ := hdrawn.endpoints (a, b) (List.mem_of_getElem? hedge)
    obtain ⟨tables₁, l, hrun, h₁⟩ := routeWrite_run ht h ha hb hne
    have hnext := ih h₁ (by
      rw [List.map_append, hroutes, List.length_append, List.length_singleton,
        List.take_add_one, hedge]
      rfl) (by rw [List.length_append, List.length_singleton]; omega)
    obtain ⟨tables', routes', hrest, h', hroutes'⟩ := hnext
    refine ⟨tables', routes', ?_, h', hroutes'⟩
    replace hne : a ≠ b := hne
    have happend : writesOf draws (routes ++ [{ writer := a, reader := b, ancestor := l }]) =
        writesOf draws routes ++ [{
          fromVm := a
          fromPipe := writerPipeIndex routes.length
          toVm := b
          toPipe := readerPipeIndex routes.length
          data := draws.payload routes.length }] := by
      simp [writesOf, List.zipIdx_append]
    rw [happend, List.length_append, List.length_singleton] at hrest
    simp only [List.range'_succ, routeWrites, Dag.edgeEndpoints, hedge, Option.bind_eq_bind,
      Option.bind_some, if_neg hne, hrun, hrest]

/-- Exactly the spawns on the way from `ancestor` down to a VM pass the pipe, each
once. -/
def PassedDown (g : Dag) (spawns : List Spawn) (ancestor n pipe : ℕ) : Prop :=
  ∀ s ∈ spawns, (OnPath g.parent? ancestor n s.child → s.pipes.count pipe = 1) ∧
    (¬ OnPath g.parent? ancestor n s.child → pipe ∉ s.pipes)

/-- How the data sets up the pipes of a write. -/
structure RoutesWrite (daggy : Daggy) (g : Dag) (data : Data) (ancestor : ℕ)
    (w : Write) : Prop where
  found : ancestorLoop daggy g g.nodes w.fromVm w.toVm [w.fromVm] [w.toVm] = some ancestor
  lowest : LowestCommon g.parent? ancestor w.fromVm w.toVm
  writer : PassedDown g data.spawns ancestor w.fromVm w.fromPipe
  reader : PassedDown g data.spawns ancestor w.toVm w.toPipe

/-- The data spawns the VMs of the tree and routes a pipe for every write. -/
structure RoutesPipes (daggy : Daggy) (g : Dag) (writeEdges : List (ℕ × ℕ))
    (data : Data) : Prop where
  spawns : (data.spawns.map fun s => (s.fromVm, s.child)).Perm g.edges
  children : (data.spawns.map Spawn.child).Perm (List.range' 1 g.edges.length)
  writes : data.writes.map (fun w => (w.fromVm, w.toVm)) = writeEdges
  indices : (data.writes.flatMap fun w => [w.fromPipe, w.toPipe]).Nodup
  routes : ∃ ancestors : List ℕ, List.Forall₂ (RoutesWrite daggy g data) ancestors data.writes ∧
    data.pipes.Perm (List.zipWith (fun ancestor w =>
      { vm := ancestor, readPipe := w.toPipe, writePipe := w.fromPipe }) ancestors data.writes)

theorem mem_passedFor {e k q : ℕ} {r : Route} :
    q ∈ passedFor g e k r ↔
      q = writerPipeIndex k ∧ OnPath g.parent? r.ancestor r.writer (e + 1) ∨
        q = readerPipeIndex k ∧ OnPath g.parent? r.ancestor r.reader (e + 1) := by
  unfold passedFor
  split <;> split <;> simp_all

theorem writerPipeIndex_ne (j k : ℕ) : writerPipeIndex j ≠ readerPipeIndex k := by
  unfold writerPipeIndex readerPipeIndex
  omega

theorem passedFor_nodup (g : Dag) (e k : ℕ) (r : Route) : (passedFor g e k r).Nodup := by
  unfold passedFor
  split <;> split <;> simp [writerPipeIndex_ne]

theorem mem_passed {routes : List Route} {e q : ℕ} :
    q ∈ passed g routes e ↔ ∃ k r, routes[k]? = some r ∧ q ∈ passedFor g e k r := by
  simp only [passed, List.mem_flatMap, Prod.exists, List.mk_mem_zipIdx_iff_getElem?]
  exact exists_comm

theorem passed_nodup (g : Dag) (routes : List Route) (e : ℕ) : (passed g routes e).Nodup := by
  induction routes using List.reverseRecOn with
  | nil => exact List.nodup_nil
  | append_singleton routes r ih =>
    have hsplit : passed g (routes ++ [r]) e =
        passed g routes e ++ passedFor g e routes.length r := by
      simp only [passed, List.zipIdx_append, List.flatMap_append, List.zipIdx_singleton,
        List.flatMap_singleton, Nat.zero_add]
    rw [hsplit]
    refine List.nodup_append.mpr ⟨ih, passedFor_nodup g e _ r, ?_⟩
    rintro q hq _ hlast rfl
    obtain ⟨k, r', hk, hq⟩ := mem_passed.mp hq
    have hlt := (List.getElem?_eq_some_iff.mp hk).1
    rw [mem_passedFor] at hq hlast
    unfold writerPipeIndex readerPipeIndex at *
    omega

/-- The spawns of the data, by their edges. -/
noncomputable def spawnOf (g : Dag) (routes : List Route) (e : ℕ) : Spawn where
  fromVm := ((g.edges[e]?).map Prod.fst).getD 0
  child := e + 1
  pipes := passed g routes e

theorem passedDown_iff {spawns : List Spawn} {routes : List Route} {ancestor n pipe : ℕ}
    (hspawns : ∀ s ∈ spawns, ∃ e, s = spawnOf g routes e)
    (hmem : ∀ e, pipe ∈ passed g routes e ↔ OnPath g.parent? ancestor n (e + 1)) :
    PassedDown g spawns ancestor n pipe := by
  intro s hs
  obtain ⟨e, rfl⟩ := hspawns s hs
  constructor
  · intro hon
    exact List.count_eq_one_of_mem (passed_nodup g routes e) ((hmem e).mpr hon)
  · intro hoff hpipe
    exact hoff ((hmem e).mp hpipe)

theorem mem_passed_writer {routes : List Route} {k e : ℕ} {r : Route} (hk : routes[k]? = some r) :
    writerPipeIndex k ∈ passed g routes e ↔ OnPath g.parent? r.ancestor r.writer (e + 1) := by
  rw [mem_passed]
  constructor
  · rintro ⟨k', r', hk', hq⟩
    rcases mem_passedFor.mp hq with ⟨heq, hon⟩ | ⟨heq, -⟩
    · obtain rfl : k = k' := by
        unfold writerPipeIndex at heq
        omega
      rw [hk, Option.some.injEq] at hk'
      rw [hk']
      exact hon
    · exact absurd heq (writerPipeIndex_ne _ _)
  · intro hon
    exact ⟨k, r, hk, mem_passedFor.mpr (.inl ⟨rfl, hon⟩)⟩

theorem mem_passed_reader {routes : List Route} {k e : ℕ} {r : Route} (hk : routes[k]? = some r) :
    readerPipeIndex k ∈ passed g routes e ↔ OnPath g.parent? r.ancestor r.reader (e + 1) := by
  rw [mem_passed]
  constructor
  · rintro ⟨k', r', hk', hq⟩
    rcases mem_passedFor.mp hq with ⟨heq, -⟩ | ⟨heq, hon⟩
    · exact absurd heq.symm (writerPipeIndex_ne _ _)
    · obtain rfl : k = k' := by
        unfold readerPipeIndex at heq
        omega
      rw [hk, Option.some.injEq] at hk'
      rw [hk']
      exact hon
  · intro hon
    exact ⟨k, r, hk, mem_passedFor.mpr (.inr ⟨rfl, hon⟩)⟩

theorem mapM_eq_some {α β : Type} {f : α → Option β} {f' : α → β} :
    ∀ {l : List α}, (∀ a ∈ l, f a = some (f' a)) → l.mapM f = some (l.map f')
  | [], _ => rfl
  | a :: l, h => by
    have htail := mapM_eq_some (l := l) fun b hb => h b (List.mem_cons_of_mem _ hb)
    rw [List.mapM_cons, h a List.mem_cons_self, htail]
    rfl

theorem buildSpawn_run (ht : g.IsTree) {tables : Tables} {routes : List Route}
    (h : Routed daggy g tables routes) {e : ℕ} (he : e < g.edges.length) :
    buildSpawn g tables.spawnOps e = some (spawnOf g routes e) := by
  obtain ⟨⟨a, b⟩, hedge⟩ : ∃ p, g.edges[e]? = some p := ⟨_, List.getElem?_eq_getElem he⟩
  obtain rfl := (ht.edge e a b hedge).1
  simp [buildSpawn, Dag.edgeEndpoints, spawnOf, hedge, h.spawnOps e he]

/-- The pipes of a list of routes. -/
def pipesOf (routes : List Route) : List Pipe :=
  routes.zipIdx.map fun (r, k) =>
    { vm := r.ancestor, readPipe := readerPipeIndex k, writePipe := writerPipeIndex k }

theorem mem_created {routes : List Route} {pair : ℕ × ℕ} :
    pair ∈ created routes n ↔ ∃ k r, routes[k]? = some r ∧ r.ancestor = n ∧
      pair = (readerPipeIndex k, writerPipeIndex k) := by
  simp only [created, List.mem_filterMap, Prod.exists, List.mk_mem_zipIdx_iff_getElem?]
  constructor
  · rintro ⟨r, k, hk, hmem⟩
    split at hmem
    · rename_i heq
      exact ⟨k, r, hk, heq, (Option.some.inj hmem).symm⟩
    · cases hmem
  · rintro ⟨k, r, hk, heq, rfl⟩
    exact ⟨r, k, hk, if_pos heq⟩

theorem readerPipeIndex_injective : Function.Injective readerPipeIndex := by
  intro j k h
  unfold readerPipeIndex at h
  omega

theorem created_nodup (routes : List Route) (n : ℕ) : (created routes n).Nodup := by
  induction routes using List.reverseRecOn with
  | nil => exact List.nodup_nil
  | append_singleton routes r ih =>
    simp only [created, List.zipIdx_append, List.filterMap_append] at ih ⊢
    refine List.nodup_append.mpr ⟨ih, ?_, ?_⟩
    · rw [List.zipIdx_singleton, List.filterMap_cons]
      split <;> simp
    · intro pair hpair last hlast heq
      subst heq
      obtain ⟨k, r', hk, -, rfl⟩ := mem_created.mp hpair
      have hlt := (List.getElem?_eq_some_iff.mp hk).1
      simp only [List.zipIdx_singleton, Nat.zero_add, List.mem_filterMap,
        List.mem_singleton] at hlast
      obtain ⟨_, rfl, hlast⟩ := hlast
      split at hlast
      · have := readerPipeIndex_injective (congrArg Prod.fst (Option.some.inj hlast))
        omega
      · cases hlast

theorem mem_buildPipes {ops : PipesOps} {p : Pipe} :
    p ∈ buildPipes ops ↔ ∃ pairs, ops[p.vm]? = some pairs ∧ (p.readPipe, p.writePipe) ∈ pairs := by
  simp only [buildPipes, List.mem_flatMap, List.mem_map, Prod.exists,
    ExtTreeMap.mem_toList_iff_getElem?_eq_some]
  constructor
  · rintro ⟨n, pairs, hpairs, i, j, hmem, rfl⟩
    exact ⟨pairs, hpairs, hmem⟩
  · rintro ⟨pairs, hpairs, hmem⟩
    exact ⟨p.vm, pairs, hpairs, p.readPipe, p.writePipe, hmem, rfl⟩

theorem buildPipes_nodup {ops : PipesOps}
    (h : ∀ (n : ℕ) (pairs : List (ℕ × ℕ)), ops[n]? = some pairs → pairs.Nodup) :
    (buildPipes ops).Nodup := by
  unfold buildPipes
  refine List.nodup_flatMap.mpr ⟨?_, ?_⟩
  · rintro ⟨n, pairs⟩ hmem
    refine (h n pairs (ExtTreeMap.mem_toList_iff_getElem?_eq_some.mp hmem)).map ?_
    rintro ⟨i, j⟩ ⟨i', j'⟩ heq
    cases heq
    rfl
  · refine ops.distinct_keys_toList.imp ?_
    rintro ⟨n, pairs⟩ ⟨n', pairs'⟩ hne p hp hp'
    obtain ⟨⟨i, j⟩, -, rfl⟩ := List.mem_map.mp hp
    obtain ⟨⟨i', j'⟩, -, heq⟩ := List.mem_map.mp hp'
    cases heq
    exact hne (Nat.compare_eq_eq.mpr rfl)

/-- The pipes of the data are those of the routes. -/
theorem buildPipes_perm {tables : Tables} {routes : List Route} (h : Routed daggy g tables routes)
    (hlt : ∀ r ∈ routes, r.ancestor < g.nodes) :
    (buildPipes tables.pipesOps).Perm (pipesOf routes) := by
  have hops : ∀ n pairs, tables.pipesOps[n]? = some pairs →
      n < g.nodes ∧ pairs = created routes n := by
    intro n pairs hpairs
    by_cases hn : n < g.nodes
    · rw [h.pipesOps n hn, Option.some.injEq] at hpairs
      exact ⟨hn, hpairs.symm⟩
    · rw [h.outside n (by omega)] at hpairs
      cases hpairs
  refine (List.perm_ext_iff_of_nodup (buildPipes_nodup ?_) ?_).mpr ?_
  · intro n pairs hpairs
    rw [(hops n pairs hpairs).2]
    exact created_nodup routes n
  · refine List.Nodup.of_map Pipe.readPipe ?_
    have hmap : (pipesOf routes).map Pipe.readPipe =
        (routes.zipIdx.map Prod.snd).map readerPipeIndex := by
      rw [pipesOf, List.map_map, List.map_map]
      rfl
    rw [hmap]
    exact (List.nodup_zipIdx_map_snd routes).map readerPipeIndex_injective
  · intro p
    rw [mem_buildPipes]
    simp only [pipesOf, List.mem_map, Prod.exists, List.mk_mem_zipIdx_iff_getElem?]
    constructor
    · rintro ⟨pairs, hpairs, hmem⟩
      rw [(hops _ _ hpairs).2] at hmem
      obtain ⟨k, r, hk, heq, hpair⟩ := mem_created.mp hmem
      rw [Prod.mk.injEq] at hpair
      refine ⟨r, k, hk, ?_⟩
      rw [heq, ← hpair.1, ← hpair.2]
    · rintro ⟨r, k, hk, rfl⟩
      exact ⟨_, h.pipesOps _ (hlt r (List.mem_of_getElem? hk)),
        mem_created.mpr ⟨k, r, hk, rfl, rfl⟩⟩

theorem writesOf_indices_nodup (draws : Draws) (routes : List Route) :
    ((writesOf draws routes).flatMap fun w => [w.fromPipe, w.toPipe]).Nodup := by
  have hlist : (writesOf draws routes).flatMap (fun w => [w.fromPipe, w.toPipe]) =
      (List.range routes.length).flatMap fun k => [writerPipeIndex k, readerPipeIndex k] := by
    rw [List.range_eq_range', ← List.zipIdx_map_snd 0 routes, writesOf, List.flatMap_map,
      List.flatMap_map]
  rw [hlist]
  refine List.nodup_flatMap.mpr ⟨fun k _ => by simp [writerPipeIndex_ne], ?_⟩
  refine List.nodup_range.imp ?_
  intro j k hne q hj hk
  unfold writerPipeIndex readerPipeIndex at hj hk
  simp only [List.mem_cons, List.not_mem_nil, or_false] at hj hk
  omega

theorem spawnOf_edge (ht : g.IsTree) (routes : List Route) {e : ℕ} (he : e < g.edges.length) :
    g.edges[e]? = some ((spawnOf g routes e).fromVm, (spawnOf g routes e).child) := by
  obtain ⟨⟨a, b⟩, hedge⟩ : ∃ p, g.edges[e]? = some p := ⟨_, List.getElem?_eq_getElem he⟩
  obtain rfl := (ht.edge e a b hedge).1
  simp [spawnOf, hedge]

theorem spawnOf_perm (ht : g.IsTree) (routes : List Route) {spawnEdges : List ℕ}
    (hperm : spawnEdges.Perm (List.range g.edges.length)) :
    ((spawnEdges.map (spawnOf g routes)).map fun s => (s.fromVm, s.child)).Perm g.edges := by
  rw [List.map_map]
  refine (hperm.map _).trans (List.Perm.of_eq ?_)
  refine List.ext_getElem? fun e => ?_
  rw [List.getElem?_map]
  by_cases he : e < g.edges.length
  · rw [List.getElem?_range he, spawnOf_edge ht routes he]
    rfl
  · rw [List.getElem?_eq_none (by simpa using he), List.getElem?_eq_none (by omega)]
    rfl

theorem routesWrite (draws : Draws) {tables : Tables} {routes : List Route}
    (h : Routed daggy g tables routes) (spawnEdges : List ℕ) (pipes : List Pipe) :
    List.Forall₂ (RoutesWrite daggy g {
        spawns := spawnEdges.map (spawnOf g routes)
        pipes
        writes := writesOf draws routes }) (routes.map Route.ancestor) (writesOf draws routes) := by
  have hspawns : ∀ s ∈ spawnEdges.map (spawnOf g routes), ∃ e, s = spawnOf g routes e := by
    intro s hs
    obtain ⟨e, -, rfl⟩ := List.mem_map.mp hs
    exact ⟨e, rfl⟩
  refine List.forall₂_iff_get.mpr ⟨by simp [writesOf], ?_⟩
  intro k hk hk'
  have hlt : k < routes.length := by simpa using hk
  have hget : routes[k]? = some routes[k] := List.getElem?_eq_getElem hlt
  obtain ⟨hfound, hlowest⟩ := h.ancestors routes[k] (List.getElem_mem hlt)
  simp only [List.get_eq_getElem, List.getElem_map, writesOf, List.getElem_zipIdx, Nat.zero_add]
  exact ⟨hfound, hlowest, passedDown_iff hspawns fun e => mem_passed_writer hget,
    passedDown_iff hspawns fun e => mem_passed_reader hget⟩

theorem zipWith_pipesOf (draws : Draws) (routes : List Route) :
    List.zipWith (fun ancestor w =>
      { vm := ancestor, readPipe := w.toPipe, writePipe := w.fromPipe : Pipe })
      (routes.map Route.ancestor) (writesOf draws routes) = pipesOf routes := by
  refine List.ext_getElem (by simp [writesOf, pipesOf]) fun k hk hk' => ?_
  simp [writesOf, pipesOf]

/-- The generator does not fail, and all that it returns goes by the routes of the
writes. -/
theorem generateDataGraph_run (daggy : Daggy) (draws : Draws)
    (spawns writes convergingThreshold : ℕ) :
    ∃ (tables : Tables) (spawnEdges : List ℕ) (routes : List Route),
      generateDataGraph daggy draws spawns writes convergingThreshold = some {
        spawns := spawnEdges.map (spawnOf (drawSpawnDag draws spawns) routes)
        pipes := buildPipes tables.pipesOps
        writes := writesOf draws routes } ∧
      spawnEdges.Perm (List.range (drawSpawnDag draws spawns).edges.length) ∧
      Routed daggy (drawSpawnDag draws spawns) tables routes ∧
      routes.map (fun r => (r.writer, r.reader)) =
        (drawWriteDag daggy draws spawns writes convergingThreshold).1.edges := by
  have ht := drawSpawnDag_isTree draws spawns
  have hdrawn : Drawn (spawns + 1) (drawWriteDag daggy draws spawns writes
      convergingThreshold).1 _ := drawWriteDag_drawn draws spawns writes convergingThreshold
  rw [← drawSpawnDag_nodes draws] at hdrawn
  obtain ⟨tables₀, spawnEdges, htraverse, htraversed⟩ :=
    traverse_run daggy ht (drawSpawnDag draws spawns).nodes (Traversal.start _) le_rfl
  obtain ⟨tables, routes, hrun, hrouted, hroutes⟩ := routeWrites_run ht draws hdrawn _
    htraversed.routed rfl (Nat.zero_add _)
  have hwrites : routeWrites daggy (drawSpawnDag draws spawns)
      (drawWriteDag daggy draws spawns writes convergingThreshold).1 draws
      (drawWriteDag daggy draws spawns writes convergingThreshold).2 tables₀ [] =
      some (tables, writesOf draws routes) := by
    rw [hdrawn.listed, List.range_eq_range']
    exact hrun
  have hspawns : spawnEdges.mapM (buildSpawn (drawSpawnDag draws spawns) tables.spawnOps) =
      some (spawnEdges.map (spawnOf (drawSpawnDag draws spawns) routes)) :=
    mapM_eq_some fun e he => buildSpawn_run ht hrouted
      (List.mem_range.mp (htraversed.edges.mem_iff.mp he))
  refine ⟨tables, spawnEdges, routes, ?_, htraversed.edges, hrouted, hroutes⟩
  simp only [generateDataGraph, htraverse, hwrites, hspawns, Option.bind_eq_bind,
    Option.bind_some, Option.pure_def]

/-- Every write leads from a VM of the tree to another. -/
theorem routes_endpoints {daggy : Daggy} {draws : Draws}
    {spawns writes convergingThreshold : ℕ} {routes : List Route}
    (hroutes : routes.map (fun r => (r.writer, r.reader)) =
      (drawWriteDag daggy draws spawns writes convergingThreshold).1.edges)
    {r : Route} (hr : r ∈ routes) :
    r.writer ≠ r.reader ∧ r.writer < spawns + 1 ∧ r.reader < spawns + 1 := by
  have hdrawn : Drawn (spawns + 1) (drawWriteDag daggy draws spawns writes
      convergingThreshold).1 _ := drawWriteDag_drawn draws spawns writes convergingThreshold
  exact hdrawn.endpoints (r.writer, r.reader) (hroutes ▸ List.mem_map_of_mem hr)

/-- Whatever is drawn, the generator returns data that spawns each VM of the tree once,
by its edge, and the pair of every write is created once, at the lowest common ancestor
of writer and reader, and passed down to them by exactly the spawns on the way. -/
theorem generateDataGraph_routes (daggy : Daggy) (draws : Draws)
    (spawns writes convergingThreshold : ℕ) :
    ∃ data, generateDataGraph daggy draws spawns writes convergingThreshold = some data ∧
      RoutesPipes daggy (drawSpawnDag draws spawns)
        (drawWriteDag daggy draws spawns writes convergingThreshold).1.edges data := by
  have ht := drawSpawnDag_isTree draws spawns
  obtain ⟨tables, spawnEdges, routes, hrun, hedges, hrouted, hroutes⟩ :=
    generateDataGraph_run daggy draws spawns writes convergingThreshold
  have hancestors : ∀ r ∈ routes, r.ancestor < (drawSpawnDag draws spawns).nodes := by
    intro r hr
    have hreader := (routes_endpoints hroutes hr).2.2
    rw [← drawSpawnDag_nodes draws] at hreader
    exact ht.ancestor_lt (hrouted.ancestors r hr).2.right hreader
  refine ⟨_, hrun, spawnOf_perm ht routes hedges, ?_, ?_, writesOf_indices_nodup draws routes,
    routes.map Route.ancestor, routesWrite draws hrouted spawnEdges _, ?_⟩
  · rw [List.map_map]
    refine (hedges.map _).trans (List.Perm.of_eq ?_)
    rw [List.range'_eq_map_range]
    exact List.map_congr_left fun e _ => Nat.add_comm e 1
  · rw [← hroutes, writesOf, List.map_map]
    refine List.ext_getElem (by simp) fun k hk hk' => ?_
    simp
  · rw [zipWith_pipesOf]
    exact buildPipes_perm hrouted hancestors

end DeterministicScheduler.DataGraph
