import DeterministicScheduler.GuestSteps

/-!
# Operations that are done

When an operation is done it leaves the list of its VM, or those of both VMs for a write.
Which VMs are spawned, which pipes created and which writes done can be read off the lists.
-/
namespace DeterministicScheduler.DataGraph

open ProgramLogic Program Outcome EscapeEncoding

variable {data : Data} {P P' : Progress} {i j n : ℕ} {op : Op} {rest : List Op}

@[simp] theorem create_mem_ops {p : Pipe} : .create p ∈ ops i data ↔ p ∈ data.pipes ∧ p.vm = i := by
  simp [ops, afterPipes, afterSpawns, afterWrites, creates, spawnsFrom, moves, joins]

@[simp] theorem spawn_mem_ops {s : Spawn} :
    .spawn s ∈ ops i data ↔ s ∈ data.spawns ∧ s.fromVm = i := by
  simp [ops, afterPipes, afterSpawns, afterWrites, creates, spawnsFrom, moves, joins]

@[simp] theorem move_mem_ops {w : Write} :
    .move w ∈ ops i data ↔ w ∈ data.writes ∧ (w.fromVm = i ∨ w.toVm = i) := by
  simp [ops, afterPipes, afterSpawns, afterWrites, creates, spawnsFrom, moves, joins]

@[simp] theorem join_mem_ops {c : ℕ} :
    .join c ∈ ops i data ↔ ∃ s ∈ data.spawns, s.fromVm = i ∧ s.child = c := by
  simp [ops, afterPipes, afterSpawns, afterWrites, creates, spawnsFrom, moves, joins, childrenOf,
    and_assoc]

namespace Wired

variable (hw : Wired n data)

include hw

theorem spawns_nodup : data.spawns.Nodup :=
  hw.children.of_map _

theorem pipes_nodup : data.pipes.Nodup :=
  hw.pipes.of_map _

theorem ends_ne {w : Write} (hmem : w ∈ data.writes) : w.fromPipe ≠ w.toPipe := by
  have hnodup := (List.nodup_flatMap.mp hw.indices).1 w hmem
  simpa using hnodup

/-- A pipe is an end of one write only. -/
theorem write_eq {w w' : Write} (hmem : w ∈ data.writes) (hmem' : w' ∈ data.writes) {q : ℕ}
    (hq : q = w.fromPipe ∨ q = w.toPipe) (hq' : q = w'.fromPipe ∨ q = w'.toPipe) : w = w' := by
  by_contra hne
  have hothers := (List.nodup_flatMap.mp hw.indices).2
  have hsymm : Std.Symm (Function.onFun List.Disjoint fun w : Write => [w.fromPipe, w.toPipe]) :=
    ⟨fun _ _ h => h.symm⟩
  have hdisjoint := hothers.forall hmem hmem' hne
  exact hdisjoint (a := q) (by simpa using hq) (by simpa using hq')

theorem writes_nodup : data.writes.Nodup := by
  refine (List.nodup_flatMap.mp hw.indices).2.imp ?_
  rintro w w' hdisjoint rfl
  exact hdisjoint (a := w.fromPipe) (by simp) (by simp)

/-- A pipe is an end of one pair only, and the ends of a pair are different. -/
theorem pipe_eq {p p' : Pipe} (hp : p ∈ data.pipes) (hp' : p' ∈ data.pipes) {q : ℕ}
    (hq : q = p.readPipe ∨ q = p.writePipe) (hq' : q = p'.readPipe ∨ q = p'.writePipe) :
    p = p' := by
  obtain ⟨w, hmem, hread, hwrite⟩ := hw.paired p hp
  obtain ⟨w', hmem', hread', hwrite'⟩ := hw.paired p' hp'
  rw [hread, hwrite] at hq
  rw [hread', hwrite'] at hq'
  obtain rfl := hw.write_eq hmem hmem' hq.symm hq'.symm
  exact List.inj_on_of_nodup_map hw.pipes hp hp' (hread.trans hread'.symm)

theorem pipe_ends_ne {p : Pipe} (hp : p ∈ data.pipes) : p.readPipe ≠ p.writePipe := by
  obtain ⟨w, hmem, hread, hwrite⟩ := hw.paired p hp
  rw [hread, hwrite]
  exact (hw.ends_ne hmem).symm

end Wired

theorem ops_nodup (hw : Wired n data) : (ops i data).Nodup := by
  have hcreate : (creates i data.pipes).Nodup :=
    (hw.pipes_nodup.filter _).map fun p p' h => Op.create.inj h
  have hspawn : (spawnsFrom i data.spawns).Nodup :=
    (hw.spawns_nodup.filter _).map fun s s' h => Op.spawn.inj h
  have hmove : (moves i data.writes).Nodup :=
    (hw.writes_nodup.filter _).map fun w w' h => Op.move.inj h
  have hchildren : (childrenOf i data.spawns).Nodup :=
    hw.children.sublist ((List.filter_sublist).map _)
  have hjoin : (afterWrites i data).Nodup :=
    (List.nodup_reverse.mpr hchildren).map fun c c' h => Op.join.inj h
  refine hcreate.append (hspawn.append (hmove.append hjoin ?_) ?_) ?_
  · intro x hx hx'
    obtain ⟨w, -, rfl⟩ := List.mem_map.mp hx
    simp [afterWrites, joins] at hx'
  · intro x hx hx'
    obtain ⟨s, -, rfl⟩ := List.mem_map.mp hx
    simp [afterSpawns, moves, afterWrites, joins] at hx'
  · intro x hx hx'
    obtain ⟨p, -, rfl⟩ := List.mem_map.mp hx
    simp [afterPipes, afterSpawns, spawnsFrom, moves, afterWrites, joins] at hx'

namespace Progress

/-- The first operation of a VM is done. -/
def advance (P : Progress) (i : ℕ) : Progress :=
  { P with left := Function.update P.left i (P.left i).tail }

/-- A VM has created a pair of pipes. -/
def creating (P : Progress) (i : ℕ) (p : Pipe) (id : PipeId) : Progress :=
  { P.advance i with
    pipe := Function.update (Function.update P.pipe p.readPipe (some id)) p.writePipe
      (some id.otherPipe) }

/-- A VM has spawned a child. -/
def spawning (P : Progress) (i : ℕ) (s : Spawn) (v : VmId) : Progress :=
  { P.advance i with vm := Function.update P.vm s.child (some v) }

/-- The writer and the reader of a write have done it. -/
def moving (P : Progress) (w : Write) : Progress :=
  (P.advance w.fromVm).advance w.toVm

/-- The lists of operations left agree with what is spawned, created and written. -/
structure Sound (data : Data) (P : Progress) : Prop where
  rest : ∀ i, P.left i <:+ ops i data
  unborn : ∀ i, P.vm i = none → P.left i = ops i data
  spawned : ∀ s ∈ data.spawns, P.vm s.child = none ↔ .spawn s ∈ P.left s.fromVm
  created : ∀ p ∈ data.pipes, P.pipe p.readPipe = none ↔ .create p ∈ P.left p.vm
  moved : ∀ w ∈ data.writes, .move w ∈ P.left w.fromVm ↔ .move w ∈ P.left w.toVm
  paired : P.Paired data

@[simp] theorem advance_vm : (P.advance i).vm = P.vm := rfl

@[simp] theorem advance_pipe : (P.advance i).pipe = P.pipe := rfl

theorem advance_left_self (hhead : P.left i = op :: rest) : (P.advance i).left i = rest :=
  (Function.update_self ..).trans (by rw [hhead, List.tail_cons])

theorem advance_left_ne (hne : j ≠ i) : (P.advance i).left j = P.left j :=
  Function.update_of_ne hne _ _

theorem advance_rest (h : ∀ i, P.left i <:+ ops i data) (j : ℕ) :
    (P.advance i).left j <:+ ops j data := by
  by_cases hj : j = i
  · subst hj
    have htail : (P.advance j).left j = (P.left j).tail := Function.update_self ..
    rw [htail]
    exact (List.tail_suffix _).trans (h j)
  · rw [advance_left_ne hj]
    exact h j

section Updates

variable {s : Spawn} {p : Pipe} {id : PipeId} {v : VmId} {q : ℕ}

theorem creating_read (hne : p.readPipe ≠ p.writePipe) :
    (P.creating i p id).pipe p.readPipe = some id :=
  (Function.update_of_ne hne ..).trans (Function.update_self ..)

theorem creating_write : (P.creating i p id).pipe p.writePipe = some id.otherPipe :=
  Function.update_self ..

theorem creating_other (hread : q ≠ p.readPipe) (hwrite : q ≠ p.writePipe) :
    (P.creating i p id).pipe q = P.pipe q :=
  (Function.update_of_ne hwrite ..).trans (Function.update_of_ne hread ..)

theorem spawning_child : (P.spawning i s v).vm s.child = some v :=
  Function.update_self ..

theorem spawning_other (hne : j ≠ s.child) : (P.spawning i s v).vm j = P.vm j :=
  Function.update_of_ne hne ..

end Updates

/-- No operation is done twice. -/
theorem mem_advance (hw : Wired n data) (hrest : P.left i <:+ ops i data)
    (hhead : P.left i = op :: rest) (x : Op) :
    x ∈ (P.advance i).left j ↔ x ∈ P.left j ∧ ¬ (j = i ∧ x = op) := by
  by_cases hj : j = i
  · subst hj
    have hnodup : (op :: rest).Nodup := hhead ▸ (ops_nodup hw).sublist hrest.sublist
    rw [advance_left_self hhead, hhead, List.mem_cons]
    constructor
    · intro hmem
      exact ⟨.inr hmem, fun heq => (List.nodup_cons.mp hnodup).1 (heq.2 ▸ hmem)⟩
    · rintro ⟨rfl | hmem, hne⟩
      · exact absurd ⟨rfl, rfl⟩ hne
      · exact hmem
  · rw [advance_left_ne hj]
    exact ⟨fun hmem => ⟨hmem, fun heq => hj heq.1⟩, fun h => h.1⟩

namespace Sound

variable {v : VmId} {s : Spawn} {p : Pipe} {w : Write} {id : PipeId} (h : Sound data P)
  (hw : Wired n data)

include h

/-- What a VM has left to do is listed for it. -/
theorem mem_ops {x : Op} (hx : x ∈ P.left i) : x ∈ ops i data :=
  (h.rest i).mem hx

theorem head_mem (hhead : P.left i = op :: rest) : op ∈ ops i data :=
  h.mem_ops (hhead ▸ List.mem_cons_self)

/-- A VM that is not spawned has not done anything. -/
theorem unborn_mem {x : Op} (hi : P.vm i = none) (hx : x ∈ ops i data) : x ∈ P.left i := by
  rwa [h.unborn i hi]

/-- The VM that spawns a VM is spawned before. -/
theorem parent (hs : s ∈ data.spawns) (hborn : P.vm s.child ≠ none) : P.vm s.fromVm ≠ none := by
  intro hnone
  exact hborn ((h.spawned s hs).mpr (h.unborn_mem hnone (spawn_mem_ops.mpr ⟨hs, rfl⟩)))

theorem closedUp : ClosedUp data fun i => P.vm i ≠ none :=
  fun _ hs hborn => h.parent hs hborn

theorem create_grows (hhead : P.left i = .create p :: rest) : P.Grows (P.creating i p id) := by
  obtain ⟨hp, rfl⟩ := create_mem_ops.mp (h.head_mem hhead)
  have hnone := (h.created p hp).mpr (hhead ▸ List.mem_cons_self)
  have hboth : P.pipe p.readPipe = none ∧ P.pipe p.writePipe = none := by
    rcases h.paired.ends p hp with hends | ⟨id', -, hread, -⟩
    · exact hends
    · rw [hnone] at hread
      cases hread
  refine ⟨fun _ _ hvm => hvm, fun q k hq => ?_⟩
  have hne : q ≠ p.readPipe ∧ q ≠ p.writePipe := by
    constructor
    · rintro rfl
      rw [hboth.1] at hq
      cases hq
    · rintro rfl
      rw [hboth.2] at hq
      cases hq
  rwa [creating_other hne.1 hne.2]

theorem spawn_grows (hhead : P.left i = .spawn s :: rest) : P.Grows (P.spawning i s v) := by
  obtain ⟨hs, rfl⟩ := spawn_mem_ops.mp (h.head_mem hhead)
  have hnone := (h.spawned s hs).mpr (hhead ▸ List.mem_cons_self)
  refine ⟨fun j k hj => ?_, fun _ _ hq => hq⟩
  have hne : j ≠ s.child := by
    rintro rfl
    rw [hnone] at hj
    cases hj
  rwa [spawning_other hne]

include hw

/-- Membership in the lists that an operation of another kind leaves alone. -/
theorem mem_advance_of_ne (hhead : P.left i = op :: rest) {x : Op} (hne : x ≠ op) :
    x ∈ (P.advance i).left j ↔ x ∈ P.left j := by
  rw [mem_advance hw (h.rest i) hhead]
  exact ⟨fun hx => hx.1, fun hx => ⟨hx, fun heq => hne heq.2⟩⟩

theorem not_mem_advance (hhead : P.left i = op :: rest) : op ∉ (P.advance i).left i := by
  rw [mem_advance hw (h.rest i) hhead]
  exact fun hx => hx.2 ⟨rfl, rfl⟩

theorem afterCreate (hhead : P.left i = .create p :: rest) (hborn : P.vm i ≠ none)
    (hread : id.isRead = true) (hlow : 2 ≤ id) (hlow' : 2 ≤ id.otherPipe) :
    Sound data (P.creating i p id) := by
  obtain ⟨hp, rfl⟩ := create_mem_ops.mp (h.head_mem hhead)
  have hreadPipe : (P.creating p.vm p id).pipe p.readPipe = some id :=
    creating_read (hw.pipe_ends_ne hp)
  have hothers : ∀ p' ∈ data.pipes, p' ≠ p →
      (P.creating p.vm p id).pipe p'.readPipe = P.pipe p'.readPipe ∧
        (P.creating p.vm p id).pipe p'.writePipe = P.pipe p'.writePipe := by
    intro p' hp' hne
    refine ⟨creating_other ?_ ?_, creating_other ?_ ?_⟩
    · exact fun heq => hne (hw.pipe_eq hp' hp (.inl rfl) (.inl heq))
    · exact fun heq => hne (hw.pipe_eq hp' hp (.inl rfl) (.inr heq))
    · exact fun heq => hne (hw.pipe_eq hp' hp (.inr rfl) (.inl heq))
    · exact fun heq => hne (hw.pipe_eq hp' hp (.inr rfl) (.inr heq))
  refine ⟨advance_rest h.rest, ?_, ?_, ?_, ?_, ?_, ?_⟩
  · intro j hj
    have hne : j ≠ p.vm := by
      rintro rfl
      exact hborn hj
    exact (advance_left_ne hne).trans (h.unborn j hj)
  · intro s hs
    exact (h.spawned s hs).trans (h.mem_advance_of_ne hw hhead (by simp)).symm
  · intro p' hp'
    by_cases heq : p' = p
    · subst heq
      rw [hreadPipe]
      refine ⟨fun hnone => ?_, fun hmem => absurd hmem (h.not_mem_advance hw hhead)⟩
      cases hnone
    · rw [(hothers p' hp' heq).1]
      exact (h.created p' hp').trans (h.mem_advance_of_ne hw hhead (by simpa using heq)).symm
  · intro w hmem
    exact ((h.mem_advance_of_ne hw hhead (by simp)).trans (h.moved w hmem)).trans
      (h.mem_advance_of_ne hw hhead (by simp)).symm
  · intro q k hq
    by_cases hqw : q = p.writePipe
    · rw [hqw, creating_write, Option.some.injEq] at hq
      exact hq ▸ hlow'
    by_cases hqr : q = p.readPipe
    · rw [hqr, hreadPipe, Option.some.injEq] at hq
      exact hq ▸ hlow
    · rw [creating_other hqr hqw] at hq
      exact h.paired.low q k hq
  · intro p' hp'
    by_cases heq : p' = p
    · subst heq
      exact .inr ⟨id, hread, hreadPipe, creating_write⟩
    · rw [(hothers p' hp' heq).1, (hothers p' hp' heq).2]
      exact h.paired.ends p' hp'

theorem afterSpawn (hhead : P.left i = .spawn s :: rest) (hborn : P.vm i ≠ none) :
    Sound data (P.spawning i s v) := by
  obtain ⟨hs, rfl⟩ := spawn_mem_ops.mp (h.head_mem hhead)
  refine ⟨advance_rest h.rest, ?_, ?_, ?_, ?_, ?_⟩
  · intro j hj
    have hchild : j ≠ s.child := by
      rintro rfl
      rw [spawning_child] at hj
      cases hj
    rw [spawning_other hchild] at hj
    have hne : j ≠ s.fromVm := by
      rintro rfl
      exact hborn hj
    exact (advance_left_ne hne).trans (h.unborn j hj)
  · intro s' hs'
    by_cases heq : s' = s
    · subst heq
      rw [spawning_child]
      refine ⟨fun hnone => ?_, fun hmem => absurd hmem (h.not_mem_advance hw hhead)⟩
      cases hnone
    · have hne : s'.child ≠ s.child := fun hchild => heq (hw.child_inj hs' hs hchild)
      rw [spawning_other hne]
      exact (h.spawned s' hs').trans (h.mem_advance_of_ne hw hhead (by simpa using heq)).symm
  · intro p hp
    exact (h.created p hp).trans (h.mem_advance_of_ne hw hhead (by simp)).symm
  · intro w hmem
    exact ((h.mem_advance_of_ne hw hhead (by simp)).trans (h.moved w hmem)).trans
      (h.mem_advance_of_ne hw hhead (by simp)).symm
  · exact ⟨h.paired.low, h.paired.ends⟩

theorem afterJoin {c : ℕ} (hhead : P.left i = .join c :: rest) (hborn : P.vm i ≠ none) :
    Sound data (P.advance i) := by
  refine ⟨advance_rest h.rest, ?_, ?_, ?_, ?_, ?_⟩
  · intro j hj
    have hne : j ≠ i := by
      rintro rfl
      exact hborn hj
    exact (advance_left_ne hne).trans (h.unborn j hj)
  · intro s hs
    exact (h.spawned s hs).trans (h.mem_advance_of_ne hw hhead (by simp)).symm
  · intro p hp
    exact (h.created p hp).trans (h.mem_advance_of_ne hw hhead (by simp)).symm
  · intro w hmem
    exact ((h.mem_advance_of_ne hw hhead (by simp)).trans (h.moved w hmem)).trans
      (h.mem_advance_of_ne hw hhead (by simp)).symm
  · exact ⟨h.paired.low, h.paired.ends⟩

/-- What is left after a write is what was left but the write. -/
theorem mem_moving {rest' : List Op} (hfrom : P.left w.fromVm = .move w :: rest)
    (hto : P.left w.toVm = .move w :: rest') (x : Op) :
    x ∈ (P.moving w).left j ↔ x ∈ P.left j ∧ x ≠ .move w := by
  have hmem := (move_mem_ops.mp (h.head_mem hfrom)).1
  have hne := (hw.ends w hmem).1
  have hto' : (P.advance w.fromVm).left w.toVm = .move w :: rest' := by
    rw [advance_left_ne hne.symm, hto]
  rw [moving, mem_advance hw (advance_rest h.rest _) hto', mem_advance hw (h.rest _) hfrom]
  constructor
  · rintro ⟨⟨hx, hnfrom⟩, hnto⟩
    refine ⟨hx, ?_⟩
    rintro rfl
    rcases (move_mem_ops.mp (h.mem_ops hx)).2 with hj | hj
    · exact hnfrom ⟨hj.symm, rfl⟩
    · exact hnto ⟨hj.symm, rfl⟩
  · rintro ⟨hx, hne⟩
    exact ⟨⟨hx, fun heq => hne heq.2⟩, fun heq => hne heq.2⟩

theorem afterMove {rest' : List Op} (hfrom : P.left w.fromVm = .move w :: rest)
    (hto : P.left w.toVm = .move w :: rest') (hborn : P.vm w.fromVm ≠ none)
    (hborn' : P.vm w.toVm ≠ none) : Sound data (P.moving w) := by
  refine ⟨advance_rest (advance_rest h.rest), ?_, ?_, ?_, ?_, ?_⟩
  · intro j hj
    have hne : j ≠ w.fromVm := by
      rintro rfl
      exact hborn hj
    have hne' : j ≠ w.toVm := by
      rintro rfl
      exact hborn' hj
    exact ((advance_left_ne hne').trans (advance_left_ne hne)).trans (h.unborn j hj)
  · intro s hs
    rw [h.mem_moving hw hfrom hto]
    exact (h.spawned s hs).trans ⟨fun hx => ⟨hx, by simp⟩, fun hx => hx.1⟩
  · intro p hp
    rw [h.mem_moving hw hfrom hto]
    exact (h.created p hp).trans ⟨fun hx => ⟨hx, by simp⟩, fun hx => hx.1⟩
  · intro w' hmem
    rw [h.mem_moving hw hfrom hto, h.mem_moving hw hfrom hto, h.moved w' hmem]
  · exact ⟨h.paired.low, h.paired.ends⟩

end Sound

/-- Nothing is spawned but the root, and nothing is done. -/
def initial (data : Data) (root : VmId) : Progress where
  vm i := if i = 0 then some root else none
  pipe _ := none
  left i := ops i data

theorem initial_sound (hw : Wired n data) (root : VmId) : Sound data (initial data root) := by
  refine ⟨fun _ => List.suffix_rfl, fun _ _ => rfl, ?_, ?_, ?_, ?_, ?_⟩
  · intro s hs
    have hchild : s.child ≠ 0 := by
      have := (hw.older s hs).1
      omega
    simp [initial, hchild, hs]
  · intro p hp
    simp [initial, hp]
  · intro w hmem
    simp [initial, hmem]
  · intro q id hq
    cases hq
  · intro p hp
    exact .inl ⟨rfl, rfl⟩

end Progress

end DeterministicScheduler.DataGraph
