import DeterministicScheduler.Deadlock
import DeterministicScheduler.WorkloadSteps

/-!
# Runs of a workload

A generated workload runs without a deadlock and without a failed system call. When its root
exits every VM has exited with code zero, has made the system calls of its operations in order,
and the transfers are the writes of the workload, each done once.
-/
namespace DeterministicScheduler.DataGraph

open ProgramLogic Program Outcome EscapeEncoding Std Scheduler

variable {κ : Type} {env : Env GuestMemory κ} {data : Data} {P : Progress}
  {tr : List (Event GuestMemory)} {s : Scheduler GuestMemory κ} {i n : ℕ} {v : VmId}

/-- The root is booted at the start of its program. -/
theorem booted_underway (henv : RunsMain data env) (hw : Wired n data) {charge : ℕ}
    {machine : Machine GuestMemory} (hboot : Boots env rootArgs charge machine) :
    Underway n data (.initial data rootVmId) [.boot rootVmId charge]
      ((new : Scheduler GuestMemory κ).booted rootVmId machine []) := by
  have hzero : ∀ {i : ℕ} {v : VmId}, (Progress.initial data rootVmId).vm i = some v →
      i = 0 ∧ v = rootVmId := by
    intro i v hi
    simp only [Progress.initial] at hi
    split at hi
    · exact ⟨‹_›, (Option.some.inj hi).symm⟩
    · cases hi
  have hnext : ∀ v : VmId, v < rootVmId + 1 ↔ v = rootVmId := by
    intro v
    rw [UInt64.lt_iff_toNat_lt, ← UInt64.toNat_inj]
    simp [rootVmId, firstVmId]
  have hstate : ((new : Scheduler GuestMemory κ).booted rootVmId machine []).states[rootVmId]? =
      some .runnable := by
    simp only [booted, getElem?_insert, if_true]
  refine ⟨Progress.initial_sound hw rootVmId, ⟨rfl, ?_, ?_, ?_, ?_, ?_, ?_, ?_, ?_⟩, ?_, ?_, ?_, ?_,
    ⟨[], List.nodup_nil, ?_, .nil⟩⟩
  · intro i j v hi hj
    rw [(hzero hi).1, (hzero hj).1]
  · intro i v hi
    obtain ⟨rfl, rfl⟩ := hzero hi
    exact ⟨Nat.zero_le n, (hnext _).mpr rfl⟩
  · intro v hv
    exact ⟨0, congrArg some ((hnext v).mp hv).symm⟩
  · intro i v code hi hcode
    simp [booted, new] at hcode
  · intro sp hsp hnot
    exact absurd (join_mem_ops.mpr ⟨sp, hsp, rfl, rfl⟩) hnot
  · intro q id hq
    cases hq
  · intro q q' id hq
    cases hq
  · intro q t id hq
    cases hq
  · intro i v hi
    obtain ⟨rfl, rfl⟩ := hzero hi
    refine ⟨?_, ⟨[], rfl, ?_⟩, [], rfl, [], .nil, rfl⟩
    · intro state m hk hm _
      rw [hstate, Option.some.injEq] at hk
      simp only [booted, getElem?_insert, if_true, Option.some.injEq] at hm
      subst hk hm
      exact .ready (henv.atReady hboot (.inl ⟨rfl, rfl⟩))
    · rw [hstate]
      exact .nil
  · exact fun _ _ => ⟨rfl, rfl⟩
  · intro v hv
    simp only [booted, getElem?_insert] at hv
    split at hv
    · cases hv
    · simp [new] at hv
  · intro ev hev
    rw [List.mem_singleton] at hev
    subst hev
    trivial
  · intro w
    simp only [List.not_mem_nil, false_iff, not_and, not_not]
    exact fun hmem => move_mem_ops.mpr ⟨hmem, .inl rfl⟩

/-- A run of a workload is always in the middle of it. -/
theorem underway_of_run (henv : RunsMain data env) (hw : Fits n data) (h : Run env tr s) :
    ∃ P, Underway n data P tr s := by
  have hboth : Invariant s ∧ ∃ P, Underway n data P tr s := by
    refine h.keeps (I := fun tr r => Invariant r ∧ ∃ P, Underway n data P tr r) ?_ ?_
    · intro charge machine hboot
      exact ⟨booted_invariant machine, _, booted_underway henv hw.toWired hboot⟩
    · rintro tr r l r' ⟨hinv, P, hu⟩ hstep
      obtain ⟨P', -, hu'⟩ := hu.step henv hw hinv hstep
      exact ⟨hstep.invariant hinv, P', hu'⟩
  exact hboth.2

/-- A VM that is stuck with this left waits at a write for its partner, or for a child. -/
inductive Hangs (data : Data) (P : Progress) (s : Scheduler GuestMemory κ) (i : ℕ) :
    List Op → Prop
  | writes {w : Write} {todo : List Write} {locals : Locals} {pipe : PipeId} {state : VmState}
    {v : VmId} (h : Moving data P i (w :: todo) locals) (hvm : w.fromVm = i)
    (hpipe : P.pipe w.fromPipe = some pipe) (hstate : s.states[v]? = some state)
    (hwriting : state.writing? = some pipe) :
    Hangs data P s i (.move w :: (moves i todo ++ afterWrites i data))
  | reads {w : Write} {todo : List Write} {locals : Locals} {pipe : PipeId}
    (h : Moving data P i (w :: todo) locals) (hvm : w.toVm = i)
    (hpipe : P.pipe w.toPipe = some pipe)
    (halone : ∀ (k : VmId) (state : VmState), s.states[k]? = some state →
      state.writing? ≠ some pipe.otherPipe) :
    Hangs data P s i (.move w :: (moves i todo ++ afterWrites i data))
  | joins {child : ℕ} {children : List ℕ} {target : VmId} (hchild : P.vm child = some target)
    (hlive : target ∈ s.states) : Hangs data P s i (.join child :: DataGraph.joins children)

/-- What stands before an element of a list without duplicates. -/
theorem mem_before {α : Type} {l done todo before after : List α} {x y : α} (hl : l.Nodup)
    (h : l = done ++ x :: todo) (h' : l = before ++ y :: after) (hy : y ∈ todo) : x ∈ before := by
  obtain ⟨todo₁, todo₂, rfl⟩ := List.append_of_mem hy
  have hsplit : l = (done ++ x :: todo₁) ++ y :: todo₂ := by simp [h]
  have hnodup := hsplit ▸ hl
  have hnot : y ∉ done ++ x :: todo₁ := fun hin =>
    List.disjoint_of_nodup_append hnodup hin List.mem_cons_self
  have hnot' : y ∉ todo₂ := (List.nodup_cons.mp hnodup.of_append_right).1
  obtain ⟨hbefore, -⟩ := (List.append_cons_inj_of_notMem hnot hnot').mp (hsplit.symm.trans h')
  rw [← hbefore]
  simp

section Deadlocks

variable (hu : Underway n data P tr s) (hw : Wired n data) (hrun : Running s) (hinv : Invariant s)
  (hdead : Deadlocked s)

include hu hinv hdead

theorem hangs (hi : P.vm i = some v) (hlive : v ∈ s.states) : Hangs data P s i (P.left i) := by
  obtain ⟨state, hstate⟩ := mem_iff_getElem?.mp hlive
  obtain ⟨m, hm⟩ := hinv.resident.machine hlive
  have hstuck := hdead v state hstate
  have hne : state ≠ .terminated := by
    rintro rfl
    exact hstuck
  rcases ((hu.follows i v hi).stands state m hstate hm hne).cases with
    rfl | ⟨args, rfl, hposts⟩ | ⟨args, rfl, hposts⟩ | ⟨args, rfl, hposts⟩
  · exact hstuck.elim
  · obtain ⟨w, todo, locals, hmoving, hvm, hleft, hpipe, -⟩ := hposts.of_pipeWrite
    rw [hleft]
    exact .writes hmoving hvm hpipe hstate rfl
  · obtain ⟨w, todo, locals, hmoving, hvm, hleft, hpipe, -⟩ := hposts.of_pipeRead
    rw [hleft]
    exact .reads hmoving hvm hpipe hstuck.2
  · obtain ⟨_, child, children, _, -, hleft, hchild, -⟩ := hposts.of_join
    rw [hleft]
    exact .joins hchild hstuck

include hrun

/-- A VM with something left to do hangs. -/
theorem hangs_of_left (hi : P.vm i = some v) (hleft : P.left i ≠ []) :
    Hangs data P s i (P.left i) := by
  refine hangs hu hinv hdead hi ?_
  refine ((hrun.accounted v).mp (hu.attends.known i v hi).2).resolve_right fun hterm => hleft ?_
  obtain ⟨code, hcode⟩ := mem_iff_getElem?.mp hterm
  exact (hu.attends.exited i v code hi hcode).2

include hw

/-- Every VM has spawned its children before it can hang. -/
theorem all_born (i : ℕ) (hi : i ≤ n) : P.vm i ≠ none := by
  induction i using Nat.strong_induction_on with
  | _ i ih =>
    intro hnone
    by_cases hzero : i = 0
    · rw [hzero, hu.attends.root] at hnone
      cases hnone
    · obtain ⟨sp, hsp, rfl⟩ := hw.spawned i (by omega) hi
      have holder := (hw.older sp hsp).1
      obtain ⟨v, hv⟩ := Option.ne_none_iff_exists'.mp (ih sp.fromVm holder (by omega))
      have hspawn := (hu.sound.spawned sp hsp).mp hnone
      have hhangs := hangs_of_left hu hrun hinv hdead hv (List.ne_nil_of_mem hspawn)
      generalize P.left sp.fromVm = left at hspawn hhangs
      cases hhangs <;> simp [moves, afterWrites, joins] at hspawn

/-- A VM with the first write that is left has no operation before it. -/
theorem hangs_first {w : Write} {before after : List Write}
    (hlist : data.writes = before ++ w :: after)
    (hbefore : ∀ w' ∈ before, .move w' ∉ P.left w'.fromVm) (hmove : .move w ∈ P.left i)
    (hi : i ≤ n) : (w.fromVm = i ∧ ∃ (pipe : PipeId) (state : VmState) (v : VmId),
        P.pipe w.fromPipe = some pipe ∧ s.states[v]? = some state ∧ state.writing? = some pipe) ∨
      (w.toVm = i ∧ ∃ pipe : PipeId, P.pipe w.toPipe = some pipe ∧
        ∀ (k : VmId) (state : VmState), s.states[k]? = some state →
          state.writing? ≠ some pipe.otherPipe) := by
  obtain ⟨v, hv⟩ := Option.ne_none_iff_exists'.mp (all_born hu hw hrun hinv hdead i hi)
  have hhangs := hangs_of_left hu hrun hinv hdead hv (List.ne_nil_of_mem hmove)
  have hhead : ∀ {w' : Write} {todo : List Write}, (∃ done, data.writes = done ++ w' :: todo) →
      .move w' ∈ P.left w'.fromVm → Op.move w ∈ .move w' :: (moves i todo ++ afterWrites i data) →
        w = w' := by
    rintro w' todo ⟨done, hdone⟩ hremains hin
    have hin' : w = w' ∨ w ∈ todo := by
      simp only [List.mem_cons, Op.move.injEq, List.mem_append] at hin
      rcases hin with heq | hin | hin
      · exact .inl heq
      · obtain ⟨x, hx, heq⟩ := List.mem_map.mp hin
        exact .inr (Op.move.inj heq ▸ (List.mem_filter.mp hx).1)
      · simp [afterWrites, joins] at hin
    refine hin'.resolve_right fun hlater => hbefore w' ?_ hremains
    exact mem_before hw.writes_nodup hdone hlist hlater
  generalize hleft : P.left i = left at hmove hhangs
  cases hhangs with
  | @writes w' todo locals pipe state u h hvm hpipe hstate hwriting =>
    obtain rfl := hhead h.rest (by rw [hvm, hleft]; exact List.mem_cons_self) hmove
    exact .inl ⟨hvm, pipe, state, u, hpipe, hstate, hwriting⟩
  | @reads w' todo locals pipe h hvm hpipe halone =>
    obtain rfl := hhead h.rest
      ((hu.sound.moved w' h.mem).mpr (by rw [hvm, hleft]; exact List.mem_cons_self)) hmove
    exact .inr ⟨hvm, pipe, hpipe, halone⟩
  | joins => simp [DataGraph.joins] at hmove

/-- The first write that is left would be done by two VMs that both wait for it. -/
theorem no_moves (w : Write) (hmem : w ∈ data.writes) : .move w ∉ P.left w.fromVm := by
  classical
  intro hmove
  let remains := fun w : Write => decide (Op.move w ∈ P.left w.fromVm)
  cases hfind : data.writes.find? remains with
  | none =>
    have hnot := List.find?_eq_none.mp hfind w hmem
    simp [remains, hmove] at hnot
  | some first =>
    obtain ⟨hfirst, before, after, hlist, hbefore⟩ := List.find?_eq_some_iff_append.mp hfind
    have hmem : first ∈ data.writes := List.mem_of_find?_eq_some hfind
    obtain ⟨hne, hfrom, hto⟩ := hw.ends first hmem
    have hmove : .move first ∈ P.left first.fromVm := of_decide_eq_true hfirst
    have hnone : ∀ w' ∈ before, .move w' ∉ P.left w'.fromVm := by
      intro w' hw'
      simpa [remains] using hbefore w' hw'
    have hwriter := hangs_first hu hw hrun hinv hdead hlist hnone hmove hfrom
    have hreader := hangs_first hu hw hrun hinv hdead hlist hnone
      ((hu.sound.moved first hmem).mp hmove) hto
    obtain ⟨-, pipe, state, v, hpipe, hstate, hwriting⟩ :=
      hwriter.resolve_right fun h => hne h.1.symm
    obtain ⟨-, pipe', hpipe', halone⟩ := hreader.resolve_left fun h => hne h.1
    rw [otherPipe_of_to hu.sound.paired hw hmem hpipe', Option.some.injEq] at hpipe
    exact halone v state hstate (hpipe ▸ hwriting)

/-- A VM of a workload that waits for a child waits for a younger VM, so one does not wait. -/
theorem not_deadlocked : False := by
  have hnone : ∀ (d i : ℕ) (v : VmId), n < i + d → P.vm i = some v → v ∉ s.states := by
    intro d
    induction d with
    | zero =>
      intro i v hlt hi
      have hle := (hu.attends.known i v hi).1
      omega
    | succ d ih =>
      intro i v hlt hi hlive
      have hhangs := hangs hu hinv hdead hi hlive
      generalize hleft : P.left i = left at hhangs
      cases hhangs with
      | @writes w todo locals pipe state u h hvm =>
        refine no_moves hu hw hrun hinv hdead w h.mem ?_
        rw [hvm, hleft]
        exact List.mem_cons_self
      | @reads w todo locals pipe h hvm =>
        refine no_moves hu hw hrun hinv hdead w h.mem ((hu.sound.moved w h.mem).mpr ?_)
        rw [hvm, hleft]
        exact List.mem_cons_self
      | @joins child children target hchild hlive' =>
        obtain ⟨sp, hsp, rfl, rfl⟩ := join_mem_ops.mp (hu.sound.head_mem hleft)
        have holder := (hw.older sp hsp).1
        exact ih sp.child target (by omega) hchild hlive'
  exact hnone (n + 1) 0 rootVmId (by omega) hu.attends.root hrun.root

end Deadlocks

end DeterministicScheduler.DataGraph
