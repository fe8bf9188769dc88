import DeterministicScheduler.Scheduler

/-!
# What one pass over the pipes selects

The two collecting loops as plain descriptions of their results: which waiting
VMs are finished because the other end of their pipe is closed, and which
readers and writers are paired.
-/
namespace DeterministicScheduler

open ProgramLogic Program Std

/-- The pipe a VM in this state reads. -/
def VmState.reading? : VmState → Option PipeId
  | .waitForRead pipe _ _ _ => some pipe
  | _ => none

/-- The pipe a VM in this state writes. -/
def VmState.writing? : VmState → Option PipeId
  | .waitForWrite pipe _ _ _ _ => some pipe
  | _ => none

/-- The pipe a VM in this state waits on. -/
def VmState.waiting? : VmState → Option PipeId
  | .waitForRead pipe _ _ _ => some pipe
  | .waitForWrite pipe _ _ _ _ => some pipe
  | _ => none

namespace Scheduler

variable (pipes : HashMap PipeId VmId)

/-- Whether the other end of a pipe is closed. -/
def isClosed (p : Option PipeId) : Bool :=
  p.any fun pipe => !pipes.contains pipe.otherPipe

/-- The pair a writer forms with the reader on its other end. -/
def pairOf (reads : HashMap PipeId (VmId × VmState)) (write : VmId × VmState) :
    Option ((VmId × VmState) × (VmId × VmState)) :=
  match write.2.writing? with
  | some pipe =>
    if pipes.contains pipe.otherPipe then (reads[pipe.otherPipe]?).map fun read => (read, write)
    else none
  | none => none

variable {pipes}

theorem collectReads_append (states : List (VmId × VmState)) (v : VmId × VmState) :
    collectReads pipes (states ++ [v]) =
      ((match v.2.reading? with
        | some pipe =>
          if pipes.contains pipe.otherPipe then (collectReads pipes states).1.insert pipe v
          else (collectReads pipes states).1
        | none => (collectReads pipes states).1),
       (collectReads pipes states).2 ++ if isClosed pipes v.2.reading? then [v.1] else []) := by
  obtain ⟨id, state⟩ := v
  simp only [collectReads, List.foldl_append, List.foldl_cons, List.foldl_nil]
  cases state with
  | waitForRead pipe length bufferAddr lengthAddr =>
    simp only [VmState.reading?, isClosed, Option.any_some]
    split <;> simp [*]
  | _ => simp [VmState.reading?, isClosed]

/-- The finished readers are those whose other end is closed, in order. -/
theorem collectReads_snd (states : List (VmId × VmState)) :
    (collectReads pipes states).2 =
      (states.filter fun v => isClosed pipes v.2.reading?).map Prod.fst := by
  induction states using List.reverseRecOn with
  | nil => rfl
  | append_singleton states v ih =>
    rw [collectReads_append, ih, List.filter_append, List.map_append]
    by_cases hv : isClosed pipes v.2.reading? = true <;> simp [hv]

/-- A collected reader waits on the pipe it is found under. -/
theorem of_collectReads_fst {states : List (VmId × VmState)} {p : PipeId} {v : VmId × VmState}
    (h : (collectReads pipes states).1[p]? = some v) :
    v ∈ states ∧ v.2.reading? = some p ∧ pipes.contains p.otherPipe = true := by
  induction states using List.reverseRecOn with
  | nil => simp [collectReads] at h
  | append_singleton states u ih =>
    rw [collectReads_append] at h
    have hold : (collectReads pipes states).1[p]? = some v →
        v ∈ states ++ [u] ∧ v.2.reading? = some p ∧ pipes.contains p.otherPipe = true := by
      intro hp
      obtain ⟨hmem, hrest⟩ := ih hp
      exact ⟨List.mem_append_left _ hmem, hrest⟩
    cases hread : u.2.reading? with
    | none => exact hold (by simpa only [hread] using h)
    | some pipe =>
      simp only [hread] at h
      split at h
      · rename_i hopen
        rw [ExtTreeMap.getElem?_insert] at h
        split at h
        · rename_i heq
          rw [Std.compare_eq_iff_eq] at heq
          cases h
          exact ⟨by simp, heq ▸ hread, heq ▸ hopen⟩
        · exact hold h
      · exact hold h

/-- Every reader whose other end is open leaves a reader under its pipe. -/
theorem collectReads_fst_isSome {states : List (VmId × VmState)} {v : VmId × VmState}
    {p : PipeId} (hv : v ∈ states) (hread : v.2.reading? = some p)
    (hopen : pipes.contains p.otherPipe = true) :
    ∃ u, (collectReads pipes states).1[p]? = some u := by
  induction states using List.reverseRecOn with
  | nil => simp at hv
  | append_singleton states u ih =>
    rw [collectReads_append]
    have hold : v ∈ states → ∀ q : PipeId, ∃ u',
        ((collectReads pipes states).1.insert q u)[p]? = some u' := by
      intro hmem q
      obtain ⟨u', hu'⟩ := ih hmem
      rw [ExtTreeMap.getElem?_insert]
      split
      · exact ⟨u, rfl⟩
      · exact ⟨u', hu'⟩
    rcases List.mem_append.mp hv with hmem | hlast
    · cases u.2.reading? with
      | none => exact ih hmem
      | some q =>
        simp only
        split
        · exact hold hmem q
        · exact ih hmem
    · have hu : v = u := by simpa using hlast
      subst hu
      simp only [hread, hopen, if_true]
      exact ⟨v, by simp⟩

theorem collectWrites_append (reads : HashMap PipeId (VmId × VmState))
    (states : List (VmId × VmState)) (v : VmId × VmState) :
    collectWrites pipes reads (states ++ [v]) =
      ((collectWrites pipes reads states).1 ++ (pairOf pipes reads v).toList,
       (collectWrites pipes reads states).2 ++
         if isClosed pipes v.2.writing? then [v.1] else []) := by
  obtain ⟨id, state⟩ := v
  simp only [collectWrites, List.foldl_append, List.foldl_cons, List.foldl_nil]
  cases state with
  | waitForWrite pipe consumed length bufferAddr lengthAddr =>
    simp only [VmState.writing?, isClosed, pairOf, Option.any_some]
    by_cases hopen : pipes.contains pipe.otherPipe = true
    · simp only [hopen, if_true]
      cases reads[pipe.otherPipe]? <;> simp
    · simp [hopen]
  | _ => simp [VmState.writing?, isClosed, pairOf]

/-- The finished writers are those whose other end is closed, in order. -/
theorem collectWrites_snd (reads : HashMap PipeId (VmId × VmState))
    (states : List (VmId × VmState)) :
    (collectWrites pipes reads states).2 =
      (states.filter fun v => isClosed pipes v.2.writing?).map Prod.fst := by
  induction states using List.reverseRecOn with
  | nil => rfl
  | append_singleton states v ih =>
    rw [collectWrites_append, ih, List.filter_append, List.map_append]
    by_cases hv : isClosed pipes v.2.writing? = true <;> simp [hv]

/-- The pairs are those of the writers, in order. -/
theorem collectWrites_fst (reads : HashMap PipeId (VmId × VmState))
    (states : List (VmId × VmState)) :
    (collectWrites pipes reads states).1 = states.filterMap (pairOf pipes reads) := by
  induction states using List.reverseRecOn with
  | nil => rfl
  | append_singleton states v ih =>
    rw [collectWrites_append, ih, List.filterMap_append]
    cases hpair : pairOf pipes reads v <;> simp [hpair]

/-- The halves of a pair: a reader and a writer of the two ends of one pipe. -/
theorem of_pairOf {states : List (VmId × VmState)} {v : VmId × VmState}
    {pair : (VmId × VmState) × (VmId × VmState)}
    (h : pairOf pipes (collectReads pipes states).1 v = some pair) :
    pair.2 = v ∧ pair.1 ∈ states ∧ ∃ pipe, pair.2.2.writing? = some pipe ∧
      pair.1.2.reading? = some pipe.otherPipe ∧ pipes.contains pipe.otherPipe = true := by
  simp only [pairOf] at h
  cases hwrite : v.2.writing? with
  | none => simp [hwrite] at h
  | some pipe =>
    simp only [hwrite] at h
    split at h
    · rename_i hopen
      obtain ⟨read, hread, rfl⟩ := Option.map_eq_some_iff.mp h
      obtain ⟨hmem, hreading, _⟩ := of_collectReads_fst hread
      exact ⟨rfl, hmem, pipe, hwrite, hreading, hopen⟩
    · cases h

variable {μ κ : Type} {Mirrors : TxData → μ → Prop}

/-- The VMs whose read or write one pass finishes because of a closed end. -/
def closedVms (s : Scheduler μ κ) : List VmId :=
  (s.states.toList.filter fun v => isClosed s.pipes v.2.reading?).map Prod.fst ++
    (s.states.toList.filter fun v => isClosed s.pipes v.2.writing?).map Prod.fst

/-- The pairs of a reader and a writer between which one pass moves bytes. -/
def pairedVms (s : Scheduler μ κ) : List ((VmId × VmState) × (VmId × VmState)) :=
  s.states.toList.filterMap (pairOf s.pipes (collectReads s.pipes s.states.toList).1)

/-- A pass over given completions and then given transfers. -/
def passInOrder [Memory μ] (cap : Option ℕ) (env : Library Mirrors κ) (ids : List VmId)
    (pairs : List ((VmId × VmState) × (VmId × VmState))) : SchedulerM μ κ Unit := do
  ids.forM finishClosed
  pairs.forM (transferPair cap env)

theorem processIo_run [Memory μ] (cap : Option ℕ) (env : Library Mirrors κ) (s : Scheduler μ κ) :
    processIo cap env s = passInOrder cap env s.closedVms s.pairedVms s := by
  simp only [processIo, passInOrder, get_bind_run, closedVms, pairedVms, ← collectReads_snd,
    ← collectWrites_snd (collectReads s.pipes s.states.toList).1, ← collectWrites_fst]

/-- A VM whose operation is finished waits on a pipe with a closed end. -/
theorem mem_closedVms {s : Scheduler μ κ} {id : VmId} : id ∈ s.closedVms ↔
    ∃ state, s.states[id]? = some state ∧ isClosed s.pipes state.waiting? = true := by
  simp only [closedVms, List.mem_append, List.mem_map, List.mem_filter]
  constructor
  · rintro (⟨⟨id, state⟩, ⟨hmem, hclosed⟩, rfl⟩ | ⟨⟨id, state⟩, ⟨hmem, hclosed⟩, rfl⟩)
    all_goals
      refine ⟨state, ExtTreeMap.mem_toList_iff_getElem?_eq_some.mp hmem, ?_⟩
      cases state <;> simp_all [VmState.reading?, VmState.writing?, VmState.waiting?, isClosed]
  · rintro ⟨state, hstate, hclosed⟩
    have hmem := ExtTreeMap.mem_toList_iff_getElem?_eq_some.mpr hstate
    cases state with
    | waitForRead pipe length bufferAddr lengthAddr => exact Or.inl ⟨_, ⟨hmem, hclosed⟩, rfl⟩
    | waitForWrite pipe consumed length bufferAddr lengthAddr =>
      exact Or.inr ⟨_, ⟨hmem, hclosed⟩, rfl⟩
    | _ => simp [VmState.waiting?, isClosed] at hclosed

/-- The halves of a selected pair are live and wait on the two ends of one pipe. -/
theorem of_mem_pairedVms {s : Scheduler μ κ} {pair : (VmId × VmState) × (VmId × VmState)}
    (h : pair ∈ s.pairedVms) :
    s.states[pair.1.1]? = some pair.1.2 ∧ s.states[pair.2.1]? = some pair.2.2 ∧
      ∃ pipe, pair.2.2.writing? = some pipe ∧ pair.1.2.reading? = some pipe.otherPipe ∧
        s.pipes.contains pipe.otherPipe = true := by
  obtain ⟨v, hv, hpair⟩ := List.mem_filterMap.mp h
  obtain ⟨rfl, hread, hpipe⟩ := of_pairOf hpair
  exact ⟨ExtTreeMap.mem_toList_iff_getElem?_eq_some.mp hread,
    ExtTreeMap.mem_toList_iff_getElem?_eq_some.mp hv, hpipe⟩

/-- The halves of a selected pair are different VMs. -/
theorem ne_of_mem_pairedVms {s : Scheduler μ κ} {pair : (VmId × VmState) × (VmId × VmState)}
    (h : pair ∈ s.pairedVms) : pair.1.1 ≠ pair.2.1 := by
  obtain ⟨hread, hwrite, pipe, hwriting, hreading, _⟩ := of_mem_pairedVms h
  intro heq
  rw [heq, hwrite, Option.some.injEq] at hread
  rw [← hread] at hreading
  cases hstate : pair.2.2 <;> simp [hstate, VmState.reading?, VmState.writing?] at hwriting hreading

end Scheduler

end DeterministicScheduler
