import DeterministicScheduler.Failures
import DeterministicScheduler.Invariant

/-!
# A round of the reference is a sequence of steps

The VMs that one pass over the pipes selects are pairwise distinct, because a
waiting VM owns its pipe. So each is still waiting when its turn comes, and the
pass is a sequence of steps.
-/
namespace DeterministicScheduler

open ProgramLogic Program Outcome Std

@[simp] theorem PipeId.otherPipe_otherPipe (p : PipeId) : p.otherPipe.otherPipe = p := by
  simp [PipeId.otherPipe]

theorem PipeId.otherPipe_injective {p q : PipeId} (h : p.otherPipe = q.otherPipe) : p = q := by
  rw [← p.otherPipe_otherPipe, h, q.otherPipe_otherPipe]

namespace Scheduler

variable {μ κ : Type} {env : Env μ κ} {s s' t : Scheduler μ κ}

/-- All VMs that one pass over the pipes acts on. -/
def selectedVms (s : Scheduler μ κ) : List VmId :=
  s.closedVms ++ s.pairedVms.flatMap fun pair => [pair.1.1, pair.2.1]

theorem Running.reading (h : Running s) {id : VmId} {state : VmState} {p : PipeId}
    (hstate : s.states[id]? = some state) (hread : state.reading? = some p) :
    s.pipes[p]? = some id ∧ p.isRead = true := by
  have hallowed := h.allowed id state hstate
  cases state with
  | waitForRead pipe length bufferAddr lengthAddr =>
    cases hread
    exact hallowed
  | _ => cases hread

theorem Running.writing (h : Running s) {id : VmId} {state : VmState} {p : PipeId}
    (hstate : s.states[id]? = some state) (hwrite : state.writing? = some p) :
    s.pipes[p]? = some id ∧ p.isWrite = true := by
  have hallowed := h.allowed id state hstate
  cases state with
  | waitForWrite pipe consumed length bufferAddr lengthAddr =>
    cases hwrite
    exact ⟨hallowed.1, hallowed.2.1⟩
  | _ => cases hwrite

/-- No two VMs wait on the same pipe. -/
theorem Running.waiting_unique (h : Running s) {id id' : VmId} {state state' : VmState}
    {p : PipeId} (hstate : s.states[id]? = some state) (hstate' : s.states[id']? = some state')
    (hwait : state.waiting? = some p) (hwait' : state'.waiting? = some p) : id = id' := by
  have howns : ∀ {k : VmId} {st : VmState}, s.states[k]? = some st → st.waiting? = some p →
      s.pipes[p]? = some k := by
    intro k st hk hp
    have hallowed := h.allowed k st hk
    cases st with
    | waitForRead pipe length bufferAddr lengthAddr =>
      cases hp
      exact hallowed.1
    | waitForWrite pipe consumed length bufferAddr lengthAddr =>
      cases hp
      exact hallowed.1
    | _ => cases hp
  have heq := (howns hstate hwait).symm.trans (howns hstate' hwait')
  exact Option.some.inj heq

theorem reading_or_writing {state : VmState} {p q : PipeId} (hread : state.reading? = some p)
    (hwrite : state.writing? = some q) : False := by
  cases state with
  | waitForRead => cases hwrite
  | _ => cases hread

theorem waiting_of_reading {state : VmState} {p : PipeId} (h : state.reading? = some p) :
    state.waiting? = some p := by
  cases state <;> cases h
  rfl

theorem waiting_of_writing {state : VmState} {p : PipeId} (h : state.writing? = some p) :
    state.waiting? = some p := by
  cases state <;> cases h
  rfl

theorem closedVms_nodup (s : Scheduler μ κ) : s.closedVms.Nodup := by
  have hkeys : ∀ f : VmId × VmState → Bool, ((s.states.toList.filter f).map Prod.fst).Nodup := by
    intro f
    have hsub : ((s.states.toList.filter f).map Prod.fst).Sublist s.states.keys := by
      rw [← ExtTreeMap.map_fst_toList_eq_keys]
      exact List.filter_sublist.map _
    exact ExtTreeMap.nodup_keys.sublist hsub
  rw [closedVms, List.nodup_append]
  refine ⟨hkeys _, hkeys _, ?_⟩
  rintro id hin id' hin' rfl
  obtain ⟨⟨k, st⟩, hv, rfl⟩ := List.mem_map.mp hin
  obtain ⟨⟨k', st'⟩, hv', heq⟩ := List.mem_map.mp hin'
  obtain ⟨hmem, hread⟩ := List.mem_filter.mp hv
  obtain ⟨hmem', hwrite⟩ := List.mem_filter.mp hv'
  rw [ExtTreeMap.mem_toList_iff_getElem?_eq_some] at hmem hmem'
  dsimp only at heq hread hwrite
  rw [heq, hmem, Option.some.injEq] at hmem'
  subst hmem'
  cases st <;> simp [isClosed, VmState.reading?, VmState.writing?] at hread hwrite

/-- The pairs that one pass selects have no VM in common. -/
theorem Running.pairedVms_nodup (h : Running s) :
    (s.pairedVms.flatMap fun pair => [pair.1.1, pair.2.1]).Nodup := by
  rw [List.nodup_flatMap]
  refine ⟨fun pair hpair => by simpa using ne_of_mem_pairedVms hpair, ?_⟩
  rw [pairedVms, List.pairwise_filterMap]
  refine ExtTreeMap.distinct_keys_toList.imp_of_mem ?_
  intro v v' hv hv' hne pair hpair pair' hpair'
  have hmem : pair ∈ s.pairedVms := List.mem_filterMap.mpr ⟨v, hv, hpair⟩
  have hmem' : pair' ∈ s.pairedVms := List.mem_filterMap.mpr ⟨v', hv', hpair'⟩
  obtain ⟨hread, hwrite, p, hp, hp', _⟩ := of_mem_pairedVms hmem
  obtain ⟨hread', hwrite', q, hq, hq', _⟩ := of_mem_pairedVms hmem'
  have hwriters : pair.2.1 ≠ pair'.2.1 := by
    rw [(of_pairOf hpair).1, (of_pairOf hpair').1]
    simpa using hne
  have hreaders : pair.1.1 ≠ pair'.1.1 := by
    intro heq
    rw [heq, hread', Option.some.injEq] at hread
    rw [← hread, hq', Option.some.injEq] at hp'
    rw [← PipeId.otherPipe_injective hp'] at hp
    exact hwriters (h.waiting_unique hwrite hwrite' (waiting_of_writing hp)
      (waiting_of_writing hq))
  have hcross : pair.1.1 ≠ pair'.2.1 := by
    intro heq
    rw [heq, hwrite', Option.some.injEq] at hread
    exact reading_or_writing (hread ▸ hp') hq
  have hcross' : pair.2.1 ≠ pair'.1.1 := by
    intro heq
    rw [heq, hread', Option.some.injEq] at hwrite
    exact reading_or_writing hq' (hwrite ▸ hp)
  simp only [Function.onFun, List.disjoint_cons_left, List.mem_cons, List.not_mem_nil, or_false,
    not_or, List.disjoint_nil_left, and_true]
  exact ⟨⟨hreaders, hcross⟩, hcross', hwriters⟩

/-- A VM in a selected pair does not wait on a pipe with a closed end. -/
theorem Running.pairedVms_open (h : Running s) {pair : (VmId × VmState) × (VmId × VmState)}
    (hpair : pair ∈ s.pairedVms) : pair.1.1 ∉ s.closedVms ∧ pair.2.1 ∉ s.closedVms := by
  obtain ⟨hread, hwrite, p, hp, hp', hopen⟩ := of_mem_pairedVms hpair
  constructor
  · intro hin
    obtain ⟨state, hstate, hclosed⟩ := mem_closedVms.mp hin
    rw [hread, Option.some.injEq] at hstate
    subst hstate
    have howner := (h.writing hwrite hp).1
    rw [waiting_of_reading hp', isClosed, Option.any_some, PipeId.otherPipe_otherPipe,
      Bool.not_eq_true', ← Bool.not_eq_true, ExtTreeMap.contains_iff_mem] at hclosed
    exact hclosed (mem_iff_getElem?.mpr ⟨_, howner⟩)
  · intro hin
    obtain ⟨state, hstate, hclosed⟩ := mem_closedVms.mp hin
    rw [hwrite, Option.some.injEq] at hstate
    subst hstate
    rw [waiting_of_writing hp, isClosed, Option.any_some, hopen] at hclosed
    cases hclosed

/-- A waiting writer whose reader waits too is in a selected pair with it. -/
theorem Running.mem_pairedVms (h : Running s) {k k' : VmId} {state state' : VmState} {p : PipeId}
    (hread : s.states[k']? = some state') (hwrite : s.states[k]? = some state)
    (hreading : state'.reading? = some p.otherPipe) (hwriting : state.writing? = some p) :
    ((k', state'), (k, state)) ∈ s.pairedVms := by
  have hmem := ExtTreeMap.mem_toList_iff_getElem?_eq_some.mpr hwrite
  have hmem' := ExtTreeMap.mem_toList_iff_getElem?_eq_some.mpr hread
  have hopen : s.pipes.contains p.otherPipe = true :=
    ExtTreeMap.contains_iff_mem.mpr (mem_iff_getElem?.mpr ⟨k', (h.reading hread hreading).1⟩)
  have hother : s.pipes.contains p.otherPipe.otherPipe = true := by
    rw [PipeId.otherPipe_otherPipe]
    exact ExtTreeMap.contains_iff_mem.mpr (mem_iff_getElem?.mpr ⟨k, (h.writing hwrite hwriting).1⟩)
  obtain ⟨⟨u, stateU⟩, hu⟩ := collectReads_fst_isSome hmem' hreading hother
  obtain ⟨huMem, huReading, _⟩ := of_collectReads_fst hu
  rw [ExtTreeMap.mem_toList_iff_getElem?_eq_some] at huMem
  obtain rfl : u = k' := h.waiting_unique huMem hread (waiting_of_reading huReading)
    (waiting_of_reading hreading)
  rw [hread, Option.some.injEq] at huMem
  subst huMem
  refine List.mem_filterMap.mpr ⟨(k, state), hmem, ?_⟩
  simp only [pairOf, hwriting, hopen, if_true, hu, Option.map_some]

/-- The operations that one pass over the pipes finishes or moves on belong to
pairwise distinct VMs. -/
theorem Running.selectedVms_nodup (h : Running s) : s.selectedVms.Nodup := by
  rw [selectedVms, List.nodup_append]
  refine ⟨closedVms_nodup s, h.pairedVms_nodup, ?_⟩
  rintro id hclosed id' hpaired rfl
  obtain ⟨pair, hpair, hid⟩ := List.mem_flatMap.mp hpaired
  obtain ⟨hread, hwrite⟩ := h.pairedVms_open hpair
  simp only [List.mem_cons, List.not_mem_nil, or_false] at hid
  rcases hid with rfl | rfl
  · exact hread hclosed
  · exact hwrite hclosed

section Passes

variable [Memory μ] {l : List (Event μ)}

/-- Some operations finished or moved on: steps that run no machine and leave
alone all but the states and the machines of their VMs. -/
structure Passes (env : Env μ κ) (ids : List VmId) (s : Scheduler μ κ) (l : List (Event μ))
    (t : Scheduler μ κ) : Prop where
  steps : Steps env s l t
  quiet : ∀ ev ∈ l, ev.quiet = true
  pipes : t.pipes = s.pipes
  nextPipeSlot : t.nextPipeSlot = s.nextPipeSlot
  nextVmId : t.nextVmId = s.nextVmId
  terminatedVms : t.terminatedVms = s.terminatedVms
  totalCycles : t.totalCycles = s.totalCycles
  live : ∀ k, k ∈ t.states ↔ k ∈ s.states
  states : ∀ k, k ∉ ids → t.states[k]? = s.states[k]?
  machines : ∀ k, k ∉ ids → t.instantiated[k]? = s.instantiated[k]?

theorem Passes.refl {ids : List VmId} (s : Scheduler μ κ) : Passes env ids s [] s :=
  ⟨.refl, by simp, rfl, rfl, rfl, rfl, rfl, fun _ => Iff.rfl, fun _ _ => rfl, fun _ _ => rfl⟩

theorem Passes.trans {ids ids' : List VmId} {u : Scheduler μ κ} {l' : List (Event μ)}
    (h : Passes env ids s l t) (h' : Passes env ids' t l' u) :
    Passes env (ids ++ ids') s (l ++ l') u := by
  refine ⟨h.steps.trans h'.steps, ?_, h'.pipes.trans h.pipes,
    h'.nextPipeSlot.trans h.nextPipeSlot, h'.nextVmId.trans h.nextVmId,
    h'.terminatedVms.trans h.terminatedVms, h'.totalCycles.trans h.totalCycles,
    fun k => (h'.live k).trans (h.live k), ?_, ?_⟩
  · intro ev hev
    exact (List.mem_append.mp hev).elim (h.quiet ev) (h'.quiet ev)
  · intro k hk
    rw [List.mem_append, not_or] at hk
    rw [h'.states k hk.2, h.states k hk.1]
  · intro k hk
    rw [List.mem_append, not_or] at hk
    rw [h'.machines k hk.2, h.machines k hk.1]

theorem Passes.closed {id : VmId} {state : VmState} {m : Machine μ} {core : Core μ}
    (hstate : s.states[id]? = some state) (hclosed : isClosed s.pipes state.waiting? = true)
    (hm : s.instantiated[id]? = some m)
    (hcore : applyEvents (closedEvents id state) m.toCore = .ok core) :
    Passes env [id] s (closedEvents id state) (s.settled id m core .runnable) := by
  have hid : id ∈ s.states := mem_iff_getElem?.mpr ⟨_, hstate⟩
  refine ⟨.single (.closed hstate hclosed hm hcore), ?_, rfl, rfl, rfl, rfl, rfl,
    fun k => mem_insert_of_mem hid, ?_, ?_⟩
  · have hquiet : (closedEvents id state : List (Event μ)).all Event.quiet = true := by
      cases state <;> rfl
    exact List.all_eq_true.mp hquiet
  all_goals
    intro k hk
    rw [List.mem_singleton] at hk
    simp only [Scheduler.settled, accessed, getElem?_insert, if_neg hk]

theorem Passes.transferred {rd : Read} {wr : Write} {mr mw : Machine μ} {data : Bytes}
    {readCore writeCore : Core μ}
    (hread : s.states[rd.vmId]? = some (rd.state wr.pipe.otherPipe))
    (hwrite : s.states[wr.vmId]? = some wr.state)
    (hstep : Step env s (transferLog rd wr data)
      ((s.settled rd.vmId mr readCore .runnable).settled wr.vmId mw writeCore (wr.next rd))) :
    Passes env [rd.vmId, wr.vmId] s (transferLog rd wr data)
      ((s.settled rd.vmId mr readCore .runnable).settled wr.vmId mw writeCore (wr.next rd)) := by
  have hlive : rd.vmId ∈ s.states := mem_iff_getElem?.mpr ⟨_, hread⟩
  have hlive' : wr.vmId ∈ s.states := mem_iff_getElem?.mpr ⟨_, hwrite⟩
  refine ⟨.single hstep, ?_, rfl, rfl, rfl, rfl, rfl, ?_, ?_, ?_⟩
  · have hquiet : (transferLog rd wr data : List (Event μ)).all Event.quiet = true := by
      simp only [transferLog, Write.events]
      split <;> rfl
    exact List.all_eq_true.mp hquiet
  · intro k
    rw [settled, accessed]
    simp only [mem_insert, settled]
    constructor
    · rintro (rfl | rfl | hk)
      · exact hlive'
      · exact hlive
      · exact hk
    · exact fun hk => Or.inr (Or.inr hk)
  all_goals
    intro k hk
    simp only [List.mem_cons, List.not_mem_nil, or_false, not_or] at hk
    simp only [settled, accessed, getElem?_insert, if_neg hk.1, if_neg hk.2]

/-- The selected operations carried out one after another: those whose pipe is closed
on the other end, and then the pairs of a reader and a writer. -/
inductive CarriedOut (env : Env μ κ) : List VmId → List ((VmId × VmState) × (VmId × VmState)) →
    Scheduler μ κ → List (Event μ) → Scheduler μ κ → Prop
  | done (s : Scheduler μ κ) : CarriedOut env [] [] s [] s
  | closed {ids : List VmId} {pairs : List ((VmId × VmState) × (VmId × VmState))}
    {s s' : Scheduler μ κ} {l : List (Event μ)} {id : VmId} {state : VmState} {m : Machine μ}
    {core : Core μ} (hstate : s.states[id]? = some state)
    (hclosed : isClosed s.pipes state.waiting? = true) (hm : s.instantiated[id]? = some m)
    (hcore : applyEvents (closedEvents id state) m.toCore = .ok core)
    (h : CarriedOut env ids pairs (s.settled id m core .runnable) l s') :
    CarriedOut env (id :: ids) pairs s (closedEvents id state ++ l) s'
  | transferred {pairs : List ((VmId × VmState) × (VmId × VmState))} {s s' : Scheduler μ κ}
    {l : List (Event μ)} {rd : Read} {wr : Write} {mr mw : Machine μ} {data : Bytes}
    {readCore writeCore : Core μ}
    (hread : s.states[rd.vmId]? = some (rd.state wr.pipe.otherPipe))
    (hwrite : s.states[wr.vmId]? = some wr.state) (hopen : wr.pipe.otherPipe ∈ s.pipes)
    (hmr : s.instantiated[rd.vmId]? = some mr) (hmw : s.instantiated[wr.vmId]? = some mw)
    (hle : wr.consumed ≤ wr.length)
    (hload : Memory.loadBytes mw.memory (wr.bufferAddr + wr.consumed) (wr.copiable rd) = .ok data)
    (hreadCore : applyEvents (rd.events data (wr.copiable rd)) mr.toCore = .ok readCore)
    (hwriteCore : applyEvents (wr.events rd) mw.toCore = .ok writeCore)
    (h : CarriedOut env [] pairs
      ((s.settled rd.vmId mr readCore .runnable).settled wr.vmId mw writeCore (wr.next rd)) l s') :
    CarriedOut env [] (((rd.vmId, rd.state wr.pipe.otherPipe), (wr.vmId, wr.state)) :: pairs) s
      (transferLog rd wr data ++ l) s'

theorem CarriedOut.append {ids : List VmId} {pairs : List ((VmId × VmState) × (VmId × VmState))}
    {u : Scheduler μ κ} {l' : List (Event μ)} (h : CarriedOut env ids [] s l t)
    (h' : CarriedOut env [] pairs t l' u) : CarriedOut env ids pairs s (l ++ l') u := by
  generalize hnone : ([] : List ((VmId × VmState) × (VmId × VmState))) = none at h
  induction h with
  | done => exact h'
  | closed hstate hclosed hm hcore _ ih =>
    rw [List.append_assoc]
    exact .closed hstate hclosed hm hcore (ih h' hnone)
  | transferred => cases hnone

omit [Memory μ] in
/-- The states of the other VMs after an operation on a closed pipe. -/
theorem states_closed {id k : VmId} {core : Core μ} {m : Machine μ} (hk : k ≠ id) :
    (s.settled id m core .runnable).states[k]? = s.states[k]? := by
  simp only [settled, accessed, getElem?_insert, if_neg hk]

omit [Memory μ] in
/-- The states of the other VMs after a transfer. -/
theorem states_transferred {rd : Read} {wr : Write} {mr mw : Machine μ}
    {readCore writeCore : Core μ} {k : VmId} (hk : k ≠ wr.vmId ∧ k ≠ rd.vmId) :
    ((s.settled rd.vmId mr readCore .runnable).settled wr.vmId mw writeCore
      (wr.next rd)).states[k]? = s.states[k]? := by
  simp only [settled, accessed, getElem?_insert, if_neg hk.1, if_neg hk.2]

theorem finishClosed_carriedOut {ids : List VmId} (hinv : Invariant s) (hnodup : ids.Nodup)
    (hids : ∀ id ∈ ids, ∃ state, s.states[id]? = some state ∧
      isClosed s.pipes state.waiting? = true)
    (h : ids.forM finishClosed s = .ok ⟨⟩ s' l) : CarriedOut env ids [] s l s' := by
  induction ids generalizing s l with
  | nil =>
    cases h
    exact .done _
  | cons id ids ih =>
    obtain ⟨hnot, hnodup⟩ := List.nodup_cons.mp hnodup
    obtain ⟨state, hstate, hclosed⟩ := hids id (by simp)
    obtain ⟨m, hm⟩ := hinv.resident.machine (mem_iff_getElem?.mpr ⟨_, hstate⟩)
    rw [forM_cons] at h
    obtain ⟨_, s₁, l₁, l₂, h₁, h₂, rfl⟩ := bind_eq_ok.mp h
    obtain ⟨core, hcore, rfl, rfl⟩ := finishClosed_ok hstate hclosed hm h₁
    have hstep : Step env s (closedEvents id state) (s.settled id m core .runnable) :=
      .closed hstate hclosed hm hcore
    refine .closed hstate hclosed hm hcore (ih (hstep.invariant hinv) hnodup ?_ h₂)
    intro k hk
    have hne : k ≠ id := by
      rintro rfl
      exact hnot hk
    rw [states_closed hne]
    exact hids k (by simp [hk])

/-- A pair of a reader and a writer of one pipe, as a read and a write. -/
theorem pair_cases {pair : (VmId × VmState) × (VmId × VmState)} {p : PipeId}
    (hwrite : pair.2.2.writing? = some p) (hread : pair.1.2.reading? = some p.otherPipe) :
    ∃ (rd : Read) (wr : Write), pair =
      ((rd.vmId, rd.state wr.pipe.otherPipe), (wr.vmId, wr.state)) ∧
      wr.pipe = p := by
  obtain ⟨⟨readVmId, readState⟩, ⟨writeVmId, writeState⟩⟩ := pair
  cases readState with
  | waitForRead readPipe readLength readBufferAddr readLengthAddr =>
    cases writeState with
    | waitForWrite writePipe consumed writeLength writeBufferAddr writeLengthAddr =>
      cases hwrite
      cases hread
      exact ⟨⟨readVmId, readLength, readBufferAddr, readLengthAddr⟩,
        ⟨writeVmId, p, consumed, writeLength, writeBufferAddr, writeLengthAddr⟩, rfl, rfl⟩
    | _ => cases hwrite
  | _ => cases hread

theorem transferPair_carriedOut {pairs : List ((VmId × VmState) × (VmId × VmState))}
    (hinv : Invariant s)
    (hnodup : (pairs.flatMap fun pair => [pair.1.1, pair.2.1]).Nodup)
    (hpairs : ∀ pair ∈ pairs, s.states[pair.1.1]? = some pair.1.2 ∧
      s.states[pair.2.1]? = some pair.2.2 ∧ ∃ p, pair.2.2.writing? = some p ∧
        pair.1.2.reading? = some p.otherPipe ∧ s.pipes.contains p.otherPipe = true)
    (h : pairs.forM (transferPair none env) s = .ok ⟨⟩ s' l) : CarriedOut env [] pairs s l s' := by
  induction pairs generalizing s l with
  | nil =>
    cases h
    exact .done _
  | cons pair pairs ih =>
    rw [List.flatMap_cons, List.nodup_append] at hnodup
    obtain ⟨hpair, hnodup, hdisjoint⟩ := hnodup
    obtain ⟨hread, hwrite, p, hwriting, hreading, hopen⟩ := hpairs pair (by simp)
    obtain ⟨rd, wr, rfl, rfl⟩ := pair_cases hwriting hreading
    have hne : rd.vmId ≠ wr.vmId := by simpa using hpair
    obtain ⟨mr, hmr⟩ := hinv.resident.machine (mem_iff_getElem?.mpr ⟨_, hread⟩)
    obtain ⟨mw, hmw⟩ := hinv.resident.machine (mem_iff_getElem?.mpr ⟨_, hwrite⟩)
    rw [forM_cons] at h
    obtain ⟨_, s₁, l₁, l₂, h₁, h₂, rfl⟩ := bind_eq_ok.mp h
    obtain ⟨data, readCore, writeCore, hle, hload, hreadCore, hwriteCore, rfl, rfl⟩ :=
      transferPair_ok hinv.resident hmr hmw hne h₁
    have hmem := ExtTreeMap.contains_iff_mem.mp hopen
    have hstep : Step env s (transferLog rd wr data)
        ((s.settled rd.vmId mr readCore .runnable).settled wr.vmId mw writeCore (wr.next rd)) :=
      .transferred hread hwrite hmem hmr hmw hload hreadCore hwriteCore
    have hother : ∀ k ∈ pairs.flatMap (fun pair => [pair.1.1, pair.2.1]),
        k ≠ wr.vmId ∧ k ≠ rd.vmId := by
      intro k hk
      exact ⟨fun heq => hdisjoint wr.vmId (by simp) k hk heq.symm,
        fun heq => hdisjoint rd.vmId (by simp) k hk heq.symm⟩
    refine .transferred hread hwrite hmem hmr hmw hle hload hreadCore hwriteCore
      (ih (hstep.invariant hinv) hnodup ?_ h₂)
    intro pair' hpair'
    have hin : pair'.1.1 ∈ pairs.flatMap (fun pair => [pair.1.1, pair.2.1]) ∧
        pair'.2.1 ∈ pairs.flatMap (fun pair => [pair.1.1, pair.2.1]) := by
      simp only [List.mem_flatMap]
      exact ⟨⟨pair', hpair', by simp⟩, ⟨pair', hpair', by simp⟩⟩
    rw [states_transferred (hother _ hin.1), states_transferred (hother _ hin.2)]
    exact hpairs pair' (by simp [hpair'])

/-- The VMs of some operations that a pass goes through. -/
def operatingVms (ids : List VmId) (pairs : List ((VmId × VmState) × (VmId × VmState))) :
    List VmId :=
  ids ++ pairs.flatMap fun pair => [pair.1.1, pair.2.1]

/-- Operations of different VMs are steps, after which all but the writers are
runnable. -/
theorem CarriedOut.passes {ids : List VmId} {pairs : List ((VmId × VmState) × (VmId × VmState))}
    (h : CarriedOut env ids pairs s l s') (hnodup : (operatingVms ids pairs).Nodup) :
    Passes env (operatingVms ids pairs) s l s' ∧ (∀ id ∈ ids, s'.states[id]? = some .runnable) ∧
      ∀ pair ∈ pairs, s'.states[pair.1.1]? = some .runnable := by
  induction h with
  | done s => exact ⟨.refl s, by simp, by simp⟩
  | @closed ids pairs s s' l id state m core hstate hclosed hm hcore _ ih =>
    have hpass : Passes env [id] s (closedEvents id state) (s.settled id m core .runnable) :=
      .closed hstate hclosed hm hcore
    obtain ⟨hnot, hnodup⟩ := List.nodup_cons.mp hnodup
    obtain ⟨hrest, hdone, hreaders⟩ := ih hnodup
    refine ⟨hpass.trans hrest, fun k hk => ?_, hreaders⟩
    rcases List.mem_cons.mp hk with rfl | hk
    · rw [hrest.states k hnot]
      simp only [settled, getElem?_insert, if_true]
    · exact hdone k hk
  | @transferred pairs s s' l rd wr mr mw data readCore writeCore hread hwrite hopen hmr hmw hle
      hload hreadCore hwriteCore _ ih =>
    have hpass : Passes env [rd.vmId, wr.vmId] s (transferLog rd wr data) _ :=
      .transferred hread hwrite
        (.transferred hread hwrite hopen hmr hmw hload hreadCore hwriteCore)
    change (rd.vmId :: wr.vmId :: operatingVms [] pairs).Nodup at hnodup
    simp only [List.nodup_cons, List.mem_cons, not_or] at hnodup
    obtain ⟨⟨hne, hreadNot⟩, _, hnodup⟩ := hnodup
    obtain ⟨hrest, _, hreaders⟩ := ih hnodup
    refine ⟨hpass.trans hrest, by simp, fun pair hpair => ?_⟩
    rcases List.mem_cons.mp hpair with rfl | hpair
    · rw [hrest.states rd.vmId hreadNot]
      simp only [settled, getElem?_insert, if_neg hne, if_true]
    · exact hreaders pair hpair

theorem finishClosed_passes {ids : List VmId} (hinv : Invariant s) (hnodup : ids.Nodup)
    (hids : ∀ id ∈ ids, ∃ state, s.states[id]? = some state ∧
      isClosed s.pipes state.waiting? = true)
    (h : ids.forM finishClosed s = .ok ⟨⟩ s' l) :
    Passes env ids s l s' ∧ ∀ id ∈ ids, s'.states[id]? = some .runnable := by
  have hcarried : CarriedOut env ids [] s l s' := finishClosed_carriedOut hinv hnodup hids h
  have hvms : operatingVms ids [] = ids := List.append_nil ids
  obtain ⟨hpass, hdone, _⟩ := hcarried.passes (by rwa [hvms])
  exact ⟨hvms ▸ hpass, hdone⟩

/-- A pass carries the operations out that it has selected. -/
theorem processIo_carriedOut (hinv : Invariant s) (hrun : Running s)
    (h : processIo none env s = .ok ⟨⟩ s' l) : CarriedOut env s.closedVms s.pairedVms s l s' := by
  rw [processIo_run] at h
  obtain ⟨_, s₁, l₁, l₂, h₁, h₂, rfl⟩ := bind_eq_ok.mp h
  have hids : ∀ id ∈ s.closedVms, ∃ state, s.states[id]? = some state ∧
      isClosed s.pipes state.waiting? = true := fun id hid => mem_closedVms.mp hid
  have hclosed : CarriedOut env s.closedVms [] s l₁ s₁ :=
    finishClosed_carriedOut hinv (closedVms_nodup s) hids h₁
  obtain ⟨hpass, _⟩ : Passes env s.closedVms s l₁ s₁ ∧ _ :=
    finishClosed_passes hinv (closedVms_nodup s) hids h₁
  have hpairs : ∀ pair ∈ s.pairedVms, s₁.states[pair.1.1]? = some pair.1.2 ∧
      s₁.states[pair.2.1]? = some pair.2.2 ∧ ∃ p, pair.2.2.writing? = some p ∧
        pair.1.2.reading? = some p.otherPipe ∧ s₁.pipes.contains p.otherPipe = true := by
    intro pair hpair
    obtain ⟨hread, hwrite⟩ := hrun.pairedVms_open hpair
    rw [hpass.states _ hread, hpass.states _ hwrite, hpass.pipes]
    exact of_mem_pairedVms hpair
  exact hclosed.append
    (transferPair_carriedOut (Steps.invariant hpass.steps hinv) hrun.pairedVms_nodup hpairs h₂)

/-- One pass over the pipes acts on the selected VMs only, and all of these but
the writers become runnable. -/
theorem processIo_passes (hinv : Invariant s) (hrun : Running s)
    (h : processIo none env s = .ok ⟨⟩ s' l) :
    Passes env s.selectedVms s l s' ∧ (∀ id ∈ s.closedVms, s'.states[id]? = some .runnable) ∧
      ∀ pair ∈ s.pairedVms, s'.states[pair.1.1]? = some .runnable :=
  (processIo_carriedOut hinv hrun h).passes hrun.selectedVms_nodup

end Passes

section Iterations

variable [Memory μ] {l : List (Event μ)} {id : VmId}

/-- How an execution that does not crash ends, by its result. -/
def stopped (result : Except Error Int8) (cpu : Cpu μ) (posted : List Message) :
    Outcome Error Message (Cpu μ) Int8 :=
  match result with
  | .ok code => .ok code cpu posted
  | .error e => .err e cpu posted

/-- Running a VM executes its machine and puts what it posts in the box. -/
theorem runVm_meets (hinv : Invariant s) (hid : vmIdToRun s.states = some id) (pause : Pause)
    (limitCycles : ℕ) :
    (runVm none env id pause limitCycles s).Meets
      (fun r s' l => ∃ m cpu posted, Executes env s id m r.1 cpu posted ∧
        runMachine env ⟨id, s.totalCycles⟩ limitCycles pause m.toCpu = stopped r.1 cpu posted ∧
        r.2 = cpu.cycles ∧ l = [.exec id m.toCpu cpu r.1 posted] ∧
        s' = { s.ran id m r.1 cpu with messageBox := posted } ∧
        (r.1.isOk = true → posted = []) ∧ ∀ e, r.1 = .error e → Stops id e posted)
      (fun e _ _ => e = .cyclesOverflow) True := by
  have hlive : id ∈ s.states := mem_iff_getElem?.mpr ⟨_, of_vmIdToRun hid⟩
  obtain ⟨m, hm⟩ := hinv.resident.machine hlive
  have hensure : ensureVmsInstantiated none env [id] s = .ok ⟨⟩ s [] := by
    refine ensureVmsInstantiated_noop ?_ (by simp)
    simpa using (hinv.resident.cover id).mp hlive
  have hmeets := runMachine_meets env ⟨id, s.totalCycles⟩ limitCycles pause m.toCpu
  rw [runVm_run hensure hm]
  cases hrun : runMachine env ⟨id, s.totalCycles⟩ limitCycles pause m.toCpu with
  | panic => trivial
  | ok code cpu posted =>
    rw [hrun] at hmeets
    simp only [execution]
    split
    · rename_i htotal
      refine ⟨m, cpu, posted, ⟨hid, hm, ⟨limitCycles, pause, hrun⟩, htotal⟩, hrun, rfl,
        rfl, ?_, ?_, ?_⟩
      · simp only [executed, ran, afterRun, hinv.box, List.nil_append]
      · exact fun _ => hmeets.1
      · intro e he
        cases he
    · rfl
  | err e cpu posted =>
    rw [hrun] at hmeets
    simp only [execution]
    split
    · rename_i htotal
      refine ⟨m, cpu, posted, ⟨hid, hm, ⟨limitCycles, pause, hrun⟩, htotal⟩, hrun, rfl,
        rfl, ?_, ?_, ?_⟩
      · simp only [executed, ran, afterRun, hinv.box, List.nil_append]
      · intro hok
        cases hok
      · intro e' he'
        cases he'
        exact hmeets.1
    · rfl

omit [Memory μ] in
theorem ran_box (hinv : Invariant s) {m : Machine μ} {result : Except Error Int8} {cpu : Cpu μ} :
    ({ s.ran id m result cpu with messageBox := [] } : Scheduler μ κ) = s.ran id m result cpu := by
  simp only [ran, hinv.box]

theorem joiners_ok {joiners : List (VmId × UInt64)} {code : Int8} {terminatedVms}
    (hres : Resident s) (hjoiners : ∀ p ∈ joiners, p.1 ∈ s.states)
    (h : joiners.forM (fun p => finishJoin none env p.1 p.2 code) { s with terminatedVms } =
      .ok ⟨⟩ s' l) :
    ∃ t, Woken code joiners s l t ∧ s' = { t with terminatedVms } := by
  induction joiners generalizing s l with
  | nil =>
    cases h
    exact ⟨s, .nil s, rfl⟩
  | cons p joiners ih =>
    obtain ⟨id, addr⟩ := p
    have hid : id ∈ s.states := hjoiners (id, addr) (by simp)
    obtain ⟨m, hm⟩ := hres.machine hid
    rw [forM_cons] at h
    obtain ⟨_, s₁, l₁, l₂, h₁, h₂, rfl⟩ := bind_eq_ok.mp h
    have hres' : Resident { s with terminatedVms } := ⟨hres.suspended, hres.cover, hres.fresh⟩
    obtain ⟨core, hcore, rfl, rfl⟩ := finishJoin_ok hres' hid hm h₁
    have hsettled : Resident (s.settled id m core .runnable) := hres.settled hid
    obtain ⟨t, hwoken, ht⟩ := ih hsettled (by
      intro p hp
      exact (mem_insert_of_mem hid).mpr (hjoiners p (by simp [hp]))) h₂
    exact ⟨t, .cons hid hm hcore hwoken, ht⟩

/-- How the scheduler goes on after a VM exited. -/
theorem terminateVm_ok (hres : Resident s) (hid : id ∈ s.states) {code : Int8}
    (h : terminateVm none env id code s = .ok ⟨⟩ s' l) :
    (id = rootVmId ∧ l = [] ∧ s' = s.completed code) ∨
      (id ≠ rootVmId ∧ ∃ t, Woken code (joiningVms s.states id) s l t ∧ s' = t.purged id code) := by
  have hres' : Resident { s with terminatedVms := s.terminatedVms.insert id code } :=
    ⟨hres.suspended, hres.cover, hres.fresh⟩
  simp only [terminateVm, modify_bind_run] at h
  split at h
  · rename_i hroot
    subst hroot
    rw [hres'.ensure_bind (by simpa using hid)] at h
    cases h
    exact Or.inl ⟨rfl, rfl, rfl⟩
  · rename_i hroot
    rw [get_bind_run] at h
    obtain ⟨_, s₁, l₁, l₂, h₁, h₂, rfl⟩ := bind_eq_ok.mp h
    have hjoiners : ∀ p ∈ joiningVms s.states id, p.1 ∈ s.states := fun p hp =>
      mem_iff_getElem?.mpr ⟨_, mem_joiningVms.mp hp⟩
    obtain ⟨t, hwoken, rfl⟩ := joiners_ok hres hjoiners h₁
    cases h₂
    refine Or.inr ⟨hroot, t, by simpa using hwoken, ?_⟩
    simp only [purged, hwoken.frame.2.2.2.2.2.1]

/-- What a round did: a pass over the pipes, then one execution with its answer. -/
def RoundOf (env : Env μ κ) (limitCycles : ℕ) (s s' : Scheduler μ κ) (l : List (Event μ)) : Prop :=
  ∃ s₁ l₁ l₂, processIo none env s = .ok ⟨⟩ s₁ l₁ ∧ Passes env s.selectedVms s l₁ s₁ ∧
    Step env s₁ l₂ s' ∧ l = .iterate limitCycles :: (l₁ ++ l₂)

/-- A round in which the machine `m` of a VM ran, from its pass to its answer. -/
def Ran (env : Env μ κ) (pause : Pause) (limitCycles : ℕ) (s s' : Scheduler μ κ)
    (l : List (Event μ)) (id : VmId) (m : Machine μ) (result : Except Error Int8) (cpu : Cpu μ) :
    Prop :=
  ∃ s₁ l₁ l₂ posted, processIo none env s = .ok ⟨⟩ s₁ l₁ ∧ Passes env s.selectedVms s l₁ s₁ ∧
    runMachine env ⟨id, s₁.totalCycles⟩ limitCycles pause m.toCpu = stopped result cpu posted ∧
    Step env s₁ (.exec id m.toCpu cpu result posted :: l₂) s' ∧
    l = .iterate limitCycles :: (l₁ ++ .exec id m.toCpu cpu result posted :: l₂)

theorem Ran.roundOf {pause : Pause} {limitCycles : ℕ} {m : Machine μ} {result : Except Error Int8}
    {cpu : Cpu μ} (h : Ran env pause limitCycles s s' l id m result cpu) :
    RoundOf env limitCycles s s' l := by
  obtain ⟨s₁, l₁, l₂, posted, hio, hpass, _, hstep, hl⟩ := h
  exact ⟨s₁, l₁, _, hio, hpass, hstep, hl⟩

/-- The errors of a round: an interruption after a whole round, a deadlock where
no VM is runnable after the pass over the pipes, or anything fatal. -/
def RoundFails (env : Env μ κ) (limitCycles : ℕ) (s : Scheduler μ κ) (e : Error)
    (s' : Scheduler μ κ) (l : List (Event μ)) : Prop :=
  (e.Interrupt ∧ RoundOf env limitCycles s s' l) ∨ e.Fatal ∨
    (e = .deadlock ∧ ∃ l₁, processIo none env s = .ok ⟨⟩ s' l₁ ∧ vmIdToRun s'.states = none)

theorem iterate_ran (hinv : Invariant s) (hrun : Running s) (pause : Pause) (limitCycles : ℕ) :
    (iterate none env pause limitCycles s).Meets
      (fun consumedCycles s' l => ∃ id m result cpu, consumedCycles = cpu.cycles ∧
        (result.isOk = true ∨ result = .error .yield) ∧
        Ran env pause limitCycles s s' l id m result cpu)
      (fun e s' l => (e.Interrupt ∧ ∃ id m cpu,
          Ran env pause limitCycles s s' l id m (.error e) cpu ∧
            s'.states[rootVmId]? ≠ some .terminated) ∨
        e.Fatal ∨
        (e = .deadlock ∧ ∃ l₁, processIo none env s = .ok ⟨⟩ s' l₁ ∧ vmIdToRun s'.states = none))
      True := by
  simp only [iterate, emit_bind_run]
  refine Meets.after ?_
  rw [bind_run]
  cases hio : processIo none env s with
  | panic => trivial
  | err e s' l =>
    have hfatal := (regular_processIo (P := fun _ => False) (B := False) none env).fails s
    rw [hio] at hfatal
    exact Or.inr (Or.inl hfatal)
  | ok a s₁ l₁ =>
    obtain ⟨hpass, _⟩ := processIo_passes hinv hrun hio
    have hinv₁ := Steps.invariant hpass.steps hinv
    refine Meets.after ?_
    simp only [get_bind_run]
    cases hid : vmIdToRun s₁.states with
    | none => exact Or.inr (Or.inr ⟨rfl, l₁, rfl, hid⟩)
    | some id =>
      refine meets_bind ((runVm_meets hinv₁ hid pause limitCycles).mono (fun _ _ _ h => h)
        (fun e s' l he => Or.inr (Or.inl (he ▸ Error.fatal_cyclesOverflow))) (fun h => h)) ?_
      rintro ⟨result, consumedCycles⟩ s₂ l₂
        ⟨m, cpu, posted, hexec, hmachine, rfl, rfl, rfl, hok, hstops⟩
      have hround : ∀ {s' : Scheduler μ κ} {l₂ : List (Event μ)},
          Step env s₁ (.exec id m.toCpu cpu result posted :: l₂) s' →
          Ran env pause limitCycles s s' ([.iterate limitCycles] ++
            (l₁ ++ ([.exec id m.toCpu cpu result posted] ++ l₂))) id m result cpu :=
        fun hstep => ⟨s₁, l₁, _, posted, hio, hpass, hmachine, hstep, rfl⟩
      have hinv₂ := hinv₁.ran hexec
      have hstate : (s₁.ran id m result cpu).states[id]? = some .runnable := hexec.state
      have hran : (s₁.ran id m result cpu).instantiated[id]? = some (afterRun m result cpu) := by
        simp only [ran, getElem?_insert, if_true]
      have hboxEmpty := hinv₂.box
      rw [bind_run]
      simp only [processMessageBox, get_bind_run, modify_bind_run, ran_box hinv₁]
      cases result with
      | ok code =>
        obtain rfl := hok rfl
        simp only [forM_nil_run, hboxEmpty, List.isEmpty_nil, if_true]
        refine Meets.after ?_
        rw [bind_run]
        cases hterm : terminateVm none env id code (s₁.ran id m (.ok code) cpu) with
        | panic => trivial
        | err e s' l =>
          have hfatal := (regular_terminateVm (B := False) none env id code).fails
              (s₁.ran id m (.ok code) cpu)
          rw [hterm] at hfatal
          exact Or.inr (Or.inl hfatal)
        | ok _ s' l =>
          have hmem := mem_iff_getElem?.mpr ⟨_, hstate⟩
          rcases terminateVm_ok hinv₂.resident hmem hterm with
            ⟨rfl, rfl, rfl⟩ | ⟨hne, t, hwoken, rfl⟩
          · exact ⟨_, m, _, cpu, rfl, Or.inl rfl, hround (.rootExited hexec)⟩
          · refine Meets.after ?_
            refine ⟨id, m, .ok code, cpu, rfl, Or.inl rfl, ?_⟩
            simpa using hround (.exited hexec hne hwoken)
      | error e =>
        rcases hstops e rfl with ⟨hinterrupt, rfl⟩ | ⟨hfatal, rfl⟩ | ⟨rfl, msg, rfl, hmsg, hchecked⟩
        · have hne : e ≠ .yield := by
            rintro rfl
            simp [Error.Interrupt, Error.yield] at hinterrupt
          simp only [forM_nil_run, hboxEmpty, List.isEmpty_nil, if_true, if_neg hne]
          refine Or.inl ⟨hinterrupt, id, m, cpu, hround (.interrupted hexec hinterrupt), ?_⟩
          intro hroot
          have hrun₁ : Running s₁ := hinv₁.running hexec.state (by simp)
          exact hrun₁.allowed _ _ hroot
        · simp only [forM_nil_run, hboxEmpty, List.isEmpty_nil, if_true, if_neg hfatal.1]
          exact Or.inr (Or.inl hfatal)
        · have hsender : msg.vmId = id := Option.some.inj hmsg
          rw [forM_cons, bind_run]
          cases hmessage : processMessage none env msg (s₁.ran id m (.error .yield) cpu) with
          | panic => trivial
          | err e s' l =>
            have hfatal := (regular_processMessage (P := fun _ => False)
                (B := False) none env msg).fails
              (s₁.ran id m (.error .yield) cpu)
            rw [hmessage] at hfatal
            exact Or.inr (Or.inl hfatal)
          | ok _ s' l =>
            obtain ⟨l', rfl, hanswer⟩ :=
              processMessage_ok hinv₂.resident hstate hran hsender hmessage
            have hbox := (hanswer.invariant hinv₂ hsender hstate hchecked).box
            refine Meets.after ?_
            rw [hbox, List.isEmpty_nil, if_pos rfl]
            refine ⟨id, m, .error .yield, cpu, rfl, Or.inr rfl, ?_⟩
            simpa using hround (.answered hexec hsender hchecked hanswer)

theorem iterate_meets (hinv : Invariant s) (hrun : Running s) (pause : Pause)
    (limitCycles : ℕ) :
    (iterate none env pause limitCycles s).Meets (fun _ s' l => RoundOf env limitCycles s s' l)
      (RoundFails env limitCycles s) True := by
  apply (iterate_ran hinv hrun pause limitCycles).mono
  · rintro _ s' l ⟨id, m, result, cpu, _, _, hran⟩
    exact hran.roundOf
  · rintro e s' l (⟨hinterrupt, id, m, cpu, hran, _⟩ | hfails)
    · exact Or.inl ⟨hinterrupt, hran.roundOf⟩
    · exact Or.inr hfails
  · exact fun h => h

end Iterations

end Scheduler

end DeterministicScheduler
