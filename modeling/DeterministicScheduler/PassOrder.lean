import DeterministicScheduler.Crashes
import DeterministicScheduler.Logic.Footprint

/-!
# A pass over the pipes in any order

What a pass does to one of the operations it has selected depends on the VMs of
that operation alone. No VM takes part in two of them, so the pass does the same
in whatever order it goes through them. It leaves no operation that another pass
would select.
-/
namespace DeterministicScheduler.Scheduler

open ProgramLogic Program Outcome Std

variable {μ κ : Type} {cap : Option ℕ} {env : Env μ κ} {s s' t w r : Scheduler μ κ}

/-- A scheduler seen as the state and the machine of each VM, and the rest. -/
def vmView : View (Scheduler μ κ) VmId (Option VmState × Option (Machine μ))
    (ℕ × VmId × UInt64 × HashMap PipeId VmId × HashMap VmId κ × HashMap VmId Int8 ×
      List Message) where
  part s k := (s.states[k]?, s.instantiated[k]?)
  rest s := (s.totalCycles, s.nextVmId, s.nextPipeSlot, s.pipes, s.suspended, s.terminatedVms,
    s.messageBox)
  ext s t hpart hrest := by
    obtain ⟨_, _, _, states, _, instantiated, _, _, _⟩ := s
    obtain ⟨_, _, _, states', _, instantiated', _, _, _⟩ := t
    simp only [Prod.mk.injEq] at hpart hrest
    obtain ⟨rfl, rfl, rfl, rfl, rfl, rfl, rfl⟩ := hrest
    have hstates : states = states' := ExtTreeMap.ext_getElem? fun k => (hpart k).1
    have hmachines : instantiated = instantiated' := ExtTreeMap.ext_getElem? fun k => (hpart k).2
    subst hstates hmachines
    rfl

section Rules

variable {K : VmId → Prop} {pre : Scheduler μ κ → Prop} {α β : Type}

theorem agree_states (h : vmView.Agree K s t) (id : VmId) (hid : K id) :
    s.states[id]? = t.states[id]? :=
  congrArg Prod.fst (h id hid)

theorem agree_machines (h : vmView.Agree K s t) {id : VmId} (hid : K id) :
    s.instantiated[id]? = t.instantiated[id]? :=
  congrArg Prod.snd (h id hid)

theorem local_machine {id : VmId} (hid : K id) :
    Local vmView K pre (machine id : SchedulerM μ κ (Machine μ)) := by
  apply local_get_bind
  · intro s t hst
    rw [agree_machines hst hid]
  · exact fun s => local_unwrap _

theorem local_setMachine {id : VmId} (hid : K id) (m : Machine μ) :
    Local vmView K pre (setMachine id m : SchedulerM μ κ Unit) := by
  apply local_modify
  · intro s t hst k hk
    simp only [vmView, getElem?_insert, agree_states hst k hk, agree_machines hst hk]
  · intro s
    refine ⟨fun k hk => ?_, rfl⟩
    have hne : k ≠ id := by
      rintro rfl
      exact hk hid
    simp only [vmView, getElem?_insert, if_neg hne]

theorem local_setState {id : VmId} (hid : K id) (state : VmState) :
    Local vmView K pre (setState id state : SchedulerM μ κ Unit) := by
  apply local_modify
  · intro s t hst k hk
    simp only [vmView, getElem?_insert, agree_states hst k hk, agree_machines hst hk]
  · intro s
    refine ⟨fun k hk => ?_, rfl⟩
    have hne : k ≠ id := by
      rintro rfl
      exact hk hid
    simp only [vmView, getElem?_insert, if_neg hne]

variable [Memory μ]

theorem local_access {id : VmId} (hid : K id) (ev : Event μ) :
    Local vmView K pre (access id ev : SchedulerM μ κ Unit) := by
  apply local_bind (local_machine hid)
  intro m
  apply local_bind (local_ofExcept _)
  intro core
  exact local_bind (local_emit _) fun _ => local_setMachine hid _

theorem local_loadBytes {id : VmId} (hid : K id) (addr size : UInt64) :
    Local vmView K pre (loadBytes id addr size : SchedulerM μ κ Bytes) := by
  apply local_bind (local_machine hid)
  exact fun m => local_ofExcept _

/-- Finishing an operation on a closed pipe touches its VM only. -/
theorem local_finishClosed {id : VmId} (hid : K id) :
    Local vmView K pre (finishClosed id : SchedulerM μ κ Unit) := by
  simp only [finishClosed, store64_eq, setA0_eq]
  apply local_get_bind
  · intro s t hst
    rw [agree_states hst id hid]
  · intro s
    apply local_bind (local_unwrap _)
    intro state
    cases state with
    | waitForRead =>
      apply local_bind (local_access hid _)
      exact fun _ => local_bind (local_access hid _) fun _ => local_setState hid _
    | waitForWrite =>
      apply local_bind (local_access hid _)
      exact fun _ => local_bind (local_access hid _) fun _ => local_setState hid _
    | _ => exact local_pure _

omit [Memory μ] in
theorem local_ensure {ids : List VmId} (hids : ∀ id ∈ ids, K id) :
    Local vmView K (fun s => ∀ id ∈ ids, id ∈ s.instantiated)
      (ensureVmsInstantiated none env ids) := by
  intro s t hs hst
  have ht : ∀ id ∈ ids, id ∈ t.instantiated := by
    intro id hid
    rw [mem_iff_getElem?, ← agree_machines hst (hids id hid), ← mem_iff_getElem?]
    exact hs id hid
  rw [ensureVmsInstantiated_noop hs (by simp), ensureVmsInstantiated_noop ht (by simp)]
  exact ⟨t, rfl, hst, .refl s, .refl t⟩

/-- Where both VMs of a pair are instantiated, a transfer touches these only. -/
theorem local_transferPair {pair : (VmId × VmState) × (VmId × VmState)} (hread : K pair.1.1)
    (hwrite : K pair.2.1) :
    Local vmView K (fun s => ∀ id ∈ [pair.1.1, pair.2.1], id ∈ s.instantiated)
      (transferPair none env pair) := by
  obtain ⟨⟨readVmId, readState⟩, ⟨writeVmId, writeState⟩⟩ := pair
  have hids : ∀ id ∈ [readVmId, writeVmId], K id := by simpa using ⟨hread, hwrite⟩
  cases readState with
  | waitForRead readPipe readLength readBufferAddr readLengthAddr =>
    cases writeState with
    | waitForWrite writePipe consumed writeLength writeBufferAddr writeLengthAddr =>
      simp only [transferPair, store64_eq, setA0_eq, storeBytes_eq]
      apply local_bind (local_ensure hids)
      intro _
      apply local_bind (local_unwrap _)
      intro consumable
      apply local_bind (local_loadBytes hwrite _ _)
      intro data
      apply local_bind (local_access hread _)
      intro _
      apply local_bind (local_emit _)
      intro _
      apply local_bind (local_access hread _)
      intro _
      apply local_bind (local_access hread _)
      intro _
      apply local_bind (local_setState hread _)
      intro _
      apply local_ite
      · apply local_bind (local_access hwrite _)
        intro _
        apply local_bind (local_access hwrite _)
        exact fun _ => local_setState hwrite _
      · exact local_setState hwrite _
    | _ => exact local_crash
  | _ => exact local_crash

end Rules

variable [Memory μ] {l : List (Event μ)} {P : VmId → Prop} {box : List Message}

theorem closedVms_locals (s : Scheduler μ κ) :
    Locals vmView (finishClosed : VmId → SchedulerM μ κ Unit) (fun id k => k = id)
      (fun _ _ => True) s.closedVms := by
  refine ⟨fun id _ => local_finishClosed (K := fun k => k = id) rfl, fun _ _ _ _ _ _ => trivial, ?_⟩
  apply (closedVms_nodup s).imp
  rintro id id' hne k rfl
  exact hne

theorem Running.pairedVms_locals (h : Running s) :
    Locals vmView (transferPair none env) (fun pair k => k ∈ [pair.1.1, pair.2.1])
      (fun pair s => ∀ id ∈ [pair.1.1, pair.2.1], id ∈ s.instantiated) s.pairedVms := by
  refine ⟨fun pair _ => ?_, fun pair _ s t hst hs => ?_, ?_⟩
  · exact local_transferPair (K := fun k => k ∈ [pair.1.1, pair.2.1]) (by simp) (by simp)
  · intro id hid
    rw [mem_iff_getElem?, ← agree_machines hst hid, ← mem_iff_getElem?]
    exact hs id hid
  · apply (List.nodup_flatMap.mp h.pairedVms_nodup).2.imp
    intro pair pair' hdisjoint k hk hk'
    exact hdisjoint hk hk'

/-- The two halves of a pass, each spread over the VMs of its operations. -/
structure PassOf (env : Env μ κ) (s t : Scheduler μ κ) (l : List (Event μ)) (s' : Scheduler μ κ)
    (l' : List (Event μ)) : Prop where
  closed : Passes env s.closedVms s l t
  runnable : ∀ id ∈ s.closedVms, t.states[id]? = some .runnable
  finished : Spread vmView finishClosed (fun id k => k = id) s.closedVms s t l
  transferred : Spread vmView (transferPair none env) (fun pair k => k ∈ [pair.1.1, pair.2.1])
    s.pairedVms t s' l'

/-- Both VMs of a selected pair are instantiated when the transfers begin. -/
theorem Passes.paired_mem (h : Passes env s.closedVms s l t) (hinv : Invariant s)
    {pair : (VmId × VmState) × (VmId × VmState)} (hpair : pair ∈ s.pairedVms) :
    ∀ id ∈ [pair.1.1, pair.2.1], id ∈ t.instantiated := by
  obtain ⟨hread, hwrite, _⟩ := of_mem_pairedVms hpair
  have hres := (Steps.invariant h.steps hinv).resident
  intro id hid
  rw [← hres.cover, h.live, mem_iff_getElem?]
  simp only [List.mem_cons, List.not_mem_nil, or_false] at hid
  rcases hid with rfl | rfl
  · exact ⟨_, hread⟩
  · exact ⟨_, hwrite⟩

theorem processIo_halves (hinv : Invariant s) (hrun : Running s)
    (h : processIo none env s = .ok ⟨⟩ s' l) :
    ∃ t l₁ l₂, PassOf env s t l₁ s' l₂ ∧ l = l₁ ++ l₂ := by
  rw [processIo_run] at h
  obtain ⟨_, t, l₁, l₂, h₁, h₂, rfl⟩ := bind_eq_ok.mp h
  obtain ⟨hpass, hdone⟩ :=
    finishClosed_passes hinv (closedVms_nodup s) (fun id hid => mem_closedVms.mp hid) h₁
  refine ⟨t, l₁, l₂, ⟨hpass, hdone, ?_, ?_⟩, rfl⟩
  · exact forM_spread (closedVms_locals s) (fun _ _ => trivial) h₁
  · exact forM_spread hrun.pairedVms_locals (fun pair hpair => hpass.paired_mem hinv hpair) h₂

/-- The reference goes through the selected operations in any order. -/
theorem processIo_perm (hinv : Invariant s) (hrun : Running s)
    (h : processIo none env s = .ok ⟨⟩ s' l) {ids : List VmId}
    {pairs : List ((VmId × VmState) × (VmId × VmState))} (hids : s.closedVms.Perm ids)
    (hpairs : s.pairedVms.Perm pairs) :
    ∃ l', passInOrder none env ids pairs s = .ok ⟨⟩ s' l' := by
  rw [processIo_run] at h
  obtain ⟨_, t, l₁, l₂, h₁, h₂, rfl⟩ := bind_eq_ok.mp h
  obtain ⟨hpass, _⟩ : Passes env s.closedVms s l₁ t ∧ _ :=
    finishClosed_passes hinv (closedVms_nodup s) (fun id hid => mem_closedVms.mp hid) h₁
  obtain ⟨l₁', h₁'⟩ := forM_perm (closedVms_locals s) (fun _ _ => trivial) hids h₁
  obtain ⟨l₂', h₂'⟩ :=
    forM_perm hrun.pairedVms_locals (fun pair hpair => hpass.paired_mem hinv hpair) hpairs h₂
  exact ⟨l₁' ++ l₂', by rw [passInOrder, bind_of_ok h₁', h₂']; rfl⟩

/-- What a pass does with a selected pair: it moves bytes, and leaves the reader
runnable and the writer with the rest of its write. -/
theorem PassOf.pair {l₁ l₂ : List (Event μ)} (h : PassOf env s t l₁ s' l₂) (hinv : Invariant s)
    {rd : Read} {wr : Write}
    (hpair : ((rd.vmId, rd.state wr.pipe.otherPipe), (wr.vmId, wr.state)) ∈ s.pairedVms) :
    ∃ t' m data, transferPair none env
        ((rd.vmId, rd.state wr.pipe.otherPipe), (wr.vmId, wr.state)) t =
          .ok ⟨⟩ t' (transferLog rd wr data) ∧
      Memory.loadBytes m.memory (wr.bufferAddr + wr.consumed) (wr.copiable rd) = .ok data ∧
      t.instantiated[wr.vmId]? = some m ∧
      s'.states[rd.vmId]? = some .runnable ∧ s'.states[wr.vmId]? = some (wr.next rd) := by
  obtain ⟨t', lx, hrun', hagree⟩ := h.transferred.each _ hpair
  have hne : rd.vmId ≠ wr.vmId := ne_of_mem_pairedVms hpair
  have hmem := h.closed.paired_mem hinv hpair
  obtain ⟨mr, hmr⟩ := mem_iff_getElem?.mp (hmem rd.vmId (by simp))
  obtain ⟨mw, hmw⟩ := mem_iff_getElem?.mp (hmem wr.vmId (by simp))
  have hres := (Steps.invariant h.closed.steps hinv).resident
  obtain ⟨data, readCore, writeCore, _, hload, _, _, rfl, rfl⟩ :=
    transferPair_ok hres hmr hmw hne hrun'
  refine ⟨_, mw, data, hrun', hload, hmw, ?_, ?_⟩
  · rw [← agree_states hagree rd.vmId (by simp)]
    simp only [settled, getElem?_insert, if_neg hne, if_true]
  · rw [← agree_states hagree wr.vmId (by simp)]
    simp only [settled, getElem?_insert, if_true]

omit [Memory μ] in
theorem mem_selectedVms {k : VmId} : k ∈ s.selectedVms ↔ k ∈ s.closedVms ∨
    ∃ pair ∈ s.pairedVms, k = pair.1.1 ∨ k = pair.2.1 := by
  simp only [selectedVms, List.mem_append, List.mem_flatMap, List.mem_cons, List.not_mem_nil,
    or_false]

/-- A VM that waits after a pass waited before it, on the same pipe. The pass did
not finish its operation, and was no read. -/
theorem processIo_waiting (hinv : Invariant s) (hrun : Running s)
    (h : processIo none env s = .ok ⟨⟩ s' l) {k : VmId} {state' : VmState}
    (hk : s'.states[k]? = some state') (hwait : state' ≠ .runnable) :
    ∃ state, s.states[k]? = some state ∧ state.reading? = state'.reading? ∧
      state.writing? = state'.writing? ∧ k ∉ s.closedVms ∧ ∀ pair ∈ s.pairedVms, pair.1.1 ≠ k := by
  obtain ⟨hpass, hclosed, hreaders⟩ := processIo_passes hinv hrun h
  have hnotClosed : k ∉ s.closedVms := by
    intro hin
    rw [hclosed k hin, Option.some.injEq] at hk
    exact hwait hk.symm
  have hnotReader : ∀ pair ∈ s.pairedVms, pair.1.1 ≠ k := by
    rintro pair hpair rfl
    rw [hreaders pair hpair, Option.some.injEq] at hk
    exact hwait hk.symm
  by_cases hwriter : ∃ pair ∈ s.pairedVms, k = pair.2.1
  · obtain ⟨pair, hpair, rfl⟩ := hwriter
    obtain ⟨_, hwrite, p, hwriting, hreading, _⟩ := of_mem_pairedVms hpair
    obtain ⟨rd, wr, rfl, rfl⟩ := pair_cases hwriting hreading
    obtain ⟨t, l₁, l₂, hhalves, _⟩ := processIo_halves hinv hrun h
    obtain ⟨_, _, _, _, _, _, _, hnext⟩ := hhalves.pair hinv hpair
    rw [hnext, Option.some.injEq] at hk
    subst hk
    refine ⟨wr.state, hwrite, ?_, ?_, hnotClosed, hnotReader⟩
    all_goals
      simp only [Write.next] at hwait ⊢
      split at hwait
      · exact absurd rfl hwait
      · rename_i hfinishes
        rw [if_neg hfinishes]
        rfl
  · refine ⟨state', ?_, rfl, rfl, hnotClosed, hnotReader⟩
    rw [← hpass.states k, hk]
    rw [mem_selectedVms]
    rintro (hin | ⟨pair, hpair, rfl | rfl⟩)
    · exact hnotClosed hin
    · exact hnotReader pair hpair rfl
    · exact hwriter ⟨pair, hpair, rfl⟩

omit [Memory μ] in
theorem ne_runnable_of_waiting {state : VmState} {p : PipeId} (h : state.waiting? = some p) :
    state ≠ .runnable := by
  rintro rfl
  cases h

/-- A pass leaves nothing that another pass would do. -/
theorem processIo_exhausts (hinv : Invariant s) (hrun : Running s)
    (h : processIo none env s = .ok ⟨⟩ s' l) : s'.closedVms = [] ∧ s'.pairedVms = [] := by
  have hpipes := (processIo_passes hinv hrun h).1.pipes
  constructor
  · rw [List.eq_nil_iff_forall_not_mem]
    intro k hk
    obtain ⟨state', hstate', hclosed⟩ := mem_closedVms.mp hk
    rw [hpipes] at hclosed
    have hwait : state' ≠ .runnable := by
      rintro rfl
      cases hclosed
    obtain ⟨state, hstate, hreading, hwriting, hnot, _⟩ :=
      processIo_waiting hinv hrun h hstate' hwait
    apply hnot
    refine mem_closedVms.mpr ⟨state, hstate, ?_⟩
    cases state <;> cases state' <;> cases hreading <;> cases hwriting <;> exact hclosed
  · rw [List.eq_nil_iff_forall_not_mem]
    intro pair hpair
    obtain ⟨hread', hwrite', p, hwriting', hreading', _⟩ := of_mem_pairedVms hpair
    obtain ⟨readState, hread, hreading, _, _, hnot⟩ := processIo_waiting hinv hrun h hread'
      (ne_runnable_of_waiting (waiting_of_reading hreading'))
    obtain ⟨writeState, hwrite, _, hwriting, _⟩ := processIo_waiting hinv hrun h hwrite'
      (ne_runnable_of_waiting (waiting_of_writing hwriting'))
    exact hnot _ (hrun.mem_pairedVms hread hwrite (hreading.trans hreading')
      (hwriting.trans hwriting')) rfl

/-- A pass that has nothing to do changes nothing, in the bounded scheduler too. -/
theorem processIo_idle (hclosed : s.closedVms = []) (hpaired : s.pairedVms = []) :
    processIo cap env s = .ok ⟨⟩ s [] := by
  rw [processIo_run, hclosed, hpaired]
  rfl

/-- Completions that go through once find their VMs instantiated, in any order. -/
theorem finishClosed_forM_ne_panic (h : s.closedVms.forM finishClosed s = .ok ⟨⟩ s' l)
    {ids : List VmId} (hids : s.closedVms.Perm ids) : ids.forM finishClosed s ≠ .panic := by
  have hspread := forM_spread (closedVms_locals s) (fun _ _ => trivial) h
  have hclosed : ∀ id ∈ ids, ∃ state, s.states[id]? = some state ∧
      isClosed s.pipes state.waiting? = true :=
    fun id hid => mem_closedVms.mp (hids.mem_iff.mpr hid)
  intro hpanic
  rw [finishClosed_forM_panic (hids.nodup_iff.mp (closedVms_nodup s)) hclosed] at hpanic
  obtain ⟨pre, id, post, rfl, hnot, _⟩ := hpanic
  obtain ⟨state, hstate, hisClosed⟩ := hclosed id (by simp)
  obtain ⟨t, lx, hrun, _⟩ := hspread.each id (hids.mem_iff.mpr (by simp))
  have hnone : s.instantiated[id]? = none := by
    rw [mem_iff_getElem?, not_exists] at hnot
    exact Option.eq_none_iff_forall_ne_some.mpr hnot
  rw [finishClosed_panic hstate hisClosed hnone] at hrun
  cases hrun

/-- Where a pass of the bounded scheduler goes through, so does a pass in any other
order, to the same VMs. -/
theorem Related.passInOrder_same (hcap : ∀ c, cap = some c → 2 ≤ c)
    (h : Related cap env P box w r) (hinv : Invariant r) (hrun : Running r)
    (htotal : env.SnapshotsTotal) {w₁ : Scheduler μ κ} (hio : processIo cap env w = .ok ⟨⟩ w₁ l)
    {ids : List VmId} {pairs : List ((VmId × VmState) × (VmId × VmState))}
    (hids : w.closedVms.Perm ids) (hpairs : w.pairedVms.Perm pairs) :
    ∃ w₂ l₂, passInOrder cap env ids pairs w = .ok ⟨⟩ w₂ l₂ ∧ SameVms env w₁ w₂ := by
  have hsim := tracks_processIo hcap w r h
  rw [hio] at hsim
  obtain ⟨r₁, hr₁, h₁⟩ := hsim
  have hsame := h.same.selected
  obtain ⟨l', hr₂⟩ := processIo_perm hinv hrun hr₁ (hsame.1 ▸ hids) (hsame.2 ▸ hpairs)
  have hQ : Related cap env (fun id => id ∈ r.states) box w r := h.weaken fun _ hid => hid
  obtain ⟨hidsLive, hpairsLive⟩ := selected_live r
  have hidsLive' : ∀ id ∈ ids, id ∈ r.states :=
    fun id hid => hidsLive id (hsame.1 ▸ hids.mem_iff.mpr hid)
  have hpairsMem : ∀ pair ∈ pairs, pair ∈ r.pairedVms :=
    fun pair hpair => hsame.2 ▸ hpairs.mem_iff.mpr hpair
  have hsim₂ := tracks_passInOrder hcap hidsLive'
    (fun pair hpair => hpairsLive pair (hpairsMem pair hpair)) w r hQ
  rw [hr₂] at hsim₂
  cases hw₂ : passInOrder cap env ids pairs w with
  | ok _ w₂ l₂ =>
    rw [hw₂] at hsim₂
    obtain ⟨r₂, heq, h₂⟩ := hsim₂
    cases heq
    exact ⟨w₂, _, rfl, h₁.same.trans h₂.same.symm⟩
  | err e w₂ l₂ =>
    rw [hw₂] at hsim₂
    rcases hsim₂ with herror | ⟨_, heq, _⟩
    · exact absurd herror htotal.no_error
    · cases heq
  | panic =>
    have hpanic : ids.forM finishClosed w = .panic := by
      rw [← hQ.passInOrder_panic hcap hidsLive' ?_]
      · exact hw₂
      intro pair hpair
      obtain ⟨hread, hwrite, hne⟩ := hpairsLive pair (hpairsMem pair hpair)
      exact ⟨hread, hwrite, hne, hrun.pairedVms_cases (hpairsMem pair hpair)⟩
    rw [processIo_run] at hio
    obtain ⟨_, w', l₁, l₂, hclosed, _, _⟩ := bind_eq_ok.mp hio
    exact absurd hpanic (finishClosed_forM_ne_panic hclosed hids)

/-- In every reachable scheduler whose root has not exited, a pass over the pipes
that goes through is done: another pass changes nothing. The operations it has
selected could have been gone through in any order. -/
theorem processIo_confluent (env : Env μ κ) (htotal : env.SnapshotsTotal) {tr : List (Event μ)}
    {s s₁ : Scheduler μ κ} {l : List (Event μ)} (h : Reachable maxInstantiatedVms env tr s)
    (hroot : s.states[rootVmId]? ≠ some .terminated)
    (hio : processIo maxInstantiatedVms env s = .ok ⟨⟩ s₁ l) :
    processIo maxInstantiatedVms env s₁ = .ok ⟨⟩ s₁ [] ∧
      ∀ ids pairs, s.closedVms.Perm ids → s.pairedVms.Perm pairs →
        ∃ s₂ l₂, passInOrder maxInstantiatedVms env ids pairs s = .ok ⟨⟩ s₂ l₂ ∧
          SameVms env s₁ s₂ := by
  rcases h.driven two_le_maxInstantiatedVms with ⟨rfl, _⟩ | ⟨r, hlinked, hr⟩
  · cases hio
    refine ⟨rfl, fun ids pairs hids hpairs => ?_⟩
    obtain rfl := List.nil_perm.mp hids
    obtain rfl := List.nil_perm.mp hpairs
    exact ⟨new, [], rfl, .refl _⟩
  · have hrel := hr.linked hlinked
    have hrun : Running r := hr.invariant.phase.resolve_right fun hdone => hroot (by
      rw [hlinked.same.states, hdone, getElem?_insert, if_pos rfl])
    constructor
    · have hsim := tracks_processIo two_le_maxInstantiatedVms s r hrel
      rw [hio] at hsim
      obtain ⟨r₁, hr₁, h₁⟩ := hsim
      obtain ⟨hclosed, hpaired⟩ := processIo_exhausts hr.invariant hrun hr₁
      exact processIo_idle (h₁.same.selected.1.trans hclosed) (h₁.same.selected.2.trans hpaired)
    · intro ids pairs hids hpairs
      exact hrel.passInOrder_same two_le_maxInstantiatedVms hr.invariant hrun htotal hio hids hpairs

/-- A reader and a writer of one pipe, served in a pass of their own. -/
theorem processIo_confluent_relay : ∃ tr s s₁ l, Reachable maxInstantiatedVms relayEnv tr s ∧
    s.selectedVms = [0, 1] ∧ processIo maxInstantiatedVms relayEnv s = .ok ⟨⟩ s₁ l ∧
    processIo maxInstantiatedVms relayEnv s₁ = .ok ⟨⟩ s₁ [] := by
  obtain ⟨tr, s, h, hs⟩ := exists_reachable maxInstantiatedVms relayEnv
    (.boot :: List.replicate 4 (.round none 99)) (fun _ s => s.selectedVms == [0, 1] &&
      s.states[rootVmId]? != some .terminated &&
      (processIo maxInstantiatedVms relayEnv s).isOk) (by decide +kernel)
  simp only [Bool.and_eq_true, beq_iff_eq, bne_iff_ne] at hs
  obtain ⟨⟨hselected, hroot⟩, hok⟩ := hs
  obtain ⟨_, s₁, l, hio⟩ := (isOk_eq_true _).mp hok
  have htotal : relayEnv.SnapshotsTotal := scriptEnv_snapshotsTotal _ _ _ _
  exact ⟨tr, s, s₁, l, h, hselected, hio, (processIo_confluent relayEnv htotal h hroot hio).1⟩

end DeterministicScheduler.Scheduler
