import DeterministicScheduler.Guest
import DeterministicScheduler.Reachability

/-!
# When a pass over the pipes crashes

A pass instantiates the two VMs of a pair before it moves bytes between them. It
does not do so for a VM that waits on a pipe with a closed end, and crashes on
such a VM when that is suspended. This is the only crash of a pass.
-/
namespace DeterministicScheduler.Scheduler

open ProgramLogic Program Outcome Std

variable {μ κ : Type} [Memory μ] {cap : Option ℕ} {env : Env μ κ} {s s' w r : Scheduler μ κ}
  {tr l : List (Event μ)} {P : VmId → Prop} {box : List Message}

/-- A VM whose finished read or write cannot be reported, because the store of its
length fails. -/
def CannotFinish (s : Scheduler μ κ) (k : VmId) : Prop :=
  ∃ state m e, s.states[k]? = some state ∧ s.instantiated[k]? = some m ∧
    applyEvents (closedEvents k state) m.toCore = .error e

/-- Whether a pass gets to each VM that waits on a closed pipe only when that is
instantiated: it is, or one of those before it ends the pass with an error. -/
def Finishable (s : Scheduler μ κ) : Prop :=
  ∀ pre id post, s.closedVms = pre ++ id :: post →
    id ∈ s.instantiated ∨ ∃ k ∈ pre, s.CannotFinish k

omit [Memory μ] in
theorem applyEvents_cons_error [Memory μ] {ev : Event μ} {evs : List (Event μ)} {c : Core μ}
    {e : Error} (h : applyEvents (ev :: evs) c = .error e) :
    ev.update c = .error e ∨ ∃ c₁, ev.update c = .ok c₁ ∧ applyEvents evs c₁ = .error e := by
  rw [applyEvents, List.foldlM_cons] at h
  cases hupdate : ev.update c with
  | error e' =>
    rw [hupdate] at h
    have heq : (.error e' : Except Error (Core μ)) = .error e := h
    exact Or.inl heq
  | ok c₁ =>
    rw [hupdate] at h
    exact Or.inr ⟨c₁, rfl, h⟩

theorem access_access_error {ev ev' : Event μ} {x : SchedulerM μ κ Unit} {id : VmId}
    {m : Machine μ} {e : Error} (hm : s.instantiated[id]? = some m)
    (h : applyEvents [ev, ev'] m.toCore = .error e) :
    ∃ s' l, (do access id ev; access id ev'; x : SchedulerM μ κ Unit) s = .err e s' l := by
  rcases applyEvents_cons_error h with hev | ⟨core, hev, hrest⟩
  · exact ⟨s, [], bind_of_err (access_error hm hev)⟩
  rcases applyEvents_cons_error hrest with hev' | ⟨core', _, hnil⟩
  · have hm' : (s.accessed id m core).instantiated[id]? = some { m with toCore := core } :=
      accessed_machine
    have herror : access id ev' (s.accessed id m core) = .err e (s.accessed id m core) [] :=
      access_error hm' hev'
    rw [bind_of_ok (access_run hm hev)]
    exact ⟨s.accessed id m core, [ev], congrArg (Outcome.after [ev]) (bind_of_err herror)⟩
  · cases hnil

theorem access_access_run {ev ev' : Event μ} {x : SchedulerM μ κ Unit} {id : VmId}
    {m : Machine μ} {core : Core μ} (hm : s.instantiated[id]? = some m)
    (h : applyEvents [ev, ev'] m.toCore = .ok core) :
    (do access id ev; access id ev'; x : SchedulerM μ κ Unit) s =
      (x (s.accessed id m core)).after [ev, ev'] := by
  obtain ⟨core₁, hev, hrest⟩ := applyEvents_cons.mp h
  obtain ⟨core₂, hev', hnil⟩ := applyEvents_cons.mp hrest
  cases hnil
  have hm' : (s.accessed id m core₁).instantiated[id]? = some { m with toCore := core₁ } :=
    accessed_machine
  have hrun : access id ev' (s.accessed id m core₁) = .ok ⟨⟩ (s.accessed id m core) [ev'] := by
    refine (access_run hm' hev').trans ?_
    show Outcome.ok _ ((s.accessed id m core₁).accessed id { m with toCore := core₁ } core) _ = _
    rw [accessed_accessed]
  rw [bind_of_ok (access_run hm hev)]
  have hbind := bind_of_ok (f := fun _ => x) hrun
  exact (congrArg (Outcome.after [ev]) hbind).trans (after_after _ _ _)

theorem finishClosed_panic {id : VmId} {state : VmState} (hstate : s.states[id]? = some state)
    (hclosed : isClosed s.pipes state.waiting? = true) (hm : s.instantiated[id]? = none) :
    finishClosed id s = .panic := by
  simp only [finishClosed, get_bind_run, hstate, unwrap_some, pure_bind_run, store64_eq]
  cases state with
  | waitForRead => exact bind_of_panic (access_panic hm)
  | waitForWrite => exact bind_of_panic (access_panic hm)
  | _ => cases hclosed

theorem finishClosed_error {id : VmId} {state : VmState} {m : Machine μ} {e : Error}
    (hstate : s.states[id]? = some state) (hm : s.instantiated[id]? = some m)
    (h : applyEvents (closedEvents id state) m.toCore = .error e) :
    ∃ s' l, finishClosed id s = .err e s' l := by
  simp only [finishClosed, get_bind_run, hstate, unwrap_some, pure_bind_run, store64_eq, setA0_eq]
  cases state with
  | waitForRead => exact access_access_error hm h
  | waitForWrite => exact access_access_error hm h
  | _ => cases h

theorem finishClosed_run {id : VmId} {state : VmState} {m : Machine μ} {core : Core μ}
    (hstate : s.states[id]? = some state) (hclosed : isClosed s.pipes state.waiting? = true)
    (hm : s.instantiated[id]? = some m)
    (h : applyEvents (closedEvents id state) m.toCore = .ok core) :
    finishClosed id s = .ok ⟨⟩ (s.settled id m core .runnable) (closedEvents id state) := by
  simp only [finishClosed, get_bind_run, hstate, unwrap_some, pure_bind_run, store64_eq, setA0_eq]
  cases state with
  | waitForRead => exact access_access_run hm h
  | waitForWrite => exact access_access_run hm h
  | _ => cases hclosed

/-- The completions crash on the first VM that is not instantiated, unless one
before it has failed. -/
theorem finishClosed_forM_panic {ids : List VmId} (hnodup : ids.Nodup)
    (hids : ∀ id ∈ ids, ∃ state, s.states[id]? = some state ∧
      isClosed s.pipes state.waiting? = true) :
    ids.forM finishClosed s = .panic ↔ ∃ pre id post, ids = pre ++ id :: post ∧
      id ∉ s.instantiated ∧ ∀ k ∈ pre, ¬ s.CannotFinish k := by
  induction ids generalizing s with
  | nil =>
    constructor
    · intro h
      cases h
    · rintro ⟨pre, id, post, h, _⟩
      simp at h
  | cons id ids ih =>
    obtain ⟨hnot, hnodup⟩ := List.nodup_cons.mp hnodup
    obtain ⟨state, hstate, hclosed⟩ := hids id (by simp)
    have hother : ∀ k ∈ ids, k ≠ id := by
      rintro k hk rfl
      exact hnot hk
    rw [forM_cons]
    cases hm : s.instantiated[id]? with
    | none =>
      rw [bind_of_panic (finishClosed_panic hstate hclosed hm)]
      refine iff_of_true rfl ⟨[], id, ids, rfl, ?_, by simp⟩
      rw [mem_iff_getElem?, hm]
      simp
    | some m =>
      have hin : id ∈ s.instantiated := mem_iff_getElem?.mpr ⟨m, hm⟩
      cases hcore : applyEvents (closedEvents id state) m.toCore with
      | error e =>
        obtain ⟨s', l, herr⟩ := finishClosed_error hstate hm hcore
        rw [bind_of_err herr]
        refine iff_of_false (by simp) ?_
        rintro ⟨pre, k, post, hsplit, hk, hpre⟩
        cases pre with
        | nil =>
          cases hsplit
          exact hk hin
        | cons k' pre =>
          obtain ⟨rfl, _⟩ := List.cons.inj hsplit
          exact hpre id (by simp) ⟨state, m, e, hstate, hm, hcore⟩
      | ok core =>
        rw [bind_of_ok (finishClosed_run hstate hclosed hm hcore), after_eq_panic]
        have hsettled : ∀ k, k ≠ id → (s.settled id m core .runnable).states[k]? = s.states[k]? ∧
            (s.settled id m core .runnable).instantiated[k]? = s.instantiated[k]? := by
          intro k hk
          simp only [settled, accessed, getElem?_insert, if_neg hk, and_self]
        have hfails : ∀ k ∈ ids,
            ((s.settled id m core .runnable).CannotFinish k ↔ s.CannotFinish k) := by
          intro k hk
          obtain ⟨hstates, hmachines⟩ := hsettled k (hother k hk)
          rw [CannotFinish, CannotFinish, hstates, hmachines]
        have hmem : ∀ k ∈ ids,
            (k ∈ (s.settled id m core .runnable).instantiated ↔ k ∈ s.instantiated) := by
          intro k hk
          rw [mem_iff_getElem?, mem_iff_getElem?, (hsettled k (hother k hk)).2]
        rw [ih hnodup (fun k hk => by
          rw [(hsettled k (hother k hk)).1]
          exact hids k (by simp [hk]))]
        constructor
        · rintro ⟨pre, k, post, rfl, hk, hpre⟩
          refine ⟨id :: pre, k, post, rfl, fun hin' => hk ((hmem k (by simp)).mpr hin'), ?_⟩
          intro k' hk'
          rcases List.mem_cons.mp hk' with rfl | hk'
          · rintro ⟨state', m', e, hstate', hm', hfail⟩
            rw [hstate, Option.some.injEq] at hstate'
            rw [hm, Option.some.injEq] at hm'
            subst hstate' hm'
            rw [hcore] at hfail
            cases hfail
          · exact fun hfail => hpre k' hk' ((hfails k' (by simp [hk'])).mpr hfail)
        · rintro ⟨pre, k, post, hsplit, hk, hpre⟩
          cases pre with
          | nil =>
            cases hsplit
            exact absurd hin hk
          | cons k' pre =>
            obtain ⟨rfl, rfl⟩ := List.cons.inj hsplit
            refine ⟨pre, k, post, rfl, fun hin' => hk ((hmem k (by simp)).mp hin'), ?_⟩
            intro k' hk' hfail
            exact hpre k' (by simp [hk']) ((hfails k' (by simp [hk'])).mp hfail)

/-- A program that does not crash while some VMs are instantiated, and keeps them so. -/
def Accesses (ids : List VmId) {α : Type} (x : SchedulerM μ κ α) : Prop :=
  ∀ s, (∀ id ∈ ids, id ∈ s.instantiated) →
    (x s).Meets (fun _ s' _ => ∀ id ∈ ids, id ∈ s'.instantiated) (fun _ _ _ => True) False

section Rules

variable {ids : List VmId} {α β : Type}

omit [Memory μ] in
theorem Accesses.ne_panic {x : SchedulerM μ κ α} (hx : Accesses ids x)
    (hs : ∀ id ∈ ids, id ∈ s.instantiated) : x s ≠ .panic := by
  intro hpanic
  have hmeets := hx s hs
  rw [hpanic] at hmeets
  exact hmeets

omit [Memory μ] in
theorem accesses_bind {x : SchedulerM μ κ α} {f : α → SchedulerM μ κ β} (hx : Accesses ids x)
    (hf : ∀ a, Accesses ids (f a)) : Accesses ids (x >>= f) := by
  intro s hs
  apply meets_bind (hx s hs)
  intro a s' l hs'
  exact (hf a s' hs').mono (fun _ _ _ h => h) (fun _ _ _ h => h) (fun h => h)

omit [Memory μ] in
theorem accesses_emit (ev : Event μ) : Accesses ids (emit ev : SchedulerM μ κ Unit) :=
  fun _ hs => hs

omit [Memory μ] in
theorem accesses_ite {p : Prop} [Decidable p] {x y : SchedulerM μ κ α} (hx : Accesses ids x)
    (hy : Accesses ids y) : Accesses ids (if p then x else y) := by
  split
  · exact hx
  · exact hy

omit [Memory μ] in
theorem accesses_setState (id : VmId) (state : VmState) :
    Accesses ids (setState id state : SchedulerM μ κ Unit) :=
  fun _ hs => hs

omit [Memory μ] in
theorem accesses_ofExcept (x : Except Error α) : Accesses ids (ofExcept x : SchedulerM μ κ α) := by
  intro s hs
  cases x with
  | error e => trivial
  | ok a => exact hs

theorem accesses_access {id : VmId} (hid : id ∈ ids) (ev : Event μ) :
    Accesses ids (access id ev : SchedulerM μ κ Unit) := by
  intro s hs
  obtain ⟨m, hm⟩ := mem_iff_getElem?.mp (hs id hid)
  cases hupdate : ev.update m.toCore with
  | error e =>
    rw [access_error hm hupdate]
    trivial
  | ok core =>
    rw [access_run hm hupdate]
    intro k hk
    exact mem_insert.mpr (Or.inr (hs k hk))

theorem accesses_loadBytes {id : VmId} (hid : id ∈ ids) (addr size : UInt64) :
    Accesses ids (loadBytes id addr size : SchedulerM μ κ Bytes) := by
  intro s hs
  obtain ⟨m, hm⟩ := mem_iff_getElem?.mp (hs id hid)
  rw [loadBytes, bind_of_ok (machine_run hm), after_nil]
  exact accesses_ofExcept _ s hs

end Rules

/-- Moving bytes between two live VMs instantiates both first, and does not crash. -/
theorem transferPair_ne_panic (hcap : ∀ c, cap = some c → 2 ≤ c) (h : Related cap env P box w r)
    {rd : Read} {wr : Write} {readPipe : PipeId} (hread : P rd.vmId) (hwrite : P wr.vmId)
    (hne : rd.vmId ≠ wr.vmId) (hle : wr.consumed ≤ wr.length) :
    transferPair cap env ((rd.vmId, rd.state readPipe), (wr.vmId, wr.state)) w ≠ .panic := by
  intro hpanic
  have hlive : ∀ id ∈ [rd.vmId, wr.vmId], id ∈ w.states := by
    rw [h.same.states]
    simpa using ⟨h.live _ hread, h.live _ hwrite⟩
  have hensure := ensureVmsInstantiated_meets h.stored hlive (by simpa using hne)
    fun c hc => hcap c hc
  have hconsumable : checkedSub wr.length wr.consumed = some (wr.length - wr.consumed) := if_pos hle
  have hrd : rd.vmId ∈ [rd.vmId, wr.vmId] := by simp
  have hwr : wr.vmId ∈ [rd.vmId, wr.vmId] := by simp
  simp only [transferPair, Read.state, Write.state, hconsumable, unwrap_some, store64_eq, setA0_eq,
    storeBytes_eq] at hpanic
  rcases bind_eq_panic.mp hpanic with hpanic | ⟨_, w', l, hrun, hpanic⟩
  · rw [hpanic] at hensure
    exact hensure
  rw [hrun] at hensure
  obtain ⟨_, _, _, hin⟩ := hensure
  rw [pure_bind_run] at hpanic
  refine Accesses.ne_panic ?_ hin hpanic
  refine accesses_bind (accesses_loadBytes hwr _ _) fun data => ?_
  refine accesses_bind (accesses_access hrd _) fun _ => accesses_bind (accesses_emit _) fun _ => ?_
  refine accesses_bind (accesses_access hrd _) fun _ => ?_
  refine accesses_bind (accesses_access hrd _) fun _ => ?_
  refine accesses_bind (accesses_setState _ _) fun _ => accesses_ite ?_ (accesses_setState _ _)
  apply accesses_bind (accesses_access hwr _)
  intro _
  exact accesses_bind (accesses_access hwr _) fun _ => accesses_setState _ _

theorem transferPair_forM_ne_panic (hcap : ∀ c, cap = some c → 2 ≤ c)
    (h : Related cap env P box w r) {pairs : List ((VmId × VmState) × (VmId × VmState))}
    (hpairs : ∀ pair ∈ pairs, P pair.1.1 ∧ P pair.2.1 ∧ pair.1.1 ≠ pair.2.1 ∧
      ∃ (rd : Read) (wr : Write), pair =
        ((rd.vmId, rd.state wr.pipe.otherPipe), (wr.vmId, wr.state)) ∧
        wr.consumed ≤ wr.length) :
    pairs.forM (transferPair cap env) w ≠ .panic := by
  induction pairs generalizing w r with
  | nil =>
    intro hpanic
    cases hpanic
  | cons pair pairs ih =>
    obtain ⟨hread, hwrite, hne, rd, wr, rfl, hle⟩ := hpairs pair (by simp)
    rw [forM_cons]
    intro hpanic
    have htracks := tracks_transferPair hcap hread hwrite hne w r h
    rcases bind_eq_panic.mp hpanic with hpanic | ⟨_, w', l, hrun, hpanic⟩
    · exact transferPair_ne_panic hcap h hread hwrite hne hle hpanic
    · rw [hrun] at htracks
      obtain ⟨r', _, h'⟩ := htracks
      exact ih h' (fun pair hpair => hpairs pair (by simp [hpair])) hpanic

theorem not_finishable : ¬ s.Finishable ↔ ∃ pre id post, s.closedVms = pre ++ id :: post ∧
    id ∉ s.instantiated ∧ ∀ k ∈ pre, ¬ s.CannotFinish k := by
  simp only [Finishable, not_forall, not_or, not_exists, not_and, exists_prop]

/-- A pass over live VMs crashes only among its completions. -/
theorem Related.passInOrder_panic (hcap : ∀ c, cap = some c → 2 ≤ c)
    (h : Related cap env P box w r) {ids : List VmId}
    {pairs : List ((VmId × VmState) × (VmId × VmState))} (hids : ∀ id ∈ ids, P id)
    (hpairs : ∀ pair ∈ pairs, P pair.1.1 ∧ P pair.2.1 ∧ pair.1.1 ≠ pair.2.1 ∧
      ∃ (rd : Read) (wr : Write), pair =
        ((rd.vmId, rd.state wr.pipe.otherPipe), (wr.vmId, wr.state)) ∧
        wr.consumed ≤ wr.length) :
    passInOrder cap env ids pairs w = .panic ↔ ids.forM finishClosed w = .panic := by
  rw [passInOrder, bind_eq_panic]
  apply or_iff_left
  rintro ⟨_, w', l, hok, hpanic⟩
  have htracks := lockstep_forM (f := finishClosed) (g := finishClosed) ids
    (fun id hid => tracks_finishClosed (hids id hid)) w r h
  rw [hok] at htracks
  obtain ⟨r', _, h'⟩ := htracks
  exact transferPair_forM_ne_panic hcap h' hpairs hpanic

omit [Memory μ] in
/-- A selected pair is a read and a write that has not used up its bytes. -/
theorem Running.pairedVms_cases (h : Running s) {pair : (VmId × VmState) × (VmId × VmState)}
    (hpair : pair ∈ s.pairedVms) :
    ∃ (rd : Read) (wr : Write), pair =
      ((rd.vmId, rd.state wr.pipe.otherPipe), (wr.vmId, wr.state)) ∧
      wr.consumed ≤ wr.length := by
  obtain ⟨_, hwrite, p, hwriting, hreading, _⟩ := of_mem_pairedVms hpair
  obtain ⟨rd, wr, rfl, rfl⟩ := pair_cases hwriting hreading
  refine ⟨rd, wr, rfl, ?_⟩
  obtain ⟨_, _, hlt | ⟨hzero, hzero'⟩⟩ := h.allowed _ _ hwrite
  · exact UInt64.le_of_lt hlt
  · rw [hzero, hzero']
    exact UInt64.le_refl _

/-- A pass crashes exactly where a VM to finish is not instantiated. -/
theorem Related.processIo_panic (hcap : ∀ c, cap = some c → 2 ≤ c)
    (h : Related cap env P box w r) (hrun : Running r) :
    processIo cap env w = .panic ↔ ¬ w.Finishable := by
  have hclosed : ∀ id ∈ w.closedVms, ∃ state, w.states[id]? = some state ∧
      isClosed w.pipes state.waiting? = true := fun id hid => mem_closedVms.mp hid
  have hQ : Related cap env (fun id => id ∈ r.states) box w r := h.weaken fun _ hid => hid
  obtain ⟨hids, hpairs⟩ := selected_live r
  rw [not_finishable, ← finishClosed_forM_panic (closedVms_nodup w) hclosed, processIo_run,
    h.same.selected.1, h.same.selected.2]
  apply hQ.passInOrder_panic hcap hids
  intro pair hpair
  obtain ⟨hread, hwrite, hne⟩ := hpairs pair hpair
  exact ⟨hread, hwrite, hne, hrun.pairedVms_cases hpair⟩

/-- In every reachable scheduler whose root has not exited, a pass over the pipes
goes through without a crash exactly when each VM with a closed pipe is
instantiated by the time the pass gets to it. -/
theorem processIo_crashes (env : Env μ κ) {tr : List (Event μ)} {s : Scheduler μ κ}
    (h : Reachable maxInstantiatedVms env tr s) (hroot : s.states[rootVmId]? ≠ some .terminated) :
    processIo maxInstantiatedVms env s ≠ .panic ↔ s.Finishable := by
  rcases h.driven two_le_maxInstantiatedVms with ⟨rfl, _⟩ | ⟨r, hlinked, hr⟩
  · apply iff_of_true
    · intro hpanic
      cases hpanic
    · intro pre id post hsplit
      have hnone : (new : Scheduler μ κ).closedVms = [] := rfl
      simp [hnone] at hsplit
  · have hrun : Running r := hr.invariant.phase.resolve_right fun hdone => hroot (by
      rw [hlinked.same.states, hdone, getElem?_insert, if_pos rfl])
    rw [Ne, hlinked.processIo_panic two_le_maxInstantiatedVms hrun, not_not]

/-- A root that joins the VM it spawns, which passes the read end of a pipe to a
third VM and exits while that one waits to read. -/
def closingEnv : Env Ram (Cpu Ram) :=
  scriptEnv 2 (pipeImage 2) 40 fun
    | 0 => spawnCall 0 0x210
    | 1 => joinCall 1 0x600
    | 100 => pipeCall 0x100
    | 101 => spawnCall 1 0x200
    | 200 => readCall 2 0x400 0x500
    | _ => .exit 0

/-- Four calls that the limit ends after a round each: the spawns, the pipe and
the read. -/
def closingTurns : List Turn :=
  .boot :: (List.replicate 4 [.round none 1000, .round none 0]).flatten

/-- While the reader is instantiated, its pipe may close. -/
theorem processIo_crashes_closing : ∃ tr s,
    Reachable maxInstantiatedVms closingEnv tr s ∧ s.closedVms = [2] ∧ s.Finishable := by
  obtain ⟨tr, s, h, hs⟩ := exists_reachable maxInstantiatedVms closingEnv
    (closingTurns ++ [.round none 1000])
    (fun _ s => s.states[rootVmId]? != some .terminated && s.closedVms == [2] &&
      !(processIo maxInstantiatedVms closingEnv s).isPanic) (by decide +kernel)
  simp only [Bool.and_eq_true, bne_iff_ne, beq_iff_eq, Bool.not_eq_true', ← Bool.not_eq_true,
    isPanic_eq_true] at hs
  obtain ⟨⟨hroot, hclosed⟩, hpass⟩ := hs
  exact ⟨tr, s, h, hclosed, (processIo_crashes closingEnv h hroot).mp hpass⟩

/-- After a full suspension the reader is not instantiated, and a pass that finds
its pipe closed crashes. -/
theorem processIo_crashes_suspended : ∃ tr s,
    Reachable maxInstantiatedVms closingEnv tr s ∧ s.states[rootVmId]? ≠ some .terminated ∧
      processIo maxInstantiatedVms closingEnv s = .panic := by
  obtain ⟨tr, s, h, hs⟩ := exists_reachable maxInstantiatedVms closingEnv
    (closingTurns ++ [.suspend, .round none 1000])
    (fun _ s => s.states[rootVmId]? != some .terminated &&
      (processIo maxInstantiatedVms closingEnv s).isPanic) (by decide +kernel)
  simp only [Bool.and_eq_true, bne_iff_ne, isPanic_eq_true] at hs
  exact ⟨tr, s, h, hs⟩

end DeterministicScheduler.Scheduler
