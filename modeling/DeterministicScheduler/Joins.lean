import DeterministicScheduler.Deadlock
import DeterministicScheduler.Isolation

/-!
# Joins

A VM joins live VMs only. When one exits, each of the VMs that join it is handed
its exit code in the same round, and no other VM is touched. The codes are kept,
so a later join is answered at once with the same code, and a join on an id that
is not in use is refused.
-/
namespace DeterministicScheduler.Scheduler

open ProgramLogic Program Outcome Std

variable {μ κ : Type} [Memory μ] {cap : Option ℕ} {env : Env μ κ} {s s' s₁ r r' : Scheduler μ κ}
  {tr l l' : List (Event μ)} {v : VmId}

/-- What a VM gets when its join succeeds: the exit code as one byte at its own
address and success in A0, and no other change. -/
structure Handed (addr : UInt64) (code : Int8) (c c' : Core μ) : Prop where
  registers : c'.registers = Function.update c.registers A0 success
  pc : c'.pc = c.pc
  byte : Memory.byteAt c'.memory addr = code.toUInt8
  memory : ∀ x, x ≠ addr → Memory.byteAt c'.memory x = Memory.byteAt c.memory x

omit [Memory μ] in
/-- The low byte of a sign-extended code is the code. -/
theorem code_toUInt8 (code : Int8) : code.toInt64.toUInt64.toUInt8 = code.toUInt8 := by
  apply UInt8.toBitVec_inj.mp
  simp only [UInt64.toBitVec_toUInt8, Int64.toBitVec_toUInt64, Int8.toBitVec_toInt64,
    Int8.toBitVec_toUInt8]
  ext i hi
  have hlt : i < 64 := by omega
  rw [BitVec.getElem_setWidth, BitVec.getLsbD_signExtend, BitVec.getLsbD_eq_getElem hi]
  simp [hlt, hi]

theorem handed_of_joinEvents {addr : UInt64} {code : Int8} {c c' : Core μ}
    (h : applyEvents (joinEvents v addr code) c = .ok c') : Handed addr code c c' := by
  obtain ⟨hpc, hregisters⟩ := applyEvents_registers h
  obtain ⟨c₁, hstore, hset⟩ := applyEvents_cons.mp h
  obtain ⟨memory, hmemory, rfl⟩ := Event.map_eq_ok hstore
  cases hset
  refine ⟨hregisters, hpc, ?_, fun x hx => ?_⟩
  · exact (Memory.store8_byteAt hmemory addr).trans ((if_pos rfl).trans (code_toUInt8 code))
  · exact (Memory.store8_byteAt hmemory x).trans (if_neg hx)

/-- A step in which a VM other than the root exits. -/
theorem Step.exit_cases (h : Step env s l s') (hinv : Invariant s) {t : VmId}
    {before after : Cpu μ} {code : Int8} {posted : List Message}
    (hexit : .exec t before after (.ok code) posted ∈ l) (hroot : t ≠ rootVmId) :
    ∃ m cpu l' u, Executes env s t m (.ok code) cpu [] ∧
      Woken code (joiningVms s.states t) (s.ran t m (.ok code) cpu) l' u ∧
      s' = u.purged t code := by
  have hnot : ∀ {l : List (Event μ)}, (∀ ev ∈ l, ev.runs = none) →
      .exec t before after (.ok code) posted ∉ l := fun hl hmem => by cases hl _ hmem
  cases h with
  | started => simp at hexit
  | closed => exact absurd hexit (hnot fun ev hev => (closedEvents_target hev).2)
  | transferred => exact absurd hexit (hnot fun ev hev => transferLog_runs hev)
  | interrupted => simp at hexit
  | @answered id m cpu msg l s' hexec hid hchecked hanswer =>
    have hlive : id ∈ s.states := mem_iff_getElem?.mpr ⟨_, hexec.state⟩
    have hanswers := hanswer.answers (hinv.resident.ran hlive) ran_machine hexec.state hid
    rcases List.mem_cons.mp hexit with heq | hmem
    · cases heq
    rcases List.mem_cons.mp hmem with heq | hmem
    · cases heq
    · exact absurd hmem (hnot hanswers.runs)
  | @exited id m code' cpu l s' hexec hne hwoken =>
    rcases List.mem_cons.mp hexit with heq | hmem
    · cases heq
      exact ⟨m, after, l, s', hexec, hwoken, rfl⟩
    · exact absurd hmem (hnot (hwoken.own joiningVms_nodup).1)
  | rootExited =>
    simp only [List.mem_singleton, Event.exec.injEq] at hexit
    exact absurd hexit.1 hroot

/-- A step in which a VM yields with a message. -/
theorem Step.yield_cases (h : Step env s l s') (hinv : Invariant s) {before after : Cpu μ}
    {msg : Message} (hyield : .exec v before after (.error .yield) [msg] ∈ l) :
    ∃ m l', Executes env s v m (.error .yield) after [msg] ∧ msg.vmId = v ∧
      Answer env (s.ran v m (.error .yield) after) v (afterRun m (.error .yield) after)
        msg l' s' := by
  have hnot : ∀ {l : List (Event μ)}, (∀ ev ∈ l, ev.runs = none) →
      .exec v before after (.error .yield) [msg] ∉ l := fun hl hmem => by cases hl _ hmem
  cases h with
  | started => simp at hyield
  | closed => exact absurd hyield (hnot fun ev hev => (closedEvents_target hev).2)
  | transferred => exact absurd hyield (hnot fun ev hev => transferLog_runs hev)
  | interrupted => simp at hyield
  | @answered id m cpu msg' l s' hexec hid hchecked hanswer =>
    have hlive : id ∈ s.states := mem_iff_getElem?.mpr ⟨_, hexec.state⟩
    have hanswers := hanswer.answers (hinv.resident.ran hlive) ran_machine hexec.state hid
    rcases List.mem_cons.mp hyield with heq | hmem
    · cases heq
      exact ⟨m, l, hexec, hid, hanswer⟩
    rcases List.mem_cons.mp hmem with heq | hmem
    · cases heq
    · exact absurd hmem (hnot hanswers.runs)
  | exited _ _ hwoken =>
    rcases List.mem_cons.mp hyield with heq | hmem
    · cases heq
    · exact absurd hmem (hnot (hwoken.own joiningVms_nodup).1)
  | rootExited => simp at hyield

/-- What the exit of a VM does to the others: those that join it are handed its
code, and the rest is left alone. -/
structure Exited (env : Env μ κ) (s : Scheduler μ κ) (t : VmId) (code : Int8)
    (s' : Scheduler μ κ) : Prop where
  gone : t ∉ s'.states
  kept : s'.terminatedVms[t]? = some code
  joiners : ∀ (k : VmId) (addr : UInt64), s.states[k]? = some (.join t addr) →
    s'.states[k]? = some .runnable ∧ ∃ cpu cpu', s.cpu? env k = some cpu ∧
      s'.cpu? env k = some cpu' ∧ Handed addr code cpu.toCore cpu'.toCore ∧
      cpu'.cycles = cpu.cycles
  others : ∀ k, k ∈ s.states → k ≠ t → (∀ addr, s.states[k]? ≠ some (.join t addr)) →
    s'.states[k]? = s.states[k]? ∧ s'.cpu? env k = s.cpu? env k

theorem Step.exited_vm (h : Step env s l s') (hinv : Invariant s) {t : VmId} {before after : Cpu μ}
    {code : Int8} {posted : List Message} (hexit : .exec t before after (.ok code) posted ∈ l)
    (hroot : t ≠ rootVmId) : Exited env s t code s' := by
  obtain ⟨m, cpu, l', u, hexec, hwoken, rfl⟩ := h.exit_cases hinv hexit hroot
  obtain ⟨_, _, hjoiners⟩ := hwoken.own joiningVms_nodup
  have hstates := hwoken.frame.2.2.2.2.2.2.2.1
  have hmachines := hwoken.frame.2.2.2.2.2.2.2.2
  refine ⟨by simp [purged], by simp [purged], ?_, ?_⟩
  · intro k addr hk
    have hne : k ≠ t := by
      rintro rfl
      rw [hexec.state] at hk
      cases hk
    have hmem : (k, addr) ∈ joiningVms s.states t := mem_joiningVms.mpr hk
    obtain ⟨_, m', core, hm', hcore, hu⟩ := hjoiners k addr hmem
    simp only [ran, getElem?_insert, if_neg hne] at hm'
    refine ⟨?_, m'.toCpu, { toCore := core, cycles := m'.cycles }, cpu?_of_instantiated hm', ?_,
      handed_of_joinEvents hcore, rfl⟩
    · simp only [purged, getElem?_erase, if_neg hne, hstates]
      exact if_pos (List.mem_map_of_mem hmem)
    · have hpurged : (u.purged t code).instantiated[k]? = some { m' with toCore := core } := by
        simp only [purged, getElem?_erase, if_neg hne, hu]
      exact cpu?_of_instantiated hpurged
  · intro k hlive hne hnot
    have hnotin : k ∉ (joiningVms s.states t).map Prod.fst := by
      intro hin
      obtain ⟨⟨k', addr⟩, hmem, rfl⟩ := List.mem_map.mp hin
      exact hnot addr (mem_joiningVms.mp hmem)
    obtain ⟨m', hm'⟩ := hinv.resident.machine hlive
    have hpurged : (u.purged t code).instantiated[k]? = some m' := by
      simp only [purged, getElem?_erase, if_neg hne, hmachines k hnotin, ran, getElem?_insert, hm']
    constructor
    · simp only [purged, getElem?_erase, if_neg hne, hstates, if_neg hnotin]
      rfl
    · rw [cpu?_of_instantiated hpurged, cpu?_of_instantiated hm']

omit [Memory μ] in
theorem settled_machine {m : Machine μ} {core : Core μ} {state : VmState} :
    (s.settled v m core state).instantiated[v]? = some { m with toCore := core } := by
  simp only [settled, accessed, getElem?_insert, if_pos]

/-- What a round, whose pass over the pipes led to `s₁`, does about joins. -/
structure JoinRound (env : Env μ κ) (s s₁ s' : Scheduler μ κ) (l : List (Event μ)) : Prop where
  exited : ∀ t before after code posted, .exec t before after (.ok code) posted ∈ l →
    t ≠ rootVmId → Exited env s₁ t code s'
  joining : ∀ (k t : VmId) (addr : UInt64), s.states[k]? = some (.join t addr) →
    s₁.states[k]? = some (.join t addr) ∧ s₁.cpu? env k = s.cpu? env k
  answered : ∀ v before after args code, .exec v before after (.error .yield) [.join v args] ∈ l →
    s.terminatedVms[args.targetId]? = some code → s'.states[v]? = some .runnable ∧
      ∃ cpu, s'.cpu? env v = some cpu ∧ Handed args.exitCodeAddr code after.toCore cpu.toCore
  refused : ∀ v before after args, .exec v before after (.error .yield) [.join v args] ∈ l →
    args.targetId ∉ s.terminatedVms → args.targetId ∉ s.states → s'.states[v]? = some .runnable ∧
      ∃ cpu, s'.cpu? env v = some cpu ∧ cpu.toCore = after.toCore.setRegister A0 joinFailure

omit [Memory μ] in
/-- A joining VM is not among those that a pass over the pipes acts on. -/
theorem not_selected {k t : VmId} {addr : UInt64} (h : s.states[k]? = some (.join t addr)) :
    k ∉ s.selectedVms := by
  intro hin
  rw [selectedVms, List.mem_append] at hin
  rcases hin with hin | hin
  · obtain ⟨state, hstate, hclosed⟩ := mem_closedVms.mp hin
    rw [h] at hstate
    cases hstate
    cases hclosed
  · obtain ⟨pair, hpair, hk⟩ := List.mem_flatMap.mp hin
    obtain ⟨hread, hwrite, p, hp, hp', _⟩ := of_mem_pairedVms hpair
    simp only [List.mem_cons, List.not_mem_nil, or_false] at hk
    rcases hk with rfl | rfl
    · rw [h, Option.some.injEq] at hread
      rw [← hread] at hp'
      cases hp'
    · rw [h, Option.some.injEq] at hwrite
      rw [← hwrite] at hp
      cases hp

theorem Exited.congr {t : VmId} {code : Int8} (h : Exited env r t code r')
    (hsame : SameVms env s r) (hsame' : SameVms env s' r') : Exited env s t code s' where
  gone := hsame'.states ▸ h.gone
  kept := hsame'.terminatedVms ▸ h.kept
  joiners k addr hk := by
    rw [hsame'.states, hsame.cpu, hsame'.cpu]
    exact h.joiners k addr (hsame.states ▸ hk)
  others k hk hne hnot := by
    rw [hsame.states, hsame'.states, hsame.cpu, hsame'.cpu]
    exact h.others k (hsame.states ▸ hk) hne (hsame.states ▸ hnot)

theorem Refines.joinRound (hcap : ∀ c, cap = some c → 2 ≤ c) (h : Refines cap env tr s r)
    (hrun : Running r) {pause : Pause} {limitCycles consumedCycles : ℕ}
    (hiterate : iterate cap env pause limitCycles s = .ok consumedCycles s' l) :
    ∃ s₁ l₁, processIo cap env s = .ok ⟨⟩ s₁ l₁ ∧ JoinRound env s s₁ s' l := by
  obtain ⟨s₁, r₁, l₁, l₂, r', hio, hsame₁, hinv₁, hpass, hstep, rfl, hlinked, _⟩ :=
    h.round hcap hrun hiterate
  have hsame := h.1.same
  have hsame' := hlinked.same
  have hin : ∀ {ev : Event μ}, ev.quiet = false →
      ev ∈ Event.iterate limitCycles :: (l₁ ++ l₂) → ev = .iterate limitCycles ∨ ev ∈ l₂ := by
    intro ev hloud hev
    rcases List.mem_cons.mp hev with heq | hev
    · exact Or.inl heq
    rcases List.mem_append.mp hev with hev | hev
    · rw [hpass.quiet ev hev] at hloud
      cases hloud
    · exact Or.inr hev
  refine ⟨s₁, l₁, hio, ?_, ?_, ?_, ?_⟩
  · intro t before after code posted hev hroot
    have hev₂ := (hin rfl hev).resolve_left (by simp)
    exact (hstep.exited_vm hinv₁ hev₂ hroot).congr hsame₁ hsame'
  · intro k t addr hk
    rw [hsame.states] at hk
    have hnot := not_selected hk
    obtain ⟨m, hm⟩ := h.2.invariant.resident.machine (mem_iff_getElem?.mpr ⟨_, hk⟩)
    have hm₁ := (hpass.machines k hnot).trans hm
    rw [hsame₁.states, hpass.states k hnot, hsame₁.cpu, hsame.cpu, cpu?_of_instantiated hm,
      cpu?_of_instantiated hm₁]
    exact ⟨hk, rfl⟩
  · intro v before after args code hev hcode
    have hev₂ := (hin rfl hev).resolve_left (by simp)
    obtain ⟨m, l', hexec, _, hanswer⟩ := hstep.yield_cases hinv₁ hev₂
    have hcode₁ : r₁.terminatedVms[args.targetId]? = some code := by
      rw [hpass.terminatedVms, ← hsame.terminatedVms]
      exact hcode
    have hmem : args.targetId ∈ r₁.terminatedVms := mem_iff_getElem?.mpr ⟨_, hcode₁⟩
    rw [hsame'.states, hsame'.cpu]
    cases hanswer with
    | rejected hreject => simp [rejection, ran, hmem] at hreject
    | blocked hblock => simp [blocking, ran, hmem] at hblock
    | @joined _ code' core hcode' hcore =>
      have heq : code' = code := Option.some.inj (hcode'.symm.trans hcode₁)
      subst heq
      have hstate : ((r₁.ran v m (.error .yield) after).settled v (afterRun m (.error .yield) after)
          core .runnable).states[v]? = some .runnable := by
        simp only [settled, getElem?_insert, if_pos]
      exact ⟨hstate, _, cpu?_of_instantiated settled_machine, handed_of_joinEvents hcore⟩
  · intro v before after args hev hterminated hlive
    have hev₂ := (hin rfl hev).resolve_left (by simp)
    obtain ⟨m, l', hexec, _, hanswer⟩ := hstep.yield_cases hinv₁ hev₂
    have hterminated₁ : args.targetId ∉ r₁.terminatedVms := by
      rw [hpass.terminatedVms, ← hsame.terminatedVms]
      exact hterminated
    have hlive₁ : args.targetId ∉ r₁.states := by
      rw [hpass.live, ← hsame.states]
      exact hlive
    rw [hsame'.states, hsame'.cpu]
    cases hanswer with
    | @rejected _ code hreject =>
      have hcode : code = joinFailure := by
        simp [rejection, ran, hterminated₁, hlive₁] at hreject
        exact hreject.symm
      subst hcode
      have hstate : ((r₁.ran v m (.error .yield) after).settled v (afterRun m (.error .yield) after)
          ((afterRun m (.error .yield) after).toCore.setRegister A0 joinFailure)
          .runnable).states[v]? = some .runnable := by
        simp only [settled, getElem?_insert, if_pos]
      exact ⟨hstate, _, cpu?_of_instantiated settled_machine, rfl⟩
    | blocked hblock => simp [blocking, ran, hlive₁] at hblock
    | joined hcode =>
      exact absurd (mem_iff_getElem?.mpr ⟨_, hcode⟩) hterminated₁

/-- Exit codes are kept along every path. -/
theorem Driven.terminatedVms_kept (hcap : ∀ c, cap = some c → 2 ≤ c) (h : Driven cap env tr s)
    (hpath : Path (Move cap env) s l s') {t : VmId} {code : Int8}
    (ht : s.terminatedVms[t]? = some code) : s'.terminatedVms[t]? = some code := by
  have hkept : Driven cap env (tr ++ l) s' ∧ s'.terminatedVms[t]? = some code := by
    refine hpath.keeps (I := fun tr u => Driven cap env tr u ∧ u.terminatedVms[t]? = some code) ?_
      ⟨h, ht⟩
    rintro tr u l u' ⟨hu, hcode⟩ hmove
    refine ⟨hmove.driven hcap hu, ?_⟩
    rcases hu with ⟨rfl, _⟩ | ⟨r, hr⟩
    · simp [new] at hcode
    · obtain ⟨r', hr', hrounded⟩ := hr.move hcap hmove
      rw [hr.1.same.terminatedVms] at hcode
      rw [hr'.1.same.terminatedVms]
      rcases hrounded with ⟨rfl, _⟩ | ⟨limitCycles, hrun, hround⟩
      · exact hcode
      · exact (hround.steps hrun).terminatedVms_kept hr.2.invariant hcode
  exact hkept.2

/-- A join that succeeded before the next execution of its VM has handed it the
code with which its target exited. -/
def JoinsReport (tr : List (Event μ)) (s : Scheduler μ κ) : Prop :=
  ∀ (v : VmId) (args : JoinArgs) (cpu₀ cpu cpu' cpu₁ : Cpu μ) (result : Except Error Int8)
    (posted : List Message) (before mid rest : List (Event μ)),
    tr = before ++ .exec v cpu₀ cpu (.error .yield) [.join v args] ::
      (mid ++ .exec v cpu' cpu₁ result posted :: rest) →
    (∀ ev ∈ mid, ev.runs ≠ some v) → cpu'.registers A0 = success →
    ∃ code, s.terminatedVms[args.targetId]? = some code ∧
      Handed args.exitCodeAddr code cpu.toCore cpu'.toCore

theorem Run.joinsReport (h : Run env tr r) : JoinsReport tr r := by
  intro v args cpu₀ cpu cpu' cpu₁ result posted before mid rest htr hmid hsuccess
  have hexec := h.executed (before ++ .exec v cpu₀ cpu (.error .yield) [.join v args] :: mid)
    (.exec v cpu' cpu₁ result posted) rest (by rw [htr]; simp)
  obtain ⟨terminatedVms, htracked, hexits⟩ := hexec
  have hlast : lastExec v (before ++ .exec v cpu₀ cpu (.error .yield) [.join v args] :: mid) =
      some (cpu, .error .yield, [.join v args]) := lastExec_exec hmid
  cases htracked with
  | booted hnone =>
    rw [hlast] at hnone
    cases hnone
  | interrupted hlast' =>
    rw [hlast] at hlast'
    cases hlast'
  | yielded hlast' hid hchecked hsettles hcore =>
    rw [hlast] at hlast'
    cases hlast'
    generalize since v _ = evs at hsettles hcore
    cases hsettles with
    | @rejected _ code hcode =>
      have hset : cpu.toCore.setRegister A0 code = cpu'.toCore := Except.ok.inj hcore
      rw [← hset] at hsuccess
      have ha0 : (cpu.toCore.setRegister A0 code).registers A0 = code := by
        simp [Core.setRegister]
      exact absurd (ha0.symm.trans hsuccess) (Message.refusals_ne_success hcode)
    | @joined _ code hcode =>
      obtain ⟨b, a, p, hmem⟩ := hexits _ _ hcode
      have hin : Event.exec args.targetId b a (.ok code) p ∈ tr := by
        rw [htr]
        rcases List.mem_append.mp hmem with hmem | hmem
        · exact List.mem_append_left _ hmem
        · rcases List.mem_cons.mp hmem with heq | hmem
          · cases heq
          · exact List.mem_append_right _ (List.mem_cons_of_mem _ (List.mem_append_left _ hmem))
      exact ⟨_, (h.exits _ _).mpr ⟨b, a, p, hin⟩, handed_of_joinEvents hcore⟩

/-- In every reachable scheduler whose root has not exited joins are on live VMs,
and its rounds wake, answer and refuse joins as `JoinRound` says. Exit codes are
those of the executions that ended and are never lost, and each successful join
reports the one of its target. -/
theorem joins_exact (env : Env μ κ) {tr : List (Event μ)} {s : Scheduler μ κ}
    (h : Reachable maxInstantiatedVms env tr s) :
    (s.states[rootVmId]? ≠ some .terminated →
      (∀ (id target : VmId) (addr : UInt64), s.states[id]? = some (.join target addr) →
        target ∈ s.states) ∧
      ∀ pause limitCycles consumedCycles s' l,
        iterate maxInstantiatedVms env pause limitCycles s = .ok consumedCycles s' l →
        ∃ s₁ l₁, processIo maxInstantiatedVms env s = .ok ⟨⟩ s₁ l₁ ∧ JoinRound env s s₁ s' l) ∧
      (∀ l u, Path (Move maxInstantiatedVms env) s l u → ∀ (t : VmId) (code : Int8),
        s.terminatedVms[t]? = some code → u.terminatedVms[t]? = some code) ∧
      Exits tr s ∧ JoinsReport tr s := by
  have hdriven := h.driven two_le_maxInstantiatedVms
  refine ⟨fun hroot => ?_, fun l u hpath t code =>
    hdriven.terminatedVms_kept two_le_maxInstantiatedVms hpath, ?_⟩
  · rcases hdriven with ⟨rfl, _⟩ | ⟨r, hr⟩
    · refine ⟨by simp [new], ?_⟩
      intro pause limitCycles consumedCycles s' l hiterate
      have hdead : Deadlocked (new : Scheduler μ κ) := by
        intro id state hid
        simp [new] at hid
      rw [hdead.iterate_eq] at hiterate
      cases hiterate
    · have hstates := hr.1.same.states
      have hrun : Running r := by
        refine hr.2.invariant.phase.resolve_right fun hdone => hroot ?_
        rw [hstates, hdone, getElem?_insert, if_pos rfl]
      refine ⟨?_, ?_⟩
      · rw [hstates]
        exact fun id target addr hid => hrun.allowed id _ hid
      · intro pause limitCycles consumedCycles s' l hiterate
        exact hr.joinRound two_le_maxInstantiatedVms hrun hiterate
  · rcases hdriven with ⟨rfl, rfl⟩ | ⟨r, hlinked, hr⟩
    · refine ⟨fun t code => by simp [new], ?_⟩
      intro v args cpu₀ cpu cpu' cpu₁ result posted before mid rest htr
      simp at htr
    · unfold Exits JoinsReport
      rw [hlinked.same.terminatedVms]
      exact ⟨hr.exits, hr.joinsReport⟩

/-- Whether an event is the exit of a VM with a code. -/
def Event.isExit (t : VmId) (code : Int8) : Event μ → Bool
  | .exec id _ _ (.ok c) _ => id == t && c == code
  | _ => false

omit [Memory μ] in
theorem Event.isExit_eq_true {t : VmId} {code : Int8} {ev : Event μ}
    (h : Event.isExit t code ev = true) :
    ∃ before after posted, ev = .exec t before after (.ok code) posted := by
  unfold Event.isExit at h
  split at h
  · rw [Bool.and_eq_true, beq_iff_eq, beq_iff_eq] at h
    obtain ⟨rfl, rfl⟩ := h
    exact ⟨_, _, _, rfl⟩
  · cases h

/-- The second VM of the crowd waits for the first one, is woken by its exit and finds its
exit code in memory. -/
theorem joins_exact_crowd : ∃ tr s s' l consumedCycles,
    Reachable maxInstantiatedVms crowdEnv tr s ∧
      iterate maxInstantiatedVms crowdEnv none 99 s = .ok consumedCycles s' l ∧
      s.states[(2 : VmId)]? = some (.join 1 0x600) ∧ s'.states[(2 : VmId)]? = some .runnable ∧
      s'.terminatedVms[(1 : VmId)]? = some 5 ∧ ∃ cpu cpu' : Cpu Ram,
        s.cpu? crowdEnv 2 = some cpu ∧ s'.cpu? crowdEnv 2 = some cpu' ∧
          Handed 0x600 5 cpu.toCore cpu'.toCore := by
  obtain ⟨tr, s, h, hs⟩ := exists_reachable maxInstantiatedVms crowdEnv
    (.boot :: List.replicate 6 (.round none 99)) (fun _ s =>
      s.states[(2 : VmId)]? == some (.join 1 0x600) && s.states[rootVmId]? != some .terminated &&
        (iterate maxInstantiatedVms crowdEnv none 99 s).isOk &&
        (iterate maxInstantiatedVms crowdEnv none 99 s).log.any (Event.isExit 1 5))
    (by decide +kernel)
  simp only [Bool.and_eq_true, beq_iff_eq, bne_iff_ne] at hs
  obtain ⟨⟨⟨hjoin, hroot⟩, hok⟩, hexit⟩ := hs
  obtain ⟨consumedCycles, s', l, hiterate⟩ := (isOk_eq_true _).mp hok
  rw [hiterate] at hexit
  obtain ⟨ev, hmem, hev⟩ := List.any_eq_true.mp hexit
  obtain ⟨before, after, posted, rfl⟩ := Event.isExit_eq_true hev
  obtain ⟨s₁, l₁, _, hround⟩ :=
    ((joins_exact crowdEnv h).1 hroot).2 none 99 consumedCycles s' l hiterate
  have hexited := hround.exited 1 before after 5 posted hmem (by decide)
  obtain ⟨hjoin₁, hsame⟩ := hround.joining 2 1 0x600 hjoin
  obtain ⟨hwoken, cpu, cpu', hcpu, hcpu', hhanded, _⟩ := hexited.joiners 2 0x600 hjoin₁
  exact ⟨tr, s, s', l, consumedCycles, h, hiterate, hjoin, hwoken, hexited.kept, cpu, cpu',
    hsame ▸ hcpu, hcpu', hhanded⟩

end DeterministicScheduler.Scheduler
