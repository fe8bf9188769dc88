import DeterministicScheduler.Accounting
import DeterministicScheduler.Calls

/-!
# Cycles are conserved

Cycles are counted on a machine until it stops, and in the total after that. Only
booting puts cycles on a machine that does not run. The VM booted last is runnable
and has the largest id, so it is the next one to run and hands its load charge over
before any other VM is charged.
-/
namespace DeterministicScheduler

open ProgramLogic Program Outcome Std

variable {μ κ : Type}

/-- The cycles an event charges: the load of a VM, or what an execution adds to the
counter of its machine. -/
def Event.charge : Event μ → ℕ
  | .boot _ charge => charge
  | .exec _ before after _ _ => after.cycles - before.cycles
  | _ => 0

/-- All charges of a history. -/
def chargedCycles (tr : List (Event μ)) : ℕ :=
  (tr.map Event.charge).sum

@[simp] theorem chargedCycles_nil : chargedCycles ([] : List (Event μ)) = 0 := rfl

@[simp] theorem chargedCycles_cons (ev : Event μ) (l : List (Event μ)) :
    chargedCycles (ev :: l) = ev.charge + chargedCycles l := by
  simp [chargedCycles]

@[simp] theorem chargedCycles_append (tr l : List (Event μ)) :
    chargedCycles (tr ++ l) = chargedCycles tr + chargedCycles l := by
  simp [chargedCycles]

section Reads

variable (env : Env μ κ)

/-- Whether a machine asks for the current cycles next. -/
def Env.asksCycles (core : Core μ) : Bool :=
  match env.next core with
  | .ecall core => core.registers A7 == 2042
  | .instruction _ => false

variable [Memory μ]

/-- The current cycles an execution is told, each with the counter of its machine
at that time. It executes as `runSteps` does. -/
def toldCycles (ctx : MachineContext) (limit : ℕ) : ℕ → Pause → Cpu μ → List (ℕ × UInt64)
  | 0, _, _ => []
  | fuel + 1, pause, m =>
    if pause = some 0 then []
    else if limit < m.cycles + env.cost m.toCore then []
    else
      match stepMachine env ctx m with
      | .ok none m' _ =>
        (if env.asksCycles m.toCore then [(m'.cycles, m'.registers A0)] else []) ++
          toldCycles ctx limit fuel (pause.map Nat.pred) m'
      | _ => []

/-- All current cycles that one execution is told. -/
def executionTold (ctx : MachineContext) (limit : ℕ) (pause : Pause) (m : Cpu μ) :
    List (ℕ × UInt64) :=
  toldCycles env ctx limit (limit + 1 - m.cycles + 1) pause m

variable {env} {ctx : MachineContext} {limit : ℕ} {pause : Pause} {m m' : Cpu μ}

theorem ecall_currentCycles {core : Core μ} {cycles : ℕ} (h : core.registers A7 = 2042) :
    MachineContext.ecall env ctx ({ core with cycles } : Cpu μ) =
      (do ctx.currentCycles; return true : MachineM μ Bool) ({ core with cycles } : Cpu μ) := by
  rw [MachineContext.ecall, register_bind_run]
  simp only [h]
  rfl

/-- What is told is the base and the counter. -/
theorem stepMachine_told {posted : List Message} {r : Option Int8}
    (hasks : env.asksCycles m.toCore = true) (h : stepMachine env ctx m = .ok r m' posted) :
    (m'.registers A0).toNat = ctx.baseCycles + m'.cycles := by
  rw [stepMachine, get_bind_run, set_bind_run] at h
  cases hnext : env.next m.toCore with
  | instruction effect =>
    rw [Env.asksCycles, hnext] at hasks
    cases hasks
  | ecall core =>
    have hcall : core.registers A7 = 2042 := by
      rw [Env.asksCycles, hnext] at hasks
      simpa using hasks
    simp only [hnext, modify_bind_run] at h
    rw [bind_run, ecall_currentCycles hcall] at h
    by_cases hlt : ctx.baseCycles + (m.cycles + env.cost m.toCore) < 2 ^ 64
    · have hrun : (do ctx.currentCycles; return true : MachineM μ Bool)
          { core with cycles := m.cycles + env.cost m.toCore } =
          .ok true { core.setRegister A0 (UInt64.ofNat
            (ctx.baseCycles + (m.cycles + env.cost m.toCore))) with
            cycles := m.cycles + env.cost m.toCore } [] := by
        simp only [MachineContext.currentCycles, bind_run, get_run, hlt, if_true]
        rfl
      rw [hrun] at h
      cases h
      simpa [Core.setRegister] using hlt
    · have hrun : (do ctx.currentCycles; return true : MachineM μ Bool)
          { core with cycles := m.cycles + env.cost m.toCore } =
          .err .cyclesOverflow { core with cycles := m.cycles + env.cost m.toCore } [] := by
        simp only [MachineContext.currentCycles, bind_run, get_run, hlt, if_false]
        rfl
      rw [hrun] at h
      cases h

/-- An execution is told the base and its counter, which only grows. -/
theorem toldCycles_meets {result : Except Error Int8} {cpu : Cpu μ} {posted : List Message}
    (hresult : result ≠ .error .cyclesOverflow) (fuel : ℕ)
    (h : runMachine env ctx limit pause m = Scheduler.stopped result cpu posted) :
    ((toldCycles env ctx limit fuel pause m).map Prod.fst).Pairwise (· ≤ ·) ∧
      ∀ told ∈ toldCycles env ctx limit fuel pause m, told.2.toNat = ctx.baseCycles + told.1 ∧
        m.cycles ≤ told.1 ∧ told.1 ≤ cpu.cycles := by
  induction fuel generalizing m pause with
  | zero => simp [toldCycles]
  | succ fuel ih =>
    rw [runMachine_eq] at h
    by_cases hpause : pause = some 0
    · simp [toldCycles, hpause]
    by_cases hlimit : limit < m.cycles + env.cost m.toCore
    · simp [toldCycles, hpause, hlimit]
    rw [if_neg hpause, if_neg hlimit] at h
    simp only [toldCycles, if_neg hpause, if_neg hlimit]
    cases hstep : stepMachine env ctx m with
    | panic => simp
    | err e m₁ l => simp
    | ok r m₁ l =>
      cases r with
      | some code => simp
      | none =>
        obtain ⟨rfl, hlt⟩ := stepMachine_cycles hstep
        rw [bind_of_ok hstep, after_nil] at h
        dsimp only at h ⊢
        have hgrown : m₁.cycles ≤ cpu.cycles := by
          have hmeets := runMachine_meets env ctx limit (pause.map Nat.pred) m₁
          rw [h] at hmeets
          cases result with
          | ok code => exact hmeets.2
          | error e => exact hmeets.2 fun he => hresult (by rw [he])
        obtain ⟨hsorted, htold⟩ := ih h
        by_cases hasks : env.asksCycles m.toCore = true
        · rw [if_pos hasks]
          constructor
          · simp only [List.singleton_append, List.map_cons, List.pairwise_cons, hsorted, and_true,
              List.mem_map]
            rintro c ⟨told, hin, rfl⟩
            exact (htold told hin).2.1
          · intro told hin
            rcases List.mem_append.mp hin with hin | hin
            · obtain rfl := List.mem_singleton.mp hin
              exact ⟨stepMachine_told hasks hstep, hlt.le, hgrown⟩
            · obtain ⟨hvalue, hle, hle'⟩ := htold told hin
              exact ⟨hvalue, hlt.le.trans hle, hle'⟩
        · rw [if_neg hasks, List.nil_append]
          refine ⟨hsorted, fun told hin => ?_⟩
          obtain ⟨hvalue, hle, hle'⟩ := htold told hin
          exact ⟨hvalue, hlt.le.trans hle, hle'⟩

end Reads

namespace Scheduler

variable {env : Env μ κ} {s s' r r' : Scheduler μ κ} {tr l : List (Event μ)} {id : VmId}
  {m : Machine μ} {core : Core μ}

/-- The VM selected to run has the largest id of the runnable ones. -/
theorem le_of_vmIdToRun {states : BTreeMap VmId VmState} (h : vmIdToRun states = some id)
    {k : VmId} (hk : states[k]? = some .runnable) : k ≤ id := by
  obtain ⟨⟨id', state⟩, hfind, rfl⟩ := Option.map_eq_some_iff.mp h
  obtain ⟨_, before, after, hlist, hbefore⟩ := List.find?_eq_some_iff_append.mp hfind
  have hsorted : (states.toList.reverse).Pairwise fun a b => b.1 < a.1 := by
    rw [List.pairwise_reverse]
    have hkeys := states.ordered_keys_toList
    exact hkeys.imp fun hlt => Std.compare_eq_lt.mp hlt
  have hin : (k, VmState.runnable) ∈ states.toList.reverse := by
    rw [List.mem_reverse, ExtTreeMap.mem_toList_iff_getElem?_eq_some]
    exact hk
  rw [hlist] at hsorted hin
  rcases List.mem_append.mp hin with hin | hin
  · have hnot := hbefore _ hin
    simp at hnot
  · rcases List.mem_cons.mp hin with heq | hin
    · cases heq
      exact UInt64.le_refl _
    · have hlt := (List.pairwise_cons.mp (List.pairwise_append.mp hsorted).2.1).1 _ hin
      exact UInt64.le_of_lt hlt

/-- No machine holds cycles. -/
def Spent (s : Scheduler μ κ) : Prop :=
  ∀ (id : VmId) (m : Machine μ), s.instantiated[id]? = some m → m.cycles = 0

/-- Only the machine of the VM booted last holds cycles, and it has not run yet. -/
structure Fresh (tr : List (Event μ)) (s : Scheduler μ κ) (id : VmId) (m : Machine μ) : Prop where
  machine : s.instantiated[id]? = some m
  state : s.states[id]? = some .runnable
  last : checkedAdd id 1 = some s.nextVmId
  unrun : ∀ ev ∈ tr, ev.runs ≠ some id
  others : ∀ (k : VmId) (m' : Machine μ), k ≠ id → s.instantiated[k]? = some m' → m'.cycles = 0

/-- The total and what the machines hold are all the charges of a history. -/
structure Balanced (tr : List (Event μ)) (s : Scheduler μ κ) : Prop where
  run : ∀ ev ∈ tr, ∀ id, ev.runs = some id → id < s.nextVmId
  total : (Spent s ∧ s.totalCycles = chargedCycles tr) ∨
    ∃ id m, Fresh tr s id m ∧ s.totalCycles + m.cycles = chargedCycles tr

theorem Spent.settled (h : Spent s) (hm : s.instantiated[id]? = some m) (state : VmState) :
    Spent (s.settled id m core state) := by
  intro k m' hk
  simp only [Scheduler.settled, accessed, getElem?_insert] at hk
  split at hk
  · cases hk
    exact h id m hm
  · exact h k m' hk

theorem Fresh.settled {k : VmId} {mk : Machine μ} (h : Fresh tr s k mk) (hne : id ≠ k)
    (hm : s.instantiated[id]? = some m) (state : VmState) :
    Fresh tr (s.settled id m core state) k mk := by
  refine ⟨?_, ?_, h.last, h.unrun, ?_⟩
  · simp only [Scheduler.settled, accessed, getElem?_insert, if_neg hne.symm, h.machine]
  · simp only [Scheduler.settled, getElem?_insert, if_neg hne.symm, h.state]
  · intro k' m' hne' hk'
    simp only [Scheduler.settled, accessed, getElem?_insert] at hk'
    split at hk'
    · cases hk'
      exact h.others id m hne hm
    · exact h.others k' m' hne' hk'

/-- An access to a VM that is not runnable moves no cycles. -/
theorem Balanced.settled (h : Balanced tr s) (hstate : s.states[id]? ≠ some .runnable)
    (hm : s.instantiated[id]? = some m) (state : VmState) :
    Balanced tr (s.settled id m core state) := by
  refine ⟨h.run, ?_⟩
  rcases h.total with ⟨hspent, htotal⟩ | ⟨k, mk, hfresh, htotal⟩
  · exact Or.inl ⟨hspent.settled hm state, htotal⟩
  · have hne : id ≠ k := by
      rintro rfl
      exact hstate hfresh.state
    exact Or.inr ⟨k, mk, hfresh.settled hne hm state, htotal⟩

/-- A history goes on by events that charge nothing and run nothing. -/
theorem Balanced.logged (h : Balanced tr s) (hcharge : chargedCycles l = 0)
    (hruns : ∀ ev ∈ l, ev.runs = none) : Balanced (tr ++ l) s := by
  have happend : ∀ ev ∈ tr ++ l, ∀ id, ev.runs = some id → ev ∈ tr := by
    intro ev hev id hid
    refine (List.mem_append.mp hev).resolve_right fun hin => ?_
    rw [hruns ev hin] at hid
    cases hid
  refine ⟨fun ev hev id hid => h.run ev (happend ev hev id hid) id hid, ?_⟩
  rw [chargedCycles_append, hcharge, Nat.add_zero]
  rcases h.total with hspent | ⟨k, mk, hfresh, htotal⟩
  · exact Or.inl hspent
  · refine Or.inr ⟨k, mk, { hfresh with unrun := ?_ }, htotal⟩
    intro ev hev hid
    exact hfresh.unrun ev (happend ev hev k hid) hid

section Steps

variable [Memory μ] {result : Except Error Int8} {cpu : Cpu μ} {posted : List Message}

theorem Executes.cycles_le (h : Executes env s id m result cpu posted)
    (hresult : result ≠ .error .cyclesOverflow) : m.cycles ≤ cpu.cycles := by
  obtain ⟨limit, pause, hrun⟩ := h.run
  have hmeets := runMachine_meets env ⟨id, s.totalCycles⟩ limit pause m.toCpu
  rw [hrun] at hmeets
  cases result with
  | ok code => exact hmeets.2
  | error e => exact hmeets.2 fun he => hresult (by rw [he])

/-- The VM that runs is the only one that may hold cycles, so its base and its
counter are all the charges so far. -/
theorem Balanced.executes (h : Balanced tr s) (hres : Resident s)
    (hexec : Executes env s id m result cpu posted) :
    s.totalCycles + m.cycles = chargedCycles tr ∧ Spent (s.ran id m result cpu) := by
  have hothers : (∀ (k : VmId) (m' : Machine μ), k ≠ id → s.instantiated[k]? = some m' →
      m'.cycles = 0) → Spent (s.ran id m result cpu) := by
    intro hothers k m' hk
    simp only [ran, getElem?_insert] at hk
    split at hk
    · cases hk
      rfl
    · rename_i hne
      exact hothers k m' hne hk
  rcases h.total with ⟨hspent, htotal⟩ | ⟨k, mk, hfresh, htotal⟩
  · rw [hspent id m hexec.machine]
    exact ⟨htotal, hothers fun k m' _ hk => hspent k m' hk⟩
  · have hle : k ≤ id := le_of_vmIdToRun hexec.selected hfresh.state
    have hlive : id ∈ s.states := mem_iff_getElem?.mpr ⟨_, of_vmIdToRun hexec.selected⟩
    have hge : id ≤ k := by
      exact ((checkedAdd_one_eq_some hfresh.last).2 id).mpr (hres.fresh id hlive)
    obtain rfl := UInt64.le_antisymm hle hge
    have hm := hexec.machine
    rw [hfresh.machine, Option.some.injEq] at hm
    subst hm
    exact ⟨htotal, hothers hfresh.others⟩

/-- After an execution no machine holds cycles. -/
theorem Balanced.ran (h : Balanced tr s) (hres : Resident s)
    (hexec : Executes env s id m result cpu posted) (hle : m.cycles ≤ cpu.cycles) :
    Spent (s.ran id m result cpu) ∧
      Balanced (tr ++ [.exec id m.toCpu cpu result posted]) (s.ran id m result cpu) := by
  obtain ⟨htotal, hspent⟩ := h.executes hres hexec
  refine ⟨hspent, ?_, Or.inl ⟨hspent, ?_⟩⟩
  · intro ev hev k hk
    rcases List.mem_append.mp hev with hev | hev
    · exact h.run ev hev k hk
    · obtain rfl := List.mem_singleton.mp hev
      obtain rfl := Option.some.inj hk
      exact hres.fresh id (mem_iff_getElem?.mpr ⟨_, of_vmIdToRun hexec.selected⟩)
  · have hcharge : (Event.exec id m.toCpu cpu result posted).charge = cpu.cycles - m.cycles := rfl
    simp only [chargedCycles_append, chargedCycles_cons, chargedCycles_nil, hcharge, Nat.add_zero,
      Scheduler.ran]
    omega

omit [Memory μ] in
theorem Balanced.total_of_spent (h : Balanced tr s) (hspent : Spent s) :
    s.totalCycles = chargedCycles tr := by
  rcases h.total with ⟨_, hbalance⟩ | ⟨k, mk, hfresh, hbalance⟩
  · exact hbalance
  · rw [← hbalance, hspent k mk hfresh.machine, Nat.add_zero]

omit [Memory μ] in
theorem Balanced.of_spent {s₁ : Scheduler μ κ} (h : Balanced tr s) (hspent : Spent s)
    (hspent₁ : Spent s₁) (htotal : s₁.totalCycles = s.totalCycles)
    (hnext : s₁.nextVmId = s.nextVmId) : Balanced tr s₁ :=
  ⟨fun ev hev k hk => hnext ▸ h.run ev hev k hk,
    Or.inl ⟨hspent₁, htotal.trans (h.total_of_spent hspent)⟩⟩

theorem Woken.spent {code : Int8} {joiners : List (VmId × UInt64)}
    (h : Woken code joiners s l s') (hspent : Spent s) : Spent s' := by
  induction h with
  | nil => exact hspent
  | cons _ hm _ _ ih => exact ih (hspent.settled hm _)

theorem Woken.inner {code : Int8} {joiners : List (VmId × UInt64)}
    (h : Woken code joiners s l s') : chargedCycles l = 0 ∧ ∀ ev ∈ l, ev.runs = none := by
  induction h with
  | nil => simp
  | cons _ _ _ _ ih =>
    constructor
    · rw [chargedCycles_append, ih.1]
      rfl
    · intro ev hev
      rcases List.mem_append.mp hev with hev | hev
      · simp only [joinEvents, List.mem_cons, List.not_mem_nil, or_false] at hev
        rcases hev with rfl | rfl <;> rfl
      · exact ih.2 ev hev

/-- The answer to a message moves no cycles, but a VM it spawns holds its load
charge. -/
theorem Answer.balanced {msg : Message} (h : Answer env s id m msg l s') (hs : Balanced tr s)
    (hspent : Spent s) (hres : Resident s) (hid : id ∈ s.states)
    (hm : s.instantiated[id]? = some m) : Balanced (tr ++ l) s' := by
  cases h with
  | rejected h =>
    refine (hs.of_spent hspent (hspent.settled hm _) rfl rfl).logged rfl ?_
    simp [Event.runs]
  | @blocked _ state h =>
    have hblocked : Balanced tr { s with states := s.states.insert id state } :=
      hs.of_spent hspent hspent rfl rfl
    exact hblocked.logged rfl (by simp [Event.runs])
  | joined hcode hcore =>
    refine (hs.of_spent hspent (hspent.settled hm _) rfl rfl).logged rfl ?_
    simp [joinEvents, Event.runs]
  | @piped args p1 p2 slot core hcreate hcore =>
    have hpiped : Spent (s.piped id p1 p2 slot) := hspent
    refine (hs.of_spent hspent (hpiped.settled hm _) rfl rfl).logged rfl ?_
    simp [pipeEvents, Event.runs]
  | @spawned args charge machine core howns hnext hboot hcore =>
    have hlt := hres.fresh id hid
    have hne : id ≠ s.nextVmId := by
      rintro heq
      exact UInt64.lt_irrefl _ (heq ▸ hlt)
    have hle := (checkedAdd_one_eq_some hnext).2
    have hrun : ∀ ev ∈ tr ++ .boot s.nextVmId charge ::
        spawnEvents id args.instanceIdAddr s.nextVmId, ∀ k, ev.runs = some k → k < s.nextVmId := by
      intro ev hev k hk
      rcases List.mem_append.mp hev with hev | hev
      · exact hs.run ev hev k hk
      · simp only [spawnEvents, List.mem_cons, List.not_mem_nil, or_false] at hev
        rcases hev with rfl | rfl | rfl <;> cases hk
    have hheld : machine.cycles = charge := by
      obtain ⟨_, _, _, _, _, _, _, rfl⟩ := hboot
      rfl
    refine ⟨?_, Or.inr ⟨s.nextVmId, machine, ⟨?_, ?_, hnext, ?_, ?_⟩, ?_⟩⟩
    · intro ev hev k hk
      exact (hle k).mp (UInt64.le_of_lt (hrun ev hev k hk))
    · simp only [settled, accessed, Scheduler.booted, getElem?_insert, if_neg hne.symm, if_true]
    · simp only [settled, Scheduler.booted, getElem?_insert, if_neg hne.symm, if_true]
    · intro ev hev hk
      exact UInt64.lt_irrefl _ (hrun ev hev _ hk)
    · intro k m' hk hm'
      simp only [settled, accessed, Scheduler.booted, getElem?_insert, if_neg hk] at hm'
      split at hm'
      · cases hm'
        exact hspent id m hm
      · exact hspent k m' hm'
    · have hcharge : chargedCycles (.boot s.nextVmId charge ::
          spawnEvents id args.instanceIdAddr s.nextVmId : List (Event μ)) = charge := rfl
      rw [chargedCycles_append, hcharge, ← hs.total_of_spent hspent, hheld]
      rfl

/-- Every step keeps the balance. -/
theorem Step.balanced (h : Step env s l s') (hinv : Invariant s) (hs : Balanced tr s) :
    Balanced (tr ++ l) s' := by
  have hres := hinv.resident
  cases h with
  | started limitCycles hroot => exact hs.logged rfl (by simp [Event.runs])
  | @closed id state m core hstate hclosed hm hcore =>
    have hwaiting : s.states[id]? ≠ some .runnable := by
      rintro hrunnable
      rw [hstate] at hrunnable
      cases hrunnable
      simp [isClosed, VmState.waiting?] at hclosed
    refine (hs.settled hwaiting hm _).logged ?_ ?_
    · cases state <;> rfl
    · cases state <;> simp [closedEvents, Event.runs]
  | @transferred rd wr mr mw data readCore writeCore hread hwrite hopen hmr hmw =>
    have hne : wr.vmId ≠ rd.vmId := (ne_of_reading_writing hread hwrite).symm
    have hreading : s.states[rd.vmId]? ≠ some .runnable := by
      rw [hread]
      rintro ⟨⟩
    have hfirst : Balanced tr (s.settled rd.vmId mr readCore .runnable) :=
      hs.settled hreading hmr .runnable
    have hwriting : (s.settled rd.vmId mr readCore .runnable).states[wr.vmId]? ≠
        some .runnable := by
      simp only [settled, getElem?_insert, if_neg hne, hwrite]
      rintro ⟨⟩
    have hmw' : (s.settled rd.vmId mr readCore .runnable).instantiated[wr.vmId]? = some mw := by
      simp only [settled, accessed, getElem?_insert, if_neg hne, hmw]
    refine (hfirst.settled hwriting hmw' _).logged ?_ ?_
    · simp only [transferLog, Write.events]
      split <;> rfl
    · simp only [transferLog, Write.events]
      split <;> simp [Event.runs]
  | @interrupted id m e cpu hexec he =>
    refine (hs.ran hres hexec (hexec.cycles_le ?_)).2
    rintro ⟨⟩
    simp [Error.Interrupt] at he
  | @answered id m cpu msg l s' hexec hid hchecked hanswer =>
    obtain ⟨hspent, hran⟩ := hs.ran hres hexec (hexec.cycles_le (by simp [Error.yield]))
    have hlive : id ∈ s.states := mem_iff_getElem?.mpr ⟨_, hexec.state⟩
    have hmessage : Balanced (tr ++ [.exec id m.toCpu cpu (.error .yield) [msg]] ++ [.message msg])
        (s.ran id m (.error .yield) cpu) := hran.logged rfl (by simp [Event.runs])
    have hanswered := hanswer.balanced hmessage hspent (hres.ran hlive) hlive ran_machine
    simpa using hanswered
  | @exited id m code cpu l s' hexec hne hwoken =>
    obtain ⟨hspent, hran⟩ := hs.ran hres hexec (hexec.cycles_le (by simp))
    have hspent' := hwoken.spent hspent
    have hpurged : Spent (s'.purged id code) := by
      intro k m' hk
      simp only [purged, getElem?_erase] at hk
      split at hk
      · cases hk
      · exact hspent' k m' hk
    have hwoken' := hran.of_spent hspent hpurged hwoken.frame.1 hwoken.frame.2.1
    have hlogged := hwoken'.logged hwoken.inner.1 hwoken.inner.2
    simpa using hlogged
  | @rootExited m code cpu hexec =>
    obtain ⟨hspent, hran⟩ := hs.ran hres hexec (hexec.cycles_le (by simp))
    have hcompleted : Spent ((s.ran rootVmId m (.ok code) cpu).completed code) := by
      intro k m' hk
      simp only [completed, getElem?_filter_key] at hk
      split at hk
      · exact hspent k m' hk
      · cases hk
    exact hran.of_spent hspent hcompleted rfl rfl

/-- A step runs the selected machine first, or none. -/
theorem Step.execution (h : Step env s l s') (hinv : Invariant s) :
    (∀ ev ∈ l, ev.runs = none) ∨ ∃ id m result cpu posted l',
      l = .exec id m.toCpu cpu result posted :: l' ∧
        Executes env s id m result cpu posted ∧ result ≠ .error .cyclesOverflow ∧
        ∀ ev ∈ l', ev.runs = none := by
  cases h with
  | started => exact Or.inl (by simp [Event.runs])
  | closed => exact Or.inl fun ev hev => (closedEvents_target hev).2
  | transferred => exact Or.inl fun ev hev => transferLog_runs hev
  | @interrupted id m e cpu hexec he =>
    refine Or.inr ⟨_, _, _, _, _, _, rfl, hexec, ?_, by simp⟩
    rintro ⟨⟩
    simp [Error.Interrupt] at he
  | @answered id m cpu msg l s' hexec hid hchecked hanswer =>
    have hlive : id ∈ s.states := mem_iff_getElem?.mpr ⟨_, hexec.state⟩
    have hanswers := hanswer.answers (hinv.resident.ran hlive) ran_machine hexec.state hid
    refine Or.inr ⟨_, _, _, _, _, _, rfl, hexec, by simp [Error.yield], ?_⟩
    rw [List.forall_mem_cons]
    exact ⟨rfl, hanswers.runs⟩
  | exited hexec hne hwoken =>
    exact Or.inr ⟨_, _, _, _, _, _, rfl, hexec, by simp, hwoken.inner.2⟩
  | rootExited hexec => exact Or.inr ⟨_, _, _, _, _, _, rfl, hexec, by simp, by simp⟩

/-- What an execution from `before` to `after` is told, when it comes after a
history: at every time all the charges made so far, which never are fewer than at
the time before. -/
def TellsCharges (env : Env μ κ) (h : List (Event μ)) (ctx : MachineContext) (limit : ℕ)
    (pause : Pause) (before after : Cpu μ) : Prop :=
  (∀ told ∈ executionTold env ctx limit pause before,
    told.2.toNat = chargedCycles h + (told.1 - before.cycles) ∧
      told.2.toNat ≤ chargedCycles h + (after.cycles - before.cycles)) ∧
    ((executionTold env ctx limit pause before).map fun told => told.2.toNat).Pairwise (· ≤ ·)

/-- Whether an event, when it is an execution, is one under some limit and signal
on top of the total, and is told the charges of all VMs. -/
def ExecutionTells (env : Env μ κ) (h : List (Event μ)) (ev : Event μ) : Prop :=
  ∀ id before after result posted, ev = .exec id before after result posted →
    before.cycles ≤ after.cycles ∧ ∃ base limit pause, base + before.cycles = chargedCycles h ∧
      runMachine env ⟨id, base⟩ limit pause before = stopped result after posted ∧
      TellsCharges env h ⟨id, base⟩ limit pause before after

theorem Balanced.tells (h : Balanced tr s) (hres : Resident s)
    (hexec : Executes env s id m result cpu posted) (hresult : result ≠ .error .cyclesOverflow) :
    ExecutionTells env tr (.exec id m.toCpu cpu result posted) := by
  rintro _ _ _ _ _ ⟨⟩
  obtain ⟨limit, pause, hrun⟩ := hexec.run
  have hbase := (h.executes hres hexec).1
  have hstopped : runMachine env ⟨id, s.totalCycles⟩ limit pause m.toCpu =
      stopped result cpu posted := by
    rw [hrun]
    cases result <;> rfl
  obtain ⟨hsorted, htold⟩ := toldCycles_meets hresult (limit + 1 - m.cycles + 1) hstopped
  refine ⟨hexec.cycles_le hresult, s.totalCycles, limit, pause, hbase, hstopped, ?_, ?_⟩
  · intro told hin
    obtain ⟨hvalue, hle, hle'⟩ := htold told hin
    dsimp only at hvalue
    omega
  · rw [List.pairwise_map] at hsorted ⊢
    refine hsorted.imp_of_mem ?_
    intro a b ha hb hab
    have hva := (htold a ha).1
    have hvb := (htold b hb).1
    dsimp only at hva hvb
    omega

theorem Step.tells (h : Step env s l s') (hinv : Invariant s) (hs : Balanced tr s) :
    Throughout (fun h ev => ExecutionTells env (tr ++ h) ev) l := by
  have hquiet : ∀ {h l : List (Event μ)}, (∀ ev ∈ l, ev.runs = none) →
      Throughout (fun h' ev => ExecutionTells env (tr ++ (h ++ h')) ev) l := by
    rintro h l hl h' ev rest rfl id before after result posted rfl
    cases hl (.exec id before after result posted) (by simp)
  rcases h.execution hinv with hl | ⟨id, m, result, cpu, posted, l', rfl, hexec, hresult, hl⟩
  · exact hquiet (h := []) hl
  · rw [throughout_cons, List.append_nil]
    refine ⟨hs.tells hinv.resident hexec hresult, ?_⟩
    exact hquiet (h := [_]) hl

theorem Run.balanced (h : Run env tr r) :
    Balanced tr r ∧ Throughout (ExecutionTells env) tr := by
  have hkept := h.keeps (I := fun tr r => Invariant r ∧ Balanced tr r ∧
    Throughout (ExecutionTells env) tr) ?_ ?_
  · exact hkept.2
  · intro charge machine hboots
    have hheld : machine.cycles = charge := by
      obtain ⟨_, _, _, _, _, _, _, rfl⟩ := hboots
      rfl
    refine ⟨booted_invariant machine, ⟨by simp [Event.runs], ?_⟩, ?_⟩
    · refine Or.inr ⟨rootVmId, machine, ⟨?_, ?_, rfl, by simp [Event.runs], ?_⟩, ?_⟩
      · simp [Scheduler.booted]
      · simp [Scheduler.booted]
      · intro k m' hk hm'
        simp only [Scheduler.booted, getElem?_insert, if_neg hk] at hm'
        simp [new] at hm'
      · simp [Scheduler.booted, new, hheld, Event.charge]
    · rw [throughout_cons]
      refine ⟨?_, throughout_nil⟩
      rintro id before after result posted ⟨⟩
  · rintro tr r l r' ⟨hinv, hbalanced, htells⟩ hstep
    exact ⟨hstep.invariant hinv, hstep.balanced hinv hbalanced,
      throughout_append.mpr ⟨htells, hstep.tells hinv hbalanced⟩⟩

end Steps

/-- The cycles that a VM holds, instantiated or suspended. -/
def cyclesOf (env : Env μ κ) (s : Scheduler μ κ) (id : VmId) : ℕ :=
  (s.cpu? env id).elim 0 Cpu.cycles

/-- All cycles that live VMs hold. -/
def heldCycles (env : Env μ κ) (s : Scheduler μ κ) : ℕ :=
  (s.states.keys.map (s.cyclesOf env)).sum

/-- Cycles are conserved: the total and what live VMs hold are all charges so far,
only the VM booted last may hold some, before it has run, and none does after the
root has exited. Whatever current cycles an execution was told are all charges made
until then. -/
structure CyclesConserved [Memory μ] (env : Env μ κ) (tr : List (Event μ))
    (s : Scheduler μ κ) : Prop where
  total : s.totalCycles + s.heldCycles env = chargedCycles tr
  newest : ∀ id, s.cyclesOf env id ≠ 0 →
    (bootedVms tr).getLast? = some id ∧ ∀ ev ∈ tr, ev.runs ≠ some id
  completed : s.states[rootVmId]? = some .terminated → ∀ id, s.cyclesOf env id = 0
  told : Throughout (ExecutionTells env) tr

/-- A sum over distinct elements of which only one counts. -/
theorem sum_map_eq_single {α : Type} [DecidableEq α] {xs : List α} {f : α → ℕ} {a : α}
    (hnodup : xs.Nodup) (ha : a ∈ xs) (h : ∀ b, b ≠ a → f b = 0) : (xs.map f).sum = f a := by
  rw [← List.sum_toFinset f hnodup]
  exact Finset.sum_eq_single_of_mem a (List.mem_toFinset.mpr ha) fun b _ hb => h b hb

theorem heldCycles_of_none (h : ∀ id, s.cyclesOf env id = 0) : s.heldCycles env = 0 := by
  apply List.sum_eq_zero
  intro c hc
  obtain ⟨id, _, rfl⟩ := List.mem_map.mp hc
  exact h id

theorem new_cyclesOf (id : VmId) : (new : Scheduler μ κ).cyclesOf env id = 0 := by
  simp [cyclesOf, cpu?, new]

theorem new_cyclesConserved [Memory μ] : CyclesConserved env [] (new : Scheduler μ κ) where
  total := by
    rw [heldCycles_of_none new_cyclesOf]
    rfl
  newest id hid := absurd (new_cyclesOf id) hid
  completed _ := new_cyclesOf
  told := throughout_nil

section Reached

variable [Memory μ] {cap : Option ℕ}

omit [Memory μ] in
theorem Linked.cyclesOf (h : Linked cap env s r) (hid : r.instantiated[id]? = some m) :
    s.cyclesOf env id = m.cycles := by
  rw [Scheduler.cyclesOf, h.same.cpu, cpu?_of_instantiated hid]
  rfl

omit [Memory μ] in
theorem Linked.cyclesOf_none (h : Linked cap env s r) (hid : r.instantiated[id]? = none) :
    s.cyclesOf env id = 0 := by
  have hnone : r.cpu? env id = none := by
    simp [cpu?, hid, h.resident.suspended]
  rw [Scheduler.cyclesOf, h.same.cpu, hnone]
  rfl

omit [Memory μ] in
/-- A VM of the scheduler holds cycles when its machine in the reference does. -/
theorem Linked.holder (h : Linked cap env s r) (hid : s.cyclesOf env id ≠ 0) :
    ∃ m, r.instantiated[id]? = some m ∧ m.cycles = s.cyclesOf env id := by
  cases hm : r.instantiated[id]? with
  | none => exact absurd (h.cyclesOf_none hm) hid
  | some m => exact ⟨m, rfl, (h.cyclesOf hm).symm⟩

theorem Refines.cyclesConserved (h : Refines cap env tr s r) : CyclesConserved env tr s := by
  obtain ⟨hlinked, hrun⟩ := h
  obtain ⟨hbalanced, htold⟩ := hrun.balanced
  have htotal := hlinked.same.totalCycles
  rcases hbalanced.total with ⟨hspent, hbalance⟩ | ⟨k, mk, hfresh, hbalance⟩
  · have hnone : ∀ id, s.cyclesOf env id = 0 := by
      intro id
      by_contra hid
      obtain ⟨m, hm, hcycles⟩ := hlinked.holder hid
      exact hid (hcycles ▸ hspent id m hm)
    refine ⟨?_, fun id hid => absurd (hnone id) hid, fun _ => hnone, htold⟩
    rw [heldCycles_of_none hnone, htotal, hbalance, Nat.add_zero]
  · have hother : ∀ id, id ≠ k → s.cyclesOf env id = 0 := by
      intro id hne
      by_contra hid
      obtain ⟨m, hm, hcycles⟩ := hlinked.holder hid
      exact hid (hcycles ▸ hfresh.others id m hne hm)
    refine ⟨?_, ?_, ?_, htold⟩
    · have hlive : k ∈ s.states.keys := by
        rw [ExtTreeMap.mem_keys, hlinked.same.states, mem_iff_getElem?]
        exact ⟨_, hfresh.state⟩
      rw [heldCycles, sum_map_eq_single ExtTreeMap.nodup_keys hlive hother,
        hlinked.cyclesOf hfresh.machine, htotal, hbalance]
    · intro id hid
      have hk : id = k := by
        by_contra hne
        exact hid (hother id hne)
      subst hk
      refine ⟨?_, hfresh.unrun⟩
      rw [hrun.bootedVms_eq, checkedAdd_one_toNat hfresh.last, List.range_succ, List.map_append,
        List.getLast?_append]
      simp
    · intro hroot
      exfalso
      rw [hlinked.same.states] at hroot
      rcases hrun.invariant.phase with hrunning | hdone
      · exact hrunning.root_state hroot
      · have hstate := hfresh.state
        rw [hdone, getElem?_insert] at hstate
        split at hstate <;> simp at hstate

/-- In every reachable scheduler cycles are conserved, and what a call that completes
returns are all charges ever made. -/
theorem cycles_conserved (env : Env μ κ) {tr : List (Event μ)} {s : Scheduler μ κ}
    (h : Reachable maxInstantiatedVms env tr s) :
    CyclesConserved env tr s ∧ ∀ mode code total s' l,
      run maxInstantiatedVms env mode s = .ok (code, total) s' l →
        total = chargedCycles (tr ++ l) := by
  have hconserved : ∀ {tr : List (Event μ)} {s : Scheduler μ κ},
      Reachable maxInstantiatedVms env tr s → CyclesConserved env tr s := by
    intro tr s h
    rcases h.driven two_le_maxInstantiatedVms with ⟨rfl, rfl⟩ | ⟨r, hr⟩
    · exact new_cyclesConserved
    · exact hr.cyclesConserved
  refine ⟨hconserved h, ?_⟩
  intro mode code total s' l hrun
  obtain ⟨hroot, m, hm, hresult⟩ := run_returns hrun
  obtain ⟨rfl, rfl⟩ := Prod.mk.inj hresult
  have hdone := hconserved (h.run_ok hrun)
  have hheld : s'.heldCycles env = 0 := heldCycles_of_none (hdone.completed hroot)
  rw [← hdone.total, hheld, Nat.add_zero]

end Reached

/-- A suspended scheduler in which a VM that was spawned holds its load charge in a
snapshot. -/
theorem cycles_conserved_relay : ∃ tr s, Reachable maxInstantiatedVms relayEnv tr s ∧
    s.instantiated.isEmpty = true ∧ s.cyclesOf relayEnv 1 = 10 ∧
      CyclesConserved relayEnv tr s := by
  obtain ⟨tr, s, h, hs⟩ := exists_reachable maxInstantiatedVms relayEnv
    [.boot, .round none 99, .round none 99, .suspend]
    (fun _ s => s.instantiated.isEmpty && s.cyclesOf relayEnv 1 == 10) (by decide +kernel)
  rw [Bool.and_eq_true, beq_iff_eq] at hs
  exact ⟨tr, s, h, hs.1, hs.2, (cycles_conserved relayEnv h).1⟩

end Scheduler

end DeterministicScheduler
