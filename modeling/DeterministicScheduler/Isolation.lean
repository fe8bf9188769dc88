import DeterministicScheduler.Guest
import DeterministicScheduler.History

/-!
# A machine changes only by its own system call

Between two executions of a VM its machine is left alone when it was interrupted.
When it yielded, the one system call it yielded on is completed: A0 is written
once, and memory changes only where the arguments of the call say, if it changes
at all. What other VMs do has no further effect.
-/
namespace DeterministicScheduler

open ProgramLogic Program Outcome Std

variable {μ κ : Type} [Memory μ]

namespace Event

/-- The value that an event writes to A0. -/
def a0? : Event μ → Option UInt64
  | setA0 _ value => some value
  | _ => none

/-- Whether an event writes the byte at an address. -/
def writes (x : UInt64) : Event μ → Prop
  | store8 _ addr _ => x = addr
  | store64 _ addr _ => (x - addr).toNat < 8
  | storeBytes _ addr data => (x - addr).toNat < data.length
  | _ => False

theorem map_eq_ok {α β : Type} {x : Except Error α} {f : α → β} {b : β}
    (h : x.map f = .ok b) : ∃ a, x = .ok a ∧ f a = b := by
  cases x with
  | error e => cases h
  | ok a => exact ⟨a, rfl, Except.ok.inj h⟩

/-- An access writes A0 or some bytes of memory, and nothing else. -/
theorem update_frame {ev : Event μ} {c c' : Core μ} (h : ev.update c = .ok c') :
    c'.pc = c.pc ∧
      c'.registers = ev.a0?.toList.foldl (fun rs value => Function.update rs A0 value) c.registers ∧
      ∀ x, ¬ ev.writes x → Memory.byteAt c'.memory x = Memory.byteAt c.memory x := by
  cases ev with
  | store8 id addr value =>
    obtain ⟨memory, hstore, rfl⟩ := map_eq_ok h
    exact ⟨rfl, rfl, fun x hx => (Memory.store8_byteAt hstore x).trans (if_neg hx)⟩
  | store64 id addr value =>
    obtain ⟨memory, hstore, rfl⟩ := map_eq_ok h
    exact ⟨rfl, rfl, fun x hx => (Memory.store64_byteAt hstore x).trans (if_neg hx)⟩
  | storeBytes id addr data =>
    obtain ⟨memory, hstore, rfl⟩ := map_eq_ok h
    refine ⟨rfl, rfl, fun x hx => ?_⟩
    rw [Memory.storeBytes_byteAt hstore, List.getElem?_eq_none (Nat.not_lt.mp hx), Option.getD_none]
  | _ =>
    cases h
    exact ⟨rfl, rfl, fun _ _ => rfl⟩

end Event

variable {evs : List (Event μ)} {c c' : Core μ}

/-- Accesses in turn write A0 as their events say. -/
theorem applyEvents_registers (h : applyEvents evs c = .ok c') :
    c'.pc = c.pc ∧ c'.registers =
      (evs.filterMap Event.a0?).foldl (fun rs value => Function.update rs A0 value)
        c.registers := by
  induction evs generalizing c with
  | nil =>
    cases h
    exact ⟨rfl, rfl⟩
  | cons ev evs ih =>
    obtain ⟨c₁, hev, hevs⟩ := applyEvents_cons.mp h
    obtain ⟨hpc, hregisters⟩ := ih hevs
    obtain ⟨hpc', hregisters', _⟩ := Event.update_frame hev
    refine ⟨hpc.trans hpc', ?_⟩
    rw [hregisters, hregisters']
    cases ha0 : ev.a0? <;> simp [ha0]

theorem applyEvents_bytes (h : applyEvents evs c = .ok c') {x : UInt64}
    (hx : ∀ ev ∈ evs, ¬ ev.writes x) : Memory.byteAt c'.memory x = Memory.byteAt c.memory x := by
  induction evs generalizing c with
  | nil =>
    cases h
    rfl
  | cons ev evs ih =>
    obtain ⟨c₁, hev, hevs⟩ := applyEvents_cons.mp h
    rw [ih hevs fun ev' hev' => hx ev' (by simp [hev'])]
    exact (Event.update_frame hev).2.2 x (hx ev (by simp))

/-- Where the arguments of a system call let it write, a read `n` bytes long. -/
def Message.places (n : UInt64) (x : UInt64) : Message → Prop
  | .spawn _ args => (x - args.instanceIdAddr).toNat < 8
  | .join _ args => x = args.exitCodeAddr
  | .pipe _ args => (x - args.pipe1Addr).toNat < 8 ∨ (x - (args.pipe1Addr + 8)).toNat < 8
  | .pipeRead _ args => (x - args.bufferAddr).toNat < n.toNat ∨ (x - args.lengthAddr).toNat < 8
  | .pipeWrite _ args => (x - args.lengthAddr).toNat < 8

/-- One system call of a VM, completed by some accesses to its machine: A0 is
written once, memory only at the places of the call and only with success, and a
read reports how many bytes it was given. -/
structure CompletedBy (v : VmId) (msg : Message) (evs : List (Event μ)) (c c' : Core μ)
    (code n : UInt64) : Prop where
  once : evs.filterMap Event.a0? = [code]
  registers : c'.registers = Function.update c.registers A0 code
  pc : c'.pc = c.pc
  memory : ∀ x, ¬ msg.places n x → Memory.byteAt c'.memory x = Memory.byteAt c.memory x
  refused : code ≠ success → c'.memory = c.memory
  reported : ∀ args, msg = .pipeRead v args → code = success → .store64 v args.lengthAddr n ∈ evs

theorem CompletedBy.of_events {v : VmId} {msg : Message} {n : UInt64}
    (h : applyEvents evs c = .ok c') (honce : evs.filterMap Event.a0? = [success])
    (hplaces : ∀ x, ¬ msg.places n x → ∀ ev ∈ evs, ¬ ev.writes x)
    (hreported : ∀ args, msg = .pipeRead v args → .store64 v args.lengthAddr n ∈ evs) :
    CompletedBy v msg evs c c' success n where
  once := honce
  registers := by
    rw [(applyEvents_registers h).2, honce]
    rfl
  pc := (applyEvents_registers h).1
  memory x hx := applyEvents_bytes h (hplaces x hx)
  refused hne := absurd rfl hne
  reported args hargs _ := hreported args hargs

/-- The accesses that settle a system call of a VM that may run again complete it. -/
theorem Settles.completed {terminatedVms : HashMap VmId Int8} {v : VmId} {msg : Message}
    (h : Settles terminatedVms v msg .runnable evs) (hchecked : msg.Checked)
    (hevs : applyEvents evs c = .ok c') : ∃ code n, CompletedBy v msg evs c c' code n := by
  cases h with
  | @rejected _ code hcode =>
    cases hevs
    refine ⟨code, 0, rfl, rfl, rfl, fun _ _ => rfl, fun _ => rfl, ?_⟩
    rintro args rfl hsuccess
    exact absurd hsuccess (Message.refusals_ne_success hcode)
  | @joined args code hcode =>
    refine ⟨success, 0, .of_events hevs rfl ?_ (by simp)⟩
    intro x hx ev hev
    simp only [Scheduler.joinEvents, List.mem_cons, List.not_mem_nil, or_false] at hev
    rcases hev with rfl | rfl
    · exact hx
    · exact not_false
  | @spawned args spawned =>
    refine ⟨success, 0, .of_events hevs rfl ?_ (by simp)⟩
    intro x hx ev hev
    simp only [Scheduler.spawnEvents, List.mem_cons, List.not_mem_nil, or_false] at hev
    rcases hev with rfl | rfl
    · exact hx
    · exact not_false
  | @piped args p1 p2 =>
    have hnext : args.pipe2Addr = args.pipe1Addr + 8 := hchecked
    refine ⟨success, 0, .of_events hevs rfl ?_ (by simp)⟩
    intro x hx ev hev
    simp only [Message.places, not_or] at hx
    simp only [Scheduler.pipeEvents, List.mem_cons, List.not_mem_nil, or_false] at hev
    rcases hev with rfl | rfl | rfl
    · exact hx.1
    · exact hnext ▸ hx.2
    · exact not_false
  | @read args data copied hdata hle =>
    refine ⟨success, copied, .of_events hevs rfl ?_ ?_⟩
    · intro x hx ev hev
      simp only [Message.places, not_or] at hx
      simp only [List.mem_cons, List.not_mem_nil, or_false] at hev
      rcases hev with rfl | rfl | rfl
      · show ¬ (x - args.bufferAddr).toNat < data.length
        rw [hdata]
        exact hx.1
      · exact hx.2
      · exact not_false
    · intro args' hargs
      cases hargs
      simp
  | @readClosed args =>
    refine ⟨success, 0, .of_events hevs rfl ?_ ?_⟩
    · intro x hx ev hev
      simp only [Message.places, not_or] at hx
      simp only [List.mem_cons, List.not_mem_nil, or_false] at hev
      rcases hev with rfl | rfl
      · exact hx.2
      · exact not_false
    · intro args' hargs
      cases hargs
      simp
  | @written args copied =>
    refine ⟨success, 0, .of_events hevs rfl ?_ (by simp)⟩
    intro x hx ev hev
    simp only [List.mem_cons, List.not_mem_nil, or_false] at hev
    rcases hev with rfl | rfl
    · exact hx
    · exact not_false

namespace Scheduler

variable {κ : Type} {cap : Option ℕ} {env : Env μ κ} {s s' r : Scheduler μ κ}
  {tr l : List (Event μ)} {v : VmId}

/-- A machine is executed as its log tells: fresh, as it was interrupted, or with
the system call completed that it yielded on. -/
def Executed (h : List (Event μ)) : Event μ → Prop
  | .exec v before _ _ _ => ∃ terminatedVms, Tracked h terminatedVms v .runnable before.toCore ∧
    ∀ (t : VmId) (code : Int8), terminatedVms[t]? = some code →
      ∃ before after posted, .exec t before after (.ok code) posted ∈ h
  | _ => True

/-- Only the first event of a step may be an execution. -/
theorem Step.executed (hstep : Step env s l s') (hinv : Invariant s) (h : Recorded tr s)
    (hexits : Exits tr s) :
    Throughout (fun h' => Executed (tr ++ h')) l := by
  have hnone : ∀ {l : List (Event μ)} (tr : List (Event μ)), (∀ ev ∈ l, ev.runs = none) →
      Throughout (fun h' => Executed (tr ++ h')) l := by
    intro l tr hl h' ev rest heq
    have hruns := hl ev (by rw [heq]; simp)
    cases ev with
    | exec => cases hruns
    | _ => trivial
  have hexec : ∀ {id : VmId} {m : Machine μ} {result : Except Error Int8} {cpu : Cpu μ}
      {posted : List Message} {l : List (Event μ)}, Executes env s id m result cpu posted →
      (∀ ev ∈ l, ev.runs = none) →
      Throughout (fun h' => Executed (tr ++ h')) (.exec id m.toCpu cpu result posted :: l) := by
    intro id m result cpu posted l hexec hl
    refine throughout_cons.mpr ⟨⟨s.terminatedVms, ?_⟩, ?_⟩
    · rw [List.append_nil]
      exact ⟨h.tracked id .runnable m hexec.state (by simp) hexec.machine,
        fun t code hcode => (hexits t code).mp hcode⟩
    · have hrest := hnone (tr ++ [.exec id m.toCpu cpu result posted]) hl
      simpa only [List.append_assoc, List.singleton_append] using hrest
  cases hstep with
  | started => exact hnone tr (by simp [Event.runs])
  | closed => exact hnone tr fun ev hev => (closedEvents_target hev).2
  | transferred => exact hnone tr fun ev hev => transferLog_runs hev
  | interrupted hexec' => exact hexec hexec' (by simp)
  | @answered id m cpu msg l s' hexec' hid hchecked hanswer =>
    have hlive : id ∈ s.states := mem_iff_getElem?.mpr ⟨_, hexec'.state⟩
    have hanswers := hanswer.answers (hinv.resident.ran hlive) ran_machine hexec'.state hid
    refine hexec hexec' ?_
    rw [List.forall_mem_cons]
    exact ⟨rfl, hanswers.runs⟩
  | exited hexec' hne hwoken => exact hexec hexec' (hwoken.own joiningVms_nodup).1
  | rootExited hexec' => exact hexec hexec' (by simp)

/-- Every execution in a run finds its machine as the log tells. -/
theorem Run.executed (h : Run env tr r) : Throughout Executed tr := by
  refine (h.keeps (I := fun tr r => Run env tr r ∧ Throughout Executed tr) ?_ ?_).2
  · intro charge machine hboot
    exact ⟨⟨charge, machine, [], hboot, rfl, .refl⟩, throughout_cons.mpr ⟨trivial, throughout_nil⟩⟩
  · rintro tr r l r' ⟨hr, hall⟩ hstep
    exact ⟨hr.steps (.single hstep), throughout_append.mpr
      ⟨hall, hstep.executed hr.invariant hr.recorded hr.exits⟩⟩

/-- Between two executions of a VM nothing changes its machine when it was
interrupted, and when it yielded the system call it yielded on is completed. -/
theorem vms_isolated (env : Env μ κ) {s : Scheduler μ κ} {before mid rest : List (Event μ)}
    {v : VmId} {cpu₀ cpu cpu' cpu₁ : Cpu μ} {result result' : Except Error Int8}
    {posted posted' : List Message}
    (h : Reachable maxInstantiatedVms env (before ++ .exec v cpu₀ cpu result posted ::
      (mid ++ .exec v cpu' cpu₁ result' posted' :: rest)) s)
    (hmid : ∀ ev ∈ mid, ev.runs ≠ some v) :
    ((∃ e, result = .error e ∧ e.Interrupt) ∧ posted = [] ∧ own v mid = [] ∧
        cpu'.toCore = cpu.toCore) ∨
      ∃ msg code n, result = .error .yield ∧ posted = [msg] ∧ msg.vmId = v ∧
        CompletedBy v msg (own v mid) cpu.toCore cpu'.toCore code n := by
  rcases h.driven two_le_maxInstantiatedVms with ⟨_, hnil⟩ | ⟨r, _, hr⟩
  · simp at hnil
  have hexec := hr.executed (before ++ .exec v cpu₀ cpu result posted :: mid)
    (.exec v cpu' cpu₁ result' posted') rest (by simp)
  obtain ⟨terminatedVms, htracked, _⟩ := hexec
  have hlast : lastExec v (before ++ .exec v cpu₀ cpu result posted :: mid) =
      some (cpu, result, posted) := lastExec_exec hmid
  have hsince : since v (before ++ .exec v cpu₀ cpu result posted :: mid) = own v mid :=
    since_exec hmid
  cases htracked with
  | booted hnone =>
    rw [hlast] at hnone
    cases hnone
  | interrupted hlast' he hsince' _ hcore =>
    rw [hlast] at hlast'
    rw [hsince] at hsince'
    cases hlast'
    exact Or.inl ⟨⟨_, rfl, he⟩, rfl, hsince', hcore⟩
  | yielded hlast' hid hchecked hsettles hcore =>
    rw [hlast] at hlast'
    rw [hsince] at hsettles hcore
    cases hlast'
    obtain ⟨code, n, hcompleted⟩ := hsettles.completed hchecked hcore
    exact Or.inr ⟨_, code, n, rfl, rfl, hid, hcompleted⟩

/-- The root runs, posts a message, and runs again with five events between, none of
which executes a VM. -/
def completesFirst : List (Event Ram) → Bool
  | _ :: _ :: .exec id _ _ _ [_] :: e₁ :: e₂ :: e₃ :: e₄ :: e₅ :: .exec id' _ _ _ _ :: _ =>
    id == 0 && id' == 0 && [e₁, e₂, e₃, e₄, e₅].all (·.runs == none)
  | _ => false

/-- The root of the relay between its first two executions, when its pipe is made. -/
theorem vms_isolated_relay : ∃ (mid : List (Event Ram)) (cpu cpu' : Cpu Ram)
    (msg : Message) (code n : UInt64), mid.length = 5 ∧
      CompletedBy 0 msg (own 0 mid) cpu.toCore cpu'.toCore code n := by
  obtain ⟨tr, s, h, hs⟩ := exists_reachable maxInstantiatedVms relayEnv
    [.boot, .round none 99, .round none 99] (fun tr _ => completesFirst tr)
    (by decide +kernel)
  unfold completesFirst at hs
  split at hs
  · rename_i b₁ b₂ id cpu₀ cpu result msg e₁ e₂ e₃ e₄ e₅ id' cpu' cpu₁ result' posted' rest
    simp only [Bool.and_eq_true, beq_iff_eq] at hs
    obtain ⟨⟨rfl, rfl⟩, hmid⟩ := hs
    have hruns : ∀ ev ∈ [e₁, e₂, e₃, e₄, e₅], ev.runs ≠ some 0 := by
      intro ev hev
      have hnone := List.all_eq_true.mp hmid ev hev
      rw [beq_iff_eq] at hnone
      simp [hnone]
    have hpath : Reachable maxInstantiatedVms relayEnv ([b₁, b₂] ++ .exec 0 cpu₀ cpu result [msg] ::
        ([e₁, e₂, e₃, e₄, e₅] ++ .exec 0 cpu' cpu₁ result' posted' :: rest)) s := h
    rcases vms_isolated relayEnv hpath hruns with ⟨_, hnil, _⟩ | ⟨msg', code, n, _, _, _, hdone⟩
    · cases hnil
    · exact ⟨[e₁, e₂, e₃, e₄, e₅], cpu, cpu', msg', code, n, rfl, hdone⟩
  · cases hs

end Scheduler

end DeterministicScheduler
