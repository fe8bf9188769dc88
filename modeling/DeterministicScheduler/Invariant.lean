import DeterministicScheduler.Steps

/-!
# The invariant of the reference scheduler

While the root runs, every id below the next one is live or terminated and never
both, every pipe has a live owner, and a VM waits only for what can still happen:
a join on a live VM, or an operation on a pipe it owns. After the root exits it
is the only VM left. Every step keeps this.
-/
namespace DeterministicScheduler.Scheduler

open ProgramLogic Program Outcome Std

variable {μ κ : Type}

/-- The states a VM may be in, given who is live and who owns which pipe. -/
def Allowed (s : Scheduler μ κ) (id : VmId) : VmState → Prop
  | .runnable => True
  | .terminated => False
  | .join target _ => target ∈ s.states
  | .waitForRead pipe _ _ _ => s.pipes[pipe]? = some id ∧ PipeId.isRead pipe = true
  | .waitForWrite pipe consumed length _ _ =>
    s.pipes[pipe]? = some id ∧ PipeId.isWrite pipe = true ∧
      (consumed < length ∨ consumed = 0 ∧ length = 0)

/-- What holds while the root has not exited. -/
structure Running (s : Scheduler μ κ) : Prop where
  root : rootVmId ∈ s.states
  allowed : ∀ id state, s.states[id]? = some state → s.Allowed id state
  accounted : ∀ id, id < s.nextVmId ↔ id ∈ s.states ∨ id ∈ s.terminatedVms
  separate : ∀ id, id ∈ s.states → id ∉ s.terminatedVms
  slot_even : s.nextPipeSlot % 2 = 0
  slot_ge : 2 ≤ s.nextPipeSlot
  owner : ∀ (p : PipeId) (v : VmId), s.pipes[p]? = some v → 2 ≤ p ∧ p < s.nextPipeSlot ∧
    v ∈ s.states

/-- What holds after the root has exited. -/
def Completed (s : Scheduler μ κ) : Prop :=
  s.states = (∅ : BTreeMap VmId VmState).insert rootVmId .terminated

/-- The invariant of the reference between two steps. -/
structure Invariant (s : Scheduler μ κ) : Prop where
  resident : Resident s
  box : s.messageBox = []
  phase : Running s ∨ Completed s

variable {env : Env μ κ} {s s' : Scheduler μ κ} {id : VmId} {m : Machine μ} {core : Core μ}

theorem Allowed.congr {state : VmState} (h : s.Allowed id state)
    (hlive : ∀ k, k ∈ s.states → k ∈ s'.states)
    (hpipes : ∀ p : PipeId, s.pipes[p]? = some id → s'.pipes[p]? = some id) :
      s'.Allowed id state := by
  cases state with
  | runnable => trivial
  | terminated => exact h
  | join target addr => exact hlive _ h
  | waitForRead pipe length bufferAddr lengthAddr => exact ⟨hpipes _ h.1, h.2⟩
  | waitForWrite pipe consumed length bufferAddr lengthAddr => exact ⟨hpipes _ h.1, h.2⟩

theorem Running.setState (h : Running s) {state : VmState} (hid : id ∈ s.states)
    (hstate : s.Allowed id state) {instantiated : BTreeMap VmId (Machine μ)} :
    Running { s with instantiated, states := s.states.insert id state } := by
  have hmem : ∀ k, k ∈ s.states.insert id state ↔ k ∈ s.states := fun k => mem_insert_of_mem hid
  refine ⟨(hmem _).mpr h.root, ?_, ?_, ?_, h.slot_even, h.slot_ge, ?_⟩
  · intro k st hk
    rw [getElem?_insert] at hk
    split at hk
    · rename_i heq
      cases hk
      subst heq
      exact hstate.congr (fun k => (hmem k).mpr) fun _ hp => hp
    · exact (h.allowed k st hk).congr (fun k => (hmem k).mpr) fun _ hp => hp
  · intro k
    rw [hmem]
    exact h.accounted k
  · intro k hk
    exact h.separate k ((hmem k).mp hk)
  · intro p v hp
    rw [hmem]
    exact h.owner p v hp

theorem Running.settled (h : Running s) {state : VmState} (hid : id ∈ s.states)
    (hstate : s.Allowed id state) : Running (s.settled id m core state) :=
  h.setState hid hstate

theorem Running.ran (h : Running s) {result : Except Error Int8} {cpu : Cpu μ} :
    Running (s.ran id m result cpu) :=
  ⟨h.root, fun k st hk => (h.allowed k st hk).congr (fun _ hk => hk) fun _ hp => hp,
    h.accounted, h.separate, h.slot_even, h.slot_ge, h.owner⟩

/-- Passing pipes on changes the owner of exactly these. -/
theorem getElem?_passed {pipes : HashMap PipeId VmId} {passed : List PipeId} {p : PipeId}
    {spawned : VmId} :
    (passed.foldl (fun pipes p => pipes.insert p spawned) pipes)[p]? =
      if p ∈ passed then some spawned else pipes[p]? := by
  induction passed generalizing pipes with
  | nil => simp
  | cons q passed ih =>
    rw [List.foldl_cons, ih, getElem?_insert]
    by_cases hp : p ∈ passed <;> by_cases hq : p = q <;> simp [hp, hq]

theorem Running.booted (h : Running s) (hres : Resident s)
    (hnext : checkedAdd s.nextVmId 1 = some (s.nextVmId + 1)) {machine : Machine μ}
    {passed : List PipeId} (howns : ∀ p ∈ passed, s.pipes[p]? = some id)
    (hid : s.states[id]? = some .runnable) :
    Running (s.booted s.nextVmId machine passed) := by
  have hle := (checkedAdd_one_eq_some hnext).2
  have hnew : s.nextVmId ∉ s.states := fun hin => UInt64.lt_irrefl _ (hres.fresh _ hin)
  have hlive : ∀ k, k ∈ s.states → k ∈ (s.booted s.nextVmId machine passed).states :=
    fun k hk => mem_insert.mpr (Or.inr hk)
  refine ⟨hlive _ h.root, ?_, ?_, ?_, h.slot_even, h.slot_ge, ?_⟩
  · intro k st hk
    simp only [Scheduler.booted, getElem?_insert] at hk
    split at hk
    · cases hk
      trivial
    · by_cases hkid : k = id
      · rw [hkid, hid] at hk
        cases hk
        trivial
      · refine (h.allowed k st hk).congr hlive fun p hp => ?_
        have hnot : p ∉ passed := by
          intro hin
          rw [howns p hin, Option.some.injEq] at hp
          exact hkid hp.symm
        simp only [Scheduler.booted, getElem?_passed, if_neg hnot, hp]
  · intro k
    simp only [Scheduler.booted, mem_insert, or_assoc, ← h.accounted, ← hle]
    rw [UInt64.le_iff_lt_or_eq, or_comm]
  · intro k hk hterm
    simp only [Scheduler.booted] at hterm
    rcases mem_insert.mp hk with rfl | hk
    · exact UInt64.lt_irrefl _ ((h.accounted _).mpr (Or.inr hterm))
    · exact h.separate k hk hterm
  · intro p v hp
    simp only [Scheduler.booted, getElem?_passed] at hp
    split at hp
    · rename_i hin
      cases hp
      obtain ⟨h₁, h₂, _⟩ := h.owner p id (howns p hin)
      exact ⟨h₁, h₂, mem_insert.mpr (Or.inl rfl)⟩
    · obtain ⟨h₁, h₂, h₃⟩ := h.owner p v hp
      exact ⟨h₁, h₂, hlive v h₃⟩

/-- The ends of a new pipe pair, and the slot after them. -/
theorem create_eq_some {slot p1 p2 next : UInt64}
    (h : PipeId.create slot = some (p1, p2, next)) :
    p1 = slot ∧ p2 = slot + 1 ∧ next = slot + 2 ∧ slot.toNat + 2 < 2 ^ 64 := by
  simp only [PipeId.create, checkedAdd] at h
  split at h
  · split at h
    · simp at h
      rename_i h₁ h₂
      exact ⟨h.1.symm, h.2.1.symm, h.2.2.symm, by simpa using h₂⟩
    · simp at h
  · simp at h

theorem toNat_add_one {slot : UInt64} (h : slot.toNat + 2 < 2 ^ 64) :
    (slot + 1).toNat = slot.toNat + 1 := by
  rw [UInt64.toNat_add, Nat.mod_eq_of_lt]
  · simp
  · simp
    omega

/-- The pipes below the next slot are the old ones and the two new ones. -/
theorem lt_slot_iff {slot p : UInt64} (h : slot.toNat + 2 < 2 ^ 64) :
    p < slot + 2 ↔ p < slot ∨ p = slot ∨ p = slot + 1 := by
  have htwo : (slot + 2).toNat = slot.toNat + 2 := by
    rw [UInt64.toNat_add, Nat.mod_eq_of_lt]
    · simp
    · simpa using h
  rw [UInt64.lt_iff_toNat_lt, UInt64.lt_iff_toNat_lt, ← UInt64.toNat_inj, ← UInt64.toNat_inj,
    toNat_add_one h, htwo]
  omega

theorem ne_of_lt_slot {slot p : UInt64} (h : slot.toNat + 2 < 2 ^ 64) (hp : p < slot) :
    p ≠ slot + 1 ∧ p ≠ slot := by
  rw [UInt64.lt_iff_toNat_lt] at hp
  rw [Ne, Ne, ← UInt64.toNat_inj, ← UInt64.toNat_inj, toNat_add_one h]
  omega

theorem Running.piped (h : Running s) (hid : id ∈ s.states) {p1 p2 : PipeId} {slot : UInt64}
    (hcreate : PipeId.create s.nextPipeSlot = some (p1, p2, slot)) :
    Running (s.piped id p1 p2 slot) := by
  obtain ⟨rfl, rfl, rfl, hlt⟩ := create_eq_some hcreate
  have hge := h.slot_ge
  have hless := lt_slot_iff (p := s.nextPipeSlot) hlt
  have hless' := lt_slot_iff (p := s.nextPipeSlot + 1) hlt
  refine ⟨h.root, ?_, h.accounted, h.separate, ?_, ?_, ?_⟩
  · intro k st hk
    refine (h.allowed k st hk).congr (fun _ hk => hk) fun p hp => ?_
    obtain ⟨h₁, h₂⟩ := ne_of_lt_slot hlt (h.owner p k hp).2.1
    simp only [Scheduler.piped, getElem?_insert, if_neg h₁, if_neg h₂, hp]
  · have heven := h.slot_even
    simp only [Scheduler.piped]
    grind
  · exact UInt64.le_trans hge (UInt64.le_of_lt (hless.mpr (Or.inr (Or.inl rfl))))
  · intro p v hp
    simp only [Scheduler.piped, getElem?_insert] at hp ⊢
    split at hp
    · cases hp
      have hlt' : s.nextPipeSlot ≤ s.nextPipeSlot + 1 := by
        rw [UInt64.le_iff_toNat_le, toNat_add_one hlt]
        omega
      simp_all [UInt64.le_trans hge hlt']
    · split at hp
      · cases hp
        simp_all
      · obtain ⟨h₁, h₂, h₃⟩ := h.owner p v hp
        exact ⟨h₁, (lt_slot_iff hlt).mpr (Or.inl h₂), h₃⟩

/-- A VM that exited is purged, when nobody joins it any more. -/
theorem Running.purged (h : Running s) (hne : id ≠ rootVmId) (hid : id ∈ s.states) {code : Int8}
    (hjoin : ∀ (k : VmId) (addr : UInt64), s.states[k]? ≠ some (VmState.join id addr)) :
      Running (s.purged id code) := by
  have hpipes : ∀ (p : PipeId) (v : VmId),
      (s.purged id code).pipes[p]? = some v ↔ s.pipes[p]? = some v ∧ v ≠ id := by
    intro p v
    simp only [Scheduler.purged]
    rw [ExtTreeMap.getElem?_filter', Option.filter_eq_some_iff]
    simp
  refine ⟨mem_erase.mpr ⟨hne.symm, h.root⟩, ?_, ?_, ?_, h.slot_even, h.slot_ge, ?_⟩
  · intro k st hk
    simp only [Scheduler.purged, getElem?_erase] at hk
    split at hk
    · cases hk
    · rename_i hkid
      have hallowed := h.allowed k st hk
      cases st with
      | join target addr =>
        refine mem_erase.mpr ⟨?_, hallowed⟩
        rintro rfl
        exact hjoin k addr hk
      | waitForRead pipe length bufferAddr lengthAddr =>
        exact ⟨(hpipes _ _).mpr ⟨hallowed.1, hkid⟩, hallowed.2⟩
      | waitForWrite pipe consumed length bufferAddr lengthAddr =>
        exact ⟨(hpipes _ _).mpr ⟨hallowed.1, hkid⟩, hallowed.2⟩
      | _ => exact hallowed
  · intro k
    simp only [Scheduler.purged, mem_erase, mem_insert, h.accounted]
    by_cases hk : k = id
    · subst hk
      simp [hid]
    · simp [hk]
  · intro k hk
    simp only [Scheduler.purged, mem_erase, mem_insert] at hk ⊢
    rintro (heq | hin)
    · exact hk.1 heq
    · exact h.separate k hk.2 hin
  · intro p v hp
    obtain ⟨hp, hv⟩ := (hpipes p v).mp hp
    obtain ⟨h₁, h₂, h₃⟩ := h.owner p v hp
    exact ⟨h₁, h₂, mem_erase.mpr ⟨hv, h₃⟩⟩

theorem Resident.congr (h : Resident s) (hsus : s'.suspended = s.suspended)
    (hstates : ∀ k, k ∈ s'.states ↔ k ∈ s.states)
    (hin : ∀ k, k ∈ s'.instantiated ↔ k ∈ s.instantiated) (hnext : s'.nextVmId = s.nextVmId) :
    Resident s' := by
  refine ⟨hsus.trans h.suspended, fun k => ?_, fun k hk => ?_⟩
  · rw [hstates, hin, h.cover]
  · rw [hnext]
    exact h.fresh k ((hstates k).mp hk)

theorem Resident.settled (h : Resident s) (hid : id ∈ s.states) {state : VmState} :
    Resident (s.settled id m core state) :=
  h.congr rfl (fun _ => mem_insert_of_mem hid)
    (fun _ => mem_insert_of_mem ((h.cover id).mp hid)) rfl

theorem Resident.ran (h : Resident s) (hid : id ∈ s.states) {result : Except Error Int8}
    {cpu : Cpu μ} : Resident (s.ran id m result cpu) :=
  h.congr rfl (fun _ => Iff.rfl) (fun _ => mem_insert_of_mem ((h.cover id).mp hid)) rfl

theorem Resident.purged (h : Resident s) {code : Int8} : Resident (s.purged id code) := by
  refine ⟨?_, fun k => ?_, fun k hk => h.fresh k (mem_erase.mp hk).2⟩
  · simp only [Scheduler.purged, h.suspended]
    simp
  · simp only [Scheduler.purged, mem_erase, h.cover]

theorem Resident.completed (h : Resident s) (hroot : rootVmId ∈ s.states) {code : Int8} :
    Resident (s.completed code) := by
  have hmem : ∀ k, k ∈ (s.completed code).states ↔ k = rootVmId := by
    intro k
    simp only [Scheduler.completed, mem_insert]
    simp
  refine ⟨rfl, fun k => ?_, fun k hk => ?_⟩
  · rw [hmem]
    simp only [Scheduler.completed]
    rw [mem_iff_getElem?, getElem?_filter_key]
    by_cases hk : k = rootVmId
    · subst hk
      simpa using mem_iff_getElem?.mp ((h.cover _).mp hroot)
    · simp [hk]
  · rw [hmem] at hk
    exact hk ▸ h.fresh _ hroot

theorem Completed.state (h : Completed s) {state : VmState} (hid : s.states[id]? = some state) :
    state = .terminated := by
  rw [h, getElem?_insert] at hid
  split at hid
  · exact (Option.some.inj hid).symm
  · simp at hid

variable {l : List (Event μ)}

theorem Invariant.settled (h : Invariant s) {st state : VmState} (hid : s.states[id]? = some st)
    (hst : st ≠ .terminated) (hstate : s.Allowed id state) :
    Invariant (s.settled id m core state) := by
  have hmem : id ∈ s.states := mem_iff_getElem?.mpr ⟨st, hid⟩
  refine ⟨h.resident.settled hmem, h.box, ?_⟩
  rcases h.phase with hrun | hdone
  · exact Or.inl (hrun.settled hmem hstate)
  · exact absurd (hdone.state hid) hst

/-- In the running phase every step acts on a VM that has not terminated. -/
theorem Invariant.running (h : Invariant s) {st : VmState} (hid : s.states[id]? = some st)
    (hst : st ≠ .terminated) : Running s := by
  rcases h.phase with hrun | hdone
  · exact hrun
  · exact absurd (hdone.state hid) hst

/-- A waiting write that a transfer does not finish may go on waiting. -/
theorem next_allowed {wr : Write} {rd : Read} (h : s.Allowed wr.vmId wr.state) :
    s.Allowed wr.vmId (wr.next rd) := by
  obtain ⟨howns, hwrite, hlength⟩ := h
  have hle : wr.consumed ≤ wr.length := by
    rcases hlength with hlt | ⟨hzero, hzero'⟩
    · exact UInt64.le_of_lt hlt
    · rw [hzero, hzero']
      exact UInt64.le_refl _
  obtain ⟨hadd, hbound⟩ : _ ∧ wr.consumed.toNat + (wr.copiable rd).toNat ≤ wr.length.toNat :=
    Write.copiable_toNat hle
  unfold Write.next
  split
  · trivial
  · rename_i hfinishes
    refine ⟨howns, hwrite, Or.inl ?_⟩
    have hne : (wr.consumed + wr.copiable rd).toNat ≠ wr.length.toNat := by
      rw [Ne, UInt64.toNat_inj]
      simpa [Write.finishes] using hfinishes
    rw [UInt64.lt_iff_toNat_lt]
    omega

variable [Memory μ]

theorem Executes.state {result : Except Error Int8} {cpu : Cpu μ} {posted : List Message}
    (h : Executes env s id m result cpu posted) : s.states[id]? = some .runnable :=
  of_vmIdToRun h.selected

theorem Invariant.ran (h : Invariant s) {result : Except Error Int8} {cpu : Cpu μ}
    {posted : List Message} (he : Executes env s id m result cpu posted) :
    Invariant (s.ran id m result cpu) :=
  ⟨h.resident.ran (mem_iff_getElem?.mpr ⟨_, he.state⟩), h.box,
    h.phase.imp (fun hrun => hrun.ran) fun hdone => hdone⟩

omit [Memory μ] in
/-- The state in which a sender waits is one that it may be in. -/
theorem blocking_allowed {msg : Message} {state : VmState} (hchecked : msg.Checked)
    (hblock : s.blocking msg = some state) : s.Allowed msg.vmId state := by
  cases msg with
  | spawn v args => cases hblock
  | pipe v args => cases hblock
  | join v args =>
    simp only [blocking, Option.ite_none_right_eq_some, Option.some.injEq] at hblock
    obtain ⟨⟨_, hlive⟩, rfl⟩ := hblock
    exact hlive
  | pipeRead v args =>
    simp only [blocking, Option.ite_none_right_eq_some, Option.some.injEq] at hblock
    obtain ⟨⟨howns, _⟩, rfl⟩ := hblock
    exact ⟨howns, hchecked⟩
  | pipeWrite v args =>
    simp only [blocking, Option.ite_none_right_eq_some, Option.some.injEq] at hblock
    obtain ⟨⟨howns, _⟩, rfl⟩ := hblock
    refine ⟨howns, hchecked, ?_⟩
    rcases UInt64.le_iff_lt_or_eq.mp (UInt64.zero_le (a := args.length)) with hlt | heq
    · exact Or.inl hlt
    · exact Or.inr ⟨rfl, heq.symm⟩

theorem Answer.invariant {msg : Message} (h : Answer env s id m msg l s') (hinv : Invariant s)
    (hid : msg.vmId = id) (hstate : s.states[id]? = some .runnable) (hchecked : msg.Checked) :
    Invariant s' := by
  have hmem : id ∈ s.states := mem_iff_getElem?.mpr ⟨_, hstate⟩
  have hrun := hinv.running hstate (by simp)
  cases h with
  | rejected => exact hinv.settled hstate (by simp) trivial
  | blocked hblock =>
    refine ⟨hinv.resident.congr rfl (fun _ => mem_insert_of_mem hmem) (fun _ => Iff.rfl) rfl,
      hinv.box, Or.inl (hrun.setState hmem ?_)⟩
    exact hid ▸ blocking_allowed hchecked hblock
  | joined => exact hinv.settled hstate (by simp) trivial
  | @piped args p1 p2 slot core hcreate =>
    have hpiped : Invariant (s.piped id p1 p2 slot) :=
      ⟨hinv.resident.congr rfl (fun _ => Iff.rfl) (fun _ => Iff.rfl) rfl, hinv.box,
        Or.inl (hrun.piped hmem hcreate)⟩
    have hstate' : (s.piped id p1 p2 slot).states[id]? = some .runnable := hstate
    exact hpiped.settled hstate' (by simp) trivial
  | @spawned args charge machine core howns hnext =>
    have hbooted : Invariant (s.booted s.nextVmId machine args.pipes) :=
      ⟨hinv.resident.booted hnext machine args.pipes, hinv.box,
        Or.inl (hrun.booted hinv.resident hnext howns hstate)⟩
    have hne : id ≠ s.nextVmId := by
      rintro rfl
      exact UInt64.lt_irrefl _ (hinv.resident.fresh _ hmem)
    have hstate' : (s.booted s.nextVmId machine args.pipes).states[id]? = some .runnable := by
      simp only [booted, getElem?_insert, if_neg hne, hstate]
    exact hbooted.settled hstate' (by simp) trivial

theorem Woken.invariant {code : Int8} {joiners : List (VmId × UInt64)}
    (h : Woken code joiners s l s') (hinv : Invariant s)
    (hjoiners : ∀ p ∈ joiners, s.states[p.1]? ≠ some .terminated) : Invariant s' := by
  induction h with
  | nil s => exact hinv
  | @cons s s' id addr m core joiners l hid hm hcore h ih =>
    obtain ⟨st, hst⟩ := mem_iff_getElem?.mp hid
    have hnot : st ≠ .terminated := by
      rintro rfl
      exact hjoiners (id, addr) (by simp) hst
    refine ih (hinv.settled hst hnot trivial) ?_
    intro p hp
    simp only [settled, getElem?_insert]
    split
    · simp
    · exact hjoiners p (by simp [hp])

/-- Every step keeps the invariant. -/
theorem Step.invariant (h : Step env s l s') (hinv : Invariant s) : Invariant s' := by
  cases h with
  | started limitCycles hroot => exact hinv
  | @closed id state m core hstate hclosed hm hcore =>
    refine hinv.settled hstate ?_ trivial
    rintro rfl
    simp [isClosed, VmState.waiting?] at hclosed
  | @transferred rd wr mr mw data readCore writeCore hread hwrite =>
    have hrun := hinv.running hwrite (by simp [Write.state])
    have hne : wr.vmId ≠ rd.vmId := by
      intro heq
      rw [heq, hread] at hwrite
      cases hwrite
    have hread' : (s.settled rd.vmId mr readCore .runnable).states[wr.vmId]? = some wr.state := by
      simp only [settled, getElem?_insert, if_neg hne, hwrite]
    have hmem : rd.vmId ∈ s.states := mem_iff_getElem?.mpr ⟨_, hread⟩
    have hinv' : Invariant (s.settled rd.vmId mr readCore .runnable) :=
      hinv.settled hread (by simp [Read.state]) trivial
    refine hinv'.settled hread' (by simp [Write.state]) (next_allowed ?_)
    exact (hrun.allowed _ _ hwrite).congr (fun _ hk => (mem_insert_of_mem hmem).mpr hk)
      fun _ hp => hp
  | interrupted he => exact hinv.ran he
  | @answered id m cpu msg l s' he hid hchecked hanswer =>
    exact hanswer.invariant (hinv.ran he) hid he.state hchecked
  | @exited id m code cpu l s' he hne hwoken =>
    have hran := hinv.ran he
    have hinv' : Invariant s' := by
      refine hwoken.invariant hran ?_
      rintro ⟨k, addr⟩ hk
      rw [mem_joiningVms] at hk
      change s.states[k]? ≠ _
      simp [hk]
    have hstates := hwoken.frame.2.2.2.2.2.2.2.1
    have hid : s'.states[id]? = some .runnable := by
      rw [hstates]
      split
      · rfl
      · exact he.state
    refine ⟨hinv'.resident.purged, hinv'.box, Or.inl ?_⟩
    refine (hinv'.running hid (by simp)).purged hne (mem_iff_getElem?.mpr ⟨_, hid⟩) ?_
    intro k addr hk
    rw [hstates] at hk
    split at hk
    · cases hk
    · rename_i hnot
      exact hnot (List.mem_map_of_mem (mem_joiningVms.mpr hk))
  | rootExited he =>
    have hmem : rootVmId ∈ s.states := mem_iff_getElem?.mpr ⟨_, he.state⟩
    exact ⟨(hinv.ran he).resident.completed hmem, hinv.box, Or.inr rfl⟩

theorem Steps.invariant (h : Steps env s l s') (hinv : Invariant s) : Invariant s' :=
  Path.invariant (fun _ _ _ hs hstep => hstep.invariant hs) h hinv

end DeterministicScheduler.Scheduler
