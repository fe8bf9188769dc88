import DeterministicScheduler.Rounds
import DeterministicScheduler.Suspension

/-!
# Reachable schedulers

A scheduler is driven from its creation by booting the root, by rounds, and by
full suspensions with the scheduler resumed from them. Rounds that are
interrupted are continued. Every scheduler reached so holds the VMs of a run of
the reference that logs the same events.
-/
namespace DeterministicScheduler.Scheduler

open ProgramLogic Program Outcome Std

variable {μ κ : Type} {Mirrors : TxData → μ → Prop} [Memory μ] {cap : Option ℕ} {env : Env μ κ}
  {s s' w r : Scheduler μ κ} {tr l : List (Event μ)}

/-- What the root is booted from. -/
def rootArgs : SpawnArgs where
  dataPieceId := .program
  offset := 0
  length := 0xffffffffffffffff
  argv := []
  pipes := []
  instanceIdAddr := 0

/-- A run of the reference from the boot of its root, with all it logged. -/
def Run (env : Env μ κ) (tr : List (Event μ)) (r : Scheduler μ κ) : Prop :=
  ∃ charge machine l, Boots env rootArgs charge machine ∧ tr = .boot rootVmId charge :: l ∧
    Steps env ((new : Scheduler μ κ).booted rootVmId machine []) l r

theorem Run.steps (h : Run env tr r) {r' : Scheduler μ κ} (h' : Steps env r l r') :
    Run env (tr ++ l) r' := by
  obtain ⟨charge, machine, l₀, hboot, rfl, hsteps⟩ := h
  exact ⟨charge, machine, l₀ ++ l, hboot, rfl, hsteps.trans h'⟩

/-- What holds of a booted root and is kept by each step holds along a run. -/
theorem Run.keeps {I : List (Event μ) → Scheduler μ κ → Prop} (h : Run env tr r)
    (hboot : ∀ charge machine, Boots env rootArgs charge machine →
      I [.boot rootVmId charge] ((new : Scheduler μ κ).booted rootVmId machine []))
    (hstep : ∀ tr r l r', I tr r → Step env r l r' → I (tr ++ l) r') : I tr r := by
  obtain ⟨charge, machine, l₀, hmachine, rfl, hsteps⟩ := h
  exact hsteps.keeps hstep (hboot charge machine hmachine)

omit [Memory μ] in
theorem new_resident : Resident (new : Scheduler μ κ) :=
  ⟨rfl, by simp [new], by simp [new]⟩

omit [Memory μ] in
theorem checkedAdd_rootVmId : checkedAdd (new : Scheduler μ κ).nextVmId 1 = some (rootVmId + 1) :=
  rfl

omit [Memory μ] in
/-- A booted root is the only VM and owns no pipe. -/
theorem booted_invariant (machine : Machine μ) :
    Invariant ((new : Scheduler μ κ).booted rootVmId machine []) := by
  have hstates : ∀ k, k ∈ ((new : Scheduler μ κ).booted rootVmId machine []).states ↔
      k = rootVmId := by
    intro k
    simp only [booted, new, mem_insert]
    simp
  refine ⟨new_resident.booted checkedAdd_rootVmId machine [], rfl, Or.inl ?_⟩
  refine ⟨(hstates _).mpr rfl, ?_, ?_, ?_, ?_, UInt64.le_refl _, ?_⟩
  · intro k state hk
    simp only [booted, new, getElem?_insert] at hk
    split at hk
    · cases hk
      trivial
    · simp at hk
  · intro k
    rw [hstates]
    have hnext : checkedAdd (new : Scheduler μ κ).nextVmId 1 = some (rootVmId + 1) :=
      checkedAdd_rootVmId
    have hle := (checkedAdd_one_eq_some hnext).2 k
    simp only [booted, new, ExtTreeMap.not_mem_empty, or_false]
    rw [← hle]
    exact UInt64.le_zero_iff
  · simp [booted, new]
  · simp only [booted, new]
    decide
  · simp [booted, new]

theorem Run.invariant (h : Run env tr r) : Invariant r :=
  h.keeps (I := fun _ => Invariant) (fun _ _ _ => booted_invariant _)
    fun _ _ _ _ hr hstep => hstep.invariant hr

omit [Memory μ] in
theorem bootVm_root {spawned : VmId}
    (h : bootVm none env .program 0 0xffffffffffffffff [] (new : Scheduler μ κ) =
      .ok spawned s' l) :
    spawned = rootVmId ∧ ∃ charge machine, Boots env rootArgs charge machine ∧
      l = [.boot rootVmId charge] ∧ s' = (new : Scheduler μ κ).booted rootVmId machine [] := by
  obtain ⟨hid, _, charge, machine, hboot, hlog, hs⟩ := @bootVm_ok _ _ _ _ _ _ rootArgs _ h
  exact ⟨hid, charge, machine, hboot, hlog, hs⟩

/-- A scheduler and a run of the reference with the same VMs and the same log. -/
def Refines (cap : Option ℕ) (env : Env μ κ) (tr : List (Event μ)) (s r : Scheduler μ κ) : Prop :=
  Linked cap env s r ∧ Run env tr r

/-- What drives a scheduler: booting the root, a round that goes through or is
interrupted while the root has not exited, and a full suspension. -/
inductive Move (cap : Option ℕ) (env : Library Mirrors κ) (s : Scheduler μ κ) :
    List (Event μ) → Scheduler μ κ → Prop
  | booted {l : List (Event μ)} {s' : Scheduler μ κ}
    (h : bootRoot cap env s = .ok ⟨⟩ s' l) : Move cap env s l s'
  | iterated {l : List (Event μ)} {s' : Scheduler μ κ} {state : VmState} {pause : Pause}
    {limitCycles consumedCycles : ℕ} (hroot : s.states[rootVmId]? = some state)
    (hstate : state ≠ .terminated)
    (h : iterate cap env pause limitCycles s = .ok consumedCycles s' l) : Move cap env s l s'
  | interrupted {l : List (Event μ)} {s' : Scheduler μ κ} {state : VmState} {pause : Pause}
    {limitCycles : ℕ} {e : Error} (hroot : s.states[rootVmId]? = some state)
    (hstate : state ≠ .terminated) (h : iterate cap env pause limitCycles s = .err e s' l)
    (he : e.Interrupt) : Move cap env s l s'
  | suspended {l : List (Event μ)} {s' : Scheduler μ κ} {full : FullSuspendedState κ}
    (h : suspend env s = .ok full s' l) : Move cap env s l (resume full)

/-- The schedulers that driving a new one can reach, with all that was logged. -/
def Reachable (cap : Option ℕ) (env : Library Mirrors κ) :
    List (Event μ) → Scheduler μ κ → Prop :=
  Path (Move cap env) new

omit [Memory μ] in
theorem new_related : Related cap env (fun _ => False) [] (new : Scheduler μ κ) new :=
  ⟨⟨by simp [new], by simp [new], by simp [new], by simp [new], by simp [new]⟩, new_resident,
    SameVms.refl _, by simp, rfl⟩

omit [Memory μ] in
theorem bootRoot_tracks (hcap : ∀ c, cap = some c → 2 ≤ c) {P : VmId → Prop}
    {box : List Message} : Tracks cap env P box (bootRoot cap env) (bootRoot none env) := by
  refine lockstep_get_bind fun w r h => ?_
  rw [h.same.states]
  refine lockstep_ite (fun _ => lockstep_bind (tracks_bootVm hcap _ _ _ _) fun id => ?_)
    fun _ => lockstep_pure _
  exact lockstep_ite (fun _ => lockstep_pure _) fun _ => lockstep_crash

omit [Memory μ] in
/-- Booting the root of a scheduler that holds a VM already does nothing. -/
theorem bootRoot_noop {id : VmId} (hid : id ∈ s.states) : bootRoot cap env s = .ok ⟨⟩ s [] := by
  have hne : ¬ s.states.isEmpty = true := by
    rw [ExtTreeMap.isEmpty_iff]
    rintro hempty
    simp [hempty] at hid
  simp only [bootRoot, get_bind_run, if_neg hne, pure_run]

omit [Memory μ] in
theorem bootRoot_new_ok (h : bootRoot none env (new : Scheduler μ κ) = .ok ⟨⟩ s' l) :
    ∃ charge machine, Boots env rootArgs charge machine ∧ l = [.boot rootVmId charge] ∧
      s' = (new : Scheduler μ κ).booted rootVmId machine [] := by
  have hempty : (new : Scheduler μ κ).states.isEmpty = true := rfl
  simp only [bootRoot, get_bind_run, hempty, if_true] at h
  obtain ⟨spawned, s₁, l₁, l₂, hboot, hrest, rfl⟩ := bind_eq_ok.mp h
  obtain ⟨rfl, charge, machine, hmachine, rfl, rfl⟩ := bootVm_root hboot
  cases hrest
  exact ⟨charge, machine, hmachine, rfl, rfl⟩

theorem Run.linked (h : Run env tr r) (hrel : Linked cap env s r) :
    Related cap env (fun _ => False) [] s r :=
  { hrel.weaken (by simp) with box := h.invariant.box }

theorem Refines.booted (hcap : ∀ c, cap = some c → 2 ≤ c)
    (h : bootRoot cap env (new : Scheduler μ κ) = .ok ⟨⟩ s' l) :
    ∃ r, bootRoot none env (new : Scheduler μ κ) = .ok ⟨⟩ r l ∧ Refines cap env l s' r := by
  have hnew : Related cap env (fun _ => False) [] (new : Scheduler μ κ) new := new_related
  have hsim := bootRoot_tracks hcap _ _ hnew
  rw [h] at hsim
  obtain ⟨r, hr, hrel⟩ := hsim
  obtain ⟨charge, machine, hboot, rfl, rfl⟩ := bootRoot_new_ok hr
  exact ⟨_, hr, hrel.linked (by simp), charge, machine, [], hboot, rfl, .refl⟩

omit [Memory μ] in
/-- A completed scheduler holds the root only, and a running one holds it too. -/
theorem Invariant.root (h : Invariant r) : rootVmId ∈ r.states := by
  rcases h.phase with hrun | hdone
  · exact hrun.root
  · rw [hdone, mem_insert]
    exact Or.inl rfl

omit [Memory μ] in
theorem Running.root_state (h : Running r) : r.states[rootVmId]? ≠ some .terminated :=
  fun hroot => h.allowed _ _ hroot

theorem RoundOf.steps {limitCycles : ℕ} (h : RoundOf env limitCycles r s' l) (hrun : Running r) :
    Steps env r l s' := by
  obtain ⟨s₁, l₁, l₂, _, hpass, hstep, rfl⟩ := h
  exact (Path.single (.started limitCycles hrun.root_state)).trans (hpass.steps.tail hstep)

/-- A round of a scheduler whose root has not exited is a round of its reference. -/
theorem Refines.iterated (hcap : ∀ c, cap = some c → 2 ≤ c) (h : Refines cap env tr s r)
    (hrun : Running r) {pause : Pause} {limitCycles consumedCycles : ℕ}
    (hiterate : iterate cap env pause limitCycles s = .ok consumedCycles s' l) :
    ∃ r', iterate none env pause limitCycles r = .ok consumedCycles r' l ∧
      RoundOf env limitCycles r r' l ∧ Refines cap env (tr ++ l) s' r' := by
  have hsim := iterate_simulates hcap h.1 pause limitCycles
  have hmeets : (iterate none env pause limitCycles r).Meets _ _ _ :=
    iterate_meets h.2.invariant hrun pause limitCycles
  rw [hiterate] at hsim
  obtain ⟨r', hr', hlinked⟩ := hsim
  rw [hr'] at hmeets
  exact ⟨r', hr', hmeets, hlinked, h.2.steps (hmeets.steps hrun)⟩

/-- A round of a scheduler and of its reference, split after the pass over the
pipes. -/
theorem Refines.round (hcap : ∀ c, cap = some c → 2 ≤ c) (h : Refines cap env tr s r)
    (hrun : Running r) {pause : Pause} {limitCycles consumedCycles : ℕ}
    (hiterate : iterate cap env pause limitCycles s = .ok consumedCycles s' l) :
    ∃ s₁ r₁ l₁ l₂ r', processIo cap env s = .ok ⟨⟩ s₁ l₁ ∧ SameVms env s₁ r₁ ∧ Invariant r₁ ∧
      Passes env r.selectedVms r l₁ r₁ ∧ Step env r₁ l₂ r' ∧
      l = .iterate limitCycles :: (l₁ ++ l₂) ∧ Refines cap env (tr ++ l) s' r' := by
  obtain ⟨r', _, ⟨r₁, l₁, l₂, hio, hpass, hstep, rfl⟩, hr'⟩ := h.iterated hcap hrun hiterate
  rw [iterate, emit_bind_run, after_eq_ok] at hiterate
  obtain ⟨_, hiterate, _⟩ := hiterate
  obtain ⟨_, s₁, l₃, _, hio', _, _⟩ := bind_eq_ok.mp hiterate
  have hsim := tracks_processIo hcap s r (h.2.linked h.1)
  rw [hio'] at hsim
  obtain ⟨r₂, hr₂, hrel⟩ := hsim
  rw [hio] at hr₂
  cases hr₂
  exact ⟨s₁, r₁, l₁, l₂, r', hio', hrel.same, Steps.invariant hpass.steps h.2.invariant,
    hpass, hstep,
    rfl, hr'⟩

theorem Refines.interrupted (hcap : ∀ c, cap = some c → 2 ≤ c) (h : Refines cap env tr s r)
    (hrun : Running r) {pause : Pause} {limitCycles : ℕ} {e : Error}
    (hiterate : iterate cap env pause limitCycles s = .err e s' l) (he : e.Interrupt) :
    ∃ r', iterate none env pause limitCycles r = .err e r' l ∧
      RoundOf env limitCycles r r' l ∧ Refines cap env (tr ++ l) s' r' := by
  have hsim := iterate_simulates hcap h.1 pause limitCycles
  have hmeets : (iterate none env pause limitCycles r).Meets _ _ _ :=
    iterate_meets h.2.invariant hrun pause limitCycles
  rw [hiterate] at hsim
  rcases hsim with herror | ⟨r', hr', hlinked⟩
  · exact absurd he.reserved herror.not_reserved
  rw [hr'] at hmeets
  have hround : RoundOf env limitCycles r r' l := by
    rcases hmeets with ⟨_, hround⟩ | hfatal | ⟨rfl, _⟩
    · exact hround
    · exact absurd he hfatal.2.1
    · exact absurd he (by simp [Error.Interrupt, Error.deadlock])
  exact ⟨r', hr', hround, hlinked, h.2.steps (hround.steps hrun)⟩

/-- A full suspension keeps the reference as it is. -/
theorem Refines.suspended (h : Refines cap env tr s r) {full : FullSuspendedState κ}
    (hsuspend : suspend env s = .ok full s' l) : l = [] ∧ Refines cap env tr (resume full) r := by
  have hrel := h.2.linked h.1
  have hmeets := suspend_meets hrel.stored
  rw [hsuspend] at hmeets
  obtain ⟨rfl, hresumed⟩ := hmeets
  refine ⟨rfl, ?_, h.2⟩
  have hbox : s.messageBox = [] := hrel.same.messageBox.trans hrel.box
  have hsame : SameVms env (resume full) s := by
    have hsame' := hresumed.same.symm
    rwa [← hbox] at hsame'
  have hrel' : Related cap env (fun _ => False) [] (resume full) r :=
    { hrel with stored := hresumed.stored, same := hsame.trans hrel.same }
  exact hrel'.linked (by simp)

omit [Memory μ] in
/-- A scheduler that holds no VM is resumed as it was. -/
theorem new_suspended {full : FullSuspendedState κ}
    (hsuspend : suspend env (new : Scheduler μ κ) = .ok full s' l) :
    l = [] ∧ resume full = (new : Scheduler μ κ) := by
  have hkeys : (new : Scheduler μ κ).instantiated.keys = [] := rfl
  simp only [suspend, get_bind_run, hkeys] at hsuspend
  cases hsuspend
  exact ⟨rfl, rfl⟩

/-- What a move does to the reference: nothing, or a round of it. -/
def Rounded (env : Env μ κ) (r r' : Scheduler μ κ) (l : List (Event μ)) : Prop :=
  (r' = r ∧ l = []) ∨ ∃ limitCycles, Running r ∧ RoundOf env limitCycles r r' l

/-- A move of a scheduler with a booted root. -/
theorem Refines.move (hcap : ∀ c, cap = some c → 2 ≤ c) (h : Refines cap env tr s r)
    (hmove : Move cap env s l s') :
    ∃ r', Refines cap env (tr ++ l) s' r' ∧ Rounded env r r' l := by
  have hrunning : ∀ {state : VmState}, s.states[rootVmId]? = some state →
      state ≠ .terminated → Running r := fun hroot hstate =>
    h.2.invariant.running (h.1.same.states ▸ hroot) hstate
  cases hmove with
  | booted hboot =>
    have hroot : rootVmId ∈ s.states := h.1.same.states ▸ h.2.invariant.root
    rw [bootRoot_noop hroot] at hboot
    cases hboot
    exact ⟨r, by simpa using h, Or.inl ⟨rfl, rfl⟩⟩
  | @iterated _ state pause limitCycles consumedCycles hroot hstate hiterate =>
    have hrun := hrunning hroot hstate
    obtain ⟨r', _, hround, hr'⟩ := h.iterated hcap hrun hiterate
    exact ⟨r', hr', Or.inr ⟨limitCycles, hrun, hround⟩⟩
  | @interrupted _ state pause limitCycles e hroot hstate hiterate he =>
    have hrun := hrunning hroot hstate
    obtain ⟨r', _, hround, hr'⟩ := h.interrupted hcap hrun hiterate he
    exact ⟨r', hr', Or.inr ⟨limitCycles, hrun, hround⟩⟩
  | suspended hsuspend =>
    obtain ⟨rfl, hr'⟩ := h.suspended hsuspend
    exact ⟨r, by simpa using hr', Or.inl ⟨rfl, rfl⟩⟩

/-- A move of a new scheduler leaves it new or boots its root. -/
theorem Move.of_new (hcap : ∀ c, cap = some c → 2 ≤ c) (h : Move cap env new l s') :
    (s' = new ∧ l = []) ∨ ∃ r, Refines cap env l s' r := by
  cases h with
  | booted hboot =>
    obtain ⟨r, _, hr⟩ := Refines.booted hcap hboot
    exact Or.inr ⟨r, hr⟩
  | iterated hroot => simp [new] at hroot
  | interrupted hroot => simp [new] at hroot
  | suspended hsuspend =>
    obtain ⟨rfl, hnew⟩ := new_suspended hsuspend
    exact Or.inl ⟨hnew, rfl⟩

/-- A scheduler that holds no VM yet, or one with a run of the reference. -/
def Driven (cap : Option ℕ) (env : Env μ κ) (tr : List (Event μ)) (s : Scheduler μ κ) : Prop :=
  (s = new ∧ tr = []) ∨ ∃ r, Refines cap env tr s r

theorem Move.driven (hcap : ∀ c, cap = some c → 2 ≤ c) (h : Move cap env s l s')
    (hs : Driven cap env tr s) : Driven cap env (tr ++ l) s' := by
  rcases hs with ⟨rfl, rfl⟩ | ⟨r, hr⟩
  · exact h.of_new hcap
  · obtain ⟨r', hr', _⟩ := hr.move hcap h
    exact Or.inr ⟨r', hr'⟩

/-- Whatever is reached is new, or holds the VMs of a run of the reference. -/
theorem Reachable.driven (hcap : ∀ c, cap = some c → 2 ≤ c) (h : Reachable cap env tr s) :
    Driven cap env tr s := by
  have hnew : Driven cap env ([] : List (Event μ)) (new : Scheduler μ κ) := Or.inl ⟨rfl, rfl⟩
  exact h.keeps (fun _ _ _ _ hs hmove => hmove.driven hcap hs) hnew

/-- A reached scheduler that holds the root has a run of the reference. -/
theorem Reachable.refines (hcap : ∀ c, cap = some c → 2 ≤ c) (h : Reachable cap env tr s)
    (hroot : rootVmId ∈ s.states) : ∃ r, Refines cap env tr s r := by
  rcases h.driven hcap with ⟨rfl, _⟩ | hr
  · simp [new] at hroot
  · exact hr

section Calls

variable {env : Library Mirrors κ}

/-- What a call does while it is not failing fatally is a sequence of moves. -/
def Moves (cap : Option ℕ) (env : Library Mirrors κ) (s : Scheduler μ κ) {α : Type}
    (o : Outcome Error (Event μ) (Scheduler μ κ) α) : Prop :=
  o.Meets (fun _ s' l => Path (Move cap env) s l s')
    (fun e s' l => e.Interrupt → Path (Move cap env) s l s') True

theorem Moves.of_path {α : Type} {o : Outcome Error (Event μ) (Scheduler μ κ) α}
    (h : Moves cap env s' o) (hpath : Path (Move cap env) s l s') : Moves cap env s (o.after l) :=
  Meets.after (h.mono (fun _ _ _ h' => hpath.trans h') (fun _ _ _ h' he => hpath.trans (h' he))
    (fun h' => h'))

theorem runLoop_moves (pause : ℕ → Pause) (fuel k limitCycles : ℕ) :
    Moves cap env s (runLoop cap env pause fuel k limitCycles s) := by
  induction fuel generalizing k limitCycles s with
  | zero => exact .refl
  | succ fuel ih =>
    simp only [runLoop, get_bind_run]
    cases hroot : s.states[rootVmId]? with
    | none => trivial
    | some state =>
      rw [unwrap_some, pure_bind_run]
      by_cases hstate : state = .terminated
      · rw [if_pos hstate]
        exact .refl
      rw [if_neg hstate, bind_run]
      cases hiterate : iterate cap env (pause k) limitCycles s with
      | panic => trivial
      | err e s' l => exact fun he => .single (.interrupted hroot hstate hiterate he)
      | ok consumedCycles s' l =>
        have hmove : Move cap env s l s' := .iterated hroot hstate hiterate
        refine Moves.of_path ?_ (.single hmove)
        simp only [checkedSubCycles, if_pos le_rfl]
        exact ih _ _

omit [Memory μ] in
theorem regular_bootRoot {P : VmId → Prop} {B : Prop} (cap : Option ℕ)
    (env : Library Mirrors κ) :
    Regular Error.Fatal P B Event.Inner (bootRoot cap env) := by
  refine regular_get_bind fun s => regular_ite ?_ (regular_pure _)
  refine regular_bind (regular_bootVm cap env _ _ _ _) fun id => ?_
  exact regular_ite (regular_pure _) regular_crash

/-- The rounds of a call are moves, and so is the boot of the root before them. -/
theorem run_moves (mode : RunMode) : Moves cap env s (run cap env mode s) := by
  rw [run, bind_run]
  cases hboot : bootRoot cap env s with
  | panic => trivial
  | err e s' l =>
    have hmeets := (regular_bootRoot (P := fun _ => False) (B := False) cap env).fails s
    rw [hboot] at hmeets
    exact fun he => absurd he hmeets.2.1
  | ok _ s₁ l₁ =>
    refine Moves.of_path ?_ (.single (.booted hboot))
    simp only [get_bind_run]
    split
    · rw [bind_run]
      have hloop : Moves cap env s₁
          (runLoop cap env mode.signal (mode.limit + 2) 0 mode.limit s₁) := runLoop_moves _ _ _ _
      cases hrun : runLoop cap env mode.signal (mode.limit + 2) 0 mode.limit s₁ with
      | panic => trivial
      | err e s' l =>
        rw [hrun] at hloop
        exact hloop
      | ok result s₂ l₂ =>
        rw [hrun] at hloop
        refine Moves.of_path ?_ hloop
        cases result with
        | none => trivial
        | some _ =>
          dsimp only
          cases hm : s₂.instantiated[rootVmId]? with
          | none => rw [bind_of_panic (machine_panic hm)]; trivial
          | some m =>
            rw [bind_of_ok (machine_run hm)]
            exact .refl
    · trivial

theorem Reachable.run_interrupted (h : Reachable cap env tr s) {mode : RunMode} {e : Error}
    (hrun : run cap env mode s = .err e s' l) (he : e.Interrupt) :
    Reachable cap env (tr ++ l) s' := by
  have hmoves : Moves cap env s (run cap env mode s) := run_moves mode
  rw [hrun] at hmoves
  exact h.trans (hmoves he)

theorem Reachable.run_ok (h : Reachable cap env tr s) {mode : RunMode} {result : Int8 × ℕ}
    (hrun : run cap env mode s = .ok result s' l) : Reachable cap env (tr ++ l) s' := by
  have hmoves : Moves cap env s (run cap env mode s) := run_moves mode
  rw [hrun] at hmoves
  exact h.trans hmoves

/-- One entry of a schedule. -/
inductive Turn where
  | boot
  | round (pause : Pause) (limitCycles : ℕ)
  | suspend

/-- The move of one turn, unless it crashes, fails, or is a round without a
running root. -/
def turn (cap : Option ℕ) (env : Library Mirrors κ) (s : Scheduler μ κ) :
    Turn → Option (List (Event μ) × Scheduler μ κ)
  | .boot =>
    match bootRoot cap env s with
    | .ok _ s' l => some (l, s')
    | _ => none
  | .round pause limitCycles =>
    if s.states[rootVmId]?.all (· == .terminated) then none
    else
      match iterate cap env pause limitCycles s with
      | .ok _ s' l => some (l, s')
      | .err e s' l => if e.Interrupt then some (l, s') else none
      | .panic => none
  | .suspend =>
    match Scheduler.suspend env s with
    | .ok full _ l => some (l, resume full)
    | _ => none

/-- All moves of a schedule. -/
def drive (cap : Option ℕ) (env : Library Mirrors κ) :
    List Turn → Scheduler μ κ → Option (List (Event μ) × Scheduler μ κ)
  | [], s => some ([], s)
  | t :: turns, s => do
    let (l, s₁) ← turn cap env s t
    let (l', s₂) ← drive cap env turns s₁
    return (l ++ l', s₂)

theorem turn_move {t : Turn} (h : turn cap env s t = some (l, s')) : Move cap env s l s' := by
  cases t with
  | boot =>
    cases hboot : bootRoot cap env s <;> simp only [turn, hboot] at h <;> cases h
    exact .booted hboot
  | round pause limitCycles =>
    simp only [turn] at h
    cases hroot : s.states[rootVmId]? with
    | none => simp [hroot] at h
    | some state =>
      simp only [hroot, Option.all_some, beq_iff_eq] at h
      split at h
      · cases h
      · rename_i hstate
        cases hiterate : iterate cap env pause limitCycles s with
        | ok consumedCycles s₁ l₁ =>
          rw [hiterate] at h
          cases h
          exact .iterated hroot hstate hiterate
        | err e s₁ l₁ =>
          simp only [hiterate] at h
          split at h
          · rename_i he
            cases h
            exact .interrupted hroot hstate hiterate he
          · cases h
        | panic =>
          rw [hiterate] at h
          cases h
  | suspend =>
    cases hsuspend : Scheduler.suspend env s <;> simp only [turn, hsuspend] at h <;> cases h
    exact .suspended hsuspend

/-- What a schedule reaches is reachable. -/
theorem drive_reachable {turns : List Turn} (h : drive cap env turns s = some (l, s'))
    (hs : Reachable cap env tr s) : Reachable cap env (tr ++ l) s' := by
  induction turns generalizing tr s l with
  | nil =>
    cases h
    simpa using hs
  | cons t turns ih =>
    simp only [drive, Option.bind_eq_bind, Option.bind_eq_some_iff, Option.pure_def,
      Option.some.injEq, Prod.mk.injEq, Prod.exists] at h
    obtain ⟨l₁, s₁, hturn, l₂, s₂, hrest, rfl, rfl⟩ := h
    rw [← List.append_assoc]
    exact ih hrest (hs.tail (turn_move hturn))

/-- A test that a schedule passes is passed by a reachable scheduler. -/
theorem exists_reachable (cap : Option ℕ) (env : Library Mirrors κ) (turns : List Turn)
    (p : List (Event μ) → Scheduler μ κ → Bool)
    (h : (drive cap env turns new).any (fun reached => p reached.1 reached.2) = true) :
    ∃ tr s, Reachable cap env tr s ∧ p tr s = true := by
  obtain ⟨⟨tr, s⟩, hdrive, hp⟩ := (Option.any_eq_true _ _).mp h
  exact ⟨tr, s, drive_reachable hdrive .refl, hp⟩

end Calls

end DeterministicScheduler.Scheduler
