import DeterministicScheduler.Guest
import DeterministicScheduler.Reachability

/-!
# Who owns a pipe

Each end of a pipe has one live owner. It changes hands when its owner passes it
to a VM it spawns, is closed when its owner terminates, and its id is never used
again. A VM that waits on a pipe owns it, so no two VMs wait on the same pipe.
-/
namespace DeterministicScheduler.Scheduler

open ProgramLogic Program Outcome Std

variable {μ κ : Type} {cap : Option ℕ} {env : Env μ κ} {s s' t r r' : Scheduler μ κ}
  {tr l l' : List (Event μ)}

/-- What is known of the pipes while the root has not exited. -/
structure Owned (s : Scheduler μ κ) : Prop where
  slot_even : s.nextPipeSlot % 2 = 0
  slot_ge : 2 ≤ s.nextPipeSlot
  owner : ∀ (p : PipeId) (v : VmId), s.pipes[p]? = some v →
    2 ≤ p ∧ p < s.nextPipeSlot ∧ v ∈ s.states
  reader : ∀ (id : VmId) (pipe : PipeId) (length bufferAddr lengthAddr : UInt64),
    s.states[id]? = some (.waitForRead pipe length bufferAddr lengthAddr) →
    s.pipes[pipe]? = some id ∧ pipe % 2 = 0
  writer : ∀ (id : VmId) (pipe : PipeId) (consumed length bufferAddr lengthAddr : UInt64),
    s.states[id]? = some (.waitForWrite pipe consumed length bufferAddr lengthAddr) →
    s.pipes[pipe]? = some id ∧ pipe % 2 = 1 ∧ (consumed < length ∨ consumed = 0 ∧ length = 0)
  unique : ∀ (id id' : VmId) (state state' : VmState) (p : PipeId),
    s.states[id]? = some state → s.states[id']? = some state' →
    state.waiting? = some p → state'.waiting? = some p → id = id'
  selected : s.selectedVms.Nodup

theorem Running.owned (h : Running r) : Owned r where
  slot_even := h.slot_even
  slot_ge := h.slot_ge
  owner := h.owner
  reader id pipe length bufferAddr lengthAddr hstate := by
    obtain ⟨howns, hread⟩ := h.allowed id _ hstate
    exact ⟨howns, by simpa [PipeId.isRead] using hread⟩
  writer id pipe consumed length bufferAddr lengthAddr hstate := by
    obtain ⟨howns, hwrite, hlength⟩ := h.allowed id _ hstate
    exact ⟨howns, by simpa [PipeId.isWrite] using hwrite, hlength⟩
  unique _ _ _ _ _ := h.waiting_unique
  selected := h.selectedVms_nodup

theorem Owned.congr (h : Owned r) (hsame : SameVms env s r) : Owned s := by
  have hselected : s.selectedVms = r.selectedVms := by
    simp only [selectedVms, closedVms, pairedVms, hsame.states, hsame.pipes]
  obtain ⟨h₁, h₂, h₃, h₄, h₅, h₆, h₇⟩ := h
  constructor
  · rwa [hsame.nextPipeSlot]
  · rwa [hsame.nextPipeSlot]
  · rwa [hsame.nextPipeSlot, hsame.pipes, hsame.states]
  · rwa [hsame.pipes, hsame.states]
  · rwa [hsame.pipes, hsame.states]
  · rwa [hsame.states]
  · rwa [hselected]

/-- What can happen to the pipes: nothing, a new pair, some of the pipes of a VM
passed to the VM it spawns, or the pipes of a VM closed as it terminates. -/
inductive PipeChange (s s' : Scheduler μ κ) (l : List (Event μ)) : Prop
  | kept (hpipes : s'.pipes = s.pipes) (hslot : s'.nextPipeSlot = s.nextPipeSlot)
  | created {id : VmId} {args : PipeArgs} {p1 p2 : PipeId}
    (hmessage : .message (.pipe id args) ∈ l)
    (hslot : PipeId.create s.nextPipeSlot = some (p1, p2, s'.nextPipeSlot))
    (hpipes : s'.pipes = (s.pipes.insert p1 id).insert p2 id)
  | passed {id : VmId} {args : SpawnArgs} {charge : ℕ} (hmessage : .message (.spawn id args) ∈ l)
    (hboot : .boot s.nextVmId charge ∈ l) (howns : ∀ p ∈ args.pipes, s.pipes[p]? = some id)
    (hslot : s'.nextPipeSlot = s.nextPipeSlot)
    (hpipes : ∀ p : PipeId,
      s'.pipes[p]? = if p ∈ args.pipes then some s.nextVmId else s.pipes[p]?)
  | closed {id : VmId} (hlive : id ∈ s.states) (hgone : id ∉ s'.states)
    (hterminated : id ∈ s'.terminatedVms) (hslot : s'.nextPipeSlot = s.nextPipeSlot)
    (hpipes : ∀ (p : PipeId) (v : VmId), s'.pipes[p]? = some v ↔ s.pipes[p]? = some v ∧ v ≠ id)

theorem PipeChange.congr (h : PipeChange r r' l) (hsame : SameVms env s r)
    (hsame' : SameVms env s' r') : PipeChange s s' l := by
  cases h with
  | kept hpipes hslot =>
    rw [← hsame.pipes, ← hsame'.pipes] at hpipes
    rw [← hsame.nextPipeSlot, ← hsame'.nextPipeSlot] at hslot
    exact .kept hpipes hslot
  | created hmessage hslot hpipes =>
    rw [← hsame.pipes, ← hsame'.pipes] at hpipes
    rw [← hsame.nextPipeSlot, ← hsame'.nextPipeSlot] at hslot
    exact .created hmessage hslot hpipes
  | passed hmessage hboot howns hslot hpipes =>
    rw [← hsame.nextVmId] at hboot
    rw [← hsame.pipes] at howns
    rw [← hsame.pipes, ← hsame'.pipes, ← hsame.nextVmId] at hpipes
    rw [← hsame.nextPipeSlot, ← hsame'.nextPipeSlot] at hslot
    exact .passed hmessage hboot howns hslot hpipes
  | closed hlive hgone hterminated hslot hpipes =>
    rw [← hsame.states] at hlive
    rw [← hsame'.states] at hgone
    rw [← hsame'.terminatedVms] at hterminated
    rw [← hsame.pipes, ← hsame'.pipes] at hpipes
    rw [← hsame.nextPipeSlot, ← hsame'.nextPipeSlot] at hslot
    exact .closed hlive hgone hterminated hslot hpipes

section Changes

variable [Memory μ]

theorem Step.pipeChange (h : Step env s l s') : PipeChange s s' l := by
  cases h with
  | started => exact .kept rfl rfl
  | closed => exact .kept rfl rfl
  | transferred => exact .kept rfl rfl
  | interrupted => exact .kept rfl rfl
  | answered _ _ _ hanswer =>
    cases hanswer with
    | rejected => exact .kept rfl rfl
    | blocked => exact .kept rfl rfl
    | joined => exact .kept rfl rfl
    | @piped args p1 p2 slot core hcreate =>
      exact .created (List.mem_cons_of_mem _ List.mem_cons_self) hcreate rfl
    | @spawned args charge machine core howns =>
      refine .passed (List.mem_cons_of_mem _ List.mem_cons_self)
        (List.mem_cons_of_mem _ (List.mem_cons_of_mem _ List.mem_cons_self)) howns rfl fun p => ?_
      simp only [settled, accessed, booted, getElem?_passed]
      rfl
  | @exited id m code cpu l s' hexec hne hwoken =>
    obtain ⟨_, _, hslot, hpipes, _⟩ := hwoken.frame
    refine .closed (mem_iff_getElem?.mpr ⟨_, hexec.state⟩) ?_ ?_ hslot ?_
    · simp [purged]
    · simp [purged]
    · intro p v
      simp only [purged, hpipes, ran]
      rw [ExtTreeMap.getElem?_filter', Option.filter_eq_some_iff]
      simp
  | rootExited => exact .kept rfl rfl

/-- A round changes the pipes as its last step does. -/
theorem RoundOf.pipeChange {limitCycles : ℕ} (h : RoundOf env limitCycles s s' l) :
    PipeChange s s' l := by
  obtain ⟨s₁, l₁, l₂, _, hpass, hstep, rfl⟩ := h
  have hin : ∀ {ev}, ev ∈ l₂ → ev ∈ Event.iterate limitCycles :: (l₁ ++ l₂) := fun hev => by
    simp [hev]
  cases hstep.pipeChange with
  | kept hpipes hslot =>
    exact .kept (hpipes.trans hpass.pipes) (hslot.trans hpass.nextPipeSlot)
  | created hmessage hslot hpipes =>
    rw [hpass.nextPipeSlot] at hslot
    rw [hpass.pipes] at hpipes
    exact .created (hin hmessage) hslot hpipes
  | passed hmessage hboot howns hslot hpipes =>
    rw [hpass.nextVmId] at hboot
    rw [hpass.pipes] at howns
    rw [hpass.nextPipeSlot] at hslot
    simp only [hpass.pipes, hpass.nextVmId] at hpipes
    exact .passed (hin hmessage) (hin hboot) howns hslot hpipes
  | closed hlive hgone hterminated hslot hpipes =>
    rw [hpass.live] at hlive
    rw [hpass.nextPipeSlot] at hslot
    simp only [hpass.pipes] at hpipes
    exact .closed hlive hgone hterminated hslot hpipes

end Changes

/-- How pipes change between two states: a new owner was spawned with the pipe by
the old one, a closed pipe had an owner that terminated, and a new pipe has a new
id. -/
structure PipesMoved (s : Scheduler μ κ) (l : List (Event μ)) (s' : Scheduler μ κ) : Prop where
  passed : ∀ (p : PipeId) (v v' : VmId), s.pipes[p]? = some v → s'.pipes[p]? = some v' → v' ≠ v →
    ∃ args charge, .message (.spawn v args) ∈ l ∧ p ∈ args.pipes ∧ .boot v' charge ∈ l
  closed : ∀ (p : PipeId) (v : VmId), s.pipes[p]? = some v → s'.pipes[p]? = none →
    v ∈ s.states ∧ v ∉ s'.states ∧ v ∈ s'.terminatedVms
  created : ∀ (p : PipeId) (v : VmId), s.pipes[p]? = none → s'.pipes[p]? = some v →
    s.nextPipeSlot ≤ p ∧ ∃ args, .message (.pipe v args) ∈ l
  slot_le : s.nextPipeSlot ≤ s'.nextPipeSlot

theorem PipesMoved.kept (hpipes : s'.pipes = s.pipes) (hslot : s'.nextPipeSlot = s.nextPipeSlot) :
    PipesMoved s l s' := by
  refine ⟨?_, ?_, ?_, hslot ▸ UInt64.le_refl _⟩
  · intro p v v' hv hv' hne
    rw [hpipes, hv, Option.some.injEq] at hv'
    exact absurd hv'.symm hne
  · intro p v hv hv'
    rw [hpipes, hv] at hv'
    cases hv'
  · intro p v hv hv'
    rw [hpipes, hv] at hv'
    cases hv'

theorem PipeChange.moved (h : PipeChange s s' l)
    (hslots : ∀ (p : PipeId) (v : VmId), s.pipes[p]? = some v → p < s.nextPipeSlot) :
    PipesMoved s l s' := by
  cases h with
  | kept hpipes hslot => exact .kept hpipes hslot
  | @created id args p1 p2 hmessage hslot hpipes =>
    obtain ⟨rfl, rfl, hnext, hlt⟩ := create_eq_some hslot
    have hget : ∀ p : PipeId, s'.pipes[p]? =
        if p = s.nextPipeSlot + 1 then some id
        else if p = s.nextPipeSlot then some id else s.pipes[p]? := by
      intro p
      rw [hpipes, getElem?_insert, getElem?_insert]
    have hle : s.nextPipeSlot ≤ s.nextPipeSlot + 1 := by
      rw [UInt64.le_iff_toNat_le, toNat_add_one hlt]
      omega
    have hold : ∀ (p : PipeId) (v : VmId), s.pipes[p]? = some v → s'.pipes[p]? = some v := by
      intro p v hv
      obtain ⟨h₁, h₂⟩ := ne_of_lt_slot hlt (hslots p v hv)
      rw [hget, if_neg h₁, if_neg h₂, hv]
    refine ⟨?_, ?_, ?_, ?_⟩
    · intro p v v' hv hv' hne
      rw [hold p v hv, Option.some.injEq] at hv'
      exact absurd hv'.symm hne
    · intro p v hv hv'
      rw [hold p v hv] at hv'
      cases hv'
    · intro p v hv hv'
      rw [hget] at hv'
      split at hv'
      · rename_i hp
        cases hv'
        exact ⟨hp ▸ hle, args, hmessage⟩
      split at hv'
      · rename_i hp
        cases hv'
        exact ⟨hp ▸ UInt64.le_refl _, args, hmessage⟩
      · rw [hv] at hv'
        cases hv'
    · rw [hnext]
      exact UInt64.le_of_lt ((lt_slot_iff hlt).mpr (Or.inr (Or.inl rfl)))
  | @passed id args charge hmessage hboot howns hslot hpipes =>
    refine ⟨?_, ?_, ?_, hslot ▸ UInt64.le_refl _⟩
    · intro p v v' hv hv' hne
      rw [hpipes] at hv'
      split at hv'
      · rename_i hp
        cases hv'
        rw [howns p hp, Option.some.injEq] at hv
        exact ⟨args, charge, hv ▸ hmessage, hp, hboot⟩
      · rw [hv, Option.some.injEq] at hv'
        exact absurd hv'.symm hne
    · intro p v hv hv'
      rw [hpipes] at hv'
      split at hv'
      · cases hv'
      · rw [hv] at hv'
        cases hv'
    · intro p v hv hv'
      rw [hpipes] at hv'
      split at hv'
      · rename_i hp
        rw [howns p hp] at hv
        cases hv
      · rw [hv] at hv'
        cases hv'
  | @closed id hlive hgone hterminated hslot hpipes =>
    refine ⟨?_, ?_, ?_, hslot ▸ UInt64.le_refl _⟩
    · intro p v v' hv hv' hne
      have hold := ((hpipes p v').mp hv').1
      rw [hv, Option.some.injEq] at hold
      exact absurd hold.symm hne
    · intro p v hv hv'
      have hid : v = id := by
        by_contra hne
        rw [(hpipes p v).mpr ⟨hv, hne⟩] at hv'
        cases hv'
      subst hid
      exact ⟨hlive, hgone, hterminated⟩
    · intro p v hv hv'
      rw [((hpipes p v).mp hv').1] at hv
      cases hv

section Reached

variable [Memory μ]

omit [Memory μ] in
theorem new_owned : Owned (new : Scheduler μ κ) where
  slot_even := by simp only [new]; decide
  slot_ge := UInt64.le_refl _
  owner p v h := by simp [new] at h
  reader _ _ _ _ _ h := by simp [new] at h
  writer _ _ _ _ _ _ h := by simp [new] at h
  unique _ _ _ _ _ h := by simp [new] at h
  selected := List.nodup_nil

/-- Every move of a reachable scheduler moves pipes as `PipesMoved` says. -/
theorem Driven.pipesMoved (hcap : ∀ c, cap = some c → 2 ≤ c) (h : Driven cap env tr s)
    (hmove : Move cap env s l s') : PipesMoved s l s' := by
  rcases h with ⟨rfl, rfl⟩ | ⟨r, hr⟩
  · cases hmove with
    | booted hboot =>
      obtain ⟨r, hr, hrefines⟩ := Refines.booted hcap hboot
      obtain ⟨charge, machine, _, _, rfl⟩ := bootRoot_new_ok hr
      have hpipes : s'.pipes = (new : Scheduler μ κ).pipes := hrefines.1.same.pipes
      have hslot : s'.nextPipeSlot = (new : Scheduler μ κ).nextPipeSlot :=
        hrefines.1.same.nextPipeSlot
      exact .kept hpipes hslot
    | iterated hroot => simp [new] at hroot
    | interrupted hroot => simp [new] at hroot
    | suspended hsuspend =>
      rw [(new_suspended hsuspend).2]
      exact .kept rfl rfl
  · obtain ⟨r', hr', ⟨rfl, rfl⟩ | ⟨limitCycles, hrun, hround⟩⟩ := hr.move hcap hmove
    · have hsame := hr.1.same.trans hr'.1.same.symm
      exact .kept hsame.pipes.symm hsame.nextPipeSlot.symm
    · refine (hround.pipeChange.congr hr.1.same hr'.1.same).moved ?_
      exact fun p v hv => ((hrun.owned.congr hr.1.same).owner p v hv).2.1

/-- A pipe that has been closed stays closed. -/
theorem Driven.stays_closed (hcap : ∀ c, cap = some c → 2 ≤ c) (h : Driven cap env tr s)
    (hpath : Path (Move cap env) s l t) {p : PipeId} (hslot : p < s.nextPipeSlot)
    (hclosed : s.pipes[p]? = none) : p < t.nextPipeSlot ∧ t.pipes[p]? = none := by
  have hkeeps := hpath.keeps (I := fun tr t => Driven cap env tr t ∧ p < t.nextPipeSlot ∧
    t.pipes[p]? = none) ?_ ⟨h, hslot, hclosed⟩
  · exact hkeeps.2
  rintro tr s l t ⟨hs, hslot, hclosed⟩ hmove
  have hmoved := hs.pipesMoved hcap hmove
  refine ⟨hmove.driven hcap hs, UInt64.lt_of_lt_of_le hslot hmoved.slot_le, ?_⟩
  cases hp : t.pipes[p]? with
  | none => rfl
  | some v =>
    have hle := (hmoved.created p v hclosed hp).1
    exact absurd (UInt64.lt_of_lt_of_le hslot hle) (UInt64.lt_irrefl p)

theorem Driven.owned (h : Driven cap env tr s) (hroot : s.states[rootVmId]? ≠ some .terminated) :
    Owned s := by
  rcases h with ⟨rfl, _⟩ | ⟨r, hlinked, hr⟩
  · exact new_owned
  · refine Running.owned (hr.invariant.phase.resolve_right fun hdone => hroot ?_)
      |>.congr hlinked.same
    rw [hlinked.same.states, hdone, getElem?_insert, if_pos rfl]

/-- In every reachable scheduler whose root has not exited each pipe has one live
owner and every VM that waits on a pipe owns it. Every move from it passes pipes
on, closes them or creates them as `PipesMoved` says, and a pipe that is closed on
the way stays closed. -/
theorem pipes_owned (env : Env μ κ) {tr : List (Event μ)} {s : Scheduler μ κ}
    (h : Reachable maxInstantiatedVms env tr s)
    (hroot : s.states[rootVmId]? ≠ some .terminated) :
    Owned s ∧ (∀ l s', Move maxInstantiatedVms env s l s' → PipesMoved s l s') ∧
      ∀ l l' t u, Path (Move maxInstantiatedVms env) s l t →
        Path (Move maxInstantiatedVms env) t l' u →
        ∀ p : PipeId, p ∈ s.pipes → p ∉ t.pipes → p ∉ u.pipes := by
  have hdriven := h.driven two_le_maxInstantiatedVms
  have howned := hdriven.owned hroot
  refine ⟨howned, fun l s' hmove => hdriven.pipesMoved two_le_maxInstantiatedVms hmove, ?_⟩
  intro l l' t u hpath hpath' p hp hnot
  obtain ⟨v, hv⟩ := mem_iff_getElem?.mp hp
  have hslot : p < s.nextPipeSlot := (howned.owner p v hv).2.1
  have ht : Driven maxInstantiatedVms env (tr ++ l) t ∧ s.nextPipeSlot ≤ t.nextPipeSlot := by
    refine hpath.keeps (I := fun tr t => Driven maxInstantiatedVms env tr t ∧
      s.nextPipeSlot ≤ t.nextPipeSlot) ?_ ⟨hdriven, UInt64.le_refl _⟩
    rintro tr s₁ l s₂ ⟨hs₁, hle⟩ hmove
    have hmoved := hs₁.pipesMoved two_le_maxInstantiatedVms hmove
    exact ⟨hmove.driven two_le_maxInstantiatedVms hs₁, UInt64.le_trans hle hmoved.slot_le⟩
  have hclosed := ht.1.stays_closed two_le_maxInstantiatedVms hpath'
    (UInt64.lt_of_lt_of_le hslot ht.2) (by simpa using hnot)
  simpa using hclosed.2

end Reached

/-- A reader and a writer that wait for each other, each owning its end. -/
theorem pipes_owned_relay : ∃ tr s, Reachable maxInstantiatedVms relayEnv tr s ∧
    s.pipes[(2 : PipeId)]? = some 0 ∧ s.pipes[(3 : PipeId)]? = some 1 ∧
      s.selectedVms = [0, 1] ∧ Owned s := by
  obtain ⟨tr, s, h, hs⟩ := exists_reachable maxInstantiatedVms relayEnv
    (.boot :: List.replicate 4 (.round none 99)) (fun _ s =>
      s.pipes[(2 : PipeId)]? == some 0 && s.pipes[(3 : PipeId)]? == some 1 &&
        s.selectedVms == [0, 1] && s.states[rootVmId]? != some .terminated) (by decide +kernel)
  simp only [Bool.and_eq_true, beq_iff_eq, bne_iff_ne] at hs
  obtain ⟨⟨⟨hread, hwrite⟩, hselected⟩, hroot⟩ := hs
  exact ⟨tr, s, h, hread, hwrite, hselected, (pipes_owned relayEnv h hroot).1⟩

end DeterministicScheduler.Scheduler
