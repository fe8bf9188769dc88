import DeterministicScheduler.Guest
import DeterministicScheduler.Reachability

/-!
# Every VM is accounted for

While the root runs, the ids handed out are those of the live VMs and of the
terminated ones, and every live VM has one machine or one snapshot. After the
root exits nothing but the root is kept. A full suspension therefore finds all
it asks for.
-/
namespace DeterministicScheduler

/-- The VM that an event boots. -/
def Event.booted? {μ : Type} : Event μ → Option VmId
  | boot id _ => some id
  | _ => none

namespace Scheduler

open ProgramLogic Program Outcome Std

variable {μ κ : Type} {cap : Option ℕ} {env : Env μ κ} {s s' r : Scheduler μ κ}
  {tr l : List (Event μ)}

/-- The VMs booted so far, in order. -/
def bootedVms (tr : List (Event μ)) : List VmId :=
  tr.filterMap Event.booted?

/-- What is known of the VMs while the root runs. -/
structure Accounted (s : Scheduler μ κ) : Prop where
  disjoint : ∀ id, id ∈ s.instantiated → id ∉ s.suspended
  covered : ∀ id, id ∈ s.instantiated ∨ id ∈ s.suspended ↔ id ∈ s.states
  bounded : s.instantiated.size ≤ 4
  root : rootVmId ∈ s.states
  live : ∀ id : VmId, s.states[id]? ≠ some .terminated
  separate : ∀ id, id ∈ s.states → id ∉ s.terminatedVms
  total : ∀ id, id ∈ s.states ∨ id ∈ s.terminatedVms ↔ id < s.nextVmId

/-- What is left when the root has exited. -/
structure OnlyRoot (s : Scheduler μ κ) : Prop where
  states : ∀ (id : VmId) (state : VmState),
    s.states[id]? = some state ↔ id = rootVmId ∧ state = .terminated
  kept : ((∀ id, id ∈ s.instantiated ↔ id = rootVmId) ∧ s.suspended = ∅) ∨
    (s.instantiated = ∅ ∧ ∀ id, id ∈ s.suspended ↔ id = rootVmId)

theorem Linked.accounted (h : Linked maxInstantiatedVms env s r) (hrun : Running r) :
    Accounted s where
  disjoint := h.stored.disjoint
  covered id := (h.stored.cover id).symm
  bounded := h.stored.bound 4 rfl
  root := h.same.states ▸ hrun.root
  live id hid := hrun.allowed id .terminated (h.same.states ▸ hid)
  separate := h.same.states ▸ h.same.terminatedVms ▸ hrun.separate
  total id := by
    rw [h.same.states, h.same.terminatedVms, h.same.nextVmId]
    exact (hrun.accounted id).symm

theorem Linked.onlyRoot (h : Linked cap env s r) (hdone : Completed r) : OnlyRoot s := by
  have hstates : ∀ (id : VmId) (state : VmState),
      s.states[id]? = some state ↔ id = rootVmId ∧ state = .terminated := by
    intro id state
    rw [h.same.states, hdone, getElem?_insert]
    split
    · rename_i hid
      simp [hid, eq_comm]
    · rename_i hid
      simp [hid]
  have hlive : ∀ id, id ∈ s.instantiated ∨ id ∈ s.suspended ↔ id = rootVmId := by
    intro id
    rw [← h.stored.cover, mem_iff_getElem?]
    simp only [hstates, exists_and_left, exists_eq, and_true]
  refine ⟨hstates, ?_⟩
  rcases (hlive rootVmId).mpr rfl with hin | hsus
  · refine Or.inl ⟨fun id => ⟨fun hid => (hlive id).mp (Or.inl hid), fun hid => hid ▸ hin⟩, ?_⟩
    refine ExtTreeMap.ext_getElem? fun id => ?_
    have hnot : id ∉ s.suspended := by
      intro hid
      obtain rfl := (hlive id).mp (Or.inr hid)
      exact h.stored.disjoint _ hin hid
    simpa using hnot
  · refine Or.inr ⟨?_, fun id => ⟨fun hid => (hlive id).mp (Or.inr hid), fun hid => hid ▸ hsus⟩⟩
    refine ExtTreeMap.ext_getElem? fun id => ?_
    have hnot : id ∉ s.instantiated := by
      intro hid
      obtain rfl := (hlive id).mp (Or.inl hid)
      exact h.stored.disjoint _ hid hsus
    simpa using hnot

section Booted

variable [Memory μ]

omit [Memory μ] in
@[simp] theorem bootedVms_append (tr l : List (Event μ)) :
    bootedVms (tr ++ l) = bootedVms tr ++ bootedVms l :=
  List.filterMap_append

theorem Woken.bootedVms_eq {code : Int8} {joiners : List (VmId × UInt64)}
    (h : Woken code joiners s l s') : bootedVms l = [] := by
  induction h with
  | nil => rfl
  | cons _ _ _ _ ih =>
    rw [bootedVms_append, ih]
    rfl

/-- A step boots the next VM or none. -/
theorem Step.bootedVms_eq (h : Step env s l s') :
    (bootedVms l = [] ∧ s'.nextVmId = s.nextVmId) ∨
      (bootedVms l = [s.nextVmId] ∧ checkedAdd s.nextVmId 1 = some s'.nextVmId) := by
  cases h with
  | started => exact Or.inl ⟨rfl, rfl⟩
  | @closed id state =>
    refine Or.inl ⟨?_, rfl⟩
    cases state <;> rfl
  | @transferred rd wr mr mw data =>
    refine Or.inl ⟨?_, rfl⟩
    simp only [transferLog, Write.events]
    split <;> rfl
  | interrupted => exact Or.inl ⟨rfl, rfl⟩
  | answered _ _ _ hanswer =>
    cases hanswer with
    | rejected => exact Or.inl ⟨rfl, rfl⟩
    | blocked => exact Or.inl ⟨rfl, rfl⟩
    | joined => exact Or.inl ⟨rfl, rfl⟩
    | piped => exact Or.inl ⟨rfl, rfl⟩
    | spawned _ hnext => exact Or.inr ⟨rfl, hnext⟩
  | exited _ _ hwoken => exact Or.inl ⟨hwoken.bootedVms_eq, hwoken.frame.2.1⟩
  | rootExited => exact Or.inl ⟨rfl, rfl⟩

/-- The ids handed out in a run are those below the next one, each once. -/
theorem Run.bootedVms_eq (h : Run env tr r) :
    bootedVms tr = (List.range r.nextVmId.toNat).map UInt64.ofNat := by
  refine h.keeps (I := fun tr r => bootedVms tr = (List.range r.nextVmId.toNat).map UInt64.ofNat)
    (fun _ _ _ => rfl) ?_
  intro tr r l r' htr hstep
  rw [bootedVms_append, htr]
  rcases hstep.bootedVms_eq with ⟨hl, hnext⟩ | ⟨hl, hnext⟩
  · rw [hl, hnext, List.append_nil]
  · rw [hl, checkedAdd_one_toNat hnext, List.range_succ, List.map_append, List.map_singleton,
      UInt64.ofNat_toNat]

/-- In every reachable scheduler with a booted root the VMs are accounted for,
and a full suspension does not crash. -/
theorem vms_accounted (env : Env μ κ) {tr : List (Event μ)} {s : Scheduler μ κ}
    (h : Reachable maxInstantiatedVms env tr s)
    (hboot : ∃ charge, Event.boot rootVmId charge ∈ tr) :
    (s.states[rootVmId]? ≠ some .terminated → Accounted s) ∧
      (s.states[rootVmId]? = some .terminated → OnlyRoot s) ∧
      bootedVms tr = (List.range s.nextVmId.toNat).map UInt64.ofNat ∧
      suspend env s ≠ .panic := by
  rcases h.driven two_le_maxInstantiatedVms with ⟨_, rfl⟩ | ⟨r, hlinked, hr⟩
  · simp at hboot
  have hstates := hlinked.same.states
  refine ⟨?_, ?_, ?_, ?_⟩
  · intro hroot
    refine hlinked.accounted (hr.invariant.phase.resolve_right fun hdone => hroot ?_)
    rw [hstates, hdone, getElem?_insert, if_pos rfl]
  · intro hroot
    refine hlinked.onlyRoot (hr.invariant.phase.resolve_left fun hrun => ?_)
    exact hrun.root_state (hstates ▸ hroot)
  · rw [hlinked.same.nextVmId]
    exact hr.bootedVms_eq
  · intro hpanic
    have hmeets := suspend_meets hlinked.stored
    rw [hpanic] at hmeets
    exact hmeets

end Booted

/-- A crowd with a suspended VM and two that have exited, and its end with a full suspension
before the exit of the root and one after it. -/
theorem vms_accounted_crowd :
    (∃ tr s, Reachable maxInstantiatedVms crowdEnv tr s ∧ (3 : VmId) ∈ s.suspended ∧
      s.terminatedVms.keys = [1, 2] ∧ Accounted s ∧ bootedVms tr = [0, 1, 2, 3, 4, 5, 6]) ∧
    ∃ tr s, Reachable maxInstantiatedVms crowdEnv tr s ∧ s.instantiated.isEmpty = true ∧
      OnlyRoot s := by
  have hboot : ∀ tr : List (Event Ram), tr.any (fun ev => ev.booted? == some rootVmId) = true →
      ∃ charge, Event.boot rootVmId charge ∈ tr := by
    intro tr hany
    obtain ⟨ev, hmem, hev⟩ := List.any_eq_true.mp hany
    rw [beq_iff_eq] at hev
    cases ev <;> cases hev
    exact ⟨_, hmem⟩
  constructor
  · obtain ⟨tr, s, h, hs⟩ := exists_reachable maxInstantiatedVms crowdEnv
      (.boot :: List.replicate 16 (.round none 99)) (fun tr s =>
        tr.any (fun ev => ev.booted? == some rootVmId) && s.suspended.contains (3 : VmId) &&
          s.terminatedVms.keys == [1, 2] && s.nextVmId == 7 &&
          s.states[rootVmId]? != some .terminated) (by decide +kernel)
    simp only [Bool.and_eq_true, beq_iff_eq, bne_iff_ne] at hs
    obtain ⟨⟨⟨⟨hbooted, hsuspended⟩, hterminated⟩, hnext⟩, hroot⟩ := hs
    obtain ⟨haccounted, _, hvms, _⟩ := vms_accounted crowdEnv h (hboot tr hbooted)
    rw [hnext] at hvms
    exact ⟨tr, s, h, ExtTreeMap.contains_iff_mem.mp hsuspended, hterminated, haccounted hroot, hvms⟩
  · obtain ⟨tr, s, h, hs⟩ := exists_reachable maxInstantiatedVms crowdEnv
      (.boot :: List.replicate 16 (.round none 99) ++ [.suspend, .round none 99, .suspend])
      (fun tr s => tr.any (fun ev => ev.booted? == some rootVmId) && s.instantiated.isEmpty &&
        s.states[rootVmId]? == some .terminated) (by decide +kernel)
    simp only [Bool.and_eq_true, beq_iff_eq] at hs
    obtain ⟨⟨hbooted, hempty⟩, hroot⟩ := hs
    exact ⟨tr, s, h, hempty, (vms_accounted crowdEnv h (hboot tr hbooted)).2.1 hroot⟩

end Scheduler

end DeterministicScheduler
