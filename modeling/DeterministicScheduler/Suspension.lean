import DeterministicScheduler.Refinement

/-!
# A full suspension and the scheduler resumed from it

Suspending moves every machine out, and the full state lists each live VM with
its state and its snapshot. The scheduler resumed from it has the same VMs, and
an empty message box.
-/
namespace DeterministicScheduler.Scheduler

open ProgramLogic Program Outcome Std

variable {μ κ : Type} {cap : Option ℕ} {env : Env μ κ} {s s' w r : Scheduler μ κ}
  {full : FullSuspendedState κ} {l : List (Event μ)}

theorem mapM_isSome {α β : Type} {f : α → Option β} {xs : List α}
    (h : ∀ x ∈ xs, ∃ y, f x = some y) : ∃ ys, xs.mapM f = some ys := by
  induction xs with
  | nil => exact ⟨[], rfl⟩
  | cons x xs ih =>
    obtain ⟨y, hy⟩ := h x (by simp)
    obtain ⟨ys, hys⟩ := ih fun x' hx' => h x' (by simp [hx'])
    exact ⟨y :: ys, by simp [List.mapM_cons, hy, hys]⟩

/-- A VM with its state and its snapshot. -/
def listedVm (suspended : HashMap VmId κ) (v : VmId × VmState) : Option (VmId × VmState × κ) :=
  (suspended[v.1]?).map fun snapshot => (v.1, v.2, snapshot)

theorem mapM_listedVm {suspended : HashMap VmId κ} {states : List (VmId × VmState)}
    {vms : List (VmId × VmState × κ)} (h : states.mapM (listedVm suspended) = some vms) :
    vms.map (fun vm => (vm.1, vm.2.1)) = states ∧ ∀ vm ∈ vms, suspended[vm.1]? = some vm.2.2 := by
  induction states generalizing vms with
  | nil =>
    cases h
    simp
  | cons v states ih =>
    simp only [List.mapM_cons, Option.bind_eq_bind, Option.pure_def, Option.bind_eq_some_iff,
      Option.some.injEq] at h
    obtain ⟨vm, hvm, rest, hrest, rfl⟩ := h
    obtain ⟨snapshot, hsnapshot, rfl⟩ := Option.map_eq_some_iff.mp hvm
    obtain ⟨hstates, htaken⟩ := ih hrest
    refine ⟨by rw [List.map_cons, hstates], ?_⟩
    rintro vm hvm
    rcases List.mem_cons.mp hvm with rfl | hvm
    · exact hsnapshot
    · exact htaken vm hvm

/-- What a list with one entry for each of its keys says of a key. -/
theorem getElem?_ofList {α : Type} {entries : List (UInt64 × α)} {found : UInt64 → Option α}
    (hnodup : (entries.map Prod.fst).Nodup)
    (h : ∀ k a, (k, a) ∈ entries ↔ found k = some a) (k : UInt64) :
    (ExtTreeMap.ofList entries)[k]? = found k := by
  have hdistinct : entries.Pairwise fun a b => ¬ compare a.1 b.1 = .eq := by
    rw [List.Nodup, List.pairwise_map] at hnodup
    simpa only [Std.compare_eq_iff_eq] using hnodup
  cases hk : found k with
  | some a =>
    exact ExtTreeMap.getElem?_ofList_of_mem (Std.compare_eq_iff_eq.mpr rfl) hdistinct
      ((h k a).mpr hk)
  | none =>
    refine ExtTreeMap.getElem?_ofList_of_contains_eq_false ?_
    rw [← Bool.not_eq_true, List.contains_iff_mem]
    intro hin
    obtain ⟨⟨k', a⟩, hmem, rfl⟩ := List.mem_map.mp hin
    rw [h] at hmem
    cases hmem.symm.trans hk

/-- A map is determined by a list of its entries. -/
theorem ofList_eq {α : Type} {m : ExtTreeMap UInt64 α} {entries : List (UInt64 × α)}
    (hnodup : (entries.map Prod.fst).Nodup)
    (h : ∀ k a, (k, a) ∈ entries ↔ m[k]? = some a) : ExtTreeMap.ofList entries = m :=
  ExtTreeMap.ext_getElem? fun k => getElem?_ofList hnodup h k

theorem ofList_toList {α : Type} (m : ExtTreeMap UInt64 α) : ExtTreeMap.ofList m.toList = m := by
  refine ofList_eq ?_ fun k a => ExtTreeMap.mem_toList_iff_getElem?_eq_some
  rw [ExtTreeMap.map_fst_toList_eq_keys]
  exact ExtTreeMap.nodup_keys

/-- The snapshots of a listing are those of the listed VMs. -/
theorem getElem?_listed {suspended : HashMap VmId κ} {states : BTreeMap VmId VmState}
    {vms : List (VmId × VmState × κ)} (h : states.toList.mapM (listedVm suspended) = some vms)
    (k : VmId) : (ExtTreeMap.ofList (vms.map fun vm => (vm.1, vm.2.2)))[k]? =
      if k ∈ states then suspended[k]? else none := by
  obtain ⟨hstates, htaken⟩ := mapM_listedVm h
  have hkeys : vms.map (fun vm => vm.1) = states.keys := by
    rw [← ExtTreeMap.map_fst_toList_eq_keys, ← hstates, List.map_map]
    rfl
  have hfound := @getElem?_ofList _ (vms.map fun vm => (vm.1, vm.2.2))
    fun k => if k ∈ states then suspended[k]? else none
  refine hfound ?_ ?_ k
  · rw [List.map_map]
    exact hkeys ▸ ExtTreeMap.nodup_keys
  intro k snapshot
  rw [Option.ite_none_right_eq_some, ← ExtTreeMap.mem_keys, ← hkeys]
  constructor
  · intro hin
    obtain ⟨vm, hvm, heq⟩ := List.mem_map.mp hin
    cases heq
    exact ⟨List.mem_map.mpr ⟨vm, hvm, rfl⟩, htaken vm hvm⟩
  · rintro ⟨hlive, hk⟩
    obtain ⟨vm, hvm, rfl⟩ := List.mem_map.mp hlive
    rw [htaken vm hvm, Option.some.injEq] at hk
    exact List.mem_map.mpr ⟨vm, hvm, by rw [hk]⟩

theorem suspendVm_forM_meets (ids : List VmId) (h : Stored cap env s)
    (hids : ∀ id ∈ ids, id ∈ s.instantiated) (hnodup : ids.Nodup) :
    (ids.forM (suspendVm env) s).Meets
      (fun _ t l => l = [] ∧ Stored cap env t ∧ SameVms env s t ∧
        ∀ k, k ∈ t.instantiated ↔ k ∈ s.instantiated ∧ k ∉ ids)
      (fun e _ _ => SnapshotError env e) False := by
  induction ids generalizing s with
  | nil => exact ⟨rfl, h, SameVms.refl s, by simp⟩
  | cons id ids ih =>
    obtain ⟨hnot, hnodup⟩ := List.nodup_cons.mp hnodup
    obtain ⟨m, hm⟩ := mem_iff_getElem?.mp (hids id (by simp))
    rw [forM_cons]
    rcases suspendVm_run env hm with ⟨e, hmake, hrun⟩ | ⟨snapshot, hmake, hrun⟩
    · rw [bind_of_err hrun]
      exact ⟨m.toCpu, hmake⟩
    rw [bind_of_ok hrun, after_nil]
    refine (ih (h.evicted hm hmake) ?_ hnodup).mono ?_ (fun _ _ _ he => he) (fun hf => hf)
    · intro k hk
      rw [mem_evicted]
      refine ⟨?_, hids k (by simp [hk])⟩
      rintro rfl
      exact hnot hk
    · rintro _ t l ⟨rfl, ht, hst, hmem⟩
      refine ⟨rfl, ht, (SameVms.evicted hm hmake).trans hst, ?_⟩
      intro k
      rw [hmem, mem_evicted, List.mem_cons, not_or]
      tauto

/-- The scheduler that a full state of `s` is resumed as. -/
structure Resumed (cap : Option ℕ) (env : Env μ κ) (s t : Scheduler μ κ) : Prop where
  stored : Stored cap env t
  same : SameVms env { s with messageBox := [] } t
  instantiated : t.instantiated = ∅

/-- The full state that lists the VMs of a scheduler so. -/
abbrev fullState (s : Scheduler μ κ) (vms : List (VmId × VmState × κ)) : FullSuspendedState κ where
  totalCycles := s.totalCycles
  nextVmId := s.nextVmId
  nextPipeSlot := s.nextPipeSlot
  vms
  pipes := s.pipes.toList
  terminatedVms := s.terminatedVms.toList

/-- When no machine is instantiated, the full state lists all VMs. -/
theorem resume_of_listed (h : Stored cap env s) (hnone : ∀ k, k ∉ s.instantiated)
    {vms : List (VmId × VmState × κ)}
    (hvms : s.states.toList.mapM (listedVm s.suspended) = some vms) :
    Resumed cap env s (resume (s.fullState vms)) := by
  obtain ⟨hstates, _⟩ := mapM_listedVm hvms
  have hsuspended : ExtTreeMap.ofList (vms.map fun vm => (vm.1, vm.2.2)) = s.suspended := by
    refine ExtTreeMap.ext_getElem? fun k => ?_
    rw [getElem?_listed hvms]
    split
    · rfl
    · rename_i hnot
      have hk : k ∉ s.suspended := fun hin => hnot ((h.cover k).mpr (Or.inr hin))
      exact (ExtTreeMap.getElem?_eq_none hk).symm
  have hresume : resume (s.fullState vms) =
      ({ s with messageBox := [], instantiated := ∅ } : Scheduler μ κ) := by
    simp only [resume, hstates, hsuspended, ofList_toList]
  have hempty : s.instantiated = ∅ := by
    refine ExtTreeMap.ext_getElem? fun k => ?_
    simpa using hnone k
  rw [hresume]
  refine ⟨h.congr hempty.symm rfl rfl, ?_, rfl⟩
  constructor <;> try rfl
  intro k
  simp only [cpu?, hempty]

/-- Suspending a well-stored scheduler succeeds unless a snapshot fails, and the
full state is resumed with the same VMs. -/
theorem suspend_meets (h : Stored cap env s) :
    (suspend env s).Meets (fun full _ l => l = [] ∧ Resumed cap env s (resume full))
      (fun e _ _ => SnapshotError env e) False := by
  simp only [suspend, get_bind_run]
  have hkeys : ∀ id ∈ s.instantiated.keys, id ∈ s.instantiated := fun id hid =>
    ExtTreeMap.mem_keys.mp hid
  refine meets_bind (suspendVm_forM_meets _ h hkeys ExtTreeMap.nodup_keys) ?_
  rintro _ t l ⟨rfl, ht, hst, hmem⟩
  have hnone : ∀ k, k ∉ t.instantiated := by
    intro k hk
    obtain ⟨hin, hnot⟩ := (hmem k).mp hk
    exact hnot (ExtTreeMap.mem_keys.mpr hin)
  rw [get_bind_run]
  have hlisted : ∃ vms, t.states.toList.mapM (listedVm t.suspended) = some vms := by
    refine mapM_isSome ?_
    rintro ⟨k, state⟩ hv
    have hk := (ht.cover k).mp
      (mem_iff_getElem?.mpr ⟨_, ExtTreeMap.mem_toList_iff_getElem?_eq_some.mp hv⟩)
    obtain ⟨snapshot, hsnapshot⟩ := mem_iff_getElem?.mp (hk.resolve_left (hnone k))
    exact ⟨(k, state, snapshot), by simp only [listedVm, hsnapshot, Option.map_some]⟩
  obtain ⟨vms, hvms⟩ := hlisted
  have hresumed := resume_of_listed ht hnone hvms
  change Meets ((unwrap (t.states.toList.mapM (listedVm t.suspended)) >>= _ :
    SchedulerM μ κ _) t) _ _ _
  rw [hvms, unwrap_some, pure_bind_run]
  refine ⟨rfl, hresumed.stored, ?_, hresumed.instantiated⟩
  have hbox : SameVms env ({ s with messageBox := [] } : Scheduler μ κ)
      { t with messageBox := [] } := by
    refine { hst with messageBox := rfl, cpu := ?_ }
    exact hst.cpu
  exact hbox.trans hresumed.same

end DeterministicScheduler.Scheduler
