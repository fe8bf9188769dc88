import DeterministicScheduler.Guest
import DeterministicScheduler.Instantiation
import DeterministicScheduler.Logic.Transition

/-!
# Requests for machines

A request resumes the VMs it names while there is room. Once there is none it
suspends, for each VM still missing, one that it does not name. It is read here
as a sequence of such relocations, each of which keeps where the VMs are held.
-/
namespace DeterministicScheduler.Scheduler

open ProgramLogic Program Outcome Std

variable {μ κ : Type} {cap : Option ℕ} {env : Env μ κ} {s t : Scheduler μ κ} {ids : List VmId}

/-- There is room for the two VMs of a transfer. -/
theorem two_le_maxInstantiatedVms : ∀ c, maxInstantiatedVms = some c → 2 ≤ c := by
  rintro c ⟨⟩
  decide

inductive Relocation where
  | resumed (id : VmId)
  | evicted (id : VmId)

/-- How a request for `ids` moves one machine: it resumes a VM of `ids` into a
free place, and suspends one outside `ids` only when no place is free. -/
inductive Relocates (cap : Option ℕ) (env : Env μ κ) (ids : List VmId) (s : Scheduler μ κ) :
    List Relocation → Scheduler μ κ → Prop
  | resumed {id : VmId} {snapshot : κ} {cpu : Cpu μ} (hid : id ∈ ids)
    (hsnapshot : s.suspended[id]? = some snapshot)
    (hresume : env.resumeSnapshot snapshot = .ok cpu)
    (hroom : ∀ c, cap = some c → s.instantiated.size < c) :
    Relocates cap env ids s [.resumed id] (s.resumed id cpu)
  | evicted {id : VmId} {m : Machine μ} {snapshot : κ} (hid : id ∉ ids)
    (hm : s.instantiated[id]? = some m) (hmake : env.makeSnapshot m.toCpu = .ok snapshot)
    (hfull : ∃ c, cap = some c ∧ c ≤ s.instantiated.size) :
    Relocates cap env ids s [.evicted id] (s.evicted id snapshot)

/-- The relocations that a request for `ids` carries out one after another. -/
abbrev Relocated (cap : Option ℕ) (env : Env μ κ) (ids : List VmId) :
    Scheduler μ κ → List Relocation → Scheduler μ κ → Prop :=
  Path (Relocates cap env ids)

variable {moves : List Relocation}

theorem cpu?_of_suspended {id : VmId} {snapshot : κ} {cpu : Cpu μ} (hnot : id ∉ s.instantiated)
    (hsnapshot : s.suspended[id]? = some snapshot)
    (hresume : env.resumeSnapshot snapshot = .ok cpu) : s.cpu? env id = some cpu := by
  have hnone : s.instantiated[id]? = none := ExtTreeMap.getElem?_eq_none hnot
  simp [cpu?, hnone, hsnapshot, hresume, Except.toOption]

/-- One relocation keeps the placement, every VM, and the requested machines that
are instantiated already. -/
theorem Relocates.keeps (h : Relocates cap env ids s moves t) (hs : Placement cap s) :
    Placement cap t ∧ SameVms env s t ∧ ∀ id ∈ ids, id ∈ s.instantiated → id ∈ t.instantiated := by
  cases h with
  | @resumed id snapshot cpu hid hsnapshot hresume hroom =>
    have hsuspended : id ∈ s.suspended := mem_iff_getElem?.mpr ⟨snapshot, hsnapshot⟩
    have hnot : id ∉ s.instantiated := fun hin => hs.disjoint id hin hsuspended
    refine ⟨hs.resumed cpu hsuspended hroom, ?_, ?_⟩
    · exact SameVms.resumed (cpu?_of_suspended hnot hsnapshot hresume)
    · intro k _ hk
      exact mem_resumed.mpr (Or.inr hk)
  | @evicted id m snapshot hid hm hmake hfull =>
    refine ⟨hs.evicted (mem_iff_getElem?.mpr ⟨m, hm⟩), SameVms.evicted hm hmake, ?_⟩
    intro k hk hin
    rw [mem_evicted]
    refine ⟨?_, hin⟩
    rintro rfl
    exact hid hk

theorem Relocates.stored (h : Relocates cap env ids s moves t) (hs : Stored cap env s) :
    Stored cap env t := by
  cases h with
  | resumed hid hsnapshot hresume hroom =>
    exact hs.resumed _ (mem_iff_getElem?.mpr ⟨_, hsnapshot⟩) hroom
  | evicted hid hm hmake hfull => exact hs.evicted hm hmake

theorem Relocated.keeps (h : Relocated cap env ids s moves t) (hs : Placement cap s) :
    Placement cap t ∧ SameVms env s t ∧ ∀ id ∈ ids, id ∈ s.instantiated → id ∈ t.instantiated := by
  refine h.invariant (I := fun t => Placement cap t ∧ SameVms env s t ∧
    ∀ id ∈ ids, id ∈ s.instantiated → id ∈ t.instantiated) ?_ ?_
  · rintro u l u' ⟨hu, hsame, hkept⟩ hstep
    obtain ⟨hu', hsame', hkept'⟩ := hstep.keeps hu
    exact ⟨hu', hsame.trans hsame', fun id hid hin => hkept' id hid (hkept id hid hin)⟩
  · exact ⟨hs, SameVms.refl s, fun _ _ hin => hin⟩

theorem Relocated.stored (h : Relocated cap env ids s moves t) (hs : Stored cap env s) :
    Stored cap env t :=
  h.invariant (fun _ _ _ hu hstep => hstep.stored hu) hs

theorem CanResume.resumed {id k : VmId} {cpu : Cpu μ} (h : CanResume env s k) (hne : id ≠ k) :
    CanResume env (s.resumed id cpu) k := by
  obtain ⟨snapshot, cpu', hsnapshot, hversion, hresume⟩ := h
  refine ⟨snapshot, cpu', ?_, hversion, hresume⟩
  simpa only [Scheduler.resumed, getElem?_erase, if_neg hne.symm] using hsnapshot

theorem CanResume.evicted {id k : VmId} {snapshot : κ} (h : CanResume env s k) (hne : id ≠ k) :
    CanResume env (s.evicted id snapshot) k := by
  obtain ⟨snapshot', cpu', hsnapshot, hversion, hresume⟩ := h
  refine ⟨snapshot', cpu', ?_, hversion, hresume⟩
  simpa only [Scheduler.evicted, getElem?_insert, if_neg hne.symm] using hsnapshot

theorem size_resumed {id : VmId} {cpu : Cpu μ} (hid : id ∉ s.instantiated) :
    (s.resumed id cpu).instantiated.size = s.instantiated.size + 1 := by
  have hcontains : ¬ s.instantiated.contains id = true := by
    rwa [ExtTreeMap.contains_iff_mem]
  simp only [Scheduler.resumed, ExtTreeMap.size_insert, ExtTreeMap.contains_iff_mem, if_neg hid]

/-- Free places go to the first VMs of the list, until one of them is left over
only because there is no more room. -/
theorem resumeWhileRoom_run (cap : Option ℕ) (pending : List VmId)
    (hpending : ∀ id ∈ pending, id ∈ ids ∧ id ∉ s.instantiated ∧ CanResume env s id)
    (hnodup : pending.Nodup) :
    ∃ t filled rest, resumeWhileRoom cap env pending s = .ok rest t [] ∧
      (∃ moves, Relocated cap env ids s moves t) ∧ pending = filled ++ rest ∧
      (∀ k, k ∈ t.instantiated ↔ k ∈ s.instantiated ∨ k ∈ filled) ∧
      t.instantiated.size = s.instantiated.size + filled.length ∧
      (∀ id ∈ rest, CanResume env t id) ∧
      (rest ≠ [] → ∃ c, cap = some c ∧ c ≤ t.instantiated.size) := by
  induction pending generalizing s with
  | nil => exact ⟨s, [], [], rfl, ⟨[], .refl⟩, rfl, by simp, rfl, by simp, by simp⟩
  | cons id pending ih =>
    obtain ⟨hnot, hnodup⟩ := List.nodup_cons.mp hnodup
    simp only [resumeWhileRoom, get_bind_run]
    by_cases hroom : hasRoom cap s.instantiated.size = true
    · obtain ⟨hid, hout, snapshot, cpu, hsnapshot, hversion, hresume⟩ := hpending id (by simp)
      have hlt : ∀ c, cap = some c → s.instantiated.size < c := by
        intro c hc
        simpa [hasRoom, hc] using hroom
      have hpending' : ∀ k ∈ pending, k ∈ ids ∧ k ∉ (s.resumed id cpu).instantiated ∧
          CanResume env (s.resumed id cpu) k := by
        intro k hk
        have hne : id ≠ k := by
          rintro rfl
          exact hnot hk
        obtain ⟨hkids, hkout, hkresume⟩ := hpending k (by simp [hk])
        refine ⟨hkids, ?_, hkresume.resumed hne⟩
        rw [mem_resumed]
        exact fun hin => hin.elim (fun heq => hne heq.symm) hkout
      obtain ⟨t, filled, rest, ht, ⟨moves, hmoves⟩, happend, hmem, hsize, hrest, hfull⟩ :=
        ih hpending' hnodup
      refine ⟨t, id :: filled, rest, ?_, ⟨[.resumed id] ++ moves, ?_⟩, ?_, ?_, ?_, hrest, hfull⟩
      · rw [if_pos hroom, bind_of_ok (resumeVm_run hsnapshot hversion hresume), ht, after_nil]
      · exact (Path.single (.resumed hid hsnapshot hresume hlt)).trans hmoves
      · rw [happend, List.cons_append]
      · intro k
        rw [hmem, mem_resumed, List.mem_cons]
        tauto
      · rw [hsize, size_resumed hout, List.length_cons]
        omega
    · refine ⟨s, [], id :: pending, by rw [if_neg hroom]; rfl, ⟨[], .refl⟩, rfl, by simp, rfl,
        fun k hk => (hpending k hk).2.2, ?_⟩
      intro _
      cases cap with
      | none => simp [hasRoom] at hroom
      | some c => exact ⟨c, rfl, by simpa [hasRoom] using hroom⟩

/-- When all places are taken, each swap suspends a VM outside the request and
resumes one of it in its place. -/
theorem swapVms_forM_meets (pairs : List (VmId × VmId)) {c : ℕ} (hcap : cap = some c)
    (hfull : s.instantiated.size = c)
    (hout : ∀ p ∈ pairs, p.1 ∈ s.instantiated ∧ p.1 ∉ ids)
    (hin : ∀ p ∈ pairs, p.2 ∈ ids ∧ p.2 ∉ s.instantiated ∧ CanResume env s p.2)
    (hnodup : (pairs.map Prod.fst).Nodup) (hnodup' : (pairs.map Prod.snd).Nodup) :
    (pairs.forM (swapVms env) s).Meets
      (fun _ t l => l = [] ∧ (∃ moves, Relocated cap env ids s moves t) ∧
        ∀ k, k ∈ t.instantiated ↔
          (k ∈ s.instantiated ∧ k ∉ pairs.map Prod.fst) ∨ k ∈ pairs.map Prod.snd)
      (fun e _ _ => SnapshotError env e) False := by
  induction pairs generalizing s with
  | nil => exact ⟨rfl, ⟨[], .refl⟩, by simp⟩
  | cons p pairs ih =>
    obtain ⟨out, id⟩ := p
    simp only [List.map_cons, List.nodup_cons] at hnodup hnodup'
    obtain ⟨hout₀, hnot⟩ : out ∈ s.instantiated ∧ out ∉ ids := hout (out, id) (by simp)
    obtain ⟨hid, hid₀, hresume₀⟩ : id ∈ ids ∧ id ∉ s.instantiated ∧ CanResume env s id :=
      hin (out, id) (by simp)
    have hne : out ≠ id := by
      rintro rfl
      exact hnot hid
    obtain ⟨m, hm⟩ := mem_iff_getElem?.mp hout₀
    rw [forM_cons]
    rcases suspendVm_run env hm with ⟨e, hmake, hrun⟩ | ⟨snapshot, hmake, hrun⟩
    · have hswap : swapVms env (out, id) s = .err e s [] := bind_of_err hrun
      rw [bind_of_err hswap]
      exact ⟨m.toCpu, hmake⟩
    have hresume₁ : CanResume env (s.evicted out snapshot) id := hresume₀.evicted hne
    obtain ⟨snapshot', cpu, hsnapshot, hversion, hresume⟩ := hresume₁
    let u := (s.evicted out snapshot).resumed id cpu
    have hmem : ∀ k, k ∈ u.instantiated ↔ k = id ∨ k ≠ out ∧ k ∈ s.instantiated := by
      intro k
      rw [mem_resumed, mem_evicted]
    have hsize := size_evicted snapshot hout₀
    have hsize' : u.instantiated.size = c := by
      rw [size_resumed, hsize, hfull]
      rw [mem_evicted]
      exact fun hin => hid₀ hin.2
    have hswap : swapVms env (out, id) s = .ok ⟨⟩ u [] := by
      rw [swapVms, bind_of_ok hrun, after_nil, resumeVm_run hsnapshot hversion hresume]
    have hmoves : Relocated cap env ids s ([.evicted out] ++ [.resumed id]) u := by
      refine (Path.single (.evicted hnot hm hmake ⟨c, hcap, hfull.ge⟩)).tail ?_
      refine .resumed hid hsnapshot hresume ?_
      intro c' hc'
      rw [hcap, Option.some.injEq] at hc'
      omega
    have hout' : ∀ p ∈ pairs, p.1 ∈ u.instantiated ∧ p.1 ∉ ids := by
      intro p hp
      obtain ⟨hp₁, hp₂⟩ := hout p (by simp [hp])
      have hpne : p.1 ≠ out := fun heq => hnodup.1 (heq ▸ List.mem_map_of_mem hp)
      exact ⟨(hmem _).mpr (Or.inr ⟨hpne, hp₁⟩), hp₂⟩
    have hin' : ∀ p ∈ pairs, p.2 ∈ ids ∧ p.2 ∉ u.instantiated ∧ CanResume env u p.2 := by
      intro p hp
      obtain ⟨hp₁, hp₂, hp₃⟩ := hin p (by simp [hp])
      have hpne : id ≠ p.2 := fun heq => hnodup'.1 (heq ▸ List.mem_map_of_mem hp)
      have hpout : out ≠ p.2 := by
        rintro rfl
        exact hnot hp₁
      refine ⟨hp₁, ?_, (hp₃.evicted hpout).resumed hpne⟩
      rw [hmem]
      exact fun hor => hor.elim (fun heq => hpne heq.symm) fun hand => hp₂ hand.2
    rw [bind_of_ok hswap, after_nil]
    refine (ih hsize' hout' hin' hnodup.2 hnodup'.2).mono ?_ (fun _ _ _ he => he) (fun hf => hf)
    rintro _ t l ⟨rfl, ⟨moves, hrest⟩, hmem'⟩
    refine ⟨rfl, ⟨_, hmoves.trans hrest⟩, ?_⟩
    intro k
    rw [hmem', hmem]
    simp only [List.map_cons, List.mem_cons]
    have hidout : id ∉ pairs.map Prod.fst := by
      intro hmap
      obtain ⟨p, hp, rfl⟩ := List.mem_map.mp hmap
      exact (hout p (by simp [hp])).2 hid
    by_cases hk : k = id
    · subst k; simp [hidout]
    · simp only [hk, false_or]
      tauto

/-- When all places are taken, there are enough VMs outside a request to make
room for what is missing from it. -/
theorem missing_le_suspendable {keys ids missing : List VmId} {c : ℕ} (hkeys : keys.Nodup)
    (hfull : c ≤ keys.length) (hids : ids.length ≤ c) (hmissing : missing.Nodup)
    (hsub : ∀ id ∈ missing, id ∈ ids ∧ id ∉ keys) :
    missing.length ≤ (keys.filter fun id => !ids.contains id).length := by
  have hsplit := List.length_eq_length_filter_add (l := keys) (fun id => ids.contains id)
  have hnodup : (missing ++ keys.filter fun id => ids.contains id).Nodup := by
    rw [List.nodup_append]
    refine ⟨hmissing, hkeys.filter _, ?_⟩
    rintro a ha b hb rfl
    exact (hsub a ha).2 (List.mem_filter.mp hb).1
  have hsubset : (missing ++ keys.filter fun id => ids.contains id) ⊆ ids := by
    intro a ha
    rcases List.mem_append.mp ha with ha | ha
    · exact (hsub a ha).1
    · simpa using (List.mem_filter.mp ha).2
  have hle := (hnodup.subperm hsubset).length_le
  simp only [List.length_append] at hle
  omega

/-- A request for VMs that are all instantiated changes nothing. -/
theorem ensureVmsInstantiated_noop {ids : List VmId} (hids : ∀ id ∈ ids, id ∈ s.instantiated)
    (hlen : ∀ c, cap = some c → ids.length ≤ c) :
    ensureVmsInstantiated cap env ids s = .ok ⟨⟩ s [] := by
  have hcheck : (checkRequest cap ids.length : SchedulerM μ κ Unit) = pure () := by
    cases cap with
    | none => rfl
    | some c => simp [checkRequest, Nat.not_lt.mpr (hlen c rfl)]
  have hfilter : (ids.filter fun id => !s.instantiated.contains id) = [] := by
    simpa using hids
  simp [ensureVmsInstantiated, hcheck, hfilter, resumeWhileRoom]

/-- The VMs of a request that are not instantiated yet. -/
def missingVms (s : Scheduler μ κ) (ids : List VmId) : List VmId :=
  ids.filter fun id => !s.instantiated.contains id

/-- The VMs instantiated in `s` that are not so in `t`. -/
def evictedVms (s t : Scheduler μ κ) : List VmId :=
  s.instantiated.keys.filter fun id => !t.instantiated.contains id

theorem mem_missingVms {id : VmId} :
    id ∈ s.missingVms ids ↔ id ∈ ids ∧ id ∉ s.instantiated := by
  simp [missingVms, ← ExtTreeMap.contains_iff_mem]

theorem mem_evictedVms {id : VmId} :
    id ∈ evictedVms s t ↔ id ∈ s.instantiated ∧ id ∉ t.instantiated := by
  simp [evictedVms, ← ExtTreeMap.contains_iff_mem]

/-- What a request for `ids` leads to: its VMs are instantiated, by relocations, and
only as many others are evicted as there were places missing. -/
structure Served (cap : Option ℕ) (env : Env μ κ) (ids : List VmId) (s t : Scheduler μ κ) :
    Prop where
  relocated : ∃ moves, Relocated cap env ids s moves t
  requested : ∀ id ∈ ids, id ∈ t.instantiated
  evicted : ∀ c, cap = some c →
    (evictedVms s t).length = (s.missingVms ids).length - (c - s.instantiated.size)

theorem evictedVms_nodup : (evictedVms s t).Nodup :=
  ExtTreeMap.nodup_keys.filter _

/-- The instantiated VMs outside a request, in order of their ids. -/
def suspendableVms (s : Scheduler μ κ) (ids : List VmId) : List VmId :=
  s.instantiated.keys.filter fun id => !ids.contains id

theorem mem_suspendableVms {id : VmId} :
    id ∈ s.suspendableVms ids ↔ id ∈ s.instantiated ∧ id ∉ ids := by
  simp [suspendableVms]

/-- The swaps that a request comes down to when no place is free. Each VM still
missing takes the place of one of `out`. -/
theorem swapMissing_meets {rest : List VmId} {c : ℕ} (hcap : cap = some c)
    (hfull : s.instantiated.size = c) (hids : ids.length ≤ c)
    (hrest : ∀ id ∈ rest, id ∈ ids ∧ id ∉ s.instantiated ∧ CanResume env s id)
    (hnodup : rest.Nodup) :
    rest.length ≤ (s.suspendableVms ids).length ∧
      (((s.suspendableVms ids).zip rest.reverse).forM (swapVms env) s).Meets
        (fun _ t l => l = [] ∧ (∃ moves, Relocated cap env ids s moves t) ∧
          ∃ out : List VmId, out.Nodup ∧ out.length = rest.length ∧
            (∀ id ∈ out, id ∈ s.instantiated ∧ id ∉ ids) ∧
            ∀ k, k ∈ t.instantiated ↔ (k ∈ s.instantiated ∧ k ∉ out) ∨ k ∈ rest)
        (fun e _ _ => SnapshotError env e) False := by
  have hroom : rest.length ≤ (s.suspendableVms ids).length := by
    refine missing_le_suspendable ExtTreeMap.nodup_keys ?_ hids hnodup ?_
    · rw [ExtTreeMap.length_keys]
      exact hfull.ge
    · intro id hid
      exact ⟨(hrest id hid).1, by simpa using (hrest id hid).2.1⟩
  let pairs := (s.suspendableVms ids).zip rest.reverse
  have hsnd : pairs.map Prod.snd = rest.reverse := by
    rw [List.map_snd_zip]
    simpa using hroom
  have hfst : List.Sublist (pairs.map Prod.fst) (s.suspendableVms ids) := by
    simp only [pairs]
    rw [List.zip_eq_zip_take_min, List.map_fst_zip (by simp)]
    exact List.take_sublist _ _
  have hfstNodup : (pairs.map Prod.fst).Nodup :=
    (show (s.suspendableVms ids).Nodup from ExtTreeMap.nodup_keys.filter _).sublist hfst
  have hsndNodup : (pairs.map Prod.snd).Nodup := by
    rw [hsnd]
    exact List.nodup_reverse.mpr hnodup
  have hout : ∀ id ∈ pairs.map Prod.fst, id ∈ s.instantiated ∧ id ∉ ids :=
    fun id hid => mem_suspendableVms.mp (hfst.subset hid)
  have hin : ∀ p ∈ pairs, p.2 ∈ ids ∧ p.2 ∉ s.instantiated ∧ CanResume env s p.2 := by
    intro p hp
    apply hrest
    rw [← List.mem_reverse, ← hsnd]
    exact List.mem_map_of_mem hp
  refine ⟨hroom, ?_⟩
  refine (swapVms_forM_meets pairs hcap hfull (fun p hp => hout p.1 (List.mem_map_of_mem hp)) hin
    hfstNodup hsndNodup).mono ?_ (fun _ _ _ he => he) (fun hf => hf)
  rintro _ t l ⟨rfl, hmoves, hmem⟩
  refine ⟨rfl, hmoves, pairs.map Prod.fst, hfstNodup, ?_, hout, ?_⟩
  · rw [List.length_map, ← List.length_map Prod.snd, hsnd, List.length_reverse]
  · intro k
    rw [hmem, hsnd, List.mem_reverse]

/-- A request for live VMs, as many as fit, succeeds unless a snapshot fails. -/
theorem ensureVmsInstantiated_served (h : Placement cap s) (hlive : ∀ id ∈ ids, id ∈ s.states)
    (hresume : ∀ id ∈ ids, id ∈ s.suspended → CanResume env s id) (hnodup : ids.Nodup)
    (hlen : ∀ c, cap = some c → ids.length ≤ c) :
    (ensureVmsInstantiated cap env ids s).Meets
      (fun _ t l => l = [] ∧ Served cap env ids s t) (fun e _ _ => SnapshotError env e) False := by
  have hcheck : (checkRequest cap ids.length : SchedulerM μ κ Unit) = pure () := by
    cases cap with
    | none => rfl
    | some c => simp [checkRequest, Nat.not_lt.mpr (hlen c rfl)]
  have hpending : ∀ id ∈ (s.missingVms ids).reverse,
      id ∈ ids ∧ id ∉ s.instantiated ∧ CanResume env s id := by
    intro id hid
    obtain ⟨hids, hnot⟩ := mem_missingVms.mp (List.mem_reverse.mp hid)
    have hsuspended := ((h.cover id).mp (hlive id hids)).resolve_left hnot
    exact ⟨hids, hnot, hresume id hids hsuspended⟩
  have hmnodup : (s.missingVms ids).reverse.Nodup := List.nodup_reverse.mpr (hnodup.filter _)
  obtain ⟨t, filled, rest, hrun, ⟨moves, hmoves⟩, happend, hmem, hsize, hrest, hfull⟩ :=
    resumeWhileRoom_run cap _ hpending hmnodup
  have ht : Placement cap t := (hmoves.keeps h).1
  have hlength : (s.missingVms ids).length = filled.length + rest.length := by
    rw [← List.length_reverse, happend, List.length_append]
  have hdone : ∀ id ∈ ids, id ∈ t.instantiated ∨ id ∈ rest := by
    intro id hid
    rw [hmem]
    by_cases hin : id ∈ s.instantiated
    · exact Or.inl (Or.inl hin)
    · have hor : id ∈ filled ++ rest := by
        rw [← happend, List.mem_reverse]
        exact mem_missingVms.mpr ⟨hid, hin⟩
      exact (List.mem_append.mp hor).imp_left Or.inr
  simp only [ensureVmsInstantiated, hcheck, pure_bind_run, get_bind_run]
  rw [missingVms] at hrun
  rw [bind_of_ok hrun, after_nil]
  by_cases hempty : rest = []
  · subst rest
    refine ⟨rfl, ⟨moves, hmoves⟩, fun id hid => (hdone id hid).resolve_right (by simp), ?_⟩
    intro c hc
    have hbound := ht.bound c hc
    have hnone : evictedVms s t = [] := by
      rw [List.eq_nil_iff_forall_not_mem]
      intro id hid
      obtain ⟨hin, hout⟩ := mem_evictedVms.mp hid
      exact hout ((hmem id).mpr (Or.inl hin))
    rw [hnone, hlength]
    simp only [List.length_nil]
    omega
  · obtain ⟨c, hc, hle⟩ := hfull hempty
    have hsize' : t.instantiated.size = c := (ht.bound c hc).antisymm hle
    have hrnodup : rest.Nodup := (List.nodup_append.mp (happend ▸ hmnodup)).2.1
    have hrmem : ∀ id ∈ rest, id ∈ ids ∧ id ∉ t.instantiated ∧ CanResume env t id := by
      intro id hid
      obtain ⟨hids, hnot, _⟩ := hpending id (happend ▸ List.mem_append_right filled hid)
      refine ⟨hids, ?_, hrest id hid⟩
      rw [hmem]
      rintro (hin | hin)
      · exact hnot hin
      · exact List.disjoint_of_nodup_append (happend ▸ hmnodup) hin hid
    obtain ⟨hroom, hmeets⟩ := swapMissing_meets hc hsize' (hlen c hc) hrmem hrnodup
    simp only [List.isEmpty_eq_false_iff.mpr hempty, Bool.false_eq_true, if_false,
      get_bind_run]
    rw [suspendableVms] at hroom hmeets
    rw [if_neg (Nat.not_lt.mpr hroom)]
    refine hmeets.mono ?_ (fun _ _ _ he => he) (fun hf => hf)
    rintro _ u l ⟨rfl, ⟨moves', hmoves'⟩, out, houtNodup, houtLength, hout, hmem'⟩
    refine ⟨rfl, ⟨_, hmoves.trans hmoves'⟩, ?_, ?_⟩
    · intro id hid
      rw [hmem']
      exact (hdone id hid).imp_left fun hin => ⟨hin, fun hmap => (hout id hmap).2 hid⟩
    · intro c' hc'
      rw [hc, Option.some.injEq] at hc'
      subst hc'
      have hevicted : (evictedVms s u).Perm out := by
        rw [List.perm_ext_iff_of_nodup evictedVms_nodup houtNodup]
        intro id
        rw [mem_evictedVms, hmem', hmem]
        constructor
        · rintro ⟨hid, hnot⟩
          by_contra hkept
          exact hnot (Or.inl ⟨Or.inl hid, hkept⟩)
        · intro hid
          obtain ⟨hidt, hidout⟩ := hout id hid
          have hnot : id ∉ filled := fun hin =>
            hidout (hpending id (happend ▸ List.mem_append_left rest hin)).1
          refine ⟨((hmem id).mp hidt).resolve_right hnot, ?_⟩
          rintro (⟨_, hkept⟩ | hidrest)
          · exact hkept hid
          · exact (hrmem id hidrest).2.1 hidt
      rw [hevicted.length_eq, houtLength, hlength]
      omega

/-- A request in a well-stored scheduler changes nothing but where machines are
held. -/
theorem ensureVmsInstantiated_meets {ids : List VmId} (h : Stored cap env s)
    (hlive : ∀ id ∈ ids, id ∈ s.states) (hnodup : ids.Nodup)
    (hlen : ∀ c, cap = some c → ids.length ≤ c) :
    (ensureVmsInstantiated cap env ids s).Meets
      (fun _ t l => l = [] ∧ Stored cap env t ∧ SameVms env s t ∧
        ∀ id ∈ ids, id ∈ t.instantiated)
      (fun e _ _ => SnapshotError env e) False := by
  apply (ensureVmsInstantiated_served h.placement hlive (fun _ _ hid => h.canResume hid) hnodup
    hlen).mono _ (fun _ _ _ he => he) (fun hf => hf)
  rintro _ t l ⟨rfl, ⟨moves, hmoves⟩, hids, _⟩
  exact ⟨rfl, hmoves.stored h, (hmoves.keeps h.placement).2.1, hids⟩

/-- The contract of a request. In every scheduler whose live VMs are each held in
one place, a request for distinct live VMs, no more than fit, succeeds. It leaves
its VMs instantiated and every VM as it was, and evicts others only for want of
places. -/
theorem ensureVmsInstantiated_contract (env : Env μ κ) (htotal : env.SnapshotsTotal)
    {s : Scheduler μ κ} {ids : List VmId} (h : Placement maxInstantiatedVms s)
    (hresume : ∀ id ∈ ids, id ∈ s.suspended → CanResume env s id)
    (hlive : ∀ id ∈ ids, id ∈ s.states) (hnodup : ids.Nodup)
    (hlen : ∀ c, maxInstantiatedVms = some c → ids.length ≤ c) :
    ∃ t, ensureVmsInstantiated maxInstantiatedVms env ids s = .ok ⟨⟩ t [] ∧
      Placement maxInstantiatedVms t ∧ SameVms env s t ∧ Served maxInstantiatedVms env ids s t := by
  have hmeets := ensureVmsInstantiated_served h hlive hresume hnodup hlen
  cases hrun : ensureVmsInstantiated maxInstantiatedVms env ids s with
  | panic =>
    rw [hrun] at hmeets
    exact hmeets.elim
  | err e t l =>
    rw [hrun] at hmeets
    exact absurd hmeets htotal.no_error
  | ok _ t l =>
    rw [hrun] at hmeets
    obtain ⟨rfl, hserved⟩ := hmeets
    obtain ⟨moves, hmoves⟩ := hserved.relocated
    obtain ⟨hplace, hsame, _⟩ := hmoves.keeps h
    exact ⟨t, rfl, hplace, hsame, hserved⟩

/-- The machine of a scripted guest that has not started. -/
def idleMachine : Machine Ram where
  registers _ := 0
  pc := 0
  memory := Ram.blank
  cycles := 0
  exitCode := 0

/-- Five VMs, of which the last is suspended. -/
def crowded : Scheduler Ram (Cpu Ram) :=
  { (new : Scheduler Ram (Cpu Ram)) with
    nextVmId := 5
    states := [0, 1, 2, 3, 4].foldr (fun id states => states.insert id .runnable) ∅
    instantiated := [0, 1, 2, 3].foldr (fun id machines => machines.insert id idleMachine) ∅
    suspended := (∅ : HashMap VmId (Cpu Ram)).insert 4 idleMachine.toCpu }

/-- The suspended VM takes a place, and the VM that is requested with it keeps its own. -/
theorem ensureVmsInstantiated_contract_crowded : ∃ t,
    ensureVmsInstantiated maxInstantiatedVms (exitEnv 0) [4, 0] crowded = .ok ⟨⟩ t [] ∧
      Placement maxInstantiatedVms t ∧ SameVms (exitEnv 0) crowded t ∧
      Served maxInstantiatedVms (exitEnv 0) [4, 0] crowded t := by
  have hstates : ∀ id, id ∈ crowded.states ↔ id ∈ [0, 1, 2, 3, 4] := by
    intro id
    simp [crowded, @eq_comm _ id]
  have hinstantiated : ∀ id, id ∈ crowded.instantiated ↔ id ∈ [0, 1, 2, 3] := by
    intro id
    simp [crowded, @eq_comm _ id]
  have hsuspended : ∀ id, id ∈ crowded.suspended ↔ id = 4 := by
    intro id
    simp [crowded, @eq_comm _ id]
  have hplace : Placement maxInstantiatedVms crowded := by
    refine ⟨?_, ?_, ?_⟩
    · intro id hid hid'
      rw [hsuspended] at hid'
      subst hid'
      simp [hinstantiated] at hid
    · intro id
      rw [hstates, hinstantiated, hsuspended]
      simp [or_assoc]
    · rintro c ⟨⟩
      decide +kernel
  apply ensureVmsInstantiated_contract (exitEnv 0) (scriptEnv_snapshotsTotal _ _ _ _) hplace
  · intro id _ hid
    rw [hsuspended] at hid
    subst hid
    exact ⟨idleMachine.toCpu, idleMachine.toCpu, by simp [crowded], rfl, rfl⟩
  · intro id hid
    rw [hstates]
    simp only [List.mem_cons, List.not_mem_nil, or_false] at hid
    rcases hid with rfl | rfl
    · simp
    · simp
  · simp
  · rintro c ⟨⟩
    simp

/-- Eviction makes room, given fuel for all instantiated VMs. -/
theorem evictUntilRoom_meets (hcap : ∀ c, cap = some c → 0 < c) (fuel : ℕ)
    (h : Stored cap env s) (hfuel : s.instantiated.size ≤ fuel) :
    (evictUntilRoom cap env fuel s).Meets
      (fun _ t l => l = [] ∧ Stored cap env t ∧ SameVms env s t ∧
        ∀ c, cap = some c → t.instantiated.size < c)
      (fun e _ _ => SnapshotError env e) False := by
  induction fuel generalizing s with
  | zero =>
    refine ⟨rfl, h, SameVms.refl s, ?_⟩
    intro c hc
    have := hcap c hc
    omega
  | succ fuel ih =>
    simp only [evictUntilRoom, get_bind_run]
    by_cases hroom : hasRoom cap s.instantiated.size = true
    · rw [if_pos hroom]
      refine ⟨rfl, h, SameVms.refl s, ?_⟩
      intro c hc
      simpa [hasRoom, hc] using hroom
    · rw [if_neg hroom]
      have hsome : s.instantiated.keys.head?.isSome := by
        rw [← ExtTreeMap.minKey?_eq_head?_keys, ExtTreeMap.isSome_minKey?_iff_ne_empty]
        intro hempty
        cases cap with
        | none => simp [hasRoom] at hroom
        | some c =>
          have := hcap c rfl
          simp only [hasRoom, hempty, ExtTreeMap.size_empty, Option.all_some,
            decide_eq_true_eq] at hroom
          omega
      obtain ⟨id, hid⟩ := Option.isSome_iff_exists.mp hsome
      have hin : id ∈ s.instantiated := ExtTreeMap.mem_keys.mp (List.mem_of_head? hid)
      obtain ⟨m, hm⟩ := mem_iff_getElem?.mp hin
      rw [hid, unwrap_some, pure_bind_run]
      rcases suspendVm_run env hm with ⟨e, hmake, hrun⟩ | ⟨snapshot, hmake, hrun⟩
      · rw [bind_of_err hrun]
        exact ⟨m.toCpu, hmake⟩
      · have hsize := size_evicted snapshot hin
        rw [bind_of_ok hrun, after_nil]
        refine (ih (h.evicted hm hmake) (by omega)).mono ?_ (fun _ _ _ he => he) (fun hf => hf)
        rintro _ t l ⟨rfl, ht, hst, hlt⟩
        exact ⟨rfl, ht, (SameVms.evicted hm hmake).trans hst, hlt⟩

end Scheduler

end DeterministicScheduler
