import DeterministicScheduler.WorkloadRounds

/-!
# How many executions a workload takes

An execution that is not interrupted makes a system call or ends its VM. The calls of a workload
are its operations, so the number of such executions is fixed by the workload.
-/
namespace DeterministicScheduler

open ProgramLogic Program Outcome Std

/-- Whether an event is an execution that its VM ends, by a call or by an exit. -/
def Event.ends {μ : Type} : Event μ → Bool
  | .exec _ _ _ (.ok _) _ => true
  | .exec _ _ _ (.error e) _ => e = .yield
  | _ => false

theorem Event.ends_of_quiet {μ : Type} {ev : Event μ} (h : ev.quiet = true) : ev.ends = false := by
  cases ev with
  | exec => cases h
  | _ => rfl

namespace Scheduler

variable {μ κ : Type} [Memory μ] {env : Env μ κ} {s s' r : Scheduler μ κ} {tr l : List (Event μ)}

/-- Events that neither run a machine nor tell of a message. -/
def Silent (l : List (Event μ)) : Prop :=
  ∀ ev ∈ l, ev.ends = false ∧ ev.message? = none

omit [Memory μ] in
theorem Silent.counts (h : Silent l) :
    l.countP Event.ends = 0 ∧ l.filterMap Event.message? = [] := by
  refine ⟨List.countP_eq_zero.mpr fun ev hev => ?_, List.filterMap_eq_nil_iff.mpr fun ev hev => ?_⟩
  · rw [(h ev hev).1]
    exact Bool.false_ne_true
  · exact (h ev hev).2

theorem Woken.silent {code : Int8} {joiners : List (VmId × UInt64)}
    (h : Woken code joiners s l s') :
    Silent l := by
  induction h with
  | nil => simp [Silent]
  | cons hid hm hcore h ih =>
    intro ev hev
    rcases List.mem_append.mp hev with hev | hev
    · simp only [joinEvents, List.mem_cons, List.not_mem_nil, or_false] at hev
      rcases hev with rfl | rfl <;> exact ⟨rfl, rfl⟩
    · exact ih ev hev

theorem Answer.silent {id : VmId} {m : Machine μ} {msg : Message} (h : Answer env s id m msg l s') :
    Silent l := by
  cases h <;>
    simp [Silent, joinEvents, pipeEvents, spawnEvents, Event.ends, Event.message?]

/-- A step tells of no execution that its VM ends, or of one and of one call, or of one and of
one exit. -/
theorem Step.ends_cases (h : Step env s l s') (hinv : Invariant s) :
    (l.countP Event.ends = 0 ∧ l.filterMap Event.message? = [] ∧
      s'.terminatedVms.size = s.terminatedVms.size) ∨
    (l.countP Event.ends = 1 ∧ (l.filterMap Event.message?).length + s'.terminatedVms.size =
      s.terminatedVms.size + 1) := by
  have hquiet : ∀ {l : List (Event μ)}, Silent l → l.countP Event.ends = 0 ∧
      l.filterMap Event.message? = [] ∧ s.terminatedVms.size = s.terminatedVms.size :=
    fun hl => ⟨hl.counts.1, hl.counts.2, rfl⟩
  have hnot : ∀ {id : VmId}, s.states[id]? = some .runnable → id ∉ s.terminatedVms := fun hid =>
    (hinv.running hid (by simp)).separate _ (mem_iff_getElem?.mpr ⟨_, hid⟩)
  cases h with
  | started => exact .inl (hquiet (by simp [Silent, Event.ends, Event.message?]))
  | @closed id state =>
    refine .inl (hquiet ?_)
    cases state <;> simp [Silent, closedEvents, Event.ends, Event.message?]
  | @transferred rd wr mr mw data =>
    refine .inl (hquiet ?_)
    simp only [transferLog, Write.events]
    split <;> simp [Silent, Event.ends, Event.message?]
  | @interrupted id m e cpu hexec he =>
    have hne : e ≠ .yield := by
      rintro rfl
      exact absurd he (by decide)
    exact .inl (hquiet (by simp [Silent, Event.ends, Event.message?, hne]))
  | answered hexec hid hchecked hanswer =>
    obtain ⟨hends, hmessages⟩ := hanswer.silent.counts
    have hterm : s'.terminatedVms = s.terminatedVms := by
      cases hanswer <;> rfl
    refine .inr ⟨by simp [Event.ends, hends], ?_⟩
    simp [List.filterMap_cons, Event.message?, hmessages, hterm]
    omega
  | exited hexec hne hwoken =>
    obtain ⟨hends, hmessages⟩ := hwoken.silent.counts
    have hframe : _ = s.terminatedVms := hwoken.frame.2.2.2.2.2.1
    have hfresh := hnot hexec.state
    refine .inr ⟨by rw [List.countP_cons_of_pos rfl, hends], ?_⟩
    simp only [purged, hframe, ExtTreeMap.size_insert, ExtTreeMap.contains_iff_mem, if_neg hfresh]
    rw [List.filterMap_cons_none rfl, hmessages, List.length_nil, Nat.zero_add]
  | rootExited hexec =>
    have hfresh := hnot hexec.state
    refine .inr ⟨rfl, ?_⟩
    simp only [completed, ran, ExtTreeMap.size_insert, ExtTreeMap.contains_iff_mem, if_neg hfresh]
    rw [List.filterMap_cons_none rfl, List.filterMap_nil, List.length_nil, Nat.zero_add]

/-- In a run the executions that their VMs end are as many as the calls and the exits. -/
theorem Run.ends (h : Run env tr r) :
    tr.countP Event.ends = (tr.filterMap Event.message?).length + r.terminatedVms.size := by
  refine (h.keeps (I := fun tr r => Invariant r ∧
    tr.countP Event.ends = (tr.filterMap Event.message?).length + r.terminatedVms.size) ?_ ?_).2
  · exact fun charge machine _ => ⟨booted_invariant machine, rfl⟩
  · rintro tr r l r' ⟨hinv, hr⟩ hstep
    refine ⟨hstep.invariant hinv, ?_⟩
    rw [List.countP_append, List.filterMap_append, List.length_append]
    rcases hstep.ends_cases hinv with ⟨hends, hmessages, hsize⟩ | ⟨hends, hsize⟩
    · rw [hends, hmessages, hsize, List.length_nil]
      omega
    · omega

/-- A round that goes through has one such execution. -/
theorem iterate_ends (hinv : Invariant s) (hrun : Running s) {pause : Pause}
    {limitCycles consumedCycles : ℕ}
    (h : iterate none env pause limitCycles s = .ok consumedCycles s' l) :
    l.countP Event.ends = 1 := by
  have hmeets : (iterate none env pause limitCycles s).Meets _ _ _ :=
    iterate_ran hinv hrun pause limitCycles
  rw [h] at hmeets
  obtain ⟨id, m, result, cpu, -, hresult, s₁, l₁, l₂, posted, hio, hpass, -, hstep, rfl⟩ := hmeets
  have hinv₁ := Steps.invariant hpass.steps hinv
  have hends : (Event.exec id m.toCpu cpu result posted : Event μ).ends = true := by
    rcases hresult with hok | rfl
    · cases result with
      | ok code => rfl
      | error e => cases hok
    · rfl
  have hquiet : l₁.countP Event.ends = 0 := by
    refine List.countP_eq_zero.mpr fun ev hev => ?_
    rw [Event.ends_of_quiet (hpass.quiet ev hev)]
    exact Bool.false_ne_true
  have hone : (Event.exec id m.toCpu cpu result posted :: l₂).countP Event.ends = 1 := by
    rcases hstep.ends_cases hinv₁ with ⟨hzero, -⟩ | ⟨hone, -⟩
    · rw [List.countP_cons_of_pos hends] at hzero
      cases hzero
    · exact hone
  rw [List.countP_cons_of_neg Bool.false_ne_true, List.countP_append, hquiet, hone]

/-- Every VM that has exited was booted. -/
theorem Step.terminated_lt (h : Step env s l s') (hinv : Invariant s)
    (hlt : ∀ v, v ∈ s.terminatedVms → v < s.nextVmId) (v : VmId) (hv : v ∈ s'.terminatedVms) :
    v < s'.nextVmId := by
  have hrun := h.running hinv
  refine UInt64.lt_of_lt_of_le ?_ (h.nextVmId_le hinv)
  have hlive : ∀ {id : VmId}, s.states[id]? = some .runnable → id < s.nextVmId := fun hid =>
    (hrun.accounted _).mpr (.inl (mem_iff_getElem?.mpr ⟨_, hid⟩))
  cases h with
  | answered hexec hid hchecked hanswer =>
    refine hlt v ?_
    cases hanswer <;> exact hv
  | exited hexec hne hwoken =>
    have hframe : _ = s.terminatedVms := hwoken.frame.2.2.2.2.2.1
    simp only [purged, hframe] at hv
    rcases mem_insert.mp hv with rfl | hv
    · exact hlive hexec.state
    · exact hlt v hv
  | rootExited hexec =>
    rcases mem_insert.mp hv with rfl | hv
    · exact hlive hexec.state
    · exact hlt v hv
  | _ => exact hlt v hv

theorem Run.terminated_lt (h : Run env tr r) (v : VmId) (hv : v ∈ r.terminatedVms) :
    v < r.nextVmId := by
  have hkeeps : Invariant r ∧ ∀ v, v ∈ r.terminatedVms → v < r.nextVmId := by
    refine h.keeps (I := fun _ r => Invariant r ∧ ∀ v, v ∈ r.terminatedVms → v < r.nextVmId) ?_ ?_
    · intro charge machine _
      exact ⟨booted_invariant machine, by simp [booted, new]⟩
    · rintro tr r l r' ⟨hinv, hlt⟩ hstep
      exact ⟨hstep.invariant hinv, hstep.terminated_lt hinv hlt⟩
  exact hkeeps.2 v hv

end Scheduler

namespace DataGraph

open Scheduler

/-- The elements of a list, counted by an index that each of them has. -/
theorem sum_fibers {α : Type} (f : α → ℕ) {n : ℕ} {l : List α} (h : ∀ x ∈ l, f x ≤ n) :
    ∑ i ∈ Finset.range (n + 1), (l.filter fun x => f x = i).length = l.length := by
  induction l with
  | nil => simp
  | cons x l ih =>
    have hx : f x ∈ Finset.range (n + 1) := Finset.mem_range_succ_iff.mpr (h x (by simp))
    have hcount : ∀ i, ((x :: l).filter fun x => f x = i).length =
        (l.filter fun x => f x = i).length + if f x = i then 1 else 0 := by
      intro i
      by_cases hi : f x = i <;> simp [hi]
    simp only [hcount, Finset.sum_add_distrib, Finset.sum_ite_eq, if_pos hx,
      ih fun y hy => h y (by simp [hy]), List.length_cons]

/-- Elements of different indices up to `n` are at most `n + 1`, and as many when every index
is there. -/
theorem length_of_index {α : Type} {f : α → ℕ} {n : ℕ} {l : List α} (hl : (l.map f).Nodup)
    (h : ∀ x ∈ l, f x ≤ n) :
    l.length ≤ n + 1 ∧ ((∀ i ≤ n, ∃ x ∈ l, f x = i) → l.length = n + 1) := by
  have hsub : ∀ i ∈ l.map f, i ∈ List.range (n + 1) := by
    intro i hi
    obtain ⟨x, hx, rfl⟩ := List.mem_map.mp hi
    exact List.mem_range.mpr (Nat.lt_succ_of_le (h x hx))
  have hle := (hl.subperm hsub).length_le
  rw [List.length_map, List.length_range] at hle
  refine ⟨hle, fun honto => ?_⟩
  have hsub' : ∀ i ∈ List.range (n + 1), i ∈ l.map f := by
    intro i hi
    obtain ⟨x, hx, heq⟩ := honto i (Nat.le_of_lt_succ (List.mem_range.mp hi))
    exact List.mem_map.mpr ⟨x, hx, heq⟩
  have hge := (List.nodup_range.subperm hsub').length_le
  rw [List.length_map, List.length_range] at hge
  omega

variable {κ : Type} {env : Env GuestMemory κ} {data : Data} {P : Progress}
  {tr l : List (Event GuestMemory)} {s s' : Scheduler GuestMemory κ} {i n : ℕ} {v : VmId}

namespace Wired

variable (hw : Wired n data)

include hw

theorem spawns_length : data.spawns.length = n := by
  have hne : ∀ sp ∈ data.spawns, sp.child ≠ 0 := by
    intro sp hsp
    have holder := (hw.older sp hsp).1
    omega
  have hnodup : ((0 :: data.spawns.map Spawn.child).map id).Nodup := by
    rw [List.map_id, List.nodup_cons]
    refine ⟨fun hmem => ?_, hw.children⟩
    obtain ⟨sp, hsp, hzero⟩ := List.mem_map.mp hmem
    exact hne sp hsp hzero
  have hle : ∀ i ∈ 0 :: data.spawns.map Spawn.child, id i ≤ n := by
    intro i hi
    rcases List.mem_cons.mp hi with rfl | hi
    · exact Nat.zero_le n
    · obtain ⟨sp, hsp, rfl⟩ := List.mem_map.mp hi
      exact (hw.older sp hsp).2
  have hcount := (length_of_index hnodup hle).2 ?_
  · rw [List.length_cons, List.length_map] at hcount
    omega
  · intro i hi
    by_cases hzero : i = 0
    · exact ⟨0, by simp, hzero.symm⟩
    · obtain ⟨sp, hsp, rfl⟩ := hw.spawned i (Nat.pos_of_ne_zero hzero) hi
      exact ⟨sp.child, List.mem_cons_of_mem _ (List.mem_map_of_mem hsp), rfl⟩

theorem pipes_length : data.pipes.length = data.writes.length := by
  have hnodup : (data.writes.map Write.toPipe).Nodup := by
    refine hw.writes_nodup.map_on fun w hmem w' hmem' heq => ?_
    exact hw.write_eq hmem hmem' (.inr rfl) (.inr heq)
  have hperm : (data.pipes.map Pipe.readPipe).Perm (data.writes.map Write.toPipe) := by
    rw [List.perm_ext_iff_of_nodup hw.pipes hnodup]
    intro q
    simp only [List.mem_map]
    constructor
    · rintro ⟨p, hp, rfl⟩
      obtain ⟨w, hmem, hread, -⟩ := hw.paired p hp
      exact ⟨w, hmem, hread.symm⟩
    · rintro ⟨w, hmem, rfl⟩
      obtain ⟨p, hp, hread, -⟩ := hw.created w hmem
      exact ⟨p, hp, hread⟩
  have hlength := hperm.length_eq
  rwa [List.length_map, List.length_map] at hlength

/-- Each end of a write moves it. -/
theorem moves_length (i : ℕ) : (moves i data.writes).length =
    (data.writes.filter fun w => w.fromVm = i).length +
      (data.writes.filter fun w => w.toVm = i).length := by
  rw [moves, List.length_map]
  simp only [Bool.decide_or]
  have hends : ∀ w ∈ data.writes, w.fromVm ≠ w.toVm := fun w hmem => (hw.ends w hmem).1
  generalize data.writes = writes at hends
  induction writes with
  | nil => rfl
  | cons w writes ih =>
    have hne := hends w (by simp)
    have hrest := ih fun w hmem => hends w (by simp [hmem])
    by_cases hfrom : w.fromVm = i
    · have hto : w.toVm ≠ i := fun hto => hne (hfrom.trans hto.symm)
      simp [hfrom, hto, hrest]
      omega
    · by_cases hto : w.toVm = i
      · simp [hfrom, hto, hrest]
        omega
      · simp [hfrom, hto, hrest]

/-- Each write takes a pipe, a write and a read, and each VM but the root a spawn and a join. -/
theorem ops_length :
    ∑ i ∈ Finset.range (n + 1), (ops i data).length = 3 * data.writes.length + 2 * n := by
  have hsplit : ∀ i, (ops i data).length = (data.pipes.filter fun p => p.vm = i).length +
      (2 * (data.spawns.filter fun sp => sp.fromVm = i).length +
        ((data.writes.filter fun w => w.fromVm = i).length +
          (data.writes.filter fun w => w.toVm = i).length)) := by
    intro i
    rw [← hw.moves_length i]
    simp only [ops, afterPipes, afterSpawns, afterWrites, creates, spawnsFrom, joins, childrenOf,
      List.length_append, List.length_map, List.length_reverse]
    omega
  have hfrom : ∀ sp ∈ data.spawns, sp.fromVm ≤ n := by
    intro sp hsp
    have holder := hw.older sp hsp
    omega
  simp only [hsplit, Finset.sum_add_distrib, ← Finset.mul_sum]
  rw [sum_fibers _ hw.creators, sum_fibers _ hfrom,
    sum_fibers _ fun w hmem => (hw.ends w hmem).2.1,
    sum_fibers _ fun w hmem => (hw.ends w hmem).2.2, hw.pipes_length, hw.spawns_length]
  omega

end Wired

section Counts

variable (hu : Underway n data P tr s)

include hu

/-- An index for every VM that was booted. -/
theorem Underway.exists_index :
    ∃ index : VmId → ℕ, ∀ v, v < s.nextVmId → index v ≤ n ∧ P.vm (index v) = some v := by
  have hcovered : ∀ v : VmId, ∃ i, v < s.nextVmId → i ≤ n ∧ P.vm i = some v := by
    intro v
    by_cases hv : v < s.nextVmId
    · obtain ⟨i, hi⟩ := hu.attends.covered v hv
      exact ⟨i, fun _ => ⟨(hu.attends.known i v hi).1, hi⟩⟩
    · exact ⟨0, fun h => absurd h hv⟩
  choose index hindex using hcovered
  exact ⟨index, hindex⟩

theorem Underway.sender_lt {msg : Message} (hmsg : msg ∈ tr.filterMap Event.message?) :
    msg.vmId < s.nextVmId := by
  by_contra hnot
  have hnone := (hu.fresh msg.vmId (UInt64.not_lt.mp hnot)).1
  have hmem : msg ∈ sentBy msg.vmId tr := List.mem_filter.mpr ⟨hmsg, by simp⟩
  rw [hnone] at hmem
  cases hmem

/-- A VM makes the calls of its operations, all of them when none is left. -/
theorem Underway.sent_length (hi : P.vm i = some v) :
    (sentBy v tr).length ≤ (ops i data).length ∧
      (P.left i = [] → (sentBy v tr).length = (ops i data).length) := by
  obtain ⟨done, hops, hasked⟩ := (hu.follows i v hi).asked
  have hlength := hasked.length_eq
  rw [List.length_append] at hlength
  obtain ⟨todo, htodo⟩ := pending_append s.states[v]? (P.left i)
  have hpending := congrArg List.length htodo
  rw [List.length_append] at hpending
  rw [hops, List.length_append]
  refine ⟨by omega, fun hleft => ?_⟩
  have hnil : (P.left i).length = 0 := by rw [hleft, List.length_nil]
  omega

/-- One VM is booted for each index when all are. -/
theorem Underway.booted_length (hall : ∀ i ≤ n, P.vm i ≠ none) : s.nextVmId.toNat = n + 1 := by
  obtain ⟨index, hindex⟩ := hu.exists_index
  have hvm : ∀ k ∈ List.range s.nextVmId.toNat, (UInt64.ofNat k).toNat = k ∧
      index (UInt64.ofNat k) ≤ n ∧ P.vm (index (UInt64.ofNat k)) = some (UInt64.ofNat k) := by
    intro k hk
    have hlt := List.mem_range.mp hk
    have hnat : (UInt64.ofNat k).toNat = k :=
      UInt64.toNat_ofNat_of_lt' (hlt.trans s.nextVmId.toNat_lt)
    exact ⟨hnat, hindex _ (UInt64.lt_iff_toNat_lt.mpr (by omega))⟩
  have hnodup : ((List.range s.nextVmId.toNat).map fun k => index (UInt64.ofNat k)).Nodup := by
    refine List.nodup_range.map_on fun k hk k' hk' heq => ?_
    obtain ⟨hnat, -, hi⟩ := hvm k hk
    obtain ⟨hnat', -, hi'⟩ := hvm k' hk'
    have hsame : UInt64.ofNat k = UInt64.ofNat k' := by
      rw [heq, hi'] at hi
      exact (Option.some.inj hi).symm
    rw [← hnat, ← hnat', hsame]
  have hcount := (length_of_index hnodup fun k hk => (hvm k hk).2.1).2 fun i hi => ?_
  · rw [← hcount, List.length_range]
  · obtain ⟨v, hv⟩ := Option.ne_none_iff_exists'.mp (hall i hi)
    have hlt := (hu.attends.known i v hv).2
    have hk : v.toNat ∈ List.range s.nextVmId.toNat :=
      List.mem_range.mpr (UInt64.lt_iff_toNat_lt.mp hlt)
    refine ⟨v.toNat, hk, ?_⟩
    have hi' := (hvm v.toNat hk).2.2
    rw [UInt64.ofNat_toNat] at hi' ⊢
    exact hu.attends.distinct _ _ _ hi' hv

variable (hw : Wired n data)

include hw

theorem Underway.messages_length :
    (tr.filterMap Event.message?).length ≤ 3 * data.writes.length + 2 * n ∧
      ((∀ i ≤ n, P.left i = [] ∧ P.vm i ≠ none) →
        (tr.filterMap Event.message?).length = 3 * data.writes.length + 2 * n) := by
  obtain ⟨index, hindex⟩ := hu.exists_index
  have hfiber : ∀ (i : ℕ) (v : VmId), P.vm i = some v →
      ((tr.filterMap Event.message?).filter fun msg => index msg.vmId = i) = sentBy v tr := by
    intro i v hi
    refine List.filter_congr fun msg hmsg => ?_
    obtain ⟨-, hvm⟩ := hindex msg.vmId (hu.sender_lt hmsg)
    rw [decide_eq_decide]
    constructor
    · rintro rfl
      exact Option.some.inj (hvm.symm.trans hi)
    · rintro rfl
      exact hu.attends.distinct _ _ _ hvm hi
  have hnone : ∀ i, P.vm i = none →
      ((tr.filterMap Event.message?).filter fun msg => index msg.vmId = i) = [] := by
    intro i hi
    refine List.filter_eq_nil_iff.mpr fun msg hmsg heq => ?_
    obtain ⟨-, hvm⟩ := hindex msg.vmId (hu.sender_lt hmsg)
    rw [of_decide_eq_true heq, hi] at hvm
    cases hvm
  have hbound : ∀ msg ∈ tr.filterMap Event.message?, index msg.vmId ≤ n := fun msg hmsg =>
    (hindex msg.vmId (hu.sender_lt hmsg)).1
  rw [← sum_fibers (fun msg : Message => index msg.vmId) hbound, ← hw.ops_length]
  constructor
  · refine Finset.sum_le_sum fun i _ => ?_
    cases hi : P.vm i with
    | none => simp [hnone i hi]
    | some v =>
      rw [hfiber i v hi]
      exact (hu.sent_length hi).1
  · intro hdone
    refine Finset.sum_congr rfl fun i hmem => ?_
    obtain ⟨hleft, hborn⟩ := hdone i (Nat.le_of_lt_succ (Finset.mem_range.mp hmem))
    obtain ⟨v, hi⟩ := Option.ne_none_iff_exists'.mp hborn
    rw [hfiber i v hi]
    exact (hu.sent_length hi).2 hleft

omit hw in
theorem Underway.exits_length (hlt : ∀ v, v ∈ s.terminatedVms → v < s.nextVmId) :
    s.terminatedVms.size ≤ n + 1 ∧
      ((∀ i ≤ n, ∃ v ∈ s.terminatedVms, P.vm i = some v) → s.terminatedVms.size = n + 1) := by
  obtain ⟨index, hindex⟩ := hu.exists_index
  have hvm : ∀ v ∈ s.terminatedVms.keys, index v ≤ n ∧ P.vm (index v) = some v := fun v hv =>
    hindex v (hlt v (ExtTreeMap.mem_keys.mp hv))
  have hnodup : (s.terminatedVms.keys.map index).Nodup := by
    refine ExtTreeMap.nodup_keys.map_on fun v hv v' hv' heq => ?_
    have hsame := (hvm v hv).2
    rw [heq, (hvm v' hv').2] at hsame
    exact (Option.some.inj hsame).symm
  have hcount := length_of_index hnodup fun v hv => (hvm v hv).1
  rw [ExtTreeMap.length_keys] at hcount
  refine ⟨hcount.1, fun honto => hcount.2 fun i hi => ?_⟩
  obtain ⟨v, hv, hvi⟩ := honto i hi
  have hkey := ExtTreeMap.mem_keys.mpr hv
  exact ⟨v, hkey, hu.attends.distinct _ _ _ (hvm v hkey).2 hvi⟩

end Counts

end DataGraph

end DeterministicScheduler
