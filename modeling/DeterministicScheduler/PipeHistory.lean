import DeterministicScheduler.Accounting
import DeterministicScheduler.Logic.Custody
import DeterministicScheduler.Ownership
import DeterministicScheduler.Streams

/-!
# How a pipe came to its owner

The log of a run tells who owns a pipe: the VM that made it, until it spawned
another VM with it, and so on down the spawns. A VM puts a pipe to use only while
it is the last in this line. Both ends of a pipe begin with one maker, so two VMs
exchange bytes only through a pair that a VM they both descend from made.
-/
namespace DeterministicScheduler

open ProgramLogic Program Outcome Std

variable {μ κ : Type}

namespace Event

/-- The VM that makes a pair of pipes. -/
def makes? : Event μ → Option VmId
  | message (.pipe id _) => some id
  | _ => none

/-- The pipes that a spawn passes on, if the event after it boots the VM. -/
def handover? : Event μ → Option (Event μ) → Option (Handover VmId PipeId)
  | message (.spawn id args), some (boot spawned _) => some ⟨id, spawned, args.pipes⟩
  | _, _ => none

/-- The pipes put to use, each with the VM that does so: one it waits on, or the
two ends of a transfer. -/
def uses : Event μ → List (PipeId × VmId)
  | block id state => state.waiting?.toList.map fun p => (p, id)
  | transfer readVmId writeVmId writePipe _ =>
    [(writePipe.otherPipe, readVmId), (writePipe, writeVmId)]
  | _ => []

end Event

namespace Scheduler

variable {env : Env μ κ} {s s' r : Scheduler μ κ} {tr l : List (Event μ)} {p : PipeId}
  {v id : VmId}

def handovers : List (Event μ) → List (Handover VmId PipeId)
  | [] => []
  | ev :: l => (ev.handover? l.head?).toList ++ handovers l

def pipeMakers (tr : List (Event μ)) : List VmId :=
  tr.filterMap Event.makes?

/-- The VM that made a pipe. Pairs are numbered in the order they are made. -/
def pipeMaker (tr : List (Event μ)) (p : PipeId) : Option VmId :=
  if p < firstPipeSlot then none else (pipeMakers tr)[(p.toNat - 2) / 2]?

/-- The last VM that a pipe was passed on to. -/
def pipeHolder (tr : List (Event μ)) (p : PipeId) : Option VmId :=
  (pipeMaker tr p).map fun maker => holderOf p maker (handovers tr)

/-- How `v` came to hold a pipe of `maker`: from hand to hand, past VMs that all
passed it on and are older than `v`. -/
structure Custody (tr : List (Event μ)) (p : PipeId) (maker v : VmId) : Prop where
  made : pipeMaker tr p = some maker
  holds : pipeHolder tr p = some v
  handed : Relation.ReflTransGen (Gives (handovers tr) p) maker v
  givers : ∀ a b, Gives (handovers tr) p a b → a < v

theorem handover?_of_unbooted {ev : Event μ} {next : Option (Event μ)}
    (hnext : ∀ ev' ∈ next, ev'.booted? = none) : ev.handover? next = none := by
  unfold Event.handover?
  split
  · simp [Event.booted?] at hnext
  · rfl

/-- A log that does not begin with a boot adds its own handovers. -/
theorem handovers_append (hl : ∀ ev ∈ l.head?, ev.booted? = none) :
    handovers (tr ++ l) = handovers tr ++ handovers l := by
  induction tr with
  | nil => rfl
  | cons ev tr ih =>
    rw [List.cons_append, handovers, handovers, ih, List.append_assoc]
    by_cases htr : tr = []
    · subst htr
      have hnone : ev.handover? ([] : List (Event μ)).head? = none :=
        handover?_of_unbooted (by simp)
      rw [List.nil_append, handover?_of_unbooted hl, hnone]
    · rw [List.head?_append_of_ne_nil _ htr]

theorem handovers_extend (tr l : List (Event μ)) : handovers tr <+: handovers (tr ++ l) := by
  induction tr with
  | nil => exact List.nil_prefix
  | cons ev tr ih =>
    rw [List.cons_append, handovers, handovers]
    by_cases htr : tr = []
    · subst htr
      have hnone : ev.handover? ([] : List (Event μ)).head? = none :=
        handover?_of_unbooted (by simp)
      rw [hnone]
      exact List.nil_prefix
    · rw [List.head?_append_of_ne_nil _ htr]
      exact (List.prefix_append_right_inj _).mpr ih

/-- Events that make no pipe and boot no VM. -/
def Inert (l : List (Event μ)) : Prop :=
  ∀ ev ∈ l, ev.makes? = none ∧ ev.booted? = none

theorem Inert.makers (h : Inert l) : pipeMakers l = [] :=
  List.filterMap_eq_nil_iff.mpr fun ev hev => (h ev hev).1

/-- Without a boot there is no handover. -/
theorem handovers_of_unbooted (hl : ∀ ev ∈ l, ev.booted? = none) :
    handovers (tr ++ l) = handovers tr := by
  have hnone : handovers l = [] := by
    induction l with
    | nil => rfl
    | cons ev l ih =>
      have hnext : ∀ ev' ∈ l.head?, ev'.booted? = none := fun ev' hev =>
        hl ev' (List.mem_cons_of_mem _ (List.mem_of_mem_head? hev))
      rw [handovers, ih fun ev' hev => hl ev' (List.mem_cons_of_mem _ hev),
        handover?_of_unbooted hnext]
      rfl
  rw [handovers_append fun ev hev => hl ev (List.mem_of_mem_head? hev), hnone, List.append_nil]

theorem pipeMakers_append (tr l : List (Event μ)) :
    pipeMakers (tr ++ l) = pipeMakers tr ++ pipeMakers l :=
  List.filterMap_append

theorem Inert.maker (h : Inert l) : pipeMaker (tr ++ l) p = pipeMaker tr p := by
  rw [pipeMaker, pipeMakers_append, h.makers, List.append_nil, pipeMaker]

theorem Inert.append_handovers (h : Inert l) : handovers (tr ++ l) = handovers tr :=
  handovers_of_unbooted fun ev hev => (h ev hev).2

theorem Inert.holder (h : Inert l) : pipeHolder (tr ++ l) p = pipeHolder tr p := by
  rw [pipeHolder, h.maker, h.append_handovers, pipeHolder]

/-- A pipe keeps its maker. -/
theorem pipeMaker_append (h : pipeMaker tr p = some v) : pipeMaker (tr ++ l) p = some v := by
  rw [pipeMaker] at h ⊢
  split at h
  · cases h
  · rename_i hp
    have hlt := (List.getElem?_eq_some_iff.mp h).1
    rw [if_neg hp, pipeMakers_append, List.getElem?_append_left hlt, h]

/-- Both ends of a pair have one maker. -/
theorem pipeMaker_otherPipe (tr : List (Event μ)) (p : PipeId) :
    pipeMaker tr p.otherPipe = pipeMaker tr p := by
  have hxor : p.otherPipe.toNat = p.toNat ^^^ 1 := by simp [PipeId.otherPipe]
  have hdiv : p.otherPipe.toNat / 2 = p.toNat / 2 := by
    rw [hxor, Nat.xor_div_two]
    simp
  have hlt : p.otherPipe < firstPipeSlot ↔ p < firstPipeSlot := by
    rw [UInt64.lt_iff_toNat_lt, UInt64.lt_iff_toNat_lt]
    show p.otherPipe.toNat < 2 ↔ p.toNat < 2
    omega
  have hindex : (p.otherPipe.toNat - 2) / 2 = (p.toNat - 2) / 2 := by omega
  simp only [pipeMaker, hlt, hindex]

/-- What the log of a run tells of the pipes in the state it leads to. -/
structure Lineage (tr : List (Event μ)) (s : Scheduler μ κ) : Prop where
  slot : s.nextPipeSlot.toNat = 2 + 2 * (pipeMakers tr).length
  makers : ∀ v ∈ pipeMakers tr, v < s.nextVmId
  ordered : ∀ h ∈ handovers tr, h.giver < h.taker ∧ h.taker < s.nextVmId ∧
    ∀ p ∈ h.things, p < s.nextPipeSlot
  orderly : ∀ (p : PipeId) (v : VmId), pipeMaker tr p = some v → Orderly p v (handovers tr)
  owner : s.states[rootVmId]? ≠ some .terminated → ∀ (p : PipeId) (v : VmId),
    s.pipes[p]? = some v ↔ pipeHolder tr p = some v ∧ v ∈ s.states
  used : Throughout (fun h ev => ∀ u ∈ ev.uses, pipeHolder h u.1 = some u.2) tr

theorem pipeMaker_mem (h : pipeMaker tr p = some v) : v ∈ pipeMakers tr := by
  rw [pipeMaker] at h
  split at h
  · cases h
  · exact List.mem_of_getElem? h

namespace Lineage

theorem holder_lt (h : Lineage tr s) (hv : pipeHolder tr p = some v) : v < s.nextVmId := by
  obtain ⟨maker, hmaker, rfl⟩ := Option.map_eq_some_iff.mp hv
  refine holderOf_of_all (P := fun v => v < s.nextVmId) (h.makers maker (pipeMaker_mem hmaker)) ?_
  exact fun h' hmem => (h.ordered h' hmem).2.1

/-- Who holds a pipe at some point of a run came to hold it from its maker. -/
theorem custody (h : Lineage (tr ++ l) s) (hv : pipeHolder tr p = some v) :
    ∃ maker, Custody tr p maker v := by
  obtain ⟨maker, hmaker, rfl⟩ := Option.map_eq_some_iff.mp hv
  obtain ⟨hs, hmore⟩ := handovers_extend tr l
  have horder : Orderly p maker (handovers tr) :=
    (hmore ▸ h.orderly p maker (pipeMaker_append hmaker)).of_append
  have hlt : ∀ h' ∈ handovers tr, h'.giver < h'.taker := fun h' hmem =>
    (h.ordered h' (hmore ▸ List.mem_append_left _ hmem)).1
  have htrans : IsTrans VmId (· < ·) := ⟨fun _ _ _ => UInt64.lt_trans⟩
  exact ⟨maker, hmaker, hv, horder.handed, fun a b hgives => horder.giver_before hlt hgives⟩

/-- Events that make no pipe and boot no VM, while pipes are only closed. -/
theorem inert (h : Lineage tr s) (hrun : Running s) (hl : Inert l)
    (hvm : s'.nextVmId = s.nextVmId) (hslot : s'.nextPipeSlot = s.nextPipeSlot)
    (hlive : ∀ v, v ∈ s'.states → v ∈ s.states)
    (hpipes : s'.states[rootVmId]? ≠ some .terminated → ∀ (p : PipeId) (v : VmId),
      s'.pipes[p]? = some v ↔ s.pipes[p]? = some v ∧ v ∈ s'.states)
    (huses : ∀ ev ∈ l, ∀ u ∈ ev.uses, s.pipes[u.1]? = some u.2) : Lineage (tr ++ l) s' := by
  have howner := h.owner hrun.root_state
  refine ⟨?_, ?_, ?_, ?_, ?_, throughout_append.mpr ⟨h.used, ?_⟩⟩
  · rw [hslot, pipeMakers_append, hl.makers, List.append_nil, h.slot]
  · rw [hvm, pipeMakers_append, hl.makers, List.append_nil]
    exact h.makers
  · rw [hvm, hslot, hl.append_handovers]
    exact h.ordered
  · intro p v hmaker
    rw [hl.maker] at hmaker
    rw [hl.append_handovers]
    exact h.orderly p v hmaker
  · intro hroot p v
    rw [hpipes hroot, howner, hl.holder, and_assoc, and_congr_right_iff]
    exact fun _ => ⟨fun hv => hv.2, fun hv => ⟨hlive v hv, hv⟩⟩
  · intro before ev after heq u hu
    subst heq
    have hbefore : Inert before := fun ev' hev => hl ev' (List.mem_append_left _ hev)
    rw [hbefore.holder]
    exact ((howner u.1 u.2).mp (huses ev (by simp) u hu)).1

/-- The pipes and the VMs stay as they are. -/
theorem kept (h : Lineage tr s) (hrun : Running s) (hl : Inert l)
    (hvm : s'.nextVmId = s.nextVmId) (hslot : s'.nextPipeSlot = s.nextPipeSlot)
    (hlive : ∀ v, v ∈ s'.states ↔ v ∈ s.states) (hpipes : s'.pipes = s.pipes)
    (huses : ∀ ev ∈ l, ∀ u ∈ ev.uses, s.pipes[u.1]? = some u.2) : Lineage (tr ++ l) s' := by
  refine h.inert hrun hl hvm hslot (fun v => (hlive v).mp) (fun _ p v => ?_) huses
  rw [hpipes, hlive]
  exact ⟨fun hp => ⟨hp, (hrun.owner p v hp).2.2⟩, And.left⟩

/-- A log that puts no pipe to use leaves the uses as they are. -/
theorem used_append (h : Lineage tr s) (hl : ∀ ev ∈ l, ev.uses = []) :
    Throughout (fun h ev => ∀ u ∈ ev.uses, pipeHolder h u.1 = some u.2) (tr ++ l) := by
  refine throughout_append.mpr ⟨h.used, ?_⟩
  intro before ev after heq u hu
  subst heq
  rw [hl ev (by simp)] at hu
  cases hu

/-- A pipe call makes the pair of the next slot. -/
theorem maker_piped {slot : UInt64} (hslot : slot.toNat = 2 + 2 * (pipeMakers tr).length)
    (hlt : slot.toNat + 2 < 2 ^ 64) (hmakers : pipeMakers l = [id]) (p : PipeId) :
    pipeMaker (tr ++ l) p = if p = slot ∨ p = slot + 1 then some id else pipeMaker tr p := by
  have hone := toNat_add_one hlt
  have hnew : (p = slot ∨ p = slot + 1) ↔ 2 ≤ p.toNat ∧ (p.toNat - 2) / 2 =
      (pipeMakers tr).length := by
    rw [← UInt64.toNat_inj, ← UInt64.toNat_inj, hone]
    omega
  have hlow : p < firstPipeSlot ↔ p.toNat < 2 := UInt64.lt_iff_toNat_lt
  rw [pipeMaker, pipeMaker, pipeMakers_append, hmakers]
  simp only [hlow, hnew]
  by_cases hp : p.toNat < 2
  · rw [if_pos hp, if_neg (by omega), if_pos hp]
  · rw [if_neg hp, if_neg hp, List.getElem?_append]
    split
    · rw [if_neg (by omega)]
    · rename_i hle
      by_cases heq : (p.toNat - 2) / 2 = (pipeMakers tr).length
      · rw [if_pos ⟨by omega, heq⟩, heq, Nat.sub_self]
        rfl
      · rw [if_neg fun hboth => heq hboth.2, List.getElem?_eq_none (by simp; omega),
          List.getElem?_eq_none (by omega)]

/-- A new pair of pipes is with its maker. -/
theorem piped (h : Lineage tr s) (hrun : Running s) (hv : id ∈ s.states) (hfresh : id < s.nextVmId)
    {p1 p2 : PipeId} (hcreate : PipeId.create s.nextPipeSlot = some (p1, p2, s'.nextPipeSlot))
    (hmakers : pipeMakers l = [id]) (hbooted : ∀ ev ∈ l, ev.booted? = none)
    (huses : ∀ ev ∈ l, ev.uses = []) (hvm : s'.nextVmId = s.nextVmId)
    (hlive : ∀ v, v ∈ s'.states ↔ v ∈ s.states)
    (hpipes : s'.pipes = (s.pipes.insert p1 id).insert p2 id) : Lineage (tr ++ l) s' := by
  have howner := h.owner hrun.root_state
  obtain ⟨rfl, rfl, hnext, hlt⟩ := create_eq_some hcreate
  have hmaker := maker_piped h.slot hlt hmakers
  have hhandovers : handovers (tr ++ l) = handovers tr := handovers_of_unbooted hbooted
  have hkept : ∀ q : PipeId, q = s.nextPipeSlot ∨ q = s.nextPipeSlot + 1 →
      ∀ h' ∈ handovers tr, q ∉ h'.things := by
    intro q hq h' hmem hin
    have hold := (h.ordered h' hmem).2.2 q hin
    obtain ⟨hone, hzero⟩ := ne_of_lt_slot hlt hold
    exact hq.elim hzero hone
  have hholder : ∀ q : PipeId, pipeHolder (tr ++ l) q =
      if q = s.nextPipeSlot ∨ q = s.nextPipeSlot + 1 then some id else pipeHolder tr q := by
    intro q
    rw [pipeHolder, hmaker, hhandovers, pipeHolder]
    split
    · rename_i hq
      rw [Option.map_some, holderOf_of_kept (hkept q hq)]
    · rfl
  have hget : ∀ q : PipeId, s'.pipes[q]? =
      if q = s.nextPipeSlot ∨ q = s.nextPipeSlot + 1 then some id else s.pipes[q]? := by
    intro q
    rw [hpipes, getElem?_insert, getElem?_insert]
    by_cases hone : q = s.nextPipeSlot + 1 <;> by_cases hzero : q = s.nextPipeSlot <;>
      simp [hone, hzero]
  refine ⟨?_, ?_, ?_, ?_, ?_, h.used_append huses⟩
  · rw [pipeMakers_append, hmakers, List.length_append, List.length_singleton, hnext,
      UInt64.toNat_add, Nat.mod_eq_of_lt (by simpa using hlt), h.slot]
    simp
    omega
  · rw [hvm, pipeMakers_append, hmakers]
    intro v hmem
    rcases List.mem_append.mp hmem with hmem | hmem
    · exact h.makers v hmem
    · exact List.mem_singleton.mp hmem ▸ hfresh
  · rw [hvm, hhandovers]
    intro h' hmem
    obtain ⟨hbefore, htaker, hthings⟩ := h.ordered h' hmem
    refine ⟨hbefore, htaker, fun q hq => ?_⟩
    rw [hnext]
    exact (lt_slot_iff hlt).mpr (Or.inl (hthings q hq))
  · intro q v hq
    rw [hhandovers]
    rw [hmaker] at hq
    split at hq
    · rename_i hnew
      exact .of_kept (hkept q hnew)
    · exact h.orderly q v hq
  · intro _ q v
    rw [hget, hholder, hlive]
    split
    · constructor
      · intro heq
        cases heq
        exact ⟨rfl, hv⟩
      · exact And.left
    · exact howner q v

/-- The pipes passed to a spawned VM are with that VM. -/
theorem spawned (h : Lineage tr s) (hrun : Running s) (hres : Resident s) (hid : id ∈ s.states)
    {passed : List PipeId} (howns : ∀ p ∈ passed, s.pipes[p]? = some id)
    (hnext : checkedAdd s.nextVmId 1 = some s'.nextVmId) (hslot : s'.nextPipeSlot = s.nextPipeSlot)
    (hmakers : pipeMakers l = [])
    (hhandovers : handovers (tr ++ l) = handovers tr ++ [⟨id, s.nextVmId, passed⟩])
    (huses : ∀ ev ∈ l, ev.uses = [])
    (hlive : ∀ v, v ∈ s'.states ↔ v = s.nextVmId ∨ v ∈ s.states)
    (hpipes : ∀ p : PipeId, s'.pipes[p]? = if p ∈ passed then some s.nextVmId else s.pipes[p]?) :
    Lineage (tr ++ l) s' := by
  have howner := h.owner hrun.root_state
  have hle := (checkedAdd_one_eq_some hnext).2
  have hlt : ∀ v, v < s.nextVmId → v < s'.nextVmId := fun v hv =>
    (hle v).mp (UInt64.le_of_lt hv)
  have hmaker : ∀ p : PipeId, pipeMaker (tr ++ l) p = pipeMaker tr p := by
    intro p
    rw [pipeMaker, pipeMakers_append, hmakers, List.append_nil, pipeMaker]
  have hholds : ∀ p ∈ passed, pipeHolder tr p = some id := fun p hp =>
    ((howner p id).mp (howns p hp)).1
  have hholder : ∀ p : PipeId, pipeHolder (tr ++ l) p =
      if p ∈ passed then some s.nextVmId else pipeHolder tr p := by
    intro p
    rw [pipeHolder, hmaker, hhandovers]
    simp only [holderOf_concat]
    split
    · rename_i hp
      obtain ⟨maker, hm, _⟩ := Option.map_eq_some_iff.mp (hholds p hp)
      rw [hm]
      rfl
    · rfl
  refine ⟨?_, ?_, ?_, ?_, ?_, h.used_append huses⟩
  · rw [hslot, pipeMakers_append, hmakers, List.append_nil, h.slot]
  · rw [pipeMakers_append, hmakers, List.append_nil]
    exact fun v hv => hlt v (h.makers v hv)
  · rw [hhandovers, hslot]
    intro h' hmem
    rcases List.mem_append.mp hmem with hmem | hmem
    · obtain ⟨hbefore, htaker, hthings⟩ := h.ordered h' hmem
      exact ⟨hbefore, hlt _ htaker, hthings⟩
    · obtain rfl := List.mem_singleton.mp hmem
      refine ⟨hres.fresh id hid, (hle _).mp (UInt64.le_refl _), fun p hp => ?_⟩
      exact (hrun.owner p id (howns p hp)).2.1
  · intro p v hp
    rw [hmaker] at hp
    rw [hhandovers]
    refine Orderly.concat_iff.mpr ⟨h.orderly p v hp, fun hin => ?_⟩
    have hheld := hholds p hin
    rw [pipeHolder, hp] at hheld
    exact (Option.some.inj hheld).symm
  · intro _ p v
    rw [hpipes, hholder, hlive]
    split
    · constructor
      · intro heq
        cases heq
        exact ⟨rfl, Or.inl rfl⟩
      · exact And.left
    · rw [howner]
      refine and_congr_right fun hv => ⟨Or.inr, fun hin => hin.resolve_left ?_⟩
      rintro rfl
      exact UInt64.lt_irrefl _ (h.holder_lt hv)

end Lineage

/-- Accesses neither make a pipe nor boot a VM nor put a pipe to use. -/
theorem accesses_inert (hl : ∀ ev ∈ l, ev.target ≠ none) :
    Inert l ∧ ∀ ev ∈ l, ev.uses = [] := by
  have hone : ∀ ev ∈ l, ev.makes? = none ∧ ev.booted? = none ∧ ev.uses = [] := by
    intro ev hev
    have htarget := hl ev hev
    cases ev with
    | store8 | store64 | storeBytes | setA0 => exact ⟨rfl, rfl, rfl⟩
    | _ => exact absurd rfl htarget
  exact ⟨fun ev hev => ⟨(hone ev hev).1, (hone ev hev).2.1⟩, fun ev hev => (hone ev hev).2.2⟩

theorem blocking_uses {msg : Message} {state : VmState} (h : s.blocking msg = some state)
    (hp : state.waiting? = some p) : s.pipes[p]? = some msg.vmId := by
  cases msg with
  | spawn v args => cases h
  | pipe v args => cases h
  | join v args =>
    simp only [blocking, Option.ite_none_right_eq_some, Option.some.injEq] at h
    rw [← h.2] at hp
    cases hp
  | pipeRead v args =>
    simp only [blocking, Option.ite_none_right_eq_some, Option.some.injEq] at h
    rw [← h.2] at hp
    cases hp
    exact h.1.1
  | pipeWrite v args =>
    simp only [blocking, Option.ite_none_right_eq_some, Option.some.injEq] at h
    rw [← h.2] at hp
    cases hp
    exact h.1.1

theorem transferLog_inert {rd : Read} {wr : Write} {data : Bytes} :
    Inert (transferLog rd wr data : List (Event μ)) := by
  have hnone : (transferLog rd wr data : List (Event μ)).all
      (fun ev => ev.makes?.isNone && ev.booted?.isNone) = true := by
    simp only [transferLog, Write.events]
    split <;> rfl
  intro ev hev
  simpa using List.all_eq_true.mp hnone ev hev

/-- A transfer puts both ends of its pair to use. -/
theorem transferLog_uses {rd : Read} {wr : Write} {data : Bytes} :
    (transferLog rd wr data : List (Event μ)).flatMap Event.uses =
      [(wr.pipe.otherPipe, rd.vmId), (wr.pipe, wr.vmId)] := by
  simp only [transferLog, Write.events]
  split <;> rfl

variable [Memory μ]

theorem Woken.target {code : Int8} {joiners : List (VmId × UInt64)}
    (h : Woken code joiners s l s') : ∀ ev ∈ l, ev.target ≠ none := by
  induction h with
  | nil => simp
  | cons _ _ _ _ ih =>
    intro ev hev
    rcases List.mem_append.mp hev with hev | hev
    · simp [(joinEvents_target hev).1]
    · exact ih ev hev

omit [Memory μ] in
theorem unused (hl : ∀ ev ∈ l, ev.uses = []) :
    ∀ ev ∈ l, ∀ u ∈ ev.uses, s.pipes[u.1]? = some u.2 := by
  intro ev hev u hu
  rw [hl ev hev] at hu
  cases hu

theorem Woken.live {code : Int8} {joiners : List (VmId × UInt64)}
    (h : Woken code joiners s l s') (v : VmId) : v ∈ s'.states ↔ v ∈ s.states := by
  induction h with
  | nil => exact Iff.rfl
  | cons hid _ _ _ ih => exact ih.trans (mem_insert_of_mem hid)

omit [Memory μ] in
/-- An answer that neither makes pipes nor boots a VM. -/
theorem Lineage.answered (h : Lineage tr s) (hrun : Running s) {before after : Cpu μ}
    {result : Except Error Int8} {msg : Message}
    (hmsg : (Event.message msg : Event μ).makes? = none)
    (hl : Inert l) (hid : id ∈ s.states) {state : VmState}
    (hvm : s'.nextVmId = s.nextVmId) (hslot : s'.nextPipeSlot = s.nextPipeSlot)
    (hstates : s'.states = s.states.insert id state) (hpipes : s'.pipes = s.pipes)
    (huses : ∀ ev ∈ l, ∀ u ∈ ev.uses, s.pipes[u.1]? = some u.2) :
    Lineage (tr ++ .exec id before after result [msg] :: .message msg :: l) s' := by
  refine h.kept hrun ?_ hvm hslot (fun k => hstates ▸ mem_insert_of_mem hid) hpipes ?_
  · intro ev hev
    rcases List.mem_cons.mp hev with rfl | hev
    · exact ⟨rfl, rfl⟩
    rcases List.mem_cons.mp hev with rfl | hev
    · exact ⟨hmsg, rfl⟩
    · exact hl ev hev
  · rw [List.forall_mem_cons, List.forall_mem_cons]
    exact ⟨by simp [Event.uses], by simp [Event.uses], huses⟩

theorem Answer.lineage {msg : Message} {m m' : Machine μ} {before cpu : Cpu μ}
    {result result' : Except Error Int8} (h : Lineage tr s) (hrun : Running s) (hres : Resident s)
    (hid : id ∈ s.states) (hmsg : msg.vmId = id)
    (hanswer : Answer env (s.ran id m result cpu) id m' msg l s') :
    Lineage (tr ++ .exec id before cpu result' [msg] :: .message msg :: l) s' := by
  cases hanswer with
  | @rejected msg code hcode =>
    obtain ⟨hinert, huses⟩ := accesses_inert (l := [Event.setA0 id code]) (by simp [Event.target])
    refine h.answered hrun ?_ hinert hid rfl rfl rfl rfl (unused huses)
    cases msg with
    | pipe => cases hcode
    | _ => rfl
  | @blocked msg state hblock =>
    refine h.answered hrun ?_ ?_ hid rfl rfl rfl rfl ?_
    · cases msg with
      | pipe => cases hblock
      | _ => rfl
    · intro ev hev
      obtain rfl := List.mem_singleton.mp hev
      exact ⟨rfl, rfl⟩
    · intro ev hev u hu
      obtain rfl := List.mem_singleton.mp hev
      obtain ⟨p, hp, rfl⟩ := List.mem_map.mp hu
      have howns := blocking_uses hblock (Option.mem_toList.mp hp)
      exact hmsg ▸ howns
  | @joined args code core hcode hcore =>
    have htarget : ∀ ev ∈ (joinEvents id args.exitCodeAddr code : List (Event μ)),
        ev.target ≠ none := fun ev hev => by simp [(joinEvents_target hev).1]
    obtain ⟨hinert, huses⟩ := accesses_inert htarget
    exact h.answered hrun rfl hinert hid rfl rfl rfl rfl (unused huses)
  | @piped args p1 p2 slot core hcreate hcore =>
    refine h.piped hrun hid (hres.fresh id hid) hcreate rfl ?_ ?_ rfl ?_ rfl
    · simp [pipeEvents, Event.booted?]
    · simp [pipeEvents, Event.uses]
    · exact fun k => mem_insert_of_mem hid
  | @spawned args charge machine core howns hnext hboot hcore =>
    refine h.spawned hrun hres hid howns hnext rfl rfl ?_ ?_ ?_ ?_
    · rw [handovers_append (by simp [Event.booted?])]
      rfl
    · simp [spawnEvents, Event.uses]
    · intro k
      have hin : id ∈ s.states.insert s.nextVmId .runnable := mem_insert.mpr (Or.inr hid)
      exact (mem_insert_of_mem hin).trans mem_insert
    · intro p
      exact getElem?_passed

theorem Step.lineage (hstep : Step env s l s') (hinv : Invariant s) (h : Lineage tr s) :
    Lineage (tr ++ l) s' := by
  have hrun := hstep.running hinv
  cases hstep with
  | started =>
    refine h.kept hrun ?_ rfl rfl (fun _ => Iff.rfl) rfl (unused ?_)
    · simp [Inert, Event.makes?, Event.booted?]
    · simp [Event.uses]
  | @closed id state m core hstate =>
    have htarget : ∀ ev ∈ (closedEvents id state : List (Event μ)), ev.target ≠ none :=
      fun ev hev => by simp [(closedEvents_target hev).1]
    obtain ⟨hinert, huses⟩ := accesses_inert htarget
    have hid := mem_iff_getElem?.mpr ⟨_, hstate⟩
    exact h.kept hrun hinert rfl rfl (fun _ => mem_insert_of_mem hid) rfl (unused huses)
  | @transferred rd wr mr mw data readCore writeCore hread hwrite =>
    have hreader := (hrun.allowed rd.vmId _ hread).1
    have hwriter := (hrun.allowed wr.vmId _ hwrite).1
    have hrd : rd.vmId ∈ s.states := mem_iff_getElem?.mpr ⟨_, hread⟩
    have hwr : wr.vmId ∈ s.states := mem_iff_getElem?.mpr ⟨_, hwrite⟩
    refine h.kept hrun transferLog_inert rfl rfl ?_ rfl ?_
    · intro k
      exact (mem_insert_of_mem (mem_insert.mpr (Or.inr hwr))).trans (mem_insert_of_mem hrd)
    · intro ev hev u hu
      have hends := List.mem_flatMap.mpr ⟨ev, hev, hu⟩
      rw [transferLog_uses, List.mem_pair] at hends
      rcases hends with rfl | rfl
      · exact hreader
      · exact hwriter
  | interrupted hexec =>
    refine h.kept hrun ?_ rfl rfl (fun _ => Iff.rfl) rfl (unused ?_)
    · simp [Inert, Event.makes?, Event.booted?]
    · simp [Event.uses]
  | answered hexec hid hchecked hanswer =>
    have hlive := mem_iff_getElem?.mpr ⟨_, hexec.state⟩
    exact hanswer.lineage h hrun hinv.resident hlive hid
  | @exited id m code cpu l s' hexec hne hwoken =>
    obtain ⟨_, hvm, hslot, hpipes, _, _, _, hstates, _⟩ := hwoken.frame
    obtain ⟨hinert, huses⟩ := accesses_inert hwoken.target
    have hlive := hwoken.live
    have hlog : Inert (.exec id m.toCpu cpu (.ok code) [] :: l) := by
      intro ev hev
      rcases List.mem_cons.mp hev with rfl | hev
      · exact ⟨rfl, rfl⟩
      · exact hinert ev hev
    have hpurged : ∀ v, v ∈ (s'.purged id code).states ↔ v ≠ id ∧ v ∈ s.states := fun v =>
      mem_erase.trans (and_congr_right fun _ => hlive v)
    refine h.inert hrun hlog hvm hslot (fun v hv => ((hpurged v).mp hv).2) ?_ (unused ?_)
    · intro _ p v
      rw [hpurged]
      simp only [purged, hpipes, ran]
      rw [ExtTreeMap.getElem?_filter', Option.filter_eq_some_iff]
      simp only [bne_iff_ne]
      exact and_congr_right fun hp => ⟨fun hne => ⟨hne, (hrun.owner p v hp).2.2⟩, And.left⟩
    · exact List.forall_mem_cons.mpr ⟨rfl, huses⟩
  | rootExited hexec =>
    refine h.inert hrun ?_ rfl rfl ?_ (fun hroot => absurd ?_ hroot) (unused ?_)
    · simp [Inert, Event.makes?, Event.booted?]
    · intro v hv
      rcases mem_insert.mp hv with rfl | hv
      · exact hrun.root
      · simp at hv
    · simp [completed]
    · simp [Event.uses]

/-- The log of a run tells where its pipes are. -/
theorem Run.lineage (h : Run env tr r) : Lineage tr r := by
  refine (h.keeps (I := fun tr r => Invariant r ∧ Lineage tr r) ?_ ?_).2
  · intro charge machine _
    have hmakers : pipeMakers ([.boot rootVmId charge] : List (Event μ)) = [] := rfl
    have hnone (p : PipeId) : pipeMaker ([.boot rootVmId charge] : List (Event μ)) p = none := by
      rw [pipeMaker, hmakers, List.getElem?_nil, ite_self]
    refine ⟨booted_invariant machine, rfl, ?_, ?_, ?_, ?_, ?_⟩
    · simp [hmakers]
    · simp [handovers, Event.handover?]
    · simp [hnone]
    · simp [pipeHolder, hnone, booted, new]
    · exact throughout_cons.mpr ⟨by simp [Event.uses], throughout_nil⟩
  · rintro tr r l r' ⟨hinv, hr⟩ hstep
    exact ⟨hstep.invariant hinv, hstep.lineage hinv hr⟩

/-- In every reachable scheduler whose root has not exited the log alone tells the
owner of each pipe: the last VM that the pipe was passed on to, unless it exited. -/
theorem pipes_told (env : Env μ κ) {tr : List (Event μ)} {s : Scheduler μ κ}
    (h : Reachable maxInstantiatedVms env tr s) (hroot : s.states[rootVmId]? ≠ some .terminated)
    (p : PipeId) (v : VmId) :
    s.pipes[p]? = some v ↔ pipeHolder tr p = some v ∧
      ∀ before after code posted, Event.exec v before after (.ok code) posted ∉ tr := by
  rcases h.driven two_le_maxInstantiatedVms with ⟨rfl, rfl⟩ | ⟨r, hlinked, hr⟩
  · simp [new, pipeHolder, pipeMaker, pipeMakers]
  have hsame := hlinked.same
  rw [hsame.states] at hroot
  have hrun : Running r := hr.invariant.phase.resolve_right fun hdone => hroot (by
    rw [hdone, getElem?_insert, if_pos rfl])
  rw [hsame.pipes, hr.lineage.owner hroot]
  refine and_congr_right fun hv => ?_
  have hbooted := (hrun.accounted v).mp (hr.lineage.holder_lt hv)
  constructor
  · intro hin before after code posted hexit
    have hcode := (hr.exits v code).mpr ⟨before, after, posted, hexit⟩
    exact hrun.separate v hin (mem_iff_getElem?.mpr ⟨code, hcode⟩)
  · intro hnot
    refine hbooted.resolve_right fun hin => ?_
    obtain ⟨code, hcode⟩ := mem_iff_getElem?.mp hin
    obtain ⟨before, after, posted, hexit⟩ := (hr.exits v code).mp hcode
    exact hnot before after code posted hexit

/-- Whenever a VM of a reachable scheduler waits on a pipe or exchanges bytes over
it, the pipe came to it down the spawns from its maker, and every VM that passed it
on is older. The two VMs of an exchange have both ends from one maker. -/
theorem pipes_confined (env : Env μ κ) {tr : List (Event μ)} {s : Scheduler μ κ}
    (h : Reachable maxInstantiatedVms env tr s) :
    Throughout (fun before ev => ∀ u ∈ ev.uses, ∃ maker, Custody before u.1 maker u.2) tr ∧
      ∀ before after readVmId writeVmId p data,
        tr = before ++ .transfer readVmId writeVmId p data :: after →
        ∃ maker, Custody before p.otherPipe maker readVmId ∧ Custody before p maker writeVmId := by
  have hall : Throughout (fun before ev => ∀ u ∈ ev.uses, ∃ maker, Custody before u.1 maker u.2)
      tr := by
    rcases h.driven two_le_maxInstantiatedVms with ⟨_, rfl⟩ | ⟨r, _, hr⟩
    · exact throughout_nil
    intro before ev after heq u hu
    have hholder := hr.lineage.used before ev after heq u hu
    subst heq
    exact hr.lineage.custody hholder
  refine ⟨hall, ?_⟩
  intro before after readVmId writeVmId p data heq
  obtain ⟨maker, hread⟩ := hall before _ after heq (p.otherPipe, readVmId) (by simp [Event.uses])
  obtain ⟨maker', hwrite⟩ := hall before _ after heq (p, writeVmId) (by simp [Event.uses])
  have hmade := hread.made
  rw [pipeMaker_otherPipe, hwrite.made, Option.some.injEq] at hmade
  exact ⟨maker, hread, hmade ▸ hwrite⟩

/-- Two VMs that exchange bytes over a pair that the root made, while both run. -/
theorem pipes_told_relay : ∃ tr s, Reachable maxInstantiatedVms relayEnv tr s ∧
    s.pipes[(3 : PipeId)]? = some 1 ∧ pipeHolder tr 3 = some 1 := by
  obtain ⟨tr, s, h, hs⟩ := exists_reachable maxInstantiatedVms relayEnv
    (.boot :: List.replicate 4 (.round none 99)) (fun _ s => s.pipes[(3 : PipeId)]? == some 1 &&
      s.states[rootVmId]? != some .terminated) (by decide +kernel)
  simp only [Bool.and_eq_true, beq_iff_eq, bne_iff_ne] at hs
  obtain ⟨howner, hroot⟩ := hs
  exact ⟨tr, s, h, howner, ((pipes_told relayEnv h hroot 3 1).mp howner).1⟩

/-- The writer of the relay got its end from the root. -/
theorem pipes_confined_relay : ∃ tr s before ev after,
    Reachable maxInstantiatedVms relayEnv tr s ∧ tr = before ++ ev :: after ∧
      ev.uses = [(2, 0), (3, 1)] ∧ Custody before 3 0 1 := by
  obtain ⟨tr, s, h, hs⟩ := exists_reachable maxInstantiatedVms relayEnv
    (.boot :: List.replicate 5 (.round none 99)) (fun tr _ => pipeMaker tr 3 == some 0 &&
      tr.any fun ev => ev.uses == [(2, 0), (3, 1)]) (by decide +kernel)
  simp only [Bool.and_eq_true, beq_iff_eq, List.any_eq_true] at hs
  obtain ⟨hmaker, ev, hev, huses⟩ := hs
  obtain ⟨before, after, rfl⟩ := List.append_of_mem hev
  obtain ⟨maker, hcustody⟩ := (pipes_confined relayEnv h).1 before ev after rfl (3, 1) (by
    simp [huses])
  have hmade := pipeMaker_append (l := ev :: after) hcustody.made
  rw [hmaker, Option.some.injEq] at hmade
  exact ⟨_, s, before, ev, after, h, rfl, huses, hmade ▸ hcustody⟩

end Scheduler

end DeterministicScheduler
