import DeterministicScheduler.Events

/-!
# The reads and writes of a log

The log of a run tells which reads and writes were accepted, in which order, and what
became of each: the bytes stored at its buffer, the number stored at its length
address, and the code it returned.
-/
namespace DeterministicScheduler

variable {μ : Type}

/-- A `pipe_read` or `pipe_write` that was issued, with the memory of its VM at that
moment, and what became of it. -/
structure PipeCall (μ : Type) where
  vmId : VmId
  isWrite : Bool
  args : PipeIoArgs
  memory : μ
  stored : Bytes
  reported : Option UInt64
  code : Option UInt64

/-- A call as it is issued. -/
def PipeCall.issue (vmId : VmId) (isWrite : Bool) (args : PipeIoArgs) (memory : μ) :
    PipeCall μ where
  vmId := vmId
  isWrite := isWrite
  args := args
  memory := memory
  stored := []
  reported := none
  code := none

/-- The call that a message issues. -/
def Message.pipeCall? (memory : μ) : Message → Option (PipeCall μ)
  | .pipeRead vmId args => some (.issue vmId false args memory)
  | .pipeWrite vmId args => some (.issue vmId true args memory)
  | _ => none

namespace PipeCall

/-- A call of a VM that has not returned. -/
def isOpen (v : VmId) (c : PipeCall μ) : Bool :=
  c.vmId == v && c.code.isNone

def fill (addr : UInt64) (data : Bytes) (c : PipeCall μ) : PipeCall μ :=
  if addr = c.args.bufferAddr then { c with stored := c.stored ++ data } else c

def report (addr value : UInt64) (c : PipeCall μ) : PipeCall μ :=
  if addr = c.args.lengthAddr then { c with reported := some value } else c

def finish (code : UInt64) (c : PipeCall μ) : PipeCall μ :=
  { c with code := some code }

/-- The bytes at the buffer of a call when it was issued. -/
def contents [Memory μ] (c : PipeCall μ) : Bytes :=
  (List.range c.args.length.toNat).map fun i =>
    Memory.byteAt c.memory (c.args.bufferAddr + UInt64.ofNat i)

/-- The bytes of a write that were delivered, by the number that it reports. -/
def delivered [Memory μ] (c : PipeCall μ) : Bytes :=
  c.contents.take (c.reported.getD 0).toNat

end PipeCall

/-- The calls of a log: the one that each VM issued with its last execution, those that
were accepted, in this order, and those that have returned, in the order they did. -/
structure PipeLog (μ : Type) where
  issued : VmId → Option (PipeCall μ)
  accepted : List (PipeCall μ)
  returned : List (PipeCall μ)

namespace PipeLog

def openCalls (L : PipeLog μ) (v : VmId) : List (PipeCall μ) :=
  L.accepted.filter (PipeCall.isOpen v)

/-- A change of the open calls of a VM. -/
def change (v : VmId) (f : PipeCall μ → PipeCall μ) (L : PipeLog μ) : PipeLog μ :=
  { L with accepted := L.accepted.map fun c => if c.isOpen v then f c else c }

/-- A change with which the open calls of a VM return. -/
def settle (v : VmId) (f : PipeCall μ → PipeCall μ) (L : PipeLog μ) : PipeLog μ :=
  { L.change v f with returned := L.returned ++ (L.openCalls v).map f }

/-- What one event adds. A VM that is put in a waiting state has its last call
accepted, and a call returns when A0 of its VM is set. -/
def note (L : PipeLog μ) : Event μ → PipeLog μ
  | .exec v _ cpu _ posted =>
    { L with issued := fun u =>
        if u = v then posted.head?.bind (Message.pipeCall? cpu.memory) else L.issued u }
  | .block v _ => { L with accepted := L.accepted ++ (L.issued v).toList }
  | .storeBytes v addr data => L.change v (PipeCall.fill addr data)
  | .store64 v addr value => L.change v (PipeCall.report addr value)
  | .setA0 v code => L.settle v (PipeCall.finish code)
  | _ => L

def empty : PipeLog μ where
  issued _ := none
  accepted := []
  returned := []

/-- The writes accepted on a pipe, in the order they were issued. -/
def writesOn (L : PipeLog μ) (p : PipeId) : List (PipeCall μ) :=
  L.accepted.filter fun c => c.isWrite && c.args.pipe == p

/-- The reads on a pipe that returned with success, in the order they did. -/
def readsOn (L : PipeLog μ) (p : PipeId) : List (PipeCall μ) :=
  L.returned.filter fun c => !c.isWrite && c.args.pipe == p && c.code == some success

end PipeLog

/-- The calls of a whole log. -/
def pipeLog (tr : List (Event μ)) : PipeLog μ :=
  tr.foldl PipeLog.note .empty

theorem pipeLog_append (tr l : List (Event μ)) :
    pipeLog (tr ++ l) = l.foldl PipeLog.note (pipeLog tr) :=
  List.foldl_append

namespace PipeLog

variable {L : PipeLog μ} {u v : VmId} {f g : PipeCall μ → PipeCall μ}

theorem mem_openCalls {c : PipeCall μ} :
    c ∈ L.openCalls v ↔ c ∈ L.accepted ∧ c.vmId = v ∧ c.code = none := by
  simp only [openCalls, PipeCall.isOpen, List.mem_filter, Bool.and_eq_true, beq_iff_eq,
    Option.isNone_iff_eq_none]

theorem isOpen_of_mem {c : PipeCall μ} (h : c ∈ L.accepted) (hopen : c.isOpen v = true) :
    c ∈ L.openCalls v :=
  List.mem_filter.mpr ⟨h, hopen⟩

theorem change_quiet (h : L.openCalls v = []) : L.change v f = L := by
  have haccepted : L.accepted.map (fun c => if c.isOpen v then f c else c) = L.accepted.map id := by
    apply List.map_congr_left
    intro c hc
    rw [if_neg]
    · rfl
    · intro hopen
      have hmem := isOpen_of_mem hc hopen
      rw [h] at hmem
      cases hmem
  rw [change, haccepted, List.map_id]

theorem settle_quiet (h : L.openCalls v = []) : L.settle v f = L := by
  rw [settle, change_quiet h, h, List.map_nil, List.append_nil]

/-- Accesses to machines of VMs without an open call add nothing. -/
theorem foldl_quiet {l : List (Event μ)} (hquiet : ∀ ev ∈ l, ev.quiet = true)
    (h : ∀ ev ∈ l, ∀ v, ev.target = some v → L.openCalls v = []) : l.foldl note L = L := by
  induction l with
  | nil => rfl
  | cons ev l ih =>
    have hnote : L.note ev = L := by
      have hev := h ev (by simp)
      have hev' := hquiet ev (by simp)
      cases ev with
      | store8 => rfl
      | transfer => rfl
      | store64 v => exact change_quiet (hev v rfl)
      | storeBytes v => exact change_quiet (hev v rfl)
      | setA0 v => exact settle_quiet (hev v rfl)
      | _ => cases hev'
    rw [List.foldl_cons, hnote]
    exact ih (fun ev' hev' => hquiet ev' (by simp [hev'])) fun ev' hev' => h ev' (by simp [hev'])

theorem openCalls_change (hf : ∀ c, (f c).isOpen v = c.isOpen v) :
    (L.change v f).openCalls v = (L.openCalls v).map f := by
  have hsame : (PipeCall.isOpen v ∘ fun c => if c.isOpen v then f c else c) =
      PipeCall.isOpen v := by
    funext c
    by_cases hopen : c.isOpen v = true
    · simp only [Function.comp_apply, if_pos hopen, hf]
    · simp only [Function.comp_apply, if_neg hopen]
  rw [openCalls, change, List.filter_map, hsame, openCalls]
  apply List.map_congr_left
  intro c hc
  rw [if_pos (List.mem_filter.mp hc).2]

/-- Changes of the same open calls are one change. -/
theorem settle_change (hf : ∀ c, (f c).isOpen v = c.isOpen v) :
    (L.change v f).settle v g = L.settle v (g ∘ f) := by
  have haccepted : ((L.change v f).change v g).accepted = (L.change v (g ∘ f)).accepted := by
    simp only [change, List.map_map]
    apply List.map_congr_left
    intro c _
    by_cases hopen : c.isOpen v = true
    · simp only [Function.comp_apply, if_pos hopen, hf]
    · simp only [Function.comp_apply, if_neg hopen]
  rw [settle, settle, openCalls_change hf, List.map_map]
  simp only [change] at haccepted ⊢
  rw [haccepted]

theorem isOpen_report (addr value : UInt64) (c : PipeCall μ) :
    (c.report addr value).isOpen v = c.isOpen v := by
  unfold PipeCall.report
  split <;> rfl

theorem isOpen_fill (addr : UInt64) (data : Bytes) (c : PipeCall μ) :
    (c.fill addr data).isOpen v = c.isOpen v := by
  unfold PipeCall.fill
  split <;> rfl

/-- The number that is stored for a call as it returns. -/
theorem foldl_reported (addr value code : UInt64) :
    [Event.store64 v addr value, .setA0 v code].foldl note L =
      L.settle v (PipeCall.finish code ∘ PipeCall.report addr value) :=
  settle_change (isOpen_report addr value)

/-- The bytes and their number that are stored for a read as it returns. -/
theorem foldl_filled (writer : VmId) (p : PipeId) (addr addr' value code : UInt64) (data : Bytes) :
    [Event.storeBytes v addr data, .transfer v writer p data, .store64 v addr' value,
        .setA0 v code].foldl note L =
      L.settle v (PipeCall.finish code ∘ PipeCall.report addr' value ∘ PipeCall.fill addr
        data) := by
  have hrest := foldl_reported (L := L.change v (PipeCall.fill addr data)) (v := v) addr' value code
  rw [settle_change (isOpen_fill addr data)] at hrest
  exact hrest

/-- A change with which a call returns: nothing that was issued changes, and there is a
code. -/
structure Returning (f : PipeCall μ → PipeCall μ) : Prop where
  vmId : ∀ c, (f c).vmId = c.vmId
  isWrite : ∀ c, (f c).isWrite = c.isWrite
  args : ∀ c, (f c).args = c.args
  code : ∀ c, (f c).code ≠ none

theorem Returning.fill (hf : Returning f) (addr : UInt64) (data : Bytes) :
    Returning (f ∘ PipeCall.fill addr data) := by
  have hfill : ∀ c : PipeCall μ, (c.fill addr data).vmId = c.vmId ∧
      (c.fill addr data).isWrite = c.isWrite ∧ (c.fill addr data).args = c.args := by
    intro c
    unfold PipeCall.fill
    split <;> exact ⟨rfl, rfl, rfl⟩
  exact ⟨fun c => (hf.vmId _).trans (hfill c).1, fun c => (hf.isWrite _).trans (hfill c).2.1,
    fun c => (hf.args _).trans (hfill c).2.2, fun c => hf.code _⟩

theorem returning_report (addr value code : UInt64) :
    Returning (PipeCall.finish code ∘ PipeCall.report addr value : PipeCall μ → PipeCall μ) := by
  have hreport : ∀ c : PipeCall μ, (c.report addr value).vmId = c.vmId ∧
      (c.report addr value).isWrite = c.isWrite ∧ (c.report addr value).args = c.args := by
    intro c
    unfold PipeCall.report
    split <;> exact ⟨rfl, rfl, rfl⟩
  exact ⟨fun c => (hreport c).1, fun c => (hreport c).2.1, fun c => (hreport c).2.2,
    fun c => by simp [PipeCall.finish]⟩

theorem openCalls_settle (hf : Returning f) :
    (L.settle v f).openCalls u = if u = v then [] else L.openCalls u := by
  have hnone : ∀ c : PipeCall μ, (f c).isOpen u = false := by
    intro c
    have hcode := hf.code c
    simp only [PipeCall.isOpen, Bool.and_eq_false_iff, Option.isNone_eq_false_iff]
    exact Or.inr (Option.isSome_iff_ne_none.mpr hcode)
  rw [openCalls, settle, change, List.filter_map]
  split
  · rename_i huv
    subst huv
    rw [List.map_eq_nil_iff, List.filter_eq_nil_iff]
    intro c _
    by_cases hopen : c.isOpen u = true
    · simp [hopen, hnone]
    · simp [hopen]
  · rename_i huv
    have hother : ∀ c : PipeCall μ, c.isOpen u = true → c.isOpen v = false := by
      intro c hc
      simp only [PipeCall.isOpen, Bool.and_eq_true, beq_iff_eq] at hc
      simp only [PipeCall.isOpen, hc.1, beq_eq_false_iff_ne.mpr huv, Bool.false_and]
    have hsame : (PipeCall.isOpen u ∘ fun c => if c.isOpen v then f c else c) =
        PipeCall.isOpen u := by
      funext c
      by_cases hopen : c.isOpen v = true
      · have hclosed : c.isOpen u = false := by
          by_contra hnot
          rw [hother c (by simpa using hnot)] at hopen
          cases hopen
        simp only [Function.comp_apply, if_pos hopen, hnone, hclosed]
      · simp only [Function.comp_apply, if_neg hopen]
    rw [hsame, openCalls]
    have hid : ∀ c ∈ L.accepted.filter (PipeCall.isOpen u),
        (if c.isOpen v then f c else c) = id c := by
      intro c hc
      rw [if_neg (by simp [hother c (List.mem_filter.mp hc).2])]
      rfl
    rw [List.map_congr_left hid, List.map_id]

theorem writesOn_settle (hf : Returning f) (p : PipeId) :
    (L.settle v f).writesOn p = (L.writesOn p).map fun c => if c.isOpen v then f c else c := by
  rw [writesOn, settle, change, List.filter_map, writesOn]
  congr 2
  funext c
  by_cases hopen : c.isOpen v = true
  · simp only [Function.comp_apply, if_pos hopen, hf.isWrite, hf.args]
  · simp only [Function.comp_apply, if_neg hopen]

end PipeLog

end DeterministicScheduler
