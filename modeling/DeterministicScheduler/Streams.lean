import DeterministicScheduler.Guest
import DeterministicScheduler.History
import DeterministicScheduler.Ownership
import DeterministicScheduler.PipeCalls

/-!
# Pipes as byte streams

The bytes that the reads of a pipe return are, in order, the bytes that were taken from
the writes to its other end, also where a write is taken piece by piece and where an end
changes its owner. The writes to a pipe return one after another: a VM that waits in one
owns the end that it writes to.
-/
namespace DeterministicScheduler

open ProgramLogic Program Outcome Std

variable {μ κ : Type}

/-- The open calls of a VM in this state. -/
def waitingCalls (v : VmId) (memory : μ) : VmState → List (PipeCall μ)
  | .waitForRead pipe length bufferAddr lengthAddr =>
    [.issue v false { pipe, length, bufferAddr, lengthAddr } memory]
  | .waitForWrite pipe _ length bufferAddr lengthAddr =>
    [.issue v true { pipe, length, bufferAddr, lengthAddr } memory]
  | _ => []

namespace PipeCall

/-- The state of the VM of a write of which this much is taken. -/
def writing (c : PipeCall μ) (consumed : UInt64) : VmState :=
  .waitForWrite c.args.pipe consumed c.args.length c.args.bufferAddr c.args.lengthAddr

theorem report_finish {c : PipeCall μ} {addr : UInt64} (h : addr = c.args.lengthAddr)
    (n code : UInt64) : (finish code ∘ report addr n) c =
      { c with reported := some n, code := some code } := by
  rw [Function.comp_apply, report, if_pos h, finish]

/-- A call that reports the bytes stored for it, at most those it asks for. -/
def Filled (c : PipeCall μ) : Prop :=
  ∃ n, c.reported = some n ∧ c.stored.length = n.toNat ∧ n ≤ c.args.length

/-- A call that returned with success and reports at most the bytes it asks for. -/
def Written (c : PipeCall μ) : Prop :=
  c.code = some success ∧ ∃ n, c.reported = some n ∧ n ≤ c.args.length

/-- A write that returned with success and reports less than it asks for. -/
def Short (c : PipeCall μ) : Prop :=
  c.isWrite = true ∧ c.code = some success ∧ ∃ n, c.reported = some n ∧ n < c.args.length

variable [Memory μ]

/-- The bytes of a write that were delivered: a prefix of its buffer as it was when the
write was issued, of the length that is reported on success. -/
def Delivers (c : PipeCall μ) (data : Bytes) : Prop :=
  data <+: c.contents ∧
    (c.code = some success → ∃ n, c.reported = some n ∧ data.length = n.toNat)

@[simp] theorem length_contents (c : PipeCall μ) : c.contents.length = c.args.length.toNat := by
  rw [contents, List.length_map, List.length_range]

theorem Written.delivers {c : PipeCall μ} (h : c.Written) : c.Delivers c.delivered := by
  obtain ⟨_, n, hreported, hle⟩ := h
  refine ⟨List.take_prefix _ _, fun _ => ⟨n, hreported, ?_⟩⟩
  rw [UInt64.le_iff_toNat_le] at hle
  rw [delivered, hreported, Option.getD_some, List.length_take, length_contents]
  omega

/-- What is loaded from the buffer of a write goes on where the bytes before end. -/
theorem contents_take_add {c : PipeCall μ} {consumed copied : UInt64} {data : Bytes}
    (hle : consumed.toNat + copied.toNat ≤ c.args.length.toNat)
    (hload : Memory.loadBytes c.memory (c.args.bufferAddr + consumed) copied = .ok data) :
    c.contents.take (consumed.toNat + copied.toNat) = c.contents.take consumed.toNat ++ data := by
  rw [List.take_add, Memory.loadBytes_eq hload]
  congr 1
  apply List.ext_getElem
  · simp only [List.length_take, List.length_drop, length_contents, List.length_map,
      List.length_range]
    omega
  · intro i hi _
    simp only [contents, List.getElem_take, List.getElem_drop, List.getElem_map,
      List.getElem_range, UInt64.ofNat_add, UInt64.ofNat_toNat, UInt64.add_assoc]

end PipeCall

/-- The bytes that the reads of a pipe returned. -/
def PipeLog.stream (L : PipeLog μ) (p : PipeId) : Bytes :=
  (L.readsOn p.otherPipe).flatMap PipeCall.stored

namespace Scheduler

variable [Memory μ] {env : Env μ κ} {s s' r : Scheduler μ κ} {tr l : List (Event μ)}
  {L L' : PipeLog μ} {p : PipeId} {v id : VmId} {c : PipeCall μ} {f : PipeCall μ → PipeCall μ}
  {m : Machine μ} {core : Core μ} {S data : Bytes}

/-- The bytes of `S` are those delivered from the writes to a pipe. All but the last have
returned, and the last may be one that is partly taken. -/
def Carries (s : Scheduler μ κ) (L : PipeLog μ) (p : PipeId) (S : Bytes) : Prop :=
  ∃ done, (∀ c ∈ done, PipeCall.Written c) ∧
    ((L.writesOn p = done ∧ S = done.flatMap PipeCall.delivered) ∨
      ∃ c consumed, L.writesOn p = done ++ [c] ∧ c.code = none ∧
        s.states[c.vmId]? = some (c.writing consumed) ∧
        S = done.flatMap PipeCall.delivered ++ c.contents.take consumed.toNat)

omit [Memory μ] in
theorem mem_writesOn {c : PipeCall μ} :
    c ∈ L.writesOn p ↔ c ∈ L.accepted ∧ c.isWrite = true ∧ c.args.pipe = p := by
  simp only [PipeLog.writesOn, List.mem_filter, Bool.and_eq_true, beq_iff_eq]

theorem Carries.idle (h : Carries s L p S) (hwrites : L'.writesOn p = L.writesOn p)
    (hstates : ∀ (v : VmId) (state : VmState), s.states[v]? = some state → state.writing? = some p →
      s'.states[v]? = some state) : Carries s' L' p S := by
  obtain ⟨done, hdone, h⟩ := h
  refine ⟨done, hdone, ?_⟩
  rw [hwrites]
  rcases h with h | ⟨c, consumed, hlast, hcode, hstate, hS⟩
  · exact Or.inl h
  · have hc : c ∈ L.writesOn p := by
      rw [hlast]
      exact List.mem_append_right _ (List.mem_singleton_self c)
    have hpipe : (c.writing consumed).writing? = some p :=
      congrArg some (mem_writesOn.mp hc).2.2
    exact Or.inr ⟨c, consumed, hlast, hcode, hstates _ _ hstate hpipe, hS⟩

omit [Memory μ] in
/-- A call that returns and is not a write to the pipe. -/
theorem writesOn_settle_other (hf : PipeLog.Returning f)
    (hother : ∀ c ∈ L.openCalls v, c.isWrite = true → c.args.pipe ≠ p) :
    (L.settle v f).writesOn p = L.writesOn p := by
  have hid : ∀ c ∈ L.writesOn p, (if c.isOpen v then f c else c) = id c := by
    intro c hc
    obtain ⟨hmem, hwrite, hpipe⟩ := mem_writesOn.mp hc
    rw [if_neg]
    · rfl
    · intro hopen
      exact hother c (PipeLog.isOpen_of_mem hmem hopen) hwrite hpipe
  rw [PipeLog.writesOn_settle hf, List.map_congr_left hid, List.map_id]

/-- The open write to a pipe is the last that was issued. -/
theorem Carries.current (h : Carries s L p S) (hc : c ∈ L.openCalls v) (hwrite : c.isWrite = true)
    (hpipe : c.args.pipe = p) {consumed : UInt64}
    (hstate : s.states[v]? = some (c.writing consumed)) :
    ∃ done, (∀ c ∈ done, PipeCall.Written c) ∧ L.writesOn p = done ++ [c] ∧
      S = done.flatMap PipeCall.delivered ++ c.contents.take consumed.toNat := by
  obtain ⟨hmem, rfl, hcode⟩ := PipeLog.mem_openCalls.mp hc
  have hwrites : c ∈ L.writesOn p := mem_writesOn.mpr ⟨hmem, hwrite, hpipe⟩
  obtain ⟨done, hdone, h⟩ := h
  have hnot : c ∉ done := by
    intro hin
    rw [(hdone c hin).1] at hcode
    cases hcode
  rcases h with ⟨hall, _⟩ | ⟨c', consumed', hlast, _, hstate', hS⟩
  · rw [hall] at hwrites
    exact absurd hwrites hnot
  · rw [hlast, List.mem_append, List.mem_singleton] at hwrites
    obtain rfl := hwrites.resolve_left hnot
    rw [hstate, Option.some.injEq] at hstate'
    cases hstate'
    exact ⟨done, hdone, hlast, hS⟩

/-- More bytes are taken from the open write. -/
theorem Carries.taken (h : Carries s L p S) (hc : c ∈ L.openCalls v) (hwrite : c.isWrite = true)
    (hpipe : c.args.pipe = p) {consumed consumed' : UInt64}
    (hstate : s.states[v]? = some (c.writing consumed))
    (hstate' : s'.states[v]? = some (c.writing consumed'))
    (hdata : c.contents.take consumed'.toNat = c.contents.take consumed.toNat ++ data) :
    Carries s' L p (S ++ data) := by
  obtain ⟨done, hdone, hlast, rfl⟩ := h.current hc hwrite hpipe hstate
  obtain ⟨_, rfl, hcode⟩ := PipeLog.mem_openCalls.mp hc
  refine ⟨done, hdone, Or.inr ⟨c, consumed', hlast, hcode, hstate', ?_⟩⟩
  rw [hdata, List.append_assoc]

/-- The open write returns. -/
theorem Carries.returned (h : Carries s L p S) (hc : c ∈ L.openCalls v) (hwrite : c.isWrite = true)
    (hpipe : c.args.pipe = p) {consumed n : UInt64}
    (hstate : s.states[v]? = some (c.writing consumed)) (hf : PipeLog.Returning f)
    (hwritten : (f c).Written) (hreported : (f c).reported = some n)
    (hcontents : (f c).contents = c.contents)
    (hdata : c.contents.take n.toNat = c.contents.take consumed.toNat ++ data) :
    Carries s' (L.settle v f) p (S ++ data) := by
  obtain ⟨done, hdone, hlast, rfl⟩ := h.current hc hwrite hpipe hstate
  have hopen : c.isOpen v = true := (List.mem_filter.mp hc).2
  have hid : ∀ w ∈ done, (if w.isOpen v then f w else w) = id w := by
    intro w hw
    have hcode := (hdone w hw).1
    rw [if_neg (by simp [PipeCall.isOpen, hcode])]
    rfl
  refine ⟨done ++ [f c], ?_, Or.inl ⟨?_, ?_⟩⟩
  · intro w hw
    rcases List.mem_append.mp hw with hw | hw
    · exact hdone w hw
    · rw [List.mem_singleton] at hw
      rw [hw]
      exact hwritten
  · rw [PipeLog.writesOn_settle hf, hlast, List.map_append, List.map_congr_left hid, List.map_id,
      List.map_singleton, if_pos hopen]
  · rw [List.flatMap_append, List.flatMap_singleton, PipeCall.delivered, hcontents, hreported,
      Option.getD_some, hdata, List.append_assoc]

/-- A write is accepted while no VM writes to its pipe. -/
theorem Carries.accepted (h : Carries s L p S)
    (hnone : ∀ (v : VmId) (state : VmState), s.states[v]? = some state → state.writing? ≠ some p)
    (hwrites : L'.writesOn p = L.writesOn p ++ [c]) (hcode : c.code = none)
    (hstate : s'.states[c.vmId]? = some (c.writing 0)) : Carries s' L' p S := by
  obtain ⟨done, hdone, ⟨hall, rfl⟩ | ⟨c', consumed, hlast, _, hstate', _⟩⟩ := h
  · refine ⟨done, hdone, Or.inr ⟨c, 0, by rw [hwrites, hall], hcode, hstate, ?_⟩⟩
    simp
  · have hc' : c' ∈ L.writesOn p := by
      rw [hlast]
      exact List.mem_append_right _ (List.mem_singleton_self c')
    exact absurd (congrArg some (mem_writesOn.mp hc').2.2) (hnone _ _ hstate')

/-- The log agrees with a scheduler on the calls that are open, and every read that
returned reports its bytes. -/
structure Told (L : PipeLog μ) (s : Scheduler μ κ) : Prop where
  fresh : ∀ c ∈ L.accepted, c.vmId < s.nextVmId
  waiting : ∀ (v : VmId) (state : VmState) (m : Machine μ), s.states[v]? = some state →
    s.instantiated[v]? = some m → L.openCalls v = waitingCalls v m.memory state
  reads : ∀ c ∈ L.returned, c.isWrite = false → c.Filled

omit [Memory μ] in
/-- A VM that is not there yet has no open call. -/
theorem Told.new (h : Told L s) (hv : s.nextVmId ≤ v) : L.openCalls v = [] := by
  rw [List.eq_nil_iff_forall_not_mem]
  intro c hc
  obtain ⟨hmem, rfl, _⟩ := PipeLog.mem_openCalls.mp hc
  exact absurd (UInt64.lt_of_lt_of_le (h.fresh c hmem) hv) (UInt64.lt_irrefl _)

omit [Memory μ] in
theorem Told.idle (h : Told L s) (haccepted : L'.accepted = L.accepted)
    (hreturned : L'.returned = L.returned) (hnext : s.nextVmId ≤ s'.nextVmId)
    (hvms : ∀ (v : VmId) (state : VmState) (m : Machine μ), s'.states[v]? = some state →
      s'.instantiated[v]? = some m → L.openCalls v = waitingCalls v m.memory state) :
    Told L' s' := by
  refine ⟨?_, ?_, ?_⟩
  · rw [haccepted]
    exact fun c hc => UInt64.lt_of_lt_of_le (h.fresh c hc) hnext
  · intro v state m hstate hm
    rw [PipeLog.openCalls, haccepted]
    exact hvms v state m hstate hm
  · rw [hreturned]
    exact h.reads

omit [Memory μ] in
/-- A call of a VM returns, and the VM goes on. -/
theorem Told.settled (h : Told L s) (hf : PipeLog.Returning f)
    (hreads : ∀ c ∈ L.openCalls v, c.isWrite = false → (f c).Filled) :
    Told (L.settle v f) (s.settled v m core .runnable) := by
  refine ⟨?_, ?_, ?_⟩
  · intro c hc
    obtain ⟨c₀, hc₀, rfl⟩ := List.mem_map.mp hc
    split
    · rw [hf.vmId]
      exact h.fresh c₀ hc₀
    · exact h.fresh c₀ hc₀
  · intro u state m' hstate hm'
    rw [PipeLog.openCalls_settle hf]
    simp only [Scheduler.settled, accessed, getElem?_insert] at hstate hm'
    split
    · rename_i huv
      rw [if_pos huv] at hstate
      cases hstate
      rfl
    · rename_i huv
      rw [if_neg huv] at hstate hm'
      exact h.waiting u state m' hstate hm'
  · intro c hc hread
    rcases List.mem_append.mp hc with hc | hc
    · exact h.reads c hc hread
    · obtain ⟨c₀, hc₀, rfl⟩ := List.mem_map.mp hc
      exact hreads c₀ hc₀ ((hf.isWrite c₀).symm.trans hread)

omit [Memory μ] in
/-- A write that returns adds nothing to a stream. -/
theorem stream_settle_write (hc : L.openCalls v = [c]) (hf : PipeLog.Returning f)
    (hwrite : c.isWrite = true) : (L.settle v f).stream p = L.stream p := by
  have hnot : (!(f c).isWrite && (f c).args.pipe == p.otherPipe &&
      (f c).code == some success) = false := by
    simp [hf.isWrite, hwrite]
  rw [PipeLog.stream, PipeLog.stream, PipeLog.readsOn, PipeLog.settle, hc, List.filter_append,
    List.map_singleton, List.filter_singleton, hnot, cond_false, List.append_nil, PipeLog.readsOn]

omit [Memory μ] in
/-- A read that returns adds its bytes to the stream of its pipe. -/
theorem stream_settle_read (hc : L.openCalls v = [c]) (hf : PipeLog.Returning f)
    (hread : c.isWrite = false) (hcode : (f c).code = some success) :
    (L.settle v f).stream p =
      if c.args.pipe = p.otherPipe then L.stream p ++ (f c).stored else L.stream p := by
  rw [PipeLog.stream, PipeLog.stream, PipeLog.readsOn, PipeLog.settle, hc, List.filter_append,
    List.map_singleton, List.filter_singleton, hf.isWrite, hread, hf.args, hcode, PipeLog.readsOn]
  by_cases hp : c.args.pipe = p.otherPipe
  · simp [hp]
  · have hne : (c.args.pipe == p.otherPipe) = false := beq_false_of_ne hp
    simp [hp, hne]

omit [Memory μ] in
theorem settled_writers {state next : VmState} (hstate : s.states[v]? = some state)
    (hnot : state.writing? ≠ some p) (u : VmId) (state' : VmState)
    (hu : s.states[u]? = some state') (hwrite : state'.writing? = some p) :
    (s.settled v m core next).states[u]? = some state' := by
  have hne : u ≠ v := by
    rintro rfl
    rw [hstate, Option.some.injEq] at hu
    rw [hu] at hnot
    exact hnot hwrite
  simp only [Scheduler.settled, getElem?_insert, if_neg hne, hu]

/-- A read returns. -/
theorem Carries.read (h : Carries s L p S) (hc : L.openCalls v = [c]) (hread : c.isWrite = false)
    (hf : PipeLog.Returning f) {state : VmState} (hstate : s.states[v]? = some state)
    (hnot : state.writing? = none) :
    Carries (s.settled v m core .runnable) (L.settle v f) p S := by
  apply h.idle
  · apply writesOn_settle_other hf
    intro c' hc' hwrite
    rw [hc, List.mem_singleton] at hc'
    rw [hc', hread] at hwrite
    cases hwrite
  · exact settled_writers hstate (by simp [hnot])

/-- A write returns, with the bytes that are taken from it last. -/
theorem Carries.written (h : Carries s L p S) (hc : L.openCalls v = [c]) (hwrite : c.isWrite = true)
    {consumed n : UInt64} (hstate : s.states[v]? = some (c.writing consumed))
    (hle : n ≤ c.args.length)
    (hdata : c.contents.take n.toNat = c.contents.take consumed.toNat ++ data) :
    Carries (s.settled v m core .runnable)
      (L.settle v (PipeCall.finish success ∘ PipeCall.report c.args.lengthAddr n)) p
      (if c.args.pipe = p then S ++ data else S) := by
  have hf : PipeLog.Returning (PipeCall.finish success ∘ PipeCall.report c.args.lengthAddr n :
      PipeCall μ → PipeCall μ) := PipeLog.returning_report c.args.lengthAddr n success
  have hreturn := PipeCall.report_finish (c := c) rfl n success
  by_cases hp : c.args.pipe = p
  · rw [if_pos hp]
    apply h.returned (by rw [hc]; exact List.mem_singleton_self c) hwrite hp hstate hf
    · rw [hreturn]
      exact ⟨rfl, n, rfl, hle⟩
    · rw [hreturn]
    · rw [hreturn]
      rfl
    · exact hdata
  · rw [if_neg hp]
    apply h.idle
    · apply writesOn_settle_other hf
      intro c' hc' _
      rw [hc, List.mem_singleton] at hc'
      rw [hc']
      exact hp
    · exact settled_writers hstate fun heq => hp (Option.some.inj heq)

/-- The pipes of all accepted calls were created, and a write that returned short has
its read end closed. -/
def ShortsClosed (L : PipeLog μ) (s : Scheduler μ κ) : Prop :=
  ∀ c ∈ L.accepted, c.args.pipe.otherPipe < s.nextPipeSlot ∧
    (c.Short → c.args.pipe.otherPipe ∉ s.pipes)

/-- No end of a pipe that is closed is opened again. -/
def KeepsClosed (s s' : Scheduler μ κ) : Prop :=
  s.nextPipeSlot ≤ s'.nextPipeSlot ∧ ∀ p : PipeId, p < s.nextPipeSlot → p ∈ s'.pipes → p ∈ s.pipes

omit [Memory μ] in
theorem KeepsClosed.of_pipes (hslot : s'.nextPipeSlot = s.nextPipeSlot)
    (hpipes : s'.pipes = s.pipes) : KeepsClosed s s' :=
  ⟨hslot ▸ UInt64.le_refl _, fun _ _ hp => hpipes ▸ hp⟩

theorem Step.keepsClosed (h : Step env s l s') (hrun : Running s) : KeepsClosed s s' := by
  have hmoved := h.pipeChange.moved fun p v hv => (hrun.owner p v hv).2.1
  refine ⟨hmoved.slot_le, fun p hlt hp => ?_⟩
  by_contra hnot
  obtain ⟨v, hv⟩ := mem_iff_getElem?.mp hp
  have hle := (hmoved.created p v (by simpa using hnot) hv).1
  exact UInt64.lt_irrefl _ (UInt64.lt_of_lt_of_le hlt hle)

omit [Memory μ] in
theorem ShortsClosed.idle (h : ShortsClosed L s) (haccepted : L'.accepted = L.accepted)
    (hkeeps : KeepsClosed s s') : ShortsClosed L' s' := by
  intro c hc
  rw [haccepted] at hc
  obtain ⟨hlt, hshort⟩ := h c hc
  exact ⟨UInt64.lt_of_lt_of_le hlt hkeeps.1, fun hc' hp => hshort hc' (hkeeps.2 _ hlt hp)⟩

omit [Memory μ] in
theorem ShortsClosed.settled (h : ShortsClosed L s) (hf : PipeLog.Returning f)
    (hslot : s'.nextPipeSlot = s.nextPipeSlot) (hpipes : s'.pipes = s.pipes)
    (hnew : ∀ c ∈ L.openCalls v, (f c).Short → c.args.pipe.otherPipe ∉ s.pipes) :
    ShortsClosed (L.settle v f) s' := by
  intro c hc
  rw [hslot, hpipes]
  obtain ⟨c₀, hc₀, rfl⟩ := List.mem_map.mp hc
  obtain ⟨hlt, hshort⟩ := h c₀ hc₀
  by_cases hopen : c₀.isOpen v = true
  · rw [if_pos hopen, hf.args]
    exact ⟨hlt, hnew c₀ (PipeLog.isOpen_of_mem hc₀ hopen)⟩
  · rw [if_neg hopen]
    exact ⟨hlt, hshort⟩

omit [Memory μ] in
theorem Running.consumed_le (h : Running s) {p : PipeId}
    {consumed length bufferAddr lengthAddr : UInt64}
    (hstate : s.states[v]? = some (.waitForWrite p consumed length bufferAddr lengthAddr)) :
    consumed ≤ length := by
  rcases (h.allowed v _ hstate).2.2 with hlt | ⟨hzero, hzero'⟩
  · exact UInt64.le_of_lt hlt
  · rw [hzero, hzero']
    exact UInt64.le_refl _

/-- The log agrees with a scheduler on the calls that are open and on the ends that are
closed, and `S p` are the bytes taken so far from the writes to a pipe. -/
structure Streamed (L : PipeLog μ) (s : Scheduler μ κ) (S : PipeId → Bytes) : Prop where
  told : Told L s
  carries : ∀ p, Carries s L p (S p)
  short : ShortsClosed L s

/-- The calls stay as they are, and so does every VM that waits in a write. -/
theorem Streamed.idle {S : PipeId → Bytes} (h : Streamed L s S)
    (haccepted : L'.accepted = L.accepted) (hreturned : L'.returned = L.returned)
    (hnext : s.nextVmId ≤ s'.nextVmId)
    (hvms : ∀ (v : VmId) (state : VmState) (m : Machine μ), s'.states[v]? = some state →
      s'.instantiated[v]? = some m → L.openCalls v = waitingCalls v m.memory state)
    (hwriters : ∀ (v : VmId) (state : VmState), s.states[v]? = some state →
      state.writing? ≠ none → s'.states[v]? = some state) (hkeeps : KeepsClosed s s') :
    Streamed L' s' S := by
  refine ⟨h.told.idle haccepted hreturned hnext hvms, fun p => ?_, h.short.idle haccepted hkeeps⟩
  apply (h.carries p).idle
  · rw [PipeLog.writesOn, haccepted, PipeLog.writesOn]
  · exact fun v state hstate hwrite => hwriters v state hstate (by simp [hwrite])

theorem Streamed.read {S : PipeId → Bytes} (h : Streamed L s S) (hc : L.openCalls v = [c])
    (hread : c.isWrite = false) (hf : PipeLog.Returning f) {state : VmState}
    (hstate : s.states[v]? = some state) (hnot : state.writing? = none) (hfilled : (f c).Filled) :
    Streamed (L.settle v f) (s.settled v m core .runnable) S := by
  have hone : ∀ c' ∈ L.openCalls v, c' = c := by
    intro c' hc'
    rwa [hc, List.mem_singleton] at hc'
  refine ⟨h.told.settled hf ?_, fun p => (h.carries p).read hc hread hf hstate hnot,
    h.short.settled hf rfl rfl ?_⟩
  · intro c' hc' _
    rw [hone c' hc']
    exact hfilled
  · intro c' hc' hshort
    rw [hone c' hc', PipeCall.Short, hf.isWrite, hread] at hshort
    cases hshort.1

/-- A write returns with the bytes that are taken from it last. -/
theorem Streamed.written {S : PipeId → Bytes} (h : Streamed L s S) (hc : L.openCalls v = [c])
    (hwrite : c.isWrite = true) {consumed n : UInt64}
    (hstate : s.states[v]? = some (c.writing consumed)) (hle : n ≤ c.args.length)
    (hdata : c.contents.take n.toNat = c.contents.take consumed.toNat ++ data)
    (hshort : n < c.args.length → c.args.pipe.otherPipe ∉ s.pipes) :
    Streamed (L.settle v (PipeCall.finish success ∘ PipeCall.report c.args.lengthAddr n))
      (s.settled v m core .runnable) fun p => if c.args.pipe = p then S p ++ data else S p := by
  have hf : PipeLog.Returning (PipeCall.finish success ∘ PipeCall.report c.args.lengthAddr n :
      PipeCall μ → PipeCall μ) := PipeLog.returning_report c.args.lengthAddr n success
  have hone : ∀ c' ∈ L.openCalls v, c' = c := by
    intro c' hc'
    rwa [hc, List.mem_singleton] at hc'
  refine ⟨h.told.settled hf ?_, fun p => (h.carries p).written hc hwrite hstate hle hdata,
    h.short.settled hf rfl rfl ?_⟩
  · intro c' hc' hread
    rw [hone c' hc', hwrite] at hread
    cases hread
  · intro c' hc' hc''
    rw [hone c' hc', PipeCall.report_finish rfl] at hc''
    obtain ⟨_, _, n', hn', hlt⟩ := hc''
    cases hn'
    rw [hone c' hc']
    exact hshort hlt

/-- A write waits on with more of its bytes taken. -/
theorem Streamed.taken {S : PipeId → Bytes} (h : Streamed L s S) (hc : L.openCalls v = [c])
    (hwrite : c.isWrite = true) {consumed consumed' : UInt64}
    (hstate : s.states[v]? = some (c.writing consumed)) (hm : s.instantiated[v]? = some m)
    (hdata : c.contents.take consumed'.toNat = c.contents.take consumed.toNat ++ data) :
    Streamed L (s.settled v m m.toCore (c.writing consumed'))
      fun p => if c.args.pipe = p then S p ++ data else S p := by
  refine ⟨h.told.idle rfl rfl (UInt64.le_refl _) ?_, fun p => ?_, ?_⟩
  · intro u state' m' hstate' hm'
    simp only [Scheduler.settled, accessed, getElem?_insert] at hstate' hm'
    by_cases huv : u = v
    · subst huv
      rw [if_pos rfl] at hstate' hm'
      cases hstate'
      cases hm'
      rw [h.told.waiting u _ m hstate hm, PipeCall.writing, PipeCall.writing, waitingCalls,
        waitingCalls]
    · rw [if_neg huv] at hstate' hm'
      exact h.told.waiting u state' m' hstate' hm'
  · by_cases hp : c.args.pipe = p
    · rw [if_pos hp]
      apply (h.carries p).taken (by rw [hc]; exact List.mem_singleton_self c)
        hwrite hp hstate _ hdata
      simp only [Scheduler.settled, getElem?_insert, if_pos]
    · rw [if_neg hp]
      exact (h.carries p).idle rfl (settled_writers hstate fun heq => hp (Option.some.inj heq))
  · exact h.short.idle rfl (.of_pipes rfl rfl)

/-- A call on a pipe whose other end is closed returns. -/
theorem Streamed.closed {state : VmState} (h : Streamed L s L.stream) (hrun : Running s)
    (hstate : s.states[v]? = some state) (hclosed : isClosed s.pipes state.waiting? = true)
    (hm : s.instantiated[v]? = some m) (hL : L' = (closedEvents v state).foldl PipeLog.note L) :
    Streamed L' (s.settled v m core .runnable) L'.stream := by
  have hc := h.told.waiting v state m hstate hm
  cases state with
  | waitForRead pipe length bufferAddr lengthAddr =>
    rw [closedEvents, PipeLog.foldl_reported] at hL
    have hf : PipeLog.Returning (PipeCall.finish success ∘ PipeCall.report lengthAddr 0 :
        PipeCall μ → PipeCall μ) := PipeLog.returning_report lengthAddr 0 success
    let c : PipeCall μ := .issue v false { pipe, length, bufferAddr, lengthAddr } m.memory
    have hreturn := PipeCall.report_finish (c := c) (show lengthAddr = c.args.lengthAddr from rfl)
      0 success
    have hstream : L'.stream = L.stream := by
      funext p
      have hnothing : L.stream p ++ c.stored = L.stream p := List.append_nil _
      rw [hL, stream_settle_read hc hf rfl (by rw [hreturn]), hreturn]
      dsimp only
      rw [hnothing, ite_self]
    rw [hstream, hL]
    apply h.read hc rfl hf hstate rfl
    rw [hreturn]
    exact ⟨0, rfl, rfl, UInt64.zero_le⟩
  | waitForWrite pipe consumed length bufferAddr lengthAddr =>
    rw [closedEvents, PipeLog.foldl_reported] at hL
    have hf : PipeLog.Returning (PipeCall.finish success ∘ PipeCall.report lengthAddr consumed :
        PipeCall μ → PipeCall μ) := PipeLog.returning_report lengthAddr consumed success
    have hle := hrun.consumed_le hstate
    have hstream : L'.stream = fun p => if pipe = p then L.stream p ++ [] else L.stream p := by
      funext p
      rw [hL, stream_settle_write hc hf rfl, List.append_nil, ite_self]
    rw [hstream, hL]
    apply h.written hc rfl hstate hle (List.append_nil _).symm
    · intro _
      change pipe.otherPipe ∉ s.pipes
      simpa [isClosed, VmState.waiting?, ← ExtTreeMap.contains_iff_mem] using hclosed
  | _ => simp [isClosed, VmState.waiting?] at hclosed

/-- Bytes go from a write to a read, which returns. The write returns too if these were
its last bytes. -/
theorem Streamed.transferred {rd : Read} {wr : Write} {mr mw : Machine μ}
    {readCore writeCore : Core μ} (h : Streamed L s L.stream) (hrun : Running s)
    (hread : s.states[rd.vmId]? = some (rd.state wr.pipe.otherPipe))
    (hwrite : s.states[wr.vmId]? = some wr.state) (hmr : s.instantiated[rd.vmId]? = some mr)
    (hmw : s.instantiated[wr.vmId]? = some mw)
    (hload : Memory.loadBytes mw.memory (wr.bufferAddr + wr.consumed) (wr.copiable rd) = .ok data)
    (hwriteCore : applyEvents (wr.events rd) mw.toCore = .ok writeCore)
    (hL : L' = (transferLog rd wr data).foldl PipeLog.note L) :
    Streamed L' ((s.settled rd.vmId mr readCore .runnable).settled wr.vmId mw writeCore
      (wr.next rd))
      L'.stream := by
  have hne := ne_of_reading_writing hread hwrite
  have hc := h.told.waiting _ _ mr hread hmr
  have hc' := h.told.waiting _ _ mw hwrite hmw
  let f : PipeCall μ → PipeCall μ := PipeCall.finish success ∘
    PipeCall.report rd.lengthAddr (wr.copiable rd) ∘ PipeCall.fill rd.bufferAddr data
  have hf : PipeLog.Returning f :=
    (PipeLog.returning_report rd.lengthAddr (wr.copiable rd) success).fill rd.bufferAddr data
  let c : PipeCall μ := .issue rd.vmId false
    ⟨wr.pipe.otherPipe, rd.length, rd.bufferAddr, rd.lengthAddr⟩ mr.memory
  have hreturn : f c = { c with
      stored := data, reported := some (wr.copiable rd), code := some success } := by
    simp only [f, c, Function.comp_apply, PipeCall.fill, PipeCall.issue, if_true, List.nil_append,
      PipeCall.report, PipeCall.finish]
  have hlength : data.length = (wr.copiable rd).toNat := by
    rw [Memory.loadBytes_eq hload, List.length_map, List.length_range]
  have hread' : Streamed (L.settle rd.vmId f) (s.settled rd.vmId mr readCore .runnable)
      L.stream := by
    apply h.read hc rfl hf hread rfl
    change (f c).Filled
    rw [hreturn]
    exact ⟨_, rfl, hlength, wr.copiable_le_left rd⟩
  have hstream : ∀ p, (L.settle rd.vmId f).stream p =
      if wr.pipe = p then L.stream p ++ data else L.stream p := by
    intro p
    have hsettle : (L.settle rd.vmId f).stream p =
        if wr.pipe.otherPipe = p.otherPipe then L.stream p ++ (f c).stored else L.stream p :=
      stream_settle_read hc hf rfl (congrArg PipeCall.code hreturn)
    rw [hsettle, hreturn]
    by_cases hp : wr.pipe = p
    · rw [if_pos hp, if_pos (congrArg PipeId.otherPipe hp)]
    · rw [if_neg hp, if_neg fun heq => hp (PipeId.otherPipe_injective heq)]
  -- What is left is the part of the writer, whose call and machine are as before.
  let c' : PipeCall μ := .issue wr.vmId true
    ⟨wr.pipe, wr.length, wr.bufferAddr, wr.lengthAddr⟩ mw.memory
  have hopen : (L.settle rd.vmId f).openCalls wr.vmId = [c'] := by
    rw [PipeLog.openCalls_settle hf, if_neg hne.symm]
    exact hc'
  have hwrite' : (s.settled rd.vmId mr readCore .runnable).states[wr.vmId]? =
      some (c'.writing wr.consumed) := by
    simp only [Scheduler.settled, getElem?_insert, if_neg hne.symm]
    exact hwrite
  have hmw' : (s.settled rd.vmId mr readCore .runnable).instantiated[wr.vmId]? = some mw := by
    simp only [Scheduler.settled, accessed, getElem?_insert, if_neg hne.symm, hmw]
  have hle := hrun.consumed_le hwrite
  obtain ⟨hadd, hbound⟩ : (wr.consumed + wr.copiable rd).toNat = _ ∧ _ := Write.copiable_toNat hle
  have hdata : c'.contents.take (wr.consumed + wr.copiable rd).toNat =
      c'.contents.take wr.consumed.toNat ++ data := by
    rw [hadd]
    exact PipeCall.contents_take_add hbound hload
  rw [transferLog, List.foldl_append, PipeLog.foldl_filled] at hL
  by_cases hfinishes : wr.finishes rd = true
  · have heq : wr.consumed + wr.copiable rd = wr.length := beq_iff_eq.mp hfinishes
    rw [heq] at hdata
    rw [Write.events, if_pos hfinishes, PipeLog.foldl_reported] at hL
    have hstream' : L'.stream = fun p =>
        if wr.pipe = p then L.stream p ++ data else L.stream p := by
      funext p
      rw [hL, stream_settle_write hopen (PipeLog.returning_report _ _ _) rfl]
      exact hstream p
    rw [hstream', hL, Write.next, if_pos hfinishes]
    apply hread'.written hopen rfl hwrite' (UInt64.le_refl _) hdata
    exact fun hlt => absurd hlt (UInt64.lt_irrefl _)
  · rw [Write.events, if_neg hfinishes] at hL hwriteCore
    cases hwriteCore
    have hstream' : L'.stream = fun p =>
        if wr.pipe = p then L.stream p ++ data else L.stream p := by
      funext p
      rw [hL]
      exact hstream p
    rw [hstream', hL, Write.next, if_neg hfinishes]
    exact hread'.taken hopen rfl hwrite' hmw' hdata

/-- A machine runs. What it issues is not accepted yet. -/
theorem Streamed.executed {result : Except Error Int8} {cpu : Cpu μ} {posted : List Message}
    {S : PipeId → Bytes} (h : Streamed L s S) (hexec : Executes env s id m result cpu posted) :
    Streamed (L.note (.exec id m.toCpu cpu result posted)) (s.ran id m result cpu) S := by
  refine h.idle rfl rfl (UInt64.le_refl _) ?_ (fun _ _ hstate _ => hstate) (.of_pipes rfl rfl)
  intro v state m' hstate hm'
  simp only [ran, getElem?_insert] at hstate hm'
  by_cases hv : v = id
  · subst hv
    rw [hexec.state] at hstate
    cases hstate
    exact h.told.waiting v _ m hexec.state hexec.machine
  · rw [if_neg hv] at hm'
    exact h.told.waiting v state m' hstate hm'

omit [Memory μ] in
theorem of_mem_waitingCalls {memory : μ} {state : VmState} (h : c ∈ waitingCalls v memory state) :
    c.vmId = v ∧ c.code = none := by
  cases state <;> simp [waitingCalls] at h <;> rw [h] <;> exact ⟨rfl, rfl⟩

omit [Memory μ] in
theorem waitingCalls_cases (v : VmId) (memory : μ) (state : VmState) :
    waitingCalls v memory state = [] ∨ ∃ c, waitingCalls v memory state = [c] := by
  cases state with
  | waitForRead => exact Or.inr ⟨_, rfl⟩
  | waitForWrite => exact Or.inr ⟨_, rfl⟩
  | _ => exact Or.inl rfl

omit [Memory μ] in
/-- The call of a VM that is put in a waiting state, if it waits for a pipe. -/
theorem blocking_calls {msg : Message} {state : VmState} {memory : μ}
    (h : s.blocking msg = some state) :
    (msg.pipeCall? memory).toList = waitingCalls msg.vmId memory state ∧
      ∀ c ∈ waitingCalls msg.vmId memory state, s.pipes[c.args.pipe]? = some msg.vmId ∧
        c.args.pipe.otherPipe ∈ s.pipes ∧ (c.isWrite = true → state = c.writing 0) := by
  cases msg with
  | spawn v args => cases h
  | pipe v args => cases h
  | join v args =>
    simp only [blocking, Option.ite_none_right_eq_some, Option.some.injEq] at h
    obtain ⟨_, rfl⟩ := h
    exact ⟨rfl, fun c hc => by cases hc⟩
  | pipeRead v args =>
    simp only [blocking, Option.ite_none_right_eq_some, Option.some.injEq] at h
    obtain ⟨⟨howns, hopen⟩, rfl⟩ := h
    refine ⟨rfl, fun c hc => ?_⟩
    rw [waitingCalls, List.mem_singleton] at hc
    rw [hc]
    exact ⟨howns, hopen, fun hwrite => by cases hwrite⟩
  | pipeWrite v args =>
    simp only [blocking, Option.ite_none_right_eq_some, Option.some.injEq] at h
    obtain ⟨⟨howns, hopen⟩, rfl⟩ := h
    refine ⟨rfl, fun c hc => ?_⟩
    rw [waitingCalls, List.mem_singleton] at hc
    rw [hc]
    exact ⟨howns, hopen, fun _ => rfl⟩

omit [Memory μ] in
theorem openCalls_accepted {memory : μ} {state : VmState} {u : VmId}
    (haccepted : L'.accepted = L.accepted ++ waitingCalls v memory state) :
    L'.openCalls u = L.openCalls u ++ if u = v then waitingCalls v memory state else [] := by
  rw [PipeLog.openCalls, haccepted, List.filter_append, PipeLog.openCalls]
  congr 1
  split
  · rename_i huv
    rw [List.filter_eq_self]
    intro c hc
    obtain ⟨hv, hcode⟩ := of_mem_waitingCalls hc
    simp [PipeCall.isOpen, hv, hcode, huv]
  · rename_i huv
    rw [List.filter_eq_nil_iff]
    intro c hc
    simp [PipeCall.isOpen, (of_mem_waitingCalls hc).1, Ne.symm huv]

omit [Memory μ] in
theorem Told.accepted {state : VmState} (h : Told L s) (hrun : Running s)
    (hstate : s.states[v]? = some .runnable) (hm : s.instantiated[v]? = some m)
    (haccepted : L'.accepted = L.accepted ++ waitingCalls v m.memory state)
    (hreturned : L'.returned = L.returned) :
    Told L' { s with states := s.states.insert v state } := by
  refine ⟨?_, ?_, ?_⟩
  · rw [haccepted]
    intro c hc
    rcases List.mem_append.mp hc with hc | hc
    · exact h.fresh c hc
    · rw [(of_mem_waitingCalls hc).1]
      exact (hrun.accounted v).mpr (Or.inl (mem_iff_getElem?.mpr ⟨_, hstate⟩))
  · intro u state' m' hu hm'
    rw [openCalls_accepted haccepted]
    rw [getElem?_insert] at hu
    split at hu
    · rename_i huv
      subst huv
      cases hu
      rw [hm, Option.some.injEq] at hm'
      have hidle : L.openCalls u = [] := h.waiting u _ m hstate hm
      rw [hidle, if_pos rfl, List.nil_append, hm']
    · rename_i huv
      rw [if_neg huv, List.append_nil]
      exact h.waiting u state' m' hu hm'
  · rw [hreturned]
    exact h.reads

/-- The call of a VM is accepted. -/
theorem Streamed.blocked {msg : Message} {state : VmState} (h : Streamed L s L.stream)
    (hrun : Running s) (hid : msg.vmId = id) (hblock : s.blocking msg = some state)
    (hstate : s.states[id]? = some .runnable) (hm : s.instantiated[id]? = some m)
    (hissued : L.issued id = msg.pipeCall? m.memory) (hL : L' = L.note (.block id state)) :
    Streamed L' { s with states := s.states.insert id state } L'.stream := by
  subst hid
  obtain ⟨hcalls, hcall⟩ : (msg.pipeCall? m.memory).toList = _ ∧ _ := blocking_calls hblock
  have haccepted : L'.accepted = L.accepted ++ waitingCalls msg.vmId m.memory state := by
    rw [hL, PipeLog.note, hissued, hcalls]
  have hreturned : L'.returned = L.returned := by
    rw [hL]
    rfl
  have hstream : L'.stream = L.stream := by
    funext p
    rw [PipeLog.stream, PipeLog.readsOn, hreturned]
    rfl
  have hkept : ∀ (v : VmId) (state' : VmState), s.states[v]? = some state' →
      state'.writing? ≠ none → (s.states.insert msg.vmId state)[v]? = some state' := by
    intro v state' hv hwrite
    rw [getElem?_insert, if_neg, hv]
    rintro rfl
    rw [hstate, Option.some.injEq] at hv
    exact hwrite (hv ▸ rfl)
  rw [hstream]
  refine ⟨h.told.accepted hrun hstate hm haccepted hreturned, fun p => ?_, ?_⟩
  · have hwrites : L'.writesOn p = L.writesOn p ++
        (waitingCalls msg.vmId m.memory state).filter fun c => c.isWrite && c.args.pipe == p := by
      rw [PipeLog.writesOn, haccepted, List.filter_append, PipeLog.writesOn]
    have hsame : (∀ c ∈ waitingCalls msg.vmId m.memory state,
        ¬ (c.isWrite = true ∧ c.args.pipe = p)) →
        Carries { s with states := s.states.insert msg.vmId state } L' p (L.stream p) := by
      intro hnone
      apply (h.carries p).idle _ fun v state' hv hwrite => hkept v state' hv (by simp [hwrite])
      rw [hwrites, List.append_right_eq_self, List.filter_eq_nil_iff]
      intro c hc
      simpa using hnone c hc
    rcases waitingCalls_cases msg.vmId m.memory state with hnone | ⟨c, hc⟩
    · exact hsame (by simp [hnone])
    · by_cases hp : c.isWrite = true ∧ c.args.pipe = p
      · have hmem : c ∈ waitingCalls msg.vmId m.memory state := by
          rw [hc]
          exact List.mem_singleton_self c
        obtain ⟨howns, _, hwriting⟩ := hcall c hmem
        obtain ⟨hvm, hcode⟩ := of_mem_waitingCalls hmem
        refine (h.carries p).accepted ?_ (c := c) ?_ hcode ?_
        · intro v state' hv hwrite
          have howns' := (hrun.writing hv hwrite).1
          rw [← hp.2, howns, Option.some.injEq] at howns'
          rw [← howns', hstate, Option.some.injEq] at hv
          rw [← hv] at hwrite
          cases hwrite
        · simp [hwrites, hc, hp.1, hp.2]
        · rw [hvm, getElem?_insert, if_pos rfl, hwriting hp.1]
      · apply hsame
        intro c' hc'
        rw [hc, List.mem_singleton] at hc'
        rwa [hc']
  · intro c hc
    rw [haccepted] at hc
    rcases List.mem_append.mp hc with hc | hc
    · exact h.short c hc
    · obtain ⟨v, hv⟩ := mem_iff_getElem?.mp (hcall c hc).2.1
      refine ⟨(hrun.owner _ v hv).2.1, fun hshort => ?_⟩
      have hcode := hshort.2.1
      rw [(of_mem_waitingCalls hc).2] at hcode
      cases hcode

/-- The message of a VM is answered. -/
theorem Streamed.answered {msg : Message} (h : Streamed L s L.stream) (hinv : Invariant s)
    (hid : msg.vmId = id) (hstate : s.states[id]? = some .runnable)
    (hm : s.instantiated[id]? = some m) (hissued : L.issued id = msg.pipeCall? m.memory)
    (hanswer : Answer env s id m msg l s') (hkeeps : KeepsClosed s s')
    (hL : L' = l.foldl PipeLog.note L) : Streamed L' s' L'.stream := by
  have hrun := hinv.running hstate (by simp)
  have hanswers := hanswer.answers hinv.resident hm hstate hid
  have hidle : L.openCalls id = [] := h.told.waiting id _ m hstate hm
  -- An answer that does not block its sender changes no call.
  have hfree : s'.states[id]? = some .runnable → L' = L → Streamed L' s' L'.stream := by
    intro hsender hsame
    rw [hsame]
    refine h.idle rfl rfl hanswers.nextVmId ?_ ?_ hkeeps
    · intro v state m' hv hm'
      by_cases heq : v = id
      · rw [heq, hsender, Option.some.injEq] at hv
        rw [heq, hidle, ← hv]
        rfl
      · rcases hanswers.new v state hv with hold | ⟨hnew, _, rfl⟩
        · obtain ⟨hstate', hinst⟩ := hanswers.others v heq hold
          exact h.told.waiting v state m' (hstate' ▸ hv) (hinst ▸ hm')
        · exact h.told.new (hnew ▸ UInt64.le_refl _)
    · intro v state hv hwrite
      have hne : v ≠ id := by
        rintro rfl
        rw [hstate, Option.some.injEq] at hv
        exact hwrite (hv ▸ rfl)
      rw [(hanswers.others v hne (mem_iff_getElem?.mpr ⟨_, hv⟩)).1, hv]
  have hquiet : ∀ l' : List (Event μ), (∀ ev ∈ l', ev ∈ l) → l'.all Event.quiet = true →
      l'.foldl PipeLog.note L = L := by
    intro l' hsub hquiet
    refine PipeLog.foldl_quiet (List.all_eq_true.mp hquiet) fun ev hev v htarget => ?_
    by_cases heq : v = id
    · rw [heq, hidle]
    · have hown := hanswers.own v heq
      have hmem : ev ∈ own v l := List.mem_filter.mpr ⟨hsub ev hev, by simp [htarget]⟩
      rw [hown] at hmem
      cases hmem
  cases hanswer with
  | rejected => exact hfree (by simp [settled]) (hL.trans (hquiet _ (fun _ h => h) rfl))
  | blocked hblock => exact h.blocked hrun hid hblock hstate hm hissued hL
  | joined => exact hfree (by simp [settled]) (hL.trans (hquiet _ (fun _ h => h) rfl))
  | piped => exact hfree (by simp [settled]) (hL.trans (hquiet _ (fun _ h => h) rfl))
  | spawned =>
    refine hfree (by simp [settled]) (hL.trans ?_)
    exact hquiet (spawnEvents id _ s.nextVmId) (fun _ h => List.mem_cons_of_mem _ h) rfl

theorem Woken.quiet {code : Int8} {joiners : List (VmId × UInt64)}
    (h : Woken code joiners s l s') : ∀ ev ∈ l, ev.quiet = true := by
  induction h with
  | nil => simp
  | cons hid hm hcore h ih =>
    intro ev hev
    rcases List.mem_append.mp hev with hev | hev
    · simp only [joinEvents, List.mem_cons, List.not_mem_nil, or_false] at hev
      rcases hev with rfl | rfl <;> rfl
    · exact ih ev hev

omit [Memory μ] in
/-- A VM that joins has no open call. -/
theorem Told.joining (h : Told L s) (hres : Resident s)
    (hv : v ∈ (joiningVms s.states id).map Prod.fst) : L.openCalls v = [] ∧
      ∃ addr, s.states[v]? = some (.join id addr) := by
  obtain ⟨⟨k, addr⟩, hk, rfl⟩ := List.mem_map.mp hv
  have hjoin := mem_joiningVms.mp hk
  obtain ⟨m, hm⟩ := hres.machine (mem_iff_getElem?.mpr ⟨_, hjoin⟩)
  exact ⟨h.waiting k _ m hjoin hm, addr, hjoin⟩

theorem Told.woken {code : Int8} (h : Told L s) (hres : Resident s)
    (hwoken : Woken code (joiningVms s.states id) s l s') : l.foldl PipeLog.note L = L := by
  apply PipeLog.foldl_quiet hwoken.quiet
  intro ev hev v htarget
  by_cases hv : v ∈ (joiningVms s.states id).map Prod.fst
  · exact (h.joining hres hv).1
  · have hown := (hwoken.own joiningVms_nodup).2.1 v hv
    have hmem : ev ∈ own v l := List.mem_filter.mpr ⟨hev, by simp [htarget]⟩
    rw [hown] at hmem
    cases hmem

/-- The joins on a VM end and the VM is removed. -/
theorem Streamed.exited {code : Int8} (h : Streamed L s L.stream)
    (hstate : s.states[id]? = some .runnable) (hres : Resident s)
    (hwoken : Woken code (joiningVms s.states id) s l s') (hL : L' = l.foldl PipeLog.note L)
    (hkeeps : KeepsClosed s (s'.purged id code)) : Streamed L' (s'.purged id code) L'.stream := by
  obtain ⟨_, hnext, _, _, _, _, _, hstates, hmachines⟩ := hwoken.frame
  rw [hL, h.told.woken hres hwoken]
  refine h.idle rfl rfl (hnext ▸ UInt64.le_refl _) ?_ ?_ hkeeps
  · intro v state m' hv hm'
    simp only [purged, getElem?_erase] at hv hm'
    split at hv
    · cases hv
    rename_i hne
    rw [if_neg hne] at hm'
    rw [hstates] at hv
    split at hv
    · rename_i hjoin
      cases hv
      exact (h.told.joining hres hjoin).1
    · rename_i hjoin
      rw [hmachines v hjoin] at hm'
      exact h.told.waiting v state m' hv hm'
  · intro v state hv hwrite
    have hne : v ≠ id := by
      rintro rfl
      rw [hstate, Option.some.injEq] at hv
      exact hwrite (hv ▸ rfl)
    have hnot : v ∉ (joiningVms s.states id).map Prod.fst := by
      intro hjoin
      obtain ⟨_, addr, hjoin⟩ := h.told.joining hres hjoin
      rw [hjoin, Option.some.injEq] at hv
      exact hwrite (hv ▸ rfl)
    simp only [purged, getElem?_erase]
    rw [if_neg hne, hstates, if_neg hnot, hv]

/-- The bytes of the reads that returned with success are the delivered parts of the
writes to the other end, in order, and each of these reads reports its bytes. -/
structure Lossless (L : PipeLog μ) (p : PipeId) : Prop where
  fifo : ∃ delivered, List.Forall₂ PipeCall.Delivers (L.writesOn p) delivered ∧
    L.stream p = delivered.flatten
  filled : ∀ c ∈ L.readsOn p.otherPipe, c.Filled

theorem Carries.fifo (h : Carries s L p S) :
    ∃ delivered, List.Forall₂ PipeCall.Delivers (L.writesOn p) delivered ∧ S =
      delivered.flatten := by
  obtain ⟨done, hdone, h⟩ := h
  have hdelivers : List.Forall₂ PipeCall.Delivers done (done.map PipeCall.delivered) := by
    rw [List.forall₂_map_right_iff, List.forall₂_same]
    exact fun c hc => (hdone c hc).delivers
  rcases h with ⟨hall, hS⟩ | ⟨c, consumed, hlast, hcode, _, hS⟩
  · refine ⟨done.map PipeCall.delivered, hall ▸ hdelivers, ?_⟩
    rw [hS, List.flatMap_def]
  · refine ⟨done.map PipeCall.delivered ++ [c.contents.take consumed.toNat], ?_, ?_⟩
    · rw [hlast]
      refine List.rel_append hdelivers (.cons ⟨List.take_prefix _ _, fun hsuccess => ?_⟩ .nil)
      rw [hcode] at hsuccess
      cases hsuccess
    · rw [hS, List.flatMap_def, List.flatten_append, List.flatten_singleton]

theorem Streamed.lossless (h : Streamed L s L.stream) (p : PipeId) : Lossless L p := by
  refine ⟨(h.carries p).fifo, fun c hc => ?_⟩
  simp only [PipeLog.readsOn, List.mem_filter, Bool.and_eq_true, Bool.not_eq_true'] at hc
  exact h.told.reads c hc.1 hc.2.1.1

/-- What the log tells of all pipes: while the root runs everything, and once it has
exited what was delivered until then. -/
def Conveyed (L : PipeLog μ) (r : Scheduler μ κ) : Prop :=
  Streamed L r L.stream ∨ Completed r ∧ (∀ p, Lossless L p) ∧ ShortsClosed L r

theorem Conveyed.lossless (h : Conveyed L r) (p : PipeId) : Lossless L p := by
  rcases h with h | ⟨_, h, _⟩
  · exact h.lossless p
  · exact h p

theorem Conveyed.short (h : Conveyed L r) : ShortsClosed L r := by
  rcases h with h | ⟨_, _, h⟩
  · exact h.short
  · exact h

theorem Conveyed.streamed (h : Conveyed L r) (hrun : Running r) : Streamed L r L.stream := by
  refine h.resolve_right fun hdone => hrun.root_state ?_
  rw [hdone.1, getElem?_insert, if_pos rfl]

/-- Every step leaves from the running phase. -/
theorem Step.running (h : Step env s l s') (hinv : Invariant s) : Running s := by
  cases h with
  | started limitCycles hroot =>
    refine hinv.phase.resolve_right fun hdone => hroot ?_
    rw [hdone, getElem?_insert, if_pos rfl]
  | closed hstate hclosed =>
    refine hinv.running hstate ?_
    rintro rfl
    simp [isClosed, VmState.waiting?] at hclosed
  | transferred hread => exact hinv.running hread (by simp [Read.state])
  | interrupted hexec => exact hinv.running hexec.state (by simp)
  | answered hexec => exact hinv.running hexec.state (by simp)
  | exited hexec => exact hinv.running hexec.state (by simp)
  | rootExited hexec => exact hinv.running hexec.state (by simp)

theorem Step.conveyed (h : Step env s l s') (hinv : Invariant s) (hL : Conveyed L s) :
    Conveyed (l.foldl PipeLog.note L) s' := by
  have hrun := h.running hinv
  have hkeeps := h.keepsClosed hrun
  have hstreamed := hL.streamed hrun
  cases h with
  | started => exact Or.inl hstreamed
  | closed hstate hclosed hm => exact Or.inl (hstreamed.closed hrun hstate hclosed hm rfl)
  | transferred hread hwrite hopen hmr hmw hload hreadCore hwriteCore =>
    exact Or.inl (hstreamed.transferred hrun hread hwrite hmr hmw hload hwriteCore rfl)
  | interrupted hexec => exact Or.inl (hstreamed.executed hexec)
  | @answered id m cpu msg l s' hexec hid hchecked hanswer =>
    have hran := hstreamed.executed hexec
    refine Or.inl (hran.answered (hinv.ran hexec) hid hexec.state ran_machine ?_ hanswer hkeeps rfl)
    exact if_pos rfl
  | exited hexec hne hwoken =>
    have hran := hstreamed.executed hexec
    have hres := (hinv.ran hexec).resident
    exact Or.inl (hran.exited hexec.state hres hwoken rfl hkeeps)
  | @rootExited m code cpu hexec =>
    have hran := hstreamed.executed hexec
    refine Or.inr ⟨rfl, fun p => ?_, hran.short.idle rfl hkeeps⟩
    exact hran.lossless p

/-- The root is booted: there is no call yet. -/
theorem booted_conveyed (machine : Machine μ) :
    Conveyed (.empty : PipeLog μ) ((new : Scheduler μ κ).booted rootVmId machine []) := by
  refine Or.inl ⟨⟨by simp [PipeLog.empty], ?_, by simp [PipeLog.empty]⟩, fun p => ?_,
    by simp [ShortsClosed, PipeLog.empty]⟩
  · intro v state m hv _
    simp only [booted, new, getElem?_insert] at hv
    split at hv
    · cases hv
      rfl
    · simp at hv
  · exact ⟨[], by simp, Or.inl ⟨rfl, rfl⟩⟩

theorem Steps.conveyed (h : Steps env s l s') (hinv : Invariant s)
    (hL : Conveyed (pipeLog tr) s) : Conveyed (pipeLog (tr ++ l)) s' := by
  have hkept : Invariant s' ∧ Conveyed (pipeLog (tr ++ l)) s' := by
    refine h.keeps (I := fun tr s => Invariant s ∧ Conveyed (pipeLog tr) s) ?_ ⟨hinv, hL⟩
    rintro tr s l s' ⟨hinv, hL⟩ hstep
    rw [pipeLog_append]
    exact ⟨hstep.invariant hinv, hstep.conveyed hinv hL⟩
  exact hkept.2

theorem Run.conveyed (h : Run env tr r) : Conveyed (pipeLog tr) r := by
  obtain ⟨charge, machine, l, _, rfl, hsteps⟩ := h
  have hboot : Conveyed (pipeLog [.boot rootVmId charge])
      ((new : Scheduler μ κ).booted rootVmId machine []) := booted_conveyed machine
  exact Steps.conveyed hsteps (booted_invariant machine) hboot

theorem Answer.pipes_kept {msg : Message} (h : Answer env s id m msg l s') (hp : p ∈ s.pipes) :
    p ∈ s'.pipes := by
  cases h with
  | piped => exact mem_insert.mpr (Or.inr (mem_insert.mpr (Or.inr hp)))
  | spawned =>
    simp only [mem_iff_getElem?, settled, accessed, booted, getElem?_passed] at hp ⊢
    split
    · exact ⟨_, rfl⟩
    · exact hp
  | _ => exact hp

/-- A write that has returned short had its read end closed before the step. -/
theorem Step.short (h : Step env s l s') (hinv : Invariant s) (hL : Conveyed L s) :
    ∀ c ∈ (l.foldl PipeLog.note L).accepted, c.Short → c.args.pipe.otherPipe ∉ s.pipes := by
  have hrun := h.running hinv
  have hafter := (h.conveyed hinv hL).short
  intro c hc hshort
  have hclosed := (hafter c hc).2 hshort
  cases h with
  | answered hexec hid hchecked hanswer => exact fun hp => hclosed (hanswer.pipes_kept hp)
  | exited hexec hne hwoken =>
    have hran := (hL.streamed hrun).executed hexec
    have hsame : _ = PipeLog.note L _ := hran.told.woken (hinv.ran hexec).resident hwoken
    rw [List.foldl_cons, hsame] at hc
    exact (hL.short c hc).2 hshort
  | _ => exact hclosed

/-- In a round all writes that return do so in its pass, before its execution. -/
theorem RoundOf.short {limitCycles : ℕ} (h : RoundOf env limitCycles s s' l) (hinv : Invariant s)
    (hL : Conveyed (pipeLog tr) s) : ∀ c ∈ (pipeLog (tr ++ l)).accepted, c.Short →
      c.args.pipe.otherPipe ∉ s.pipes := by
  obtain ⟨s₁, l₁, l₂, _, hpass, hstep, rfl⟩ := h
  have hinv₁ := Steps.invariant hpass.steps hinv
  have hL₁ := Steps.conveyed hpass.steps hinv hL
  have hlog : pipeLog (tr ++ .iterate limitCycles :: (l₁ ++ l₂)) =
      l₂.foldl PipeLog.note (pipeLog (tr ++ l₁)) := by
    simp only [pipeLog_append, List.foldl_cons, List.foldl_append]
    rfl
  rw [hlog, ← hpass.pipes]
  exact hstep.short hinv₁ hL₁

/-- The pipes are byte streams without loss, in every reachable scheduler and for every
write end: the bytes that the successful reads on the other end stored, in the order in
which they returned, are the delivered parts of the writes accepted, in the order in which
they were issued. A write that returns less than it asks for, in this move or before,
had its read end closed. -/
theorem pipes_lossless (env : Env μ κ) {tr : List (Event μ)} {s : Scheduler μ κ}
    (h : Reachable maxInstantiatedVms env tr s) (p : PipeId) :
    Lossless (pipeLog tr) p ∧ ∀ l s', Move maxInstantiatedVms env s l s' →
      ∀ c ∈ (pipeLog (tr ++ l)).writesOn p, c.Short → p.otherPipe ∉ s.pipes := by
  rcases h.driven two_le_maxInstantiatedVms with ⟨rfl, rfl⟩ | ⟨r, hr⟩
  · refine ⟨⟨⟨[], .nil, rfl⟩, fun c hc => by cases hc⟩, ?_⟩
    intro l s' _ c _ _
    simp [new]
  have hL := hr.2.conveyed
  refine ⟨hL.lossless p, fun l s' hmove c hc hshort => ?_⟩
  obtain ⟨hmem, _, rfl⟩ := mem_writesOn.mp hc
  rw [hr.1.same.pipes]
  obtain ⟨r', _, ⟨_, rfl⟩ | ⟨limitCycles, _, hround⟩⟩ := hr.move two_le_maxInstantiatedVms hmove
  · rw [List.append_nil] at hmem
    exact (hL.short c hmem).2 hshort
  · exact hround.short hr.2.invariant hL c hmem hshort

/-- A root that writes twelve bytes to the VM it spawns, which reads eight and exits. -/
def earlyExitEnv : Env Ram (Cpu Ram) :=
  scriptEnv 1 (pipeImage 2) 40 fun
    | 0 => pipeCall 0x100
    | 1 => spawnCall 0 0x200
    | 2 => writeCall 3 0x200 0x508
    | 100 => readCall 2 0x400 0x500
    | _ => .exit 0

/-- A write of which eight bytes were delivered returns short. -/
theorem pipes_lossless_earlyExit : ∃ tr s l s', Reachable maxInstantiatedVms earlyExitEnv tr s ∧
    Move maxInstantiatedVms earlyExitEnv s l s' ∧ (pipeLog tr).stream 3 = [0, 3, 0, 0, 0, 0, 0, 0] ∧
    Lossless (pipeLog tr) 3 ∧ ∃ c ∈ (pipeLog (tr ++ l)).writesOn 3, c.Short ∧
      (3 : PipeId).otherPipe ∉ s.pipes := by
  obtain ⟨tr, s, h, hs⟩ := exists_reachable maxInstantiatedVms earlyExitEnv
    (.boot :: List.replicate 5 (.round none 99)) (fun tr s =>
      (pipeLog tr).stream 3 == [0, 3, 0, 0, 0, 0, 0, 0] &&
      (turn maxInstantiatedVms earlyExitEnv s (.round none 99)).any fun moved =>
        ((pipeLog (tr ++ moved.1)).writesOn 3).any fun c => c.isWrite && c.code == some success &&
          c.reported == some 8 && c.args.length == 12) (by decide +kernel)
  rw [Bool.and_eq_true, beq_iff_eq, Option.any_eq_true] at hs
  obtain ⟨hstream, ⟨l, s'⟩, hturn, hwrites⟩ := hs
  obtain ⟨c, hc, hshort⟩ := List.any_eq_true.mp hwrites
  simp only [Bool.and_eq_true, beq_iff_eq] at hshort
  obtain ⟨⟨⟨hwrite, hcode⟩, hreported⟩, hlength⟩ := hshort
  have hmove : Move maxInstantiatedVms earlyExitEnv s l s' := turn_move hturn
  have hshort : c.Short := ⟨hwrite, hcode, 8, hreported, by rw [hlength]; decide⟩
  obtain ⟨hlossless, hclosed⟩ := pipes_lossless earlyExitEnv h 3
  exact ⟨tr, s, l, s', h, hmove, hstream, hlossless, c, hc, hshort, hclosed l s' hmove c hc hshort⟩

end Scheduler

end DeterministicScheduler
