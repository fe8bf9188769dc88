import DeterministicScheduler.GuestSteps
import DeterministicScheduler.Steps

/-!
# Answers to the program

Once its system call is answered a program stands where the next operation begins. A VM that
waits keeps the locals and the buffers it called with.
-/
namespace DeterministicScheduler

open ProgramLogic Program Outcome Std

/-- A word is not changed by a store right behind it. -/
theorem Ram.word_setWord_next (m : Ram) (addr value : UInt64) :
    (m.setWord (addr + 8) value).word addr = m.word addr := by
  have hbyte : ∀ i < 8, (m.setWord (addr + 8) value) (addr + UInt64.ofNat i) =
      m (addr + UInt64.ofNat i) := by
    intro i hi
    have hsub : (addr + UInt64.ofNat i - (addr + 8)).toNat = 2 ^ 64 - 8 + i := by
      rw [UInt64.toNat_sub, UInt64.toNat_add, UInt64.toNat_add, UInt64.toNat_ofNat']
      have haddr := addr.toNat_lt
      have height : (8 : UInt64).toNat = 8 := rfl
      rw [height]
      omega
    rw [Ram.setWord, hsub, if_neg (by omega)]
  simp only [Ram.word, List.range_succ, List.range_zero, List.nil_append, List.foldr_append,
    List.foldr_cons, List.foldr_nil]
  rw [hbyte 0 (by omega), hbyte 1 (by omega), hbyte 2 (by omega), hbyte 3 (by omega),
    hbyte 4 (by omega), hbyte 5 (by omega), hbyte 6 (by omega), hbyte 7 (by omega)]

namespace DataGraph

open EscapeEncoding Scheduler

variable {data : Data} {P P' : Progress} {i n : ℕ} {id v : VmId} {locals : Locals}
  {c c' : Core GuestMemory}

/-- What was written to the first buffer is read from it, with a word at the next. -/
theorem bufferOf_setBytes (m : Ram) (bytes : Bytes) (word : UInt64)
    (hlt : bytes.length < segmentSize) :
    bufferOf ((m.setBytes (segmentAddr 1) bytes).setWord (segmentAddr 2) word) bytes.length =
      bytes := by
  refine List.ext_getElem (by simp [bufferOf]) fun k hk hk' => ?_
  simp only [bufferOf, List.getElem_map, List.getElem_range]
  have hsize : segmentSize = 2 ^ 40 := rfl
  have hword : (segmentAddr 1 + UInt64.ofNat k - segmentAddr 2).toNat = 2 ^ 64 - 2 ^ 40 + k := by
    rw [UInt64.toNat_sub, toNat_segmentAddr (by decide) (hk'.trans hlt), hsize]
    have htwo : (segmentAddr 2).toNat = 2 * 2 ^ 40 := by decide
    rw [htwo]
    omega
  have hbyte : (segmentAddr 1 + UInt64.ofNat k - segmentAddr 1).toNat = k := by
    rw [UInt64.add_comm, UInt64.add_sub_cancel, UInt64.toNat_ofNat', Nat.mod_eq_of_lt (by omega)]
  rw [Ram.setWord, hword, if_neg (by omega), Ram.setBytes, hbyte, List.getElem?_eq_getElem hk',
    Option.getD_some]

/-- A machine after its system call: the result in A0 and in memory. -/
def returned (c : Core GuestMemory) (bytes : Ram) : Core GuestMemory :=
  { c with registers := Function.update c.registers A0 success, memory := { c.memory with bytes } }

/-- A program that is ready with a result stands at its next operation once the result is
there. -/
theorem atReady_returned {left : List Op} {bytes : Ram} (hlocals : c.memory.locals = locals)
    (h : Ready data P i left locals success bytes) :
    AtReady data P i left (returned c bytes) := by
  unfold AtReady returned
  simp only [Function.update_self, hlocals]
  exact h

/-- The ids of a new pipe are stored at the two words of the first buffer. -/
theorem Creating.answered {p : Pipe} {todo : List Pipe} (h : Creating data P i (p :: todo) locals)
    (hvm : p.vm = i) (hlocals : c.memory.locals = { locals with stage := .piped p todo })
    {p1 p2 : PipeId} (hread : P.pipe p.readPipe = some p1) (hwrite : P.pipe p.writePipe = some p2)
    (hcore : applyEvents (pipeEvents id ⟨segmentAddr 1, segmentAddr 1 + 8⟩ p1 p2) c = .ok c') :
    AtReady data P i (creates i todo ++ afterPipes i data) c' := by
  let bytes := (c.memory.bytes.setWord (segmentAddr 1) p1).setWord (segmentAddr 1 + 8) p2
  obtain rfl : returned c bytes = c' := Except.ok.inj hcore
  refine atReady_returned hlocals (.piped h hvm ?_ ?_)
  · rw [Ram.word_setWord_next, Ram.word_setWord]
    exact hread
  · rw [Ram.word_setWord]
    exact hwrite

/-- The id of a new VM is stored where the program expects it. -/
theorem Spawning.answered {s : Spawn} {todo : List Spawn}
    (h : Spawning data P i (s :: todo) locals) (hvm : s.fromVm = i)
    (hlocals : c.memory.locals = { locals with stage := .spawned todo })
    (hchild : P.vm s.child = some v)
    (hcore : applyEvents (spawnEvents id (segmentAddr 6) v) c = .ok c') :
    AtReady data P i (spawnsFrom i todo ++ afterSpawns i data) c' := by
  let bytes := c.memory.bytes.setWord (segmentAddr 6) v
  obtain rfl : returned c bytes = c' := Except.ok.inj hcore
  refine atReady_returned hlocals (.spawned h hvm ?_)
  rw [Ram.word_setWord]
  exact hchild

/-- A write reports the length of the whole item. -/
theorem Moving.written {w : Write} {todo : List Write} {pipe : PipeId}
    (h : Moving data P i (w :: todo) locals)
    (hlocals : c.memory.locals = { locals with stage := .wrote w pipe 0 todo })
    (hcore : applyEvents [.store64 id (segmentAddr 2) (UInt64.ofNat w.getData.length),
      .setA0 id success] c = .ok c') :
    AtReady data P i (moves i todo ++ afterWrites i data) c' := by
  let bytes := c.memory.bytes.setWord (segmentAddr 2) (UInt64.ofNat w.getData.length)
  obtain rfl : returned c bytes = c' := Except.ok.inj hcore
  exact atReady_returned hlocals (.wrote h (Ram.word_setWord _ _ _))

/-- A read finds the whole item in the buffer and its length in the word. -/
theorem Moving.wasRead {w : Write} {todo : List Write} {pipe : PipeId}
    (h : Moving data P i (w :: todo) locals) (hlt : w.getData.length < segmentSize)
    (hlocals : c.memory.locals = { locals with stage := .didRead w pipe 0 todo })
    (hcore : applyEvents [.storeBytes id (segmentAddr 1) w.getData,
      .store64 id (segmentAddr 2) (UInt64.ofNat w.getData.length), .setA0 id success] c = .ok c') :
    AtReady data P i (moves i todo ++ afterWrites i data) c' := by
  let bytes := (c.memory.bytes.setBytes (segmentAddr 1) w.getData).setWord (segmentAddr 2)
    (UInt64.ofNat w.getData.length)
  obtain rfl : returned c bytes = c' := Except.ok.inj hcore
  exact atReady_returned hlocals
    (.didRead h (Ram.word_setWord _ _ _) (bufferOf_setBytes _ _ _ hlt))

/-- A join stores the exit code 0 of a child. -/
theorem Joining.answered {target : VmId} {targets : List VmId} {child : ℕ} {children : List ℕ}
    (h : Joining P i (target :: targets) (child :: children) locals)
    (hlocals : c.memory.locals = { locals with stage := .joined targets })
    (hcore : applyEvents (joinEvents id (segmentAddr 1) 0) c = .ok c') :
    AtReady data P i (joins children) c' := by
  let bytes := c.memory.bytes.setByte (segmentAddr 1) 0
  obtain rfl : returned c bytes = c' := Except.ok.inj hcore
  have htargets := h.targets
  rw [List.map_cons, List.map_cons, List.cons.injEq] at htargets
  exact atReady_returned hlocals (.joined ⟨h.index, htargets.2⟩ (if_pos rfl))

end DataGraph

end DeterministicScheduler
