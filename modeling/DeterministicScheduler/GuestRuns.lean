import DeterministicScheduler.GuestProgram
import DeterministicScheduler.Execution

/-!
# Executions of the program

The buffers that the program places in memory are what its system calls read back, so
every call reaches the scheduler with the message it is meant to send.
-/
namespace DeterministicScheduler

open ProgramLogic Program Outcome

/-- Eight bytes make up the word that they are taken from. -/
theorem Ram.word_eq {m : Ram} {addr value : UInt64}
    (h : ∀ i < 8, m (addr + UInt64.ofNat i) = (value >>> UInt64.ofNat (8 * i)).toUInt8) :
    m.word addr = value := by
  have hbyte : ∀ i < 8, (m (addr + UInt64.ofNat i)).toUInt64.toNat =
      value.toNat / 2 ^ (8 * i) % 256 := by
    intro i hi
    rw [h i hi]
    have hmod : 8 * i % 2 ^ 64 % 64 = 8 * i := by omega
    simp only [UInt8.toNat_toUInt64, UInt64.toNat_toUInt8, UInt64.toNat_shiftRight,
      UInt64.toNat_ofNat', Nat.shiftRight_eq_div_pow, hmod]
  have h0 := hbyte 0 (by omega)
  have h1 := hbyte 1 (by omega)
  have h2 := hbyte 2 (by omega)
  have h3 := hbyte 3 (by omega)
  have h4 := hbyte 4 (by omega)
  have h5 := hbyte 5 (by omega)
  have h6 := hbyte 6 (by omega)
  have h7 := hbyte 7 (by omega)
  have hlt := value.toNat_lt
  apply UInt64.toNat_inj.mp
  simp only [Ram.word, List.range_succ, List.range_zero, List.nil_append, List.foldr_append,
    List.foldr_cons, List.foldr_nil, UInt64.toNat_add, UInt64.toNat_mul]
  rw [h0, h1, h2, h3, h4, h5, h6, h7]
  simp only [show (256 : UInt64).toNat = 256 from rfl, show (0 : UInt64).toNat = 0 from rfl]
  omega

theorem Ram.word_setWord (m : Ram) (addr value : UInt64) :
    (m.setWord addr value).word addr = value := by
  apply Ram.word_eq
  intro i hi
  have hsub : addr + UInt64.ofNat i - addr = UInt64.ofNat i := by
    rw [UInt64.add_comm, UInt64.add_sub_cancel]
  have hlt : (UInt64.ofNat i).toNat < 8 := by
    rw [UInt64.toNat_ofNat']
    omega
  have hmul : 8 * UInt64.ofNat i = UInt64.ofNat (8 * i) := by
    rw [UInt64.ofNat_mul]
    rfl
  rw [Ram.setWord, hsub, if_pos hlt, hmul]

/-- What every instruction keeps holds wherever an execution is interrupted, and the execution
ends as its last instruction does. -/
theorem runMachine_keeps {μ κ : Type} [Memory μ] {env : Env μ κ} {ctx : MachineContext} {limit : ℕ}
    {I : Core μ → Prop} {Q : Int8 → Core μ → Prop} {F : Error → Core μ → List Message → Prop}
    (hstep : ∀ m : Cpu μ, I m.toCore → (stepMachine env ctx m).Meets
      (fun r m' _ => (r = none → I m'.toCore) ∧ ∀ code, r = some code → Q code m'.toCore)
      (fun e m' l => ¬ e.Interrupt ∧ F e m'.toCore l) True)
    (pause : Pause) (m : Cpu μ) (hm : I m.toCore) :
    (runMachine env ctx limit pause m).Meets (fun code m' _ => Q code m'.toCore)
      (fun e m' l => (e.Interrupt → I m'.toCore) ∧ (¬ e.Interrupt → F e m'.toCore l)) True := by
  induction hleft : limit + 1 - m.cycles using Nat.strong_induction_on generalizing m pause with
  | _ left ih =>
    have hcost := env.cost_pos m.toCore
    rw [runMachine_eq]
    by_cases hpause : pause = some 0
    · rw [if_pos hpause]
      exact ⟨fun _ => hm, fun h => absurd (by decide) h⟩
    rw [if_neg hpause]
    by_cases hlimit : limit < m.cycles + env.cost m.toCore
    · rw [if_pos hlimit]
      exact ⟨fun _ => hm, fun h => absurd (by decide) h⟩
    rw [if_neg hlimit]
    have hmeets := hstep m hm
    cases hrun : stepMachine env ctx m with
    | panic =>
      rw [bind_of_panic hrun]
      trivial
    | err e m' l =>
      rw [hrun] at hmeets
      rw [bind_of_err hrun]
      exact ⟨fun h => absurd h hmeets.1, fun _ => hmeets.2⟩
    | ok r m' l =>
      rw [hrun] at hmeets
      obtain ⟨rfl, hlt⟩ := stepMachine_cycles hrun
      rw [bind_of_ok hrun, after_nil]
      cases r with
      | some code => exact hmeets.2 code rfl
      | none =>
        exact ih (limit + 1 - m'.cycles) (by omega) (pause.map Nat.pred) m' (hmeets.1 rfl) rfl

section Posts

variable {μ κ : Type} [Memory μ] {env : Env μ κ} {ctx : MachineContext} {m : Cpu μ}

omit [Memory μ] in
theorem yield_run {α : Type} (msg : Message) :
    (do emit msg; throw .yield : MachineM μ α) m = .err .yield m [msg] := rfl

theorem ecall_pipe (hcode : m.registers A7 = 2604) : MachineContext.ecall env ctx m =
    .err .yield m [.pipe ctx.id ⟨m.registers A0, m.registers A0 + 8⟩] := by
  rw [MachineContext.ecall, register_bind_run, hcode]
  exact bind_of_err rfl

theorem ecall_join (hcode : m.registers A7 = 2602) : MachineContext.ecall env ctx m =
    .err .yield m [.join ctx.id ⟨m.registers A0, m.registers A1⟩] := by
  rw [MachineContext.ecall, register_bind_run, hcode]
  exact bind_of_err rfl

theorem ecall_pipeWrite {length : UInt64} (hcode : m.registers A7 = 2605)
    (hlength : Memory.load64 m.memory (m.registers A1) = .ok length)
    (hpipe : PipeId.isWrite (m.registers A2) = true) : MachineContext.ecall env ctx m =
    .err .yield m
      [.pipeWrite ctx.id ⟨m.registers A2, length, m.registers A0, m.registers A1⟩] := by
  rw [MachineContext.ecall, register_bind_run, hcode]
  refine bind_of_err ?_
  rw [MachineContext.pipeWrite, register_bind_run, register_bind_run,
    bind_of_ok (by rw [load64_run, hlength, ofExcept_ok, pure_run]), after_nil, register_bind_run,
    if_pos hpipe, yield_run]

theorem ecall_pipeRead {length : UInt64} (hcode : m.registers A7 = 2606)
    (hlength : Memory.load64 m.memory (m.registers A1) = .ok length)
    (hpipe : PipeId.isRead (m.registers A2) = true) : MachineContext.ecall env ctx m =
    .err .yield m
      [.pipeRead ctx.id ⟨m.registers A2, length, m.registers A0, m.registers A1⟩] := by
  rw [MachineContext.ecall, register_bind_run, hcode]
  refine bind_of_err ?_
  rw [MachineContext.pipeRead, register_bind_run, register_bind_run,
    bind_of_ok (by rw [load64_run, hlength, ofExcept_ok, pure_run]), after_nil, register_bind_run,
    if_pos hpipe, yield_run]

theorem loadCString_run {bytes : Bytes} {fuel : ℕ} {addr : UInt64} (hfuel : bytes.length < fuel)
    (hroom : addr.toNat + bytes.length < 2 ^ 64) (hzero : 0 ∉ bytes)
    (hload : ∀ i, i < bytes.length + 1 → Memory.load8 m.memory (addr + UInt64.ofNat i) =
      .ok ((bytes ++ [0])[i]?.getD 0)) :
    (loadCString fuel addr : MachineM μ Bytes) m = .ok bytes m [] := by
  induction bytes generalizing fuel addr with
  | nil =>
    obtain ⟨fuel, rfl⟩ : ∃ k, fuel = k + 1 := ⟨fuel - 1, by simp at hfuel; omega⟩
    have hfirst := hload 0 (by simp)
    rw [show addr + UInt64.ofNat 0 = addr from UInt64.add_zero addr] at hfirst
    rw [loadCString, bind_of_ok (by rw [load8_run, hfirst, ofExcept_ok, pure_run]), after_nil]
    rfl
  | cons b bytes ih =>
    obtain ⟨fuel, rfl⟩ : ∃ k, fuel = k + 1 := ⟨fuel - 1, by simp at hfuel; omega⟩
    simp only [List.length_cons, List.mem_cons, not_or] at hfuel hroom hzero hload
    have hfirst := hload 0 (by omega)
    rw [show addr + UInt64.ofNat 0 = addr from UInt64.add_zero addr] at hfirst
    have hnext : checkedAdd addr 1 = some (addr + 1) := if_pos (by
      rw [show (1 : UInt64).toNat = 1 from rfl]
      omega)
    have hrest : (loadCString fuel (addr + 1) : MachineM μ Bytes) m = .ok bytes m [] := by
      refine ih (by omega) ?_ hzero.2 fun i hi => ?_
      · rw [UInt64.toNat_add, show (1 : UInt64).toNat = 1 from rfl, Nat.mod_eq_of_lt (by omega)]
        omega
      · have hat := hload (i + 1) (by omega)
        rw [UInt64.add_assoc, UInt64.add_comm 1, show (1 : UInt64) = UInt64.ofNat 1 from rfl,
          ← UInt64.ofNat_add]
        exact hat
    rw [loadCString, bind_of_ok (by rw [load8_run, hfirst, ofExcept_ok, pure_run]), after_nil]
    simp only [List.cons_append, List.getElem?_cons_zero, Option.getD_some]
    rw [if_neg (Ne.symm hzero.1), hnext, unwrap_some, pure_bind_run, bind_of_ok hrest]
    rfl

theorem loadPipes_run {pipes : List PipeId} {fuel : ℕ} {addr : UInt64} (hfuel : pipes.length < fuel)
    (hroom : addr.toNat + 8 * pipes.length < 2 ^ 64) (hzero : 0 ∉ pipes)
    (hload : ∀ i, i < pipes.length + 1 → Memory.load64 m.memory (addr + UInt64.ofNat (8 * i)) =
      .ok ((pipes ++ [0])[i]?.getD 0)) :
    (loadPipes fuel addr : MachineM μ (List PipeId)) m = .ok pipes m [] := by
  induction pipes generalizing fuel addr with
  | nil =>
    obtain ⟨fuel, rfl⟩ : ∃ k, fuel = k + 1 := ⟨fuel - 1, by simp at hfuel; omega⟩
    have hfirst := hload 0 (by simp)
    rw [show addr + UInt64.ofNat (8 * 0) = addr from UInt64.add_zero addr] at hfirst
    rw [loadPipes, bind_of_ok (by rw [load64_run, hfirst, ofExcept_ok, pure_run]), after_nil]
    rfl
  | cons p pipes ih =>
    obtain ⟨fuel, rfl⟩ : ∃ k, fuel = k + 1 := ⟨fuel - 1, by simp at hfuel; omega⟩
    simp only [List.length_cons, List.mem_cons, not_or] at hfuel hroom hzero hload
    have hfirst := hload 0 (by omega)
    rw [show addr + UInt64.ofNat (8 * 0) = addr from UInt64.add_zero addr] at hfirst
    have hnext : checkedAdd addr 8 = some (addr + 8) := if_pos (by
      rw [show (8 : UInt64).toNat = 8 from rfl]
      omega)
    have hrest : (loadPipes fuel (addr + 8) : MachineM μ (List PipeId)) m = .ok pipes m [] := by
      refine ih (by omega) ?_ hzero.2 fun i hi => ?_
      · rw [UInt64.toNat_add, show (8 : UInt64).toNat = 8 from rfl, Nat.mod_eq_of_lt (by omega)]
        omega
      · have hat := hload (i + 1) (by omega)
        rw [UInt64.add_assoc, UInt64.add_comm 8, show (8 : UInt64) = UInt64.ofNat 8 from rfl,
          ← UInt64.ofNat_add]
        exact hat
    rw [loadPipes, bind_of_ok (by rw [load64_run, hfirst, ofExcept_ok, pure_run]), after_nil]
    simp only [List.cons_append, List.getElem?_cons_zero, Option.getD_some]
    rw [if_neg (Ne.symm hzero.1), hnext, unwrap_some, pure_bind_run, bind_of_ok hrest]
    rfl

theorem loadArgv_run {addr target₁ target₂ : UInt64} {arg₁ arg₂ : Bytes}
    (hroom : addr.toNat + 16 < 2 ^ 64) (hfirst : Memory.load64 m.memory addr = .ok target₁)
    (hsecond : Memory.load64 m.memory (addr + 8) = .ok target₂)
    (harg₁ : (loadCString (2 ^ 64) target₁ : MachineM μ Bytes) m = .ok arg₁ m [])
    (harg₂ : (loadCString (2 ^ 64) target₂ : MachineM μ Bytes) m = .ok arg₂ m []) :
    (loadArgv 2 addr : MachineM μ (List Bytes)) m = .ok [arg₁, arg₂] m [] := by
  have hnext : checkedAdd addr 8 = some (addr + 8) := if_pos (by
    rw [show (8 : UInt64).toNat = 8 from rfl]
    omega)
  have hnext' : checkedAdd (addr + 8) 8 = some (addr + 8 + 8) := if_pos (by
    rw [UInt64.toNat_add, show (8 : UInt64).toNat = 8 from rfl, Nat.mod_eq_of_lt (by omega)]
    omega)
  simp only [loadArgv]
  rw [bind_of_ok (by rw [load64_run, hfirst, ofExcept_ok, pure_run]), after_nil, bind_of_ok harg₁,
    after_nil, hnext, unwrap_some, pure_bind_run, bind_run,
    bind_of_ok (by rw [load64_run, hsecond, ofExcept_ok, pure_run]), after_nil, bind_of_ok harg₂,
    after_nil, hnext', unwrap_some, pure_bind_run, pure_bind_run]
  rfl

/-- A spawn of the first dependency as a whole. -/
theorem ecall_spawn {argv : List Bytes} {pipes : List PipeId} {code : Bytes}
    {instanceIdAddr pipesAddr length : UInt64} (hcode : m.registers A7 = 2601)
    (hindex : m.registers A0 = 0) (hsource : m.registers A1 = 3) (hbounds : m.registers A2 = 0)
    (hargc : m.registers A3 = 2)
    (hargv : (loadArgv 2 (m.registers A4) : MachineM μ (List Bytes)) m = .ok argv m [])
    (hinstance : Memory.load64 m.memory (m.registers A5) = .ok instanceIdAddr)
    (haddr : Memory.load64 m.memory (m.registers A5 + 8) = .ok pipesAddr) (hne : pipesAddr ≠ 0)
    (hpipes : (loadPipes (2 ^ 64) pipesAddr : MachineM μ (List PipeId)) m = .ok pipes m [])
    (hdata : env.txData.loadData (.cellDep 0) 0 0 = .ok (code, length)) (hlength : 0 < length) :
    MachineContext.ecall env ctx m = .err .yield m
      [.spawn ctx.id ⟨.cellDep 0, 0, 0, argv, pipes, instanceIdAddr⟩] := by
  rw [MachineContext.ecall, register_bind_run, hcode]
  refine bind_of_err ?_
  have hpiece : DataPieceId.tryFrom 3 0 = .ok (.cellDep 0) := rfl
  have hreserve : (reserveStrings 2 : MachineM μ Unit) m = .ok ⟨⟩ m [] := rfl
  have hoffset : ¬ length ≤ (0 : UInt64) >>> 32 := by
    rw [UInt64.le_iff_toNat_le]
    rw [UInt64.lt_iff_toNat_lt] at hlength
    exact Nat.not_le.mpr hlength
  rw [MachineContext.spawn, register_bind_run, register_bind_run, hindex, hsource, hpiece]
  simp only
  rw [register_bind_run, register_bind_run, register_bind_run, hbounds, hargc,
    bind_of_ok hreserve, after_nil, show (2 : UInt64).toNat = 2 from rfl, bind_of_ok hargv,
    after_nil, register_bind_run,
    bind_of_ok (by rw [load64_run, hinstance, ofExcept_ok, pure_run]), after_nil,
    bind_of_ok (by rw [load64_run, haddr, ofExcept_ok, pure_run]), after_nil, if_neg hne,
    bind_of_ok hpipes, after_nil, hdata]
  simp only
  rw [if_neg hoffset, if_neg (fun h => absurd h.1 (by decide)),
    if_neg (fun h => absurd h.1 (by decide)), yield_run]
  rfl

end Posts

namespace DataGraph

open EscapeEncoding

theorem toNat_segmentAddr {k off : ℕ} (hk : k < 2 ^ 20) (hoff : off < segmentSize) :
    (segmentAddr k + UInt64.ofNat off).toNat = k * segmentSize + off := by
  unfold segmentAddr segmentSize at *
  rw [UInt64.toNat_add, UInt64.toNat_ofNat', UInt64.toNat_ofNat']
  omega

/-- A byte of a buffer, with zeros beyond its end. -/
theorem layout_byte (segments : List Bytes) {k off : ℕ} (hk : k < 2 ^ 20)
    (hoff : off < segmentSize) :
    layout segments (segmentAddr k + UInt64.ofNat off) =
      ((segments[k]?).bind fun segment => segment[off]?).getD 0 := by
  have hpos : 0 < segmentSize := by decide
  rw [layout, toNat_segmentAddr hk hoff, Nat.mul_comm, Nat.mul_add_div hpos,
    Nat.div_eq_of_lt hoff, Nat.mul_add_mod, Nat.mod_eq_of_lt hoff, Nat.add_zero]

theorem length_wordBytes (word : UInt64) : (wordBytes word).length = 8 := rfl

theorem length_wordsBytes (words : List UInt64) : (wordsBytes words).length = 8 * words.length := by
  induction words with
  | nil => rfl
  | cons word words ih =>
    have hcons : wordsBytes (word :: words) = wordBytes word ++ wordsBytes words := rfl
    rw [hcons, List.length_append, length_wordBytes, ih, List.length_cons]
    omega

theorem getElem?_wordsBytes {words : List UInt64} {j i : ℕ} {word : UInt64}
    (hword : words[j]? = some word) (hi : i < 8) :
    (wordsBytes words)[8 * j + i]? = some (word >>> UInt64.ofNat (8 * i)).toUInt8 := by
  induction words generalizing j with
  | nil => simp at hword
  | cons first words ih =>
    have hcons : wordsBytes (first :: words) = wordBytes first ++ wordsBytes words := rfl
    rw [hcons]
    cases j with
    | zero =>
      rw [List.getElem?_cons_zero, Option.some.injEq] at hword
      rw [List.getElem?_append_left (by rw [length_wordBytes]; omega), hword, wordBytes,
        List.getElem?_map, List.getElem?_range (by omega)]
      simp
    | succ j =>
      rw [List.getElem?_append_right (by rw [length_wordBytes]; omega), length_wordBytes,
        show 8 * (j + 1) + i - 8 = 8 * j + i by omega]
      exact ih hword

/-- A word of a buffer that holds words. -/
theorem layout_word {segments : List Bytes} {words : List UInt64} {k j : ℕ} {word : UInt64}
    (hk : k < 2 ^ 20) (hsegment : segments[k]? = some (wordsBytes words))
    (hword : words[j]? = some word) (hj : 8 * j + 8 ≤ segmentSize) :
    (layout segments).word (segmentAddr k + UInt64.ofNat (8 * j)) = word := by
  apply Ram.word_eq
  intro i hi
  rw [UInt64.add_assoc, ← UInt64.ofNat_add, layout_byte segments hk (by omega), hsegment,
    Option.bind_some, getElem?_wordsBytes hword hi, Option.getD_some]

theorem layout_firstWord {segments : List Bytes} {words : List UInt64} {k : ℕ} {word : UInt64}
    (hk : k < 2 ^ 20) (hsegment : segments[k]? = some (wordsBytes (word :: words))) :
    (layout segments).word (segmentAddr k) = word := by
  have hword := layout_word hk hsegment (show (word :: words)[0]? = some word from rfl) (by decide)
  rwa [show segmentAddr k + UInt64.ofNat (8 * 0) = segmentAddr k from UInt64.add_zero _] at hword

/-- The words that a buffer of words is decoded to. -/
theorem wordAt_wordsBytes {words : List UInt64} {j : ℕ} {word : UInt64}
    (hword : words[j]? = some word)
    (hj : 8 * j + 8 ≤ segmentSize) : wordAt (wordsBytes words) j = word := by
  have hat := layout_word (show 0 < 2 ^ 20 by decide)
    (show [wordsBytes words][0]? = some (wordsBytes words) from rfl) hword hj
  have hzero : segmentAddr 0 = 0 := rfl
  rw [hzero, UInt64.zero_add] at hat
  rw [wordAt, hat]

theorem encodeArg_eq (src : Bytes) : encodeArg src = .ok (encode src) := by
  have hroom : eeMaximumEncodingLength src.length ≤
      (List.replicate (eeMaximumEncodingLength src.length) (0 : UInt8)).length := by simp
  obtain ⟨log, hrun⟩ := eeEncode_run src hroom
  have hall : 2 * src.length ≤ eeMaximumEncodingLength src.length := by
    rw [eeMaximumEncodingLength]
    omega
  rw [encodeUpTo_all hall] at hrun
  simp only [encodeArg, hrun, take_overwrite_zero]

theorem decodeArg_encode (src : Bytes) : decodeArg (encode src) = .ok src := by
  have hdecoded := eeDecodeCharStringInPlace_run (zero_not_mem_encode src) []
  rw [decode_encode] at hdecoded
  obtain ⟨log, hrun, -⟩ := hdecoded
  simp only [decodeArg, hrun, Nat.zero_add, take_overwrite_zero]

end DataGraph

end DeterministicScheduler
