import DeterministicScheduler.CellData

/-!
# The spawn system call

A spawn reads a table of strings and a list of pipes, of lengths and at places
that the guest chooses, before it checks the data to load. Memory is bounded, so
every one of its loops ends; only the room reserved for the strings is asked for
unchecked.
-/
namespace DeterministicScheduler

open ProgramLogic Program Outcome

variable {μ κ α β : Type}

/-- The values before the first `stop`, `stride` bytes apart. -/
def EndsWith (load : UInt64 → Except Error α) (stop : α) (stride addr : UInt64) (xs : List α) :
    Prop :=
  (∀ i x, xs[i]? = some x → load (addr + stride * UInt64.ofNat i) = .ok x ∧ x ≠ stop) ∧
    load (addr + stride * UInt64.ofNat xs.length) = .ok stop

theorem add_stride (addr stride : UInt64) (n : ℕ) :
    addr + stride * UInt64.ofNat (n + 1) = addr + stride + stride * UInt64.ofNat n := by
  rw [UInt64.ofNat_add]
  show addr + stride * (UInt64.ofNat n + 1) = _
  rw [UInt64.mul_add, UInt64.mul_one, UInt64.add_comm (stride * _), ← UInt64.add_assoc]

theorem endsWith_nil {load : UInt64 → Except Error α} {stop : α} {stride addr : UInt64}
    (h : load addr = .ok stop) : EndsWith load stop stride addr [] := by
  refine ⟨by simp, ?_⟩
  simpa using h

theorem endsWith_cons {load : UInt64 → Except Error α} {stop x : α} {stride addr : UInt64}
    {xs : List α} (h : load addr = .ok x) (hx : x ≠ stop)
    (hxs : EndsWith load stop stride (addr + stride) xs) :
    EndsWith load stop stride addr (x :: xs) := by
  refine ⟨fun i y hy => ?_, ?_⟩
  · cases i with
    | zero =>
      rw [List.getElem?_cons_zero, Option.some.injEq] at hy
      subst hy
      exact ⟨by simpa using h, hx⟩
    | succ i =>
      rw [List.getElem?_cons_succ] at hy
      rw [add_stride]
      exact hxs.1 i y hy
  · rw [List.length_cons, add_stride]
    exact hxs.2

/-- A string as C has it: the bytes before the first zero. -/
def CString [Memory μ] (memory : μ) (addr : UInt64) (bytes : Bytes) : Prop :=
  EndsWith (Memory.load8 memory) 0 1 addr bytes

/-- Loads that reach past the first `size` bytes fail. -/
structure BoundedBy (μ : Type) [Memory μ] (size : ℕ) : Prop where
  size_lt : size < 2 ^ 64
  load8 : ∀ (memory : μ) (addr : UInt64), size < addr.toNat + 1 →
    ∃ e, Memory.load8 memory addr = .error e
  load64 : ∀ (memory : μ) (addr : UInt64), size < addr.toNat + 8 →
    ∃ e, Memory.load64 memory addr = .error e

/-- A part of a call that only reads: it returns what `Q` says, or fails with an
error of memory. -/
def Reads (x : MachineM μ α) (m : Cpu μ) (Q : α → Prop) : Prop :=
  (x m).Meets (fun a m' l => m' = m ∧ l = [] ∧ Q a) (fun e _ l => e ≠ .yield ∧ l = []) False

theorem reads_pure {a : α} {m : Cpu μ} {Q : α → Prop} (h : Q a) :
    Reads (pure a : MachineM μ α) m Q :=
  ⟨rfl, rfl, h⟩

theorem reads_bind {x : MachineM μ α} {f : α → MachineM μ β} {m : Cpu μ} {P : α → Prop}
    {Q : β → Prop} (hx : Reads x m P) (hf : ∀ a, P a → Reads (f a) m Q) : Reads (x >>= f) m Q := by
  apply meets_bind hx
  rintro a m' l ⟨rfl, rfl, ha⟩
  exact hf a ha

/-- An address within memory does not wrap around when it moves on. -/
theorem checkedAdd_of_le {addr : UInt64} (stride : UInt64) {size : ℕ} (hsize : size < 2 ^ 64)
    (h : addr.toNat + stride.toNat ≤ size) :
    checkedAdd addr stride = some (addr + stride) ∧
      (addr + stride).toNat = addr.toNat + stride.toNat := by
  have hlt : addr.toNat + stride.toNat < 2 ^ 64 := by omega
  exact ⟨if_pos hlt, by rw [UInt64.toNat_add, Nat.mod_eq_of_lt hlt]⟩

theorem Reads.bind_meets {x : MachineM μ α} {f : α → MachineM μ β} {m : Cpu μ} {P : α → Prop}
    {Q : β → Cpu μ → List Message → Prop} {E : Error → Cpu μ → List Message → Prop}
    (hx : Reads x m P) (hE : ∀ e m', e ≠ .yield → E e m' [])
    (hf : ∀ a, P a → (f a m).Meets Q E False) : ((x >>= f) m).Meets Q E False := by
  have herror : ∀ e m' (l : List Message), e ≠ .yield ∧ l = [] → E e m' l := by
    rintro e m' l ⟨he, rfl⟩
    exact hE e m' he
  apply meets_bind (hx.mono (fun _ _ _ h => h) herror fun h => h)
  rintro a m' l ⟨rfl, rfl, ha⟩
  exact hf a ha

section Loops

variable [Memory μ] {size : ℕ} {m : Cpu μ}

theorem reads_load8 (hbounded : BoundedBy μ size) (addr : UInt64) :
    Reads (load8 addr) m fun byte => Memory.load8 m.memory addr = .ok byte ∧
      addr.toNat + 1 ≤ size := by
  unfold Reads
  rw [load8_run]
  cases hload : Memory.load8 m.memory addr with
  | error e =>
    refine ⟨?_, rfl⟩
    rintro rfl
    exact Memory.load8_error hload (by decide)
  | ok byte =>
    refine ⟨rfl, rfl, rfl, ?_⟩
    by_contra hlt
    obtain ⟨e, he⟩ := hbounded.load8 m.memory addr (Nat.not_le.mp hlt)
    cases hload.symm.trans he

theorem reads_load64 (hbounded : BoundedBy μ size) (addr : UInt64) :
    Reads (load64 addr) m fun word => Memory.load64 m.memory addr = .ok word ∧
      addr.toNat + 8 ≤ size := by
  unfold Reads
  rw [load64_run]
  cases hload : Memory.load64 m.memory addr with
  | error e =>
    refine ⟨?_, rfl⟩
    rintro rfl
    exact Memory.load64_error hload (by decide)
  | ok word =>
    refine ⟨rfl, rfl, rfl, ?_⟩
    by_contra hlt
    obtain ⟨e, he⟩ := hbounded.load64 m.memory addr (Nat.not_le.mp hlt)
    cases hload.symm.trans he

/-- The address moves on until a zero or the end of memory, which the fuel outlasts. -/
theorem reads_loadCString (hbounded : BoundedBy μ size) (fuel : ℕ) (addr : UInt64)
    (hfuel : 0 < fuel ∧ size < addr.toNat + fuel) :
    Reads (loadCString fuel addr) m (CString m.memory addr) := by
  induction fuel generalizing addr with
  | zero => omega
  | succ fuel ih =>
    apply reads_bind (reads_load8 hbounded addr)
    rintro byte ⟨hload, hle⟩
    by_cases hbyte : byte = 0
    · rw [if_pos hbyte]
      exact reads_pure (endsWith_nil (hbyte ▸ hload))
    · have hone : (1 : UInt64).toNat = 1 := rfl
      obtain ⟨hnext, htoNat⟩ := checkedAdd_of_le 1 hbounded.size_lt hle
      rw [if_neg hbyte, hnext, unwrap_some]
      unfold Reads
      rw [pure_bind_run]
      apply reads_bind (ih (addr + 1) (by omega))
      intro rest hrest
      exact reads_pure (endsWith_cons hload hbyte hrest)

theorem reads_loadPipes (hbounded : BoundedBy μ size) (fuel : ℕ) (addr : UInt64)
    (hfuel : 0 < fuel ∧ size < addr.toNat + fuel) :
    Reads (loadPipes fuel addr) m (EndsWith (Memory.load64 m.memory) 0 8 addr) := by
  induction fuel generalizing addr with
  | zero => omega
  | succ fuel ih =>
    apply reads_bind (reads_load64 hbounded addr)
    rintro pipe ⟨hload, hle⟩
    by_cases hpipe : pipe = 0
    · rw [if_pos hpipe]
      exact reads_pure (endsWith_nil (hpipe ▸ hload))
    · have height : (8 : UInt64).toNat = 8 := rfl
      obtain ⟨hnext, htoNat⟩ := checkedAdd_of_le 8 hbounded.size_lt hle
      rw [if_neg hpipe, hnext, unwrap_some]
      unfold Reads
      rw [pure_bind_run]
      apply reads_bind (ih (addr + 8) (by omega))
      intro rest hrest
      exact reads_pure (endsWith_cons hload hpipe hrest)

/-- The strings that a table of addresses points to, in order. -/
def StringTable (memory : μ) (addr : UInt64) (argv : List Bytes) : Prop :=
  ∀ i s, argv[i]? = some s → ∃ target,
    Memory.load64 memory (addr + 8 * UInt64.ofNat i) = .ok target ∧ CString memory target s

theorem reads_loadArgv (hbounded : BoundedBy μ size) (argc : ℕ) (addr : UInt64) :
    Reads (loadArgv argc addr) m fun argv =>
      argv.length = argc ∧ StringTable m.memory addr argv := by
  induction argc generalizing addr with
  | zero => exact reads_pure ⟨rfl, fun i s hs => by simp at hs⟩
  | succ argc ih =>
    apply reads_bind (reads_load64 hbounded addr)
    rintro target ⟨hload, hle⟩
    apply reads_bind (reads_loadCString hbounded (2 ^ 64) target
      ⟨by decide, by have := hbounded.size_lt; omega⟩)
    intro cstr hcstr
    obtain ⟨hnext, _⟩ := checkedAdd_of_le 8 hbounded.size_lt hle
    rw [hnext, unwrap_some]
    unfold Reads
    rw [pure_bind_run]
    apply reads_bind (ih (addr + 8))
    rintro rest ⟨hlength, hrest⟩
    refine reads_pure ⟨by rw [List.length_cons, hlength], fun i s hs => ?_⟩
    cases i with
    | zero =>
      rw [List.getElem?_cons_zero, Option.some.injEq] at hs
      subst hs
      exact ⟨target, by simpa using hload, hcstr⟩
    | succ i =>
      rw [List.getElem?_cons_succ] at hs
      rw [add_stride]
      exact hrest i s hs

end Loops

/-- The spawn that a machine asks for by its registers and its memory. -/
structure Requested [Memory μ] (env : Env μ κ) (m : Cpu μ) (args : SpawnArgs) : Prop where
  piece : DataPieceId.tryFrom (m.registers A1) (m.registers A0) = .ok args.dataPieceId
  offset : args.offset = m.registers A2 >>> 32
  length : args.length = (m.registers A2).toUInt32.toUInt64
  argc : args.argv.length = (m.registers A3).toNat
  argv : StringTable m.memory (m.registers A4) args.argv
  instanceIdAddr : Memory.load64 m.memory (m.registers A5) = .ok args.instanceIdAddr
  pipes : ∃ pipesAddr, Memory.load64 m.memory (m.registers A5 + 8) = .ok pipesAddr ∧
    (pipesAddr = 0 → args.pipes = []) ∧
    (pipesAddr ≠ 0 → EndsWith (Memory.load64 m.memory) 0 8 pipesAddr args.pipes)
  /-- What booting loads is the slice asked for, to the end if no length is given. -/
  data : ∃ data rest, env.txData.piece args.dataPieceId = .ok data ∧
    args.offset.toNat < data.length ∧
    (0 < args.length → args.offset.toNat + args.length.toNat ≤ data.length) ∧
    env.txData.loadData args.dataPieceId args.offset args.length = .ok
      (if 0 < args.length then (data.drop args.offset.toNat).take args.length.toNat
        else data.drop args.offset.toNat, rest)

/-- How a spawn may end: refused with a code, failed, or yielding with one message. -/
def SpawnEnds [Memory μ] (env : Env μ κ) (ctx : MachineContext) (m : Cpu μ) : Prop :=
  (ctx.spawn env m).Meets
    (fun _ m' posted => posted = [] ∧ m'.memory = m.memory ∧
      (m'.registers A0 = indexOutOfBound ∨ m'.registers A0 = sliceOutOfBound))
    (fun e _ posted => (e ≠ .yield ∧ posted = []) ∨
      (e = .yield ∧ ∃ args, posted = [.spawn ctx.id args] ∧ Requested env m args)) False

section Calls

variable [Memory μ] {env : Env μ κ} {ctx : MachineContext} {size : ℕ} {m : Cpu μ}

omit [Memory μ] in
theorem piece_of_loadData {tx : TxData} {id : DataPieceId} {offset length : UInt64}
    {loaded : Bytes × UInt64} (h : tx.loadData id offset length = .ok loaded) :
    ∃ data, tx.piece id = .ok data := by
  cases hpiece : tx.piece id with
  | ok data => exact ⟨data, rfl⟩
  | error e =>
    rw [TxData.loadData, hpiece] at h
    cases h

omit [Memory μ] in
theorem ite_bind {p : Prop} [Decidable p] {x y : MachineM μ α} {f : α → MachineM μ β} :
    (if p then x else y) >>= f = if p then x >>= f else y >>= f := by
  split <;> rfl

omit [Memory μ] in
/-- The checks of a spawn against the length of its data. -/
theorem loadData_bounds {tx : TxData} {id : DataPieceId} {data whole : Bytes}
    {fullLength offset length : UInt64} (hpiece : tx.piece id = .ok data)
    (hfull : tx.loadData id 0 0 = .ok (whole, fullLength)) (hoffset : ¬ fullLength ≤ offset)
    (hover : ¬ (0 < length ∧ checkedAdd offset length = none))
    (hend : ¬ (0 < length ∧ fullLength < offset + length)) :
    offset.toNat < data.length ∧ (0 < length → offset.toNat + length.toNat ≤ data.length) ∧
      ∃ rest, tx.loadData id offset length = .ok
        (if 0 < length then (data.drop offset.toNat).take length.toNat
          else data.drop offset.toNat, rest) := by
  rw [TxData.loadData, hpiece] at hfull
  change Except.ok (_, UInt64.ofNat (data.length - min (0 : UInt64).toNat data.length)) = _ at hfull
  rw [Except.ok.injEq, Prod.mk.injEq, UInt64.toNat_zero, Nat.zero_min, Nat.sub_zero] at hfull
  obtain ⟨_, rfl⟩ := hfull
  have hle : (UInt64.ofNat data.length).toNat ≤ data.length := by
    rw [UInt64.toNat_ofNat']
    exact Nat.mod_le _ _
  rw [UInt64.not_le, UInt64.lt_iff_toNat_lt] at hoffset
  have hin : offset.toNat < data.length := hoffset.trans_le hle
  have hreach : 0 < length → offset.toNat + length.toNat ≤ data.length := by
    intro hpos
    have hsum : offset.toNat + length.toNat < 2 ^ 64 := by
      by_contra hge
      exact hover ⟨hpos, if_neg hge⟩
    have hfits : ¬ UInt64.ofNat data.length < offset + length := fun h => hend ⟨hpos, h⟩
    rw [UInt64.lt_iff_toNat_lt, UInt64.toNat_add, Nat.mod_eq_of_lt hsum, Nat.not_lt] at hfits
    exact hfits.trans hle
  refine ⟨hin, hreach, UInt64.ofNat (data.length - offset.toNat), ?_⟩
  rw [TxData.loadData, hpiece]
  show Except.ok (_, _) = _
  rw [Nat.min_eq_left hin.le]
  congr 2
  split
  · rename_i hpos
    have := hreach hpos
    rw [Nat.min_eq_right (by omega)]
  · exact List.take_of_length_le (by rw [List.length_drop])

/-- With room for its strings reserved, a spawn crashes no more. -/
theorem spawn_ends (hbounded : BoundedBy μ size) {dataPieceId : DataPieceId}
    (hpiece : DataPieceId.tryFrom (m.registers A1) (m.registers A0) = .ok dataPieceId)
    (hargc : (m.registers A3).toNat * 32 < 2 ^ 63) : SpawnEnds env ctx m := by
  unfold SpawnEnds
  simp only [MachineContext.spawn, register_bind_run, hpiece, reserveStrings, if_pos hargc,
    pure_bind_run]
  have hE : ∀ (e : Error) (_ : Cpu μ), e ≠ .yield → (e ≠ .yield ∧ ([] : List Message) = []) ∨
      (e = .yield ∧ ∃ args, [] = [Message.spawn ctx.id args] ∧ Requested env m args) :=
    fun e _ he => Or.inl ⟨he, rfl⟩
  apply (reads_loadArgv hbounded _ _).bind_meets hE
  rintro argv ⟨hlength, hargv⟩
  rw [register_bind_run]
  apply (reads_load64 hbounded _).bind_meets hE
  rintro instanceIdAddr ⟨hinstance, _⟩
  apply (reads_load64 hbounded _).bind_meets hE
  rintro pipesAddr ⟨hpipesAddr, _⟩
  have hpipes : Reads (if pipesAddr = 0 then pure [] else loadPipes (2 ^ 64) pipesAddr) m
      fun pipes => (pipesAddr = 0 → pipes = []) ∧
        (pipesAddr ≠ 0 → EndsWith (Memory.load64 m.memory) 0 8 pipesAddr pipes) := by
    by_cases hzero : pipesAddr = 0
    · rw [if_pos hzero]
      exact reads_pure ⟨fun _ => rfl, fun hne => absurd hzero hne⟩
    · rw [if_neg hzero]
      have hread := reads_loadPipes (m := m) hbounded (2 ^ 64) pipesAddr
        ⟨by decide, by have := hbounded.size_lt; omega⟩
      exact hread.mono (fun _ _ _ h => ⟨h.1, h.2.1, fun hz => absurd hz hzero, fun _ => h.2.2⟩)
        (fun _ _ _ h => h) fun h => h
  rw [← ite_bind]
  apply hpipes.bind_meets hE
  rintro pipes ⟨hnone, hsome⟩
  cases hload : env.txData.loadData dataPieceId 0 0 with
  | error e =>
    dsimp only
    split
    · exact ⟨rfl, rfl, Or.inl (by simp [Core.setRegister])⟩
    · refine Or.inl ⟨?_, rfl⟩
      rintro rfl
      exact TxData.loadData_error hload (by decide)
  | ok loaded =>
    obtain ⟨whole, fullLength⟩ := loaded
    dsimp only
    split
    · exact ⟨rfl, rfl, Or.inr (by simp [Core.setRegister])⟩
    rename_i hoffset
    split
    · exact Or.inl ⟨by decide, rfl⟩
    rename_i hover
    split
    · exact ⟨rfl, rfl, Or.inr (by simp [Core.setRegister])⟩
    rename_i hend
    refine Or.inr ⟨rfl, _, rfl, ?_⟩
    obtain ⟨data, hdata⟩ := piece_of_loadData hload
    obtain ⟨hin, hreach, rest, hslice⟩ := loadData_bounds hdata hload hoffset hover hend
    exact ⟨hpiece, rfl, rfl, hlength, hargv, hinstance, ⟨pipesAddr, hpipesAddr, hnone, hsome⟩,
      ⟨data, rest, hdata, hin, hreach, hslice⟩⟩

/-- A spawn ends in one of its three ways exactly when its data is not named well
or the room for its strings stays within the largest signed size. -/
theorem spawn_allOrNothing (env : Env μ κ) (ctx : MachineContext) {size : ℕ}
    (hbounded : BoundedBy μ size) (m : Cpu μ) :
    SpawnEnds env ctx m ↔
      (∃ e, DataPieceId.tryFrom (m.registers A1) (m.registers A0) = .error e) ∨
        (m.registers A3).toNat * 32 < 2 ^ 63 := by
  cases hpiece : DataPieceId.tryFrom (m.registers A1) (m.registers A0) with
  | error e =>
    refine iff_of_true ?_ (Or.inl ⟨e, rfl⟩)
    simp only [SpawnEnds, MachineContext.spawn, register_bind_run, hpiece]
    exact ⟨rfl, rfl, Or.inl (by simp [Core.setRegister])⟩
  | ok dataPieceId =>
    constructor
    · intro h
      by_contra hnot
      have hargc := (not_or.mp hnot).2
      simp only [SpawnEnds, MachineContext.spawn, register_bind_run, hpiece, reserveStrings,
        if_neg hargc, crash_bind_run] at h
      exact h
    · rintro (⟨e, he⟩ | hargc)
      · cases he
      · exact spawn_ends hbounded hpiece hargc

end Calls

theorem boundedBy_page : BoundedBy PageRam 0x1000 where
  size_lt := by decide
  load8 memory addr h := by
    have hout : Ram.inside addr 1 = false := decide_eq_false (Nat.not_le.mpr h)
    exact ⟨.memOutOfBound, by simp [Memory.load8, Ram.checked, hout]⟩
  load64 memory addr h := by
    have hout : Ram.inside addr 8 = false := decide_eq_false (Nat.not_le.mpr h)
    exact ⟨.memOutOfBound, by simp [Memory.load64, Ram.checked, hout]⟩

/-- A spawn with the strings `hi` and `a` and with the pipes 2 and 3. -/
def spawningCpu : Cpu PageRam :=
  { callingCpu [0, 3, 0, 2, 0x400, 0x200] 0x200 0x300 with
    memory := [(0x208, 0x220), (0x220, 2), (0x228, 3), (0x400, 0x500), (0x408, 0x510),
      (0x500, 0x6968), (0x510, 0x61)].foldl (fun m (addr, value) => Ram.setWord m addr value)
        (Ram.blank.setWord 0x200 0x300) }

/-- The strings and the pipes are read, and the message with them is posted. -/
theorem spawn_allOrNothing_strings :
    MachineContext.spawn (cellEnv [1]) ⟨0, 0⟩ spawningCpu = .err .yield spawningCpu
      [.spawn 0 ⟨.cellDep 0, 0, 0, [[0x68, 0x69], [0x61]], [2, 3], 0x300⟩] ∧
    SpawnEnds (cellEnv [1]) ⟨0, 0⟩ spawningCpu :=
  ⟨rfl, (spawn_allOrNothing (cellEnv [1]) ⟨0, 0⟩ boundedBy_page spawningCpu).mpr
    (Or.inr (by decide))⟩

/-- A spawn that announces `2 ^ 58` strings crashes, whatever its table holds. -/
theorem spawn_allOrNothing_huge :
    MachineContext.spawn (cellEnv [1]) ⟨0, 0⟩
      (callingCpu [0, 3, 0, 0x400000000000000, 0, 0x200] 0 0) = .panic ∧
    ¬ SpawnEnds (cellEnv [1]) ⟨0, 0⟩
      (callingCpu [0, 3, 0, 0x400000000000000, 0, 0x200] 0 0) := by
  have hpanic : MachineContext.spawn (cellEnv [1]) ⟨0, 0⟩
      (callingCpu [0, 3, 0, 0x400000000000000, 0, 0x200] 0 0) = .panic := rfl
  refine ⟨hpanic, ?_⟩
  rw [SpawnEnds, hpanic]
  exact fun h => h

end DeterministicScheduler
