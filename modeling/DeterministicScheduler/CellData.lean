import DeterministicScheduler.Execution
import DeterministicScheduler.Guest

/-!
# Loading cell data into memory

A partial load stores a slice of a cell and reports how much there is. A load as
code fills whole pages and records them as backed by the transaction. Both pass
on slices that the loader cuts, where a zero length asks for everything.
-/
namespace DeterministicScheduler

open ProgramLogic Program Outcome

variable {μ κ : Type} [Memory μ] {env : Env μ κ} {m m' : Cpu μ} {l : List Message}

/-- Guest memory of one page that can be filled. -/
def PageRam : Type := Ram

instance : Memory PageRam :=
  { (inferInstance : Memory Ram) with
    initPages := fun memory addr size content =>
      Ram.checked addr size.toNat fun x =>
        if (x - addr).toNat < size.toNat then (content[(x - addr).toNat]?).getD 0 else memory x
    trackPages := fun memory _ _ _ _ => .ok memory
    trackPages_byteAt := fun h _ => by cases h; rfl
    initPages_error := Ram.checked_error
    trackPages_error := fun h => by cases h }

/-- What the library does for a partial load. -/
def storeCell (tx : TxData) (memory : PageRam) (addr : UInt64) (id : DataPieceId)
    (offset size : UInt64) : Except Error (PageRam × UInt64 × UInt64) :=
  match tx.loadData id offset size with
  | .error e => .error e
  | .ok (data, fullSize) =>
    match Memory.storeBytes memory addr data with
    | .error e => .error e
    | .ok stored => .ok (stored, UInt64.ofNat data.length, fullSize)

theorem storeCell_error {tx : TxData} {memory : PageRam} {addr : UInt64} {id : DataPieceId}
    {offset size : UInt64} {e : Error} (h : storeCell tx memory addr id offset size = .error e) :
    ¬ e.Reserved := by
  unfold storeCell at h
  split at h
  · rename_i hload
    cases h
    exact TxData.loadData_error hload
  · split at h
    · rename_i hstored
      cases h
      exact Memory.storeBytes_error hstored
    · cases h

/-- A transaction with one dependency that holds `cell`. -/
def cellTx (cell : Bytes) : TxData :=
  { scriptTx 0 with resolvedCellDeps := [some cell] }

/-- Guests that can load the dependency of their transaction. -/
def cellEnv (cell : Bytes) : Env PageRam (Cpu PageRam) where
  txData := cellTx cell
  selectVersion := .ok ()
  loadProgram _ _ _ _ := .error .memOutOfBound
  makeSnapshot m := .ok m
  resumeSnapshot m := .ok m
  cost _ := 1
  next c := .ecall { c with pc := c.pc + 4 }
  syscall c := .fail (.other 0) c
  storeCellData := storeCell (cellTx cell)
  cost_pos _ := Nat.one_pos
  resume_make _ h := h.symm ▸ rfl
  makeSnapshot_error h := by cases h
  resumeSnapshot_error h := by cases h
  loadProgram_error h := by cases h; decide
  next_error h := by cases h
  syscall_error h := by cases h; decide
  storeCellData_error := storeCell_error

/-- A machine with the arguments of a call in order and a memory of zeros but for
one word. -/
def callingCpu (arguments : List UInt64) (addr value : UInt64) : Cpu PageRam where
  registers r := if 10 ≤ r.val then arguments.getD (r.val - 10) 0 else 0
  pc := 0
  memory := Ram.blank.setWord addr value
  cycles := 0

/-- The library stores what the loader returns, and reports both lengths. -/
def StoresCellData (env : Env μ κ) : Prop :=
  ∀ {memory : μ} {addr : UInt64} {id : DataPieceId} {offset size : UInt64} {stored : μ}
    {wroteSize fullSize : UInt64},
    env.storeCellData memory addr id offset size = .ok (stored, wroteSize, fullSize) →
      ∃ data, env.txData.loadData id offset size = .ok (data, fullSize) ∧
        wroteSize = UInt64.ofNat data.length ∧ Memory.storeBytes memory addr data = .ok stored

/-- The bytes of a cell from `offset` on, `size` of them at most. -/
def cellSlice (data : Bytes) (offset size : UInt64) : Bytes :=
  (data.drop (min offset.toNat data.length)).take size.toNat

theorem length_cellSlice (data : Bytes) (offset size : UInt64) :
    (cellSlice data offset size).length =
      min size.toNat (data.length - min offset.toNat data.length) := by
  simp only [cellSlice, List.length_take, List.length_drop]

/-- How many bytes of a cell there are from `offset` on. -/
def remaining (data : Bytes) (offset : UInt64) : UInt64 :=
  UInt64.ofNat (data.length - min offset.toNat data.length)

/-- What a partial load into a buffer of `size` bytes does: the buffer holds as
much of the slice as fits, the word of the size what there is of the cell, all
other memory is kept, and the bytes stored are charged for. -/
structure LoadsSlice (data : Bytes) (size : UInt64) (m m' : Cpu μ) : Prop where
  memory : ∀ x, Memory.byteAt m'.memory x =
    if (x - m.registers A1).toNat < 8 then
      (remaining data (m.registers A2) >>> (8 * (x - m.registers A1))).toUInt8
    else ((cellSlice data (m.registers A2) size)[(x - m.registers A0).toNat]?).getD
      (Memory.byteAt m.memory x)
  charged : m'.cycles = m.cycles +
    transferredByteCycles (UInt64.ofNat (cellSlice data (m.registers A2) size).length)

omit [Memory μ] in
theorem loadData_of_piece {tx : TxData} {id : DataPieceId} {data : Bytes} {offset size : UInt64}
    (h : tx.piece id = .ok data) :
    tx.loadData id offset size = .ok
      (if 0 < size then cellSlice data offset size
        else data.drop (min offset.toNat data.length), remaining data offset) := by
  rw [TxData.loadData, h]
  show Except.ok (_, _) = _
  congr 2
  split
  · rename_i hsize
    rw [cellSlice, List.take_eq_take_iff, List.length_drop]
    omega
  · rw [List.take_of_length_le (by rw [List.length_drop])]

omit [Memory μ] in
theorem loadData_whole {tx : TxData} {id : DataPieceId} {data : Bytes} (h : tx.piece id = .ok data)
    (hlength : data.length < 2 ^ 64) :
    tx.loadData id 0 0xffffffffffffffff = .ok (data, UInt64.ofNat data.length) := by
  have hwhole : cellSlice data 0 0xffffffffffffffff = data := by
    rw [cellSlice, UInt64.toNat_zero, Nat.zero_min, List.drop_zero]
    exact List.take_of_length_le (Nat.le_of_lt_succ hlength)
  rw [loadData_of_piece h, if_pos (by decide), hwhole, remaining, UInt64.toNat_zero, Nat.zero_min,
    Nat.sub_zero]

/-- What a load that succeeds has stored, and what it has charged for. -/
theorem loadCellData_ok (hstore : StoresCellData env) {id : DataPieceId} {data : Bytes}
    {size : UInt64} (hid : DataPieceId.tryFrom (m.registers A4) (m.registers A3) = .ok id)
    (hdata : env.txData.piece id = .ok data)
    (hsize : Memory.load64 m.memory (m.registers A1) = .ok size)
    (hrun : MachineContext.loadCellData env m = .ok ⟨⟩ m' l) (hA0 : m'.registers A0 = success) :
    ∃ loaded memory, loaded = (if 0 < size then cellSlice data (m.registers A2) size
        else data.drop (min (m.registers A2).toNat data.length)) ∧
      Memory.storeBytes m.memory (m.registers A0) loaded = .ok memory ∧
      Memory.store64 memory (m.registers A1) (remaining data (m.registers A2)) = .ok m'.memory ∧
      m'.cycles = m.cycles + transferredByteCycles (UInt64.ofNat loaded.length) := by
  simp only [MachineContext.loadCellData, register_bind_run, hid] at hrun
  obtain ⟨value, hload, hrun⟩ := load64_bind_ok hrun
  rw [hsize, Except.ok.injEq] at hload
  subst hload
  rw [register_bind_run, get_bind_run] at hrun
  cases hstored : env.storeCellData m.memory (m.registers A0) id (m.registers A2) size with
  | error e =>
    simp only [hstored] at hrun
    split at hrun
    · cases hrun
      simp [Core.setRegister, indexOutOfBound, success] at hA0
    · cases hrun
  | ok stored =>
    obtain ⟨memory, wroteSize, fullSize⟩ := stored
    obtain ⟨loaded, hloaded, rfl, hmemory⟩ := hstore hstored
    rw [loadData_of_piece hdata, Except.ok.injEq, Prod.mk.injEq] at hloaded
    obtain ⟨hslice, rfl⟩ := hloaded
    simp only [hstored, setMemory_bind_run] at hrun
    obtain ⟨memory', hmemory', hrun⟩ := store64_bind_ok hrun
    have hset := addCycles_bind_ok hrun
    rw [setRegister_run] at hset
    cases hset
    exact ⟨loaded, memory, hslice.symm, hmemory, hmemory', rfl⟩

/-- Bytes are stored and then the word of a size, which wins where they overlap. -/
theorem byteAt_stored {memory memory₁ memory₂ : μ} {addr sizeAddr value : UInt64} {bytes : Bytes}
    (hbytes : Memory.storeBytes memory addr bytes = .ok memory₁)
    (hword : Memory.store64 memory₁ sizeAddr value = .ok memory₂) (x : UInt64) :
    Memory.byteAt memory₂ x = if (x - sizeAddr).toNat < 8 then
        (value >>> (8 * (x - sizeAddr))).toUInt8
      else (bytes[(x - addr).toNat]?).getD (Memory.byteAt memory x) := by
  rw [Memory.store64_byteAt hword, Memory.storeBytes_byteAt hbytes]

omit [Memory μ] in
/-- Loading something is never free. -/
theorem transferredByteCycles_pos {n : ℕ} (hpos : 0 < n) (hlt : n < 2 ^ 64) :
    0 < transferredByteCycles (UInt64.ofNat n) := by
  have hn : (UInt64.ofNat n).toNat = n := UInt64.toNat_ofNat_of_lt' hlt
  simp only [transferredByteCycles, hn, bytesPerCycle]
  omega

/-- A load that succeeds does what it promises exactly when it is given room for
a byte or there is nothing to load. With no room it stores everything. -/
theorem loadCellData_slice (env : Env μ κ) (hstore : StoresCellData env) {m m' : Cpu μ}
    {l : List Message} {id : DataPieceId} {data : Bytes} {size : UInt64}
    (hid : DataPieceId.tryFrom (m.registers A4) (m.registers A3) = .ok id)
    (hdata : env.txData.piece id = .ok data) (hlength : data.length < 2 ^ 64)
    (hsize : Memory.load64 m.memory (m.registers A1) = .ok size)
    (hrun : MachineContext.loadCellData env m = .ok ⟨⟩ m' l) (hA0 : m'.registers A0 = success) :
    LoadsSlice data size m m' ↔ 0 < size ∨ data.length ≤ (m.registers A2).toNat := by
  obtain ⟨loaded, memory, hloaded, hbytes, hword, hcycles⟩ :=
    loadCellData_ok hstore hid hdata hsize hrun hA0
  have hloads : loaded = cellSlice data (m.registers A2) size → LoadsSlice data size m m' := by
    intro heq
    rw [heq] at hbytes hcycles
    exact ⟨byteAt_stored hbytes hword, hcycles⟩
  constructor
  · intro h
    by_contra hnot
    simp only [not_or, Nat.not_le, UInt64.not_lt, UInt64.le_zero_iff] at hnot
    obtain ⟨rfl, hoffset⟩ := hnot
    -- the charge tells the whole rest of the cell from the empty slice
    rw [if_neg (by decide)] at hloaded
    have hcharged := h.charged
    rw [hcycles, length_cellSlice, UInt64.toNat_zero, Nat.zero_min, Nat.add_left_cancel_iff]
      at hcharged
    have hpos : 0 < loaded.length := by
      rw [hloaded, List.length_drop]
      omega
    have hlt : loaded.length < 2 ^ 64 := by
      rw [hloaded, List.length_drop]
      omega
    have hcharge := transferredByteCycles_pos hpos hlt
    rw [hcharged] at hcharge
    exact absurd hcharge (by decide)
  · intro h
    apply hloads
    rw [hloaded]
    split
    · rfl
    · rename_i hzero
      have hend : data.drop (min (m.registers A2).toNat data.length) = [] :=
        List.drop_eq_nil_of_le (by have := h.resolve_left hzero; omega)
      rw [hend, cellSlice, hend, List.take_nil]

theorem cellEnv_stores (cell : Bytes) : StoresCellData (cellEnv cell) := by
  intro memory addr id offset size stored wroteSize fullSize h
  change storeCell (cellTx cell) memory addr id offset size = _ at h
  unfold storeCell at h
  split at h
  · cases h
  · rename_i data length hload
    split at h
    · cases h
    · rename_i memory' hstored
      cases h
      exact ⟨data, hload, rfl, hstored⟩

/-- Three bytes of a cell loaded into a buffer of two. -/
theorem loadCellData_slice_two : ∃ m' l,
    MachineContext.loadCellData (cellEnv [1, 2, 3]) (callingCpu [0x100, 0x500, 0, 0, 3] 0x500 2) =
      .ok ⟨⟩ m' l ∧
    LoadsSlice [1, 2, 3] 2 (callingCpu [0x100, 0x500, 0, 0, 3] 0x500 2) m' := by
  refine ⟨_, _, rfl, ?_⟩
  exact (loadCellData_slice (cellEnv [1, 2, 3]) (cellEnv_stores _) rfl rfl (by decide) rfl rfl
    rfl).mpr (Or.inl (by decide))

/-- With no room for a byte, the whole cell is stored all the same. -/
theorem loadCellData_slice_zero : ∃ m' l,
    Memory.load64 (callingCpu [0x100, 0x500, 0, 0, 3] 0x500 0).memory 0x500 = .ok 0 ∧
    MachineContext.loadCellData (cellEnv [1, 2, 3]) (callingCpu [0x100, 0x500, 0, 0, 3] 0x500 0) =
      .ok ⟨⟩ m' l ∧ m'.registers A0 = success ∧ Memory.byteAt m'.memory 0x100 = 1 ∧
    ¬ LoadsSlice [1, 2, 3] 0 (callingCpu [0x100, 0x500, 0, 0, 3] 0x500 0) m' := by
  refine ⟨_, _, rfl, rfl, rfl, rfl, ?_⟩
  intro h
  exact absurd (h.memory 0x100) (by decide)

def pageSize : ℕ := 4096

/-- Pages are filled with a content and, past its end, with zeros. -/
def FillsPages (μ : Type) [Memory μ] : Prop :=
  ∀ {memory : μ} {addr size : UInt64} {content : Bytes} {filled : μ},
    Memory.initPages memory addr size content = .ok filled → ∀ x,
      Memory.byteAt filled x = if (x - addr).toNat < size.toNat then
        (content[(x - addr).toNat]?).getD 0 else Memory.byteAt memory x

/-- A page that can be dropped from a snapshot: the loader yields a page of data
for it, which is what it holds. -/
def PageBacked (tx : TxData) (id : DataPieceId) (memory : μ) (page offset : UInt64) : Prop :=
  ∃ data length, tx.loadData id offset (UInt64.ofNat pageSize) = .ok (data, length) ∧
    data.length = pageSize ∧
    ∀ i, i < pageSize → data[i]? = some (Memory.byteAt memory (page + UInt64.ofNat i))

/-- All whole pages of a tracked region are backed. The page at `j` from its start
is recorded with the offset that lies `j` after that of the region. -/
def PagesBacked (tx : TxData) (id : DataPieceId) (memory : μ) (addr size offset : UInt64) : Prop :=
  ∀ k : ℕ, (k + 1) * pageSize ≤ size.toNat →
    PageBacked tx id memory (addr + UInt64.ofNat (k * pageSize))
      (offset + UInt64.ofNat (k * pageSize))

omit [Memory μ] in
theorem ofExcept_bind_ok {α β : Type} {x : Except Error α} {f : α → MachineM μ β} {b : β}
    (h : (ofExcept x >>= f) m = .ok b m' l) : ∃ a, x = .ok a ∧ f a m = .ok b m' l := by
  cases x with
  | error e => cases h
  | ok a =>
    rw [ofExcept_ok, pure_bind_run] at h
    exact ⟨a, rfl, h⟩

/-- What a load as code that succeeds has checked, filled, recorded and charged. -/
theorem loadCellDataAsCode_ok {id : DataPieceId} {cell : Bytes}
    (hid : DataPieceId.tryFrom (m.registers A5) (m.registers A4) = .ok id)
    (hcell : env.txData.piece id = .ok cell) (hlength : cell.length < 2 ^ 64)
    (hrun : MachineContext.loadCellDataAsCode env m = .ok ⟨⟩ m' l)
    (hA0 : m'.registers A0 = success) :
    (m.registers A2).toNat < cell.length ∧
      (m.registers A2).toNat + (m.registers A3).toNat ≤ cell.length ∧
      m.registers A3 ≤ m.registers A1 ∧
      (∃ filled, Memory.initPages m.memory (m.registers A0) (m.registers A1)
          ((cell.drop (m.registers A2).toNat).take (m.registers A3).toNat) = .ok filled ∧
        Memory.trackPages filled (m.registers A0) (m.registers A1) id (m.registers A2) =
          .ok m'.memory) ∧
      m'.cycles = m.cycles + transferredByteCycles (m.registers A1) := by
  simp only [MachineContext.loadCellDataAsCode, register_bind_run, hid,
    loadData_whole hcell hlength] at hrun
  cases hend : checkedAdd (m.registers A2) (m.registers A3) with
  | none =>
    rw [hend] at hrun
    cases hrun
  | some contentEnd =>
    have hsum : contentEnd.toNat = (m.registers A2).toNat + (m.registers A3).toNat := by
      simp only [checkedAdd, Option.ite_none_right_eq_some, Option.some.injEq] at hend
      rw [← hend.2, UInt64.toNat_add, Nat.mod_eq_of_lt hend.1]
    simp only [hend] at hrun
    split at hrun
    · rw [setRegister_run] at hrun
      cases hrun
      simp [Core.setRegister, sliceOutOfBound, success] at hA0
    · rename_i hbounds
      simp only [not_or, Nat.not_le, Nat.not_lt, UInt64.not_lt, hsum] at hbounds
      rw [get_bind_run] at hrun
      obtain ⟨filled, hfilled, hrun⟩ := ofExcept_bind_ok hrun
      rw [setMemory_bind_run, get_bind_run] at hrun
      obtain ⟨tracked, htracked, hrun⟩ := ofExcept_bind_ok hrun
      rw [setMemory_bind_run] at hrun
      have hset := addCycles_bind_ok hrun
      rw [setRegister_run] at hset
      cases hset
      exact ⟨hbounds.1, hbounds.2.1, hbounds.2.2, ⟨filled, hfilled, htracked⟩, rfl⟩

/-- The bytes of the cell that a load as code ought to leave in a region of `size`
bytes: the cell reaches as far, and past the content it holds zeros only. -/
def CellCovers (cell : Bytes) (size offset contentSize : UInt64) : Prop :=
  offset.toNat + size.toNat ≤ cell.length ∧
    ∀ i, contentSize.toNat ≤ i → i < size.toNat → cell[offset.toNat + i]? = some 0

omit [Memory μ] in
theorem toNat_add_page {offset : UInt64} {n : ℕ} (h : offset.toNat + n < 2 ^ 64) :
    (offset + UInt64.ofNat n).toNat = offset.toNat + n := by
  have hn : (UInt64.ofNat n).toNat = n := UInt64.toNat_ofNat_of_lt' (show _ < 2 ^ 64 by omega)
  rw [UInt64.toNat_add, hn, Nat.mod_eq_of_lt h]

/-- The loader yields a whole page where the cell reaches to its end. -/
theorem pageBacked_iff {tx : TxData} {id : DataPieceId} {cell : Bytes} {memory : μ}
    {page offset : UInt64} {n : ℕ} (hcell : tx.piece id = .ok cell)
    (hlt : offset.toNat + n < 2 ^ 64) :
    PageBacked tx id memory page (offset + UInt64.ofNat n) ↔
      offset.toNat + n + pageSize ≤ cell.length ∧ ∀ i, i < pageSize →
        cell[offset.toNat + n + i]? = some (Memory.byteAt memory (page + UInt64.ofNat i)) := by
  have hsize : (UInt64.ofNat pageSize).toNat = pageSize := rfl
  have hpage : ∀ i, i < pageSize → offset.toNat + n + pageSize ≤ cell.length →
      (cellSlice cell (offset + UInt64.ofNat n) (UInt64.ofNat pageSize))[i]? =
        cell[offset.toNat + n + i]? := by
    intro i hi hle
    rw [cellSlice, toNat_add_page hlt, hsize, List.getElem?_take_of_lt hi, List.getElem?_drop,
      Nat.min_eq_left (by omega)]
  rw [PageBacked, loadData_of_piece hcell, if_pos (by decide)]
  constructor
  · rintro ⟨data, length, hdata, hlength, hbytes⟩
    rw [Except.ok.injEq, Prod.mk.injEq] at hdata
    obtain ⟨rfl, _⟩ := hdata
    rw [length_cellSlice, toNat_add_page hlt, hsize] at hlength
    have hle : offset.toNat + n + pageSize ≤ cell.length := by
      simp only [pageSize] at hlength ⊢
      omega
    refine ⟨hle, fun i hi => ?_⟩
    rw [← hpage i hi hle]
    exact hbytes i hi
  · rintro ⟨hle, hbytes⟩
    refine ⟨_, _, rfl, ?_, fun i hi => ?_⟩
    · rw [length_cellSlice, toNat_add_page hlt, hsize]
      omega
    · rw [hpage i hi hle]
      exact hbytes i hi

/-- A byte of a filled region is one of the content, or a zero past it. -/
theorem byteAt_filled (hfills : FillsPages μ) {memory filled : μ} {addr size : UInt64}
    {content : Bytes} (hfilled : Memory.initPages memory addr size content = .ok filled) {i : ℕ}
    (hi : i < size.toNat) :
    Memory.byteAt filled (addr + UInt64.ofNat i) = (content[i]?).getD 0 := by
  have hlt := size.toNat_lt
  have hn : (UInt64.ofNat i).toNat = i := UInt64.toNat_ofNat_of_lt' (show _ < 2 ^ 64 by omega)
  have hsub : addr + UInt64.ofNat i - addr = UInt64.ofNat i := by
    rw [UInt64.add_comm, UInt64.add_sub_cancel]
  rw [hfills hfilled, hsub, hn, if_pos hi]

/-- A region of memory that was filled with a part of a cell, and with zeros past it. -/
def FilledFrom (cell : Bytes) (memory : μ) (addr size offset contentSize : UInt64) : Prop :=
  ∀ i, i < size.toNat → Memory.byteAt memory (addr + UInt64.ofNat i) =
    if i < contentSize.toNat then (cell[offset.toNat + i]?).getD 0 else 0

theorem filledFrom_initPages (hfills : FillsPages μ) {cell : Bytes} {memory filled : μ}
    {addr size offset contentSize : UInt64}
    (hfilled : Memory.initPages memory addr size
      ((cell.drop offset.toNat).take contentSize.toNat) = .ok filled) :
    FilledFrom cell filled addr size offset contentSize := by
  intro i hi
  rw [byteAt_filled hfills hfilled hi]
  split
  · rename_i hin
    rw [List.getElem?_take_of_lt hin, List.getElem?_drop]
  · rename_i hout
    rw [List.getElem?_eq_none]
    · rfl
    · rw [List.length_take]
      omega

omit [Memory μ] in
theorem add_ofNat_add (addr : UInt64) (n i : ℕ) :
    addr + UInt64.ofNat n + UInt64.ofNat i = addr + UInt64.ofNat (n + i) := by
  rw [UInt64.ofNat_add, UInt64.add_assoc]

section Filled

variable {tx : TxData} {id : DataPieceId} {cell : Bytes} {memory : μ}
  {addr size offset contentSize : UInt64}

/-- A region that its cell covers is backed by it. -/
theorem FilledFrom.backed (h : FilledFrom cell memory addr size offset contentSize)
    (hcell : tx.piece id = .ok cell) (hlength : cell.length < 2 ^ 64)
    (hcontent : offset.toNat + contentSize.toNat ≤ cell.length)
    (hcovers : CellCovers cell size offset contentSize) :
    PagesBacked tx id memory addr size offset := by
  obtain ⟨hreach, hzeros⟩ := hcovers
  intro k hk
  have hk' : k * pageSize + pageSize ≤ size.toNat := by
    rwa [Nat.add_mul, Nat.one_mul] at hk
  refine (pageBacked_iff hcell (by omega)).mpr ⟨by omega, fun i hi => ?_⟩
  have hin : k * pageSize + i < size.toNat := by omega
  rw [add_ofNat_add, h _ hin, Nat.add_assoc]
  split
  · rename_i hcontent'
    rw [List.getElem?_eq_getElem (by omega), Option.getD_some]
  · rename_i hpast
    exact hzeros _ (Nat.not_lt.mp hpast) hin

/-- Whole pages that are backed take a cell that covers them. -/
theorem FilledFrom.covered (h : FilledFrom cell memory addr size offset contentSize)
    (hcell : tx.piece id = .ok cell) (hlength : cell.length < 2 ^ 64)
    (haligned : size.toNat % pageSize = 0) (hstart : offset.toNat < cell.length)
    (hbacked : PagesBacked tx id memory addr size offset) :
    CellCovers cell size offset contentSize := by
  have hpage : ∀ k, (k + 1) * pageSize ≤ size.toNat →
      offset.toNat + k * pageSize < 2 ^ 64 → _ := fun k hk hlt =>
    (pageBacked_iff hcell hlt).mp (hbacked k hk)
  have hreach : offset.toNat + size.toNat ≤ cell.length := by
    by_contra hshort
    -- the page in which the cell ends is recorded whole
    have hlast := (hpage ((cell.length - offset.toNat) / pageSize)
      (by simp only [pageSize] at haligned ⊢; omega) (by simp only [pageSize]; omega)).1
    simp only [pageSize] at hlast
    omega
  refine ⟨hreach, fun i hge hlt => ?_⟩
  have hzero := (hpage (i / pageSize) (by simp only [pageSize] at haligned ⊢; omega)
    (by simp only [pageSize]; omega)).2 (i % pageSize) (Nat.mod_lt i (by decide))
  rw [add_ofNat_add, Nat.add_assoc, Nat.mul_comm, Nat.div_add_mod, h i hlt,
    if_neg (Nat.not_lt.mpr hge)] at hzero
  exact hzero

end Filled

/-- After a load as code that succeeds, every whole page it records is backed by
the cell exactly when the cell reaches to the end of the region and holds zeros
past the content. -/
theorem loadCellDataAsCode_backed (env : Env μ κ) (hfills : FillsPages μ) {m m' : Cpu μ}
    {l : List Message} {id : DataPieceId} {cell : Bytes}
    (hid : DataPieceId.tryFrom (m.registers A5) (m.registers A4) = .ok id)
    (hcell : env.txData.piece id = .ok cell) (hlength : cell.length < 2 ^ 64)
    (haligned : (m.registers A1).toNat % pageSize = 0)
    (hrun : MachineContext.loadCellDataAsCode env m = .ok ⟨⟩ m' l)
    (hA0 : m'.registers A0 = success) :
    (∃ filled, Memory.initPages m.memory (m.registers A0) (m.registers A1)
        ((cell.drop (m.registers A2).toNat).take (m.registers A3).toNat) = .ok filled ∧
      Memory.trackPages filled (m.registers A0) (m.registers A1) id (m.registers A2) =
        .ok m'.memory) ∧
      (PagesBacked env.txData id m'.memory (m.registers A0) (m.registers A1) (m.registers A2) ↔
        CellCovers cell (m.registers A1) (m.registers A2) (m.registers A3)) := by
  obtain ⟨hstart, hcontent, _, ⟨filled, hfilled, htracked⟩, _⟩ :=
    loadCellDataAsCode_ok hid hcell hlength hrun hA0
  refine ⟨⟨filled, hfilled, htracked⟩, ?_⟩
  have hregion : FilledFrom cell m'.memory (m.registers A0) (m.registers A1) (m.registers A2)
      (m.registers A3) := by
    intro i hi
    rw [Memory.trackPages_byteAt htracked]
    exact filledFrom_initPages hfills hfilled i hi
  exact ⟨hregion.covered hcell hlength haligned hstart, hregion.backed hcell hlength hcontent⟩

theorem cellEnv_fills : FillsPages PageRam := by
  intro memory addr size content filled h x
  rw [Ram.checked_ok h]
  rfl

/-- A cell of exactly one page. -/
def pageCell : Bytes := List.replicate pageSize 7

/-- One page loaded from a cell of one page. -/
theorem loadCellDataAsCode_backed_page : ∃ m' l,
    MachineContext.loadCellDataAsCode (cellEnv pageCell)
      (callingCpu [0, 4096, 0, 4096, 0, 3] 0 0) = .ok ⟨⟩ m' l ∧
    PagesBacked (cellTx pageCell) (.cellDep 0) m'.memory 0 4096 0 := by
  have hlength : pageCell.length = 4096 := List.length_replicate
  have hlt : pageCell.length < 2 ^ 64 := by rw [hlength]; decide
  have hcell : (cellEnv pageCell).txData.piece (.cellDep 0) = .ok pageCell := rfl
  have hid : DataPieceId.tryFrom ((callingCpu [0, 4096, 0, 4096, 0, 3] 0 0).registers A5)
      ((callingCpu [0, 4096, 0, 4096, 0, 3] 0 0).registers A4) = .ok (.cellDep 0) := rfl
  have hend : checkedAdd ((callingCpu [0, 4096, 0, 4096, 0, 3] 0 0).registers A2)
      ((callingCpu [0, 4096, 0, 4096, 0, 3] 0 0).registers A3) = some 4096 := rfl
  have hrun : ∃ m' l, MachineContext.loadCellDataAsCode (cellEnv pageCell)
      (callingCpu [0, 4096, 0, 4096, 0, 3] 0 0) = .ok ⟨⟩ m' l ∧ m'.registers A0 = success := by
    simp only [MachineContext.loadCellDataAsCode, register_bind_run, hid, hend,
      loadData_whole hcell hlt, hlength]
    rw [if_neg (by decide)]
    exact ⟨_, _, rfl, rfl⟩
  obtain ⟨m', l, hrun, hA0⟩ := hrun
  have hcovers : CellCovers pageCell 4096 0 4096 := by
    refine ⟨by rw [hlength]; decide, fun i hge hlt => ?_⟩
    exact absurd hlt (Nat.not_lt.mpr hge)
  exact ⟨m', l, hrun, (loadCellDataAsCode_backed (cellEnv pageCell) cellEnv_fills hid hcell hlt
    (by decide) hrun hA0).2.mpr hcovers⟩

/-- A page loaded from a shorter cell is recorded, but the loader has no whole
page to put back. -/
theorem loadCellDataAsCode_backed_short : ∃ m' l,
    MachineContext.loadCellDataAsCode (cellEnv [1, 2, 3])
      (callingCpu [0, 4096, 0, 3, 0, 3] 0 0) = .ok ⟨⟩ m' l ∧ m'.registers A0 = success ∧
    ¬ PagesBacked (cellTx [1, 2, 3]) (.cellDep 0) m'.memory 0 4096 0 := by
  refine ⟨_, _, rfl, rfl, ?_⟩
  intro h
  obtain ⟨data, length, hdata, hlength, _⟩ := h 0 (by decide)
  have hshort : (cellTx [1, 2, 3]).loadData (.cellDep 0) (0 + UInt64.ofNat (0 * pageSize))
      (UInt64.ofNat pageSize) = .ok ([1, 2, 3], 3) := rfl
  rw [hshort, Except.ok.injEq, Prod.mk.injEq] at hdata
  rw [← hdata.1] at hlength
  exact absurd hlength (by decide)

end DeterministicScheduler
