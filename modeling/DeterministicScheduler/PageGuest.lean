import DeterministicScheduler.PageTracking

/-!
# A guest that runs a page of the transaction

A library that keeps the record of one page. A snapshot leaves the page out while it is
recorded, and resuming puts the data there that the page is recorded with. The guest
loads the page as code and exits with its last byte.
-/
namespace DeterministicScheduler

/-- A memory of one page, with the piece and the offset that the page is recorded with. -/
structure PageMemory where
  bytes : Ram
  source : Option (DataPieceId × UInt64)

namespace PageMemory

/-- A write takes the page off the record. -/
def written (bytes : Except Error Ram) : Except Error PageMemory :=
  bytes.map fun bytes => ⟨bytes, none⟩

theorem written_ok {bytes : Except Error Ram} {m : PageMemory} (h : written bytes = .ok m) :
    bytes = .ok m.bytes ∧ m.source = none := by
  cases bytes with
  | error e => cases h
  | ok _ =>
    cases h
    exact ⟨rfl, rfl⟩

theorem written_error {bytes : Except Error Ram} {e : Error} (h : written bytes = .error e) :
    bytes = .error e := by
  cases bytes with
  | error e =>
    cases h
    rfl
  | ok _ => cases h

def filled (m : Ram) (addr size : UInt64) (content : Bytes) : Except Error Ram :=
  Ram.checked addr size.toNat fun x =>
    if (x - addr).toNat < size.toNat then (content[(x - addr).toNat]?).getD 0 else m x

/-- Only the whole page can be recorded. -/
def tracked (m : PageMemory) (addr size : UInt64) (id : DataPieceId) (offset : UInt64) :
    Except Error PageMemory :=
  if addr = 0 ∧ size.toNat = pageSize then .ok { m with source := some (id, offset) }
  else .error .memOutOfBound

theorem tracked_ok {m m' : PageMemory} {addr size : UInt64} {id : DataPieceId} {offset : UInt64}
    (h : tracked m addr size id offset = .ok m') :
    addr = 0 ∧ size.toNat = pageSize ∧ m' = { m with source := some (id, offset) } := by
  unfold tracked at h
  split at h
  · rename_i hpage
    cases h
    exact ⟨hpage.1, hpage.2, rfl⟩
  · cases h

end PageMemory

open PageMemory in
instance : Memory PageMemory where
  byteAt m := m.bytes
  load8 m := Memory.load8 m.bytes
  load64 m := Memory.load64 m.bytes
  loadBytes m := Memory.loadBytes m.bytes
  store8 m addr value := written (Memory.store8 m.bytes addr value)
  store64 m addr value := written (Memory.store64 m.bytes addr value)
  storeBytes m addr data := written (Memory.storeBytes m.bytes addr data)
  initPages m addr size content := written (filled m.bytes addr size content)
  trackPages := tracked
  loadBytes_eq := Memory.loadBytes_eq
  store8_byteAt h := Memory.store8_byteAt (written_ok h).1
  store64_byteAt h := Memory.store64_byteAt (written_ok h).1
  storeBytes_byteAt h := Memory.storeBytes_byteAt (written_ok h).1
  trackPages_byteAt h x := by rw [(tracked_ok h).2.2]
  load8_error := Memory.load8_error
  load64_error := Memory.load64_error
  loadBytes_error := Memory.loadBytes_error
  store8_error h := Memory.store8_error (written_error h)
  store64_error h := Memory.store64_error (written_error h)
  storeBytes_error h := Memory.storeBytes_error (written_error h)
  initPages_error h := Ram.checked_error (written_error h)
  trackPages_error h := by
    unfold tracked at h
    split at h
    · cases h
    · cases h
      decide

/-- The page holds what it is recorded with. -/
def PageMirrors (tx : TxData) (m : PageMemory) : Prop :=
  ∀ id offset, m.source = some (id, offset) → PageBacked tx id m 0 offset

theorem PageMirrors.of_none {tx : TxData} {m : PageMemory} (h : m.source = none) :
    PageMirrors tx m := by
  intro id offset hsource
  rw [h] at hsource
  cases hsource

namespace PageMemory

/-- What a snapshot keeps. -/
def dropped (m : PageMemory) : PageMemory :=
  if m.source.isSome then { m with bytes := fun x => if x.toNat < pageSize then 0 else m.bytes x }
  else m

/-- A snapshot with its recorded page loaded again. -/
def reloaded (tx : TxData) (m : PageMemory) : Except Error PageMemory :=
  match m.source with
  | none => .ok m
  | some (id, offset) =>
    match tx.loadData id offset (UInt64.ofNat pageSize) with
    | .error e => .error e
    | .ok (data, _) =>
      if data.length = pageSize then
        .ok { m with bytes := fun x => (data[x.toNat]?).getD (m.bytes x) }
      else .error .memOutOfBound

theorem reloaded_error {tx : TxData} {m : PageMemory} {e : Error} (h : reloaded tx m = .error e) :
    ¬ e.Reserved := by
  unfold reloaded at h
  split at h
  · cases h
  · split at h
    · rename_i hload
      cases h
      exact TxData.loadData_error hload
    · split at h
      · cases h
      · cases h
        decide

/-- Nothing is lost while the page holds what it is recorded with. -/
theorem reloaded_dropped {tx : TxData} {m : PageMemory} (h : PageMirrors tx m) :
    reloaded tx m.dropped = .ok m := by
  obtain ⟨bytes, source⟩ := m
  cases source with
  | none => rfl
  | some source =>
    obtain ⟨id, offset⟩ := source
    obtain ⟨data, length, hload, hlength, hbytes⟩ := h id offset rfl
    simp only [reloaded, dropped, Option.isSome_some, if_true, hload, if_pos hlength]
    congr 2
    funext x
    by_cases hx : x.toNat < pageSize
    · have hbyte := hbytes x.toNat hx
      rw [UInt64.ofNat_toNat, UInt64.zero_add] at hbyte
      rw [hbyte]
      rfl
    · rw [List.getElem?_eq_none (by omega), if_neg hx]
      rfl

end PageMemory

/-- A guest that loads a page as code, idles and exits with the last byte of the page. -/
def pageNext (contentSize : UInt64) (c : Core PageMemory) : Next PageMemory :=
  match c.pc.toNat with
  | 0 => .ecall {
      registers := [(A7, 2091), (A0, 0), (A1, 4096), (A2, 0), (A3, contentSize), (A4, 0),
        (A5, 3)].foldl (fun rs (r, value) => Function.update rs r value) c.registers
      pc := 1
      memory := c.memory }
  | 1 => .instruction (.step { c with pc := 2 } 500)
  | _ => .instruction (.exit (c.memory.bytes 4095).toInt8 c)

/-- The guest on a transaction whose dependency holds `cell`. -/
def pageLibrary (cell : Bytes) (contentSize : UInt64) :
    Library PageMirrors (Cpu PageMemory) where
  txData := cellTx cell
  selectVersion := .ok ()
  loadProgram _ _ _ _ :=
    .ok ({ registers := fun _ => 0, pc := 0, memory := ⟨Ram.blank, none⟩ }, 40)
  makeSnapshot m := .ok { m with memory := m.memory.dropped }
  resumeSnapshot m := (m.memory.reloaded (cellTx cell)).map fun memory => { m with memory }
  cost _ := 1
  next := pageNext contentSize
  syscall c := .fail (.other 0) c
  storeCellData _ _ _ _ _ := .error .memOutOfBound
  cost_pos _ := Nat.one_pos
  resume_make hm h := by
    cases h
    rw [PageMemory.reloaded_dropped hm]
    rfl
  makeSnapshot_error h := by cases h
  resumeSnapshot_error {m e} h := by
    cases hm : m.memory.reloaded (cellTx cell) with
    | error e' =>
      rw [hm] at h
      cases h
      exact PageMemory.reloaded_error hm
    | ok _ =>
      rw [hm] at h
      cases h
  loadProgram_error h := by cases h
  next_error {c e c'} h := by
    unfold pageNext at h
    split at h <;> cases h
  syscall_error h := by cases h; decide
  storeCellData_error h := by cases h; decide

theorem cellTx_piece {cell data : Bytes} {id : DataPieceId}
    (h : (cellTx cell).piece id = .ok data) : data = cell ∨ data = [0] := by
  cases id with
  | program =>
    cases h
    exact Or.inr rfl
  | cellDep i =>
    cases hi : i.toNat with
    | zero =>
      simp only [TxData.piece, cellTx, hi, List.getElem?_cons_zero, Option.elim_some] at h
      cases h
      exact Or.inl rfl
    | succ n =>
      simp only [TxData.piece, cellTx, hi, List.getElem?_cons_succ, List.getElem?_nil,
        Option.elim_none] at h
      cases h
  | _ => cases h

theorem pageLibrary_tracking {cell : Bytes} {contentSize : UInt64}
    (hlength : cell.length < 2 ^ 64) :
    (pageLibrary cell contentSize).Tracking where
  saved _ := ⟨_, rfl⟩
  loaded h := by
    cases h
    exact .of_none rfl
  instruction {c effect} hm h := by
    change pageNext contentSize c = _ at h
    unfold pageNext at h
    split at h
    · cases h
    · cases h
      exact hm
    · cases h
      exact hm
  ecall {c c'} hm h := by
    change pageNext contentSize c = _ at h
    unfold pageNext at h
    split at h
    · cases h
      exact hm
    · cases h
    · cases h
  syscall hm := hm
  storeCellData _ h := by cases h
  store8 _ h := .of_none (PageMemory.written_ok h).2
  store64 _ h := .of_none (PageMemory.written_ok h).2
  storeBytes _ h := .of_none (PageMemory.written_ok h).2
  initPages _ h := .of_none (PageMemory.written_ok h).2
  trackPages {m addr size id offset m'} _ hbacked h := by
    obtain ⟨rfl, hsize, rfl⟩ := PageMemory.tracked_ok h
    intro id' offset' hsource
    cases hsource
    have hpage := hbacked 0 (by omega)
    rwa [Nat.zero_mul, show (0 : UInt64) + UInt64.ofNat 0 = 0 from rfl,
      show offset + UInt64.ofNat 0 = offset from UInt64.add_zero offset] at hpage
  fills h x := by
    have hbytes := Ram.checked_ok (PageMemory.written_ok h).1
    exact congrFun hbytes x
  piece_lt h := by
    rcases cellTx_piece h with rfl | rfl
    · exact hlength
    · decide

/-- The only load as code of the guest is that of its page. -/
theorem pageLibrary_covers {cell : Bytes} {contentSize : UInt64} {c c' : Core PageMemory}
    (hcovers : CellCovers cell 4096 0 contentSize)
    (h : (pageLibrary cell contentSize).next c = .ecall c') :
    Covers (pageLibrary cell contentSize) c' := by
  change pageNext contentSize c = _ at h
  unfold pageNext at h
  split at h
  · cases h
    rintro id data ⟨hcall, hpiece, _, _, _, _⟩
    cases hcall
    cases hpiece
    exact hcovers
  · cases h
  · cases h

end DeterministicScheduler
