import DeterministicScheduler.Scheduler

/-!
# Scripted guests

An instance of the machine interface that can be run: a flat memory of one page,
instructions that follow a script, and snapshots that are the machine itself. It
meets every law of the interface, and the concrete runs of this development are
runs of such guests.
-/
namespace DeterministicScheduler

/-- The memory of a scripted guest. Only the first page can be accessed. -/
def Ram : Type := UInt64 → UInt8

namespace Ram

def blank : Ram := fun _ => 0

def inside (addr : UInt64) (size : ℕ) : Bool :=
  addr.toNat + size ≤ 0x1000

/-- The word at an address, the low byte first. -/
def word (m : Ram) (addr : UInt64) : UInt64 :=
  (List.range 8).foldr (fun i acc => acc * 256 + (m (addr + UInt64.ofNat i)).toUInt64) 0

def setByte (m : Ram) (addr : UInt64) (value : UInt8) : Ram := fun x =>
  if x = addr then value else m x

def setWord (m : Ram) (addr value : UInt64) : Ram := fun x =>
  if (x - addr).toNat < 8 then (value >>> (8 * (x - addr))).toUInt8 else m x

def setBytes (m : Ram) (addr : UInt64) (data : Bytes) : Ram := fun x =>
  (data[(x - addr).toNat]?).getD (m x)

/-- An access within the page, or the error of one beyond it. -/
def checked {α : Type} (addr : UInt64) (size : ℕ) (value : α) : Except Error α :=
  if inside addr size then .ok value else .error .memOutOfBound

theorem checked_ok {α : Type} {addr : UInt64} {size : ℕ} {value a : α}
    (h : checked addr size value = .ok a) : a = value := by
  unfold checked at h
  split at h
  · exact (Except.ok.inj h).symm
  · cases h

theorem checked_error {α : Type} {addr : UInt64} {size : ℕ} {value : α} {e : Error}
    (h : checked addr size value = .error e) : ¬ e.Reserved := by
  unfold checked at h
  split at h
  · cases h
  · cases h
    decide

end Ram

instance : Memory Ram where
  byteAt m := m
  load8 m addr := Ram.checked addr 1 (m addr)
  load64 m addr := Ram.checked addr 8 (m.word addr)
  loadBytes m addr size := Ram.checked addr size.toNat
    ((List.range size.toNat).map fun i => m (addr + UInt64.ofNat i))
  store8 m addr value := Ram.checked addr 1 (m.setByte addr value.toUInt8)
  store64 m addr value := Ram.checked addr 8 (m.setWord addr value)
  storeBytes m addr data := Ram.checked addr data.length (m.setBytes addr data)
  initPages _ _ _ _ := .error .memOutOfBound
  trackPages _ _ _ _ _ := .error .memOutOfBound
  loadBytes_eq := Ram.checked_ok
  store8_byteAt h x := by rw [Ram.checked_ok h]; rfl
  store64_byteAt h x := by rw [Ram.checked_ok h]; rfl
  storeBytes_byteAt h x := by rw [Ram.checked_ok h]; rfl
  trackPages_byteAt h := by cases h
  load8_error := Ram.checked_error
  load64_error := Ram.checked_error
  loadBytes_error := Ram.checked_error
  store8_error := Ram.checked_error
  store64_error := Ram.checked_error
  storeBytes_error := Ram.checked_error
  initPages_error h := by cases h; decide
  trackPages_error h := by cases h; decide

/-- What a script does at one program counter. -/
inductive Action where
  | call (arguments : List (Reg × UInt64))
  | step
  | exit (code : Int8)

/-- A program of one action for each program counter. -/
abbrev Script := ℕ → Action

def Script.next (script : Script) (c : Core Ram) : Next Ram :=
  match script c.pc.toNat with
  | .call arguments => .ecall {
      registers := arguments.foldl (fun rs (r, value) => Function.update rs r value) c.registers
      pc := c.pc + 1
      memory := c.memory }
  | .step => .instruction (.step { c with pc := c.pc + 1 } 0)
  | .exit code => .instruction (.exit code c)

/-- Where the program of a piece starts: the script of the transaction at zero,
that of a dependency at the next multiple of a hundred. -/
def entry : DataPieceId → UInt64
  | .cellDep i => (i.toUInt64 + 1) * 100
  | _ => 0

/-- A transaction whose dependencies all hold one byte. -/
def scriptTx (cellDeps : ℕ) : TxData where
  program := [0]
  resolvedInputs := []
  outputsData := []
  resolvedCellDeps := List.replicate cellDeps (some [0])
  inputIndices := []
  outputIndices := []

/-- Guests that follow a script, each booted with the same memory image and
charged for `bytes` of it. Every instruction costs one cycle. -/
def scriptEnv (cellDeps : ℕ) (image : Ram) (bytes : UInt64) (script : Script) :
    Env Ram (Cpu Ram) where
  txData := scriptTx cellDeps
  selectVersion := .ok ()
  loadProgram id _ _ _ := .ok ({ registers := fun _ => 0, pc := entry id, memory := image }, bytes)
  makeSnapshot m := .ok m
  resumeSnapshot m := .ok m
  cost _ := 1
  next := script.next
  syscall c := .fail (.other 0) c
  storeCellData _ _ _ _ _ := .error .memOutOfBound
  cost_pos _ := Nat.one_pos
  resume_make _ h := h.symm ▸ rfl
  makeSnapshot_error h := by cases h
  resumeSnapshot_error h := by cases h
  loadProgram_error h := by cases h
  next_error {c e c'} h := by
    unfold Script.next at h
    split at h <;> cases h
  syscall_error h := by cases h; decide
  storeCellData_error h := by cases h; decide

theorem scriptEnv_snapshotsTotal (cellDeps : ℕ) (image : Ram) (bytes : UInt64) (script : Script) :
    (scriptEnv cellDeps image bytes script).SnapshotsTotal :=
  fun m => ⟨m, rfl⟩

/-- A root that exits with a code at once. -/
def exitEnv (code : Int8) : Env Ram (Cpu Ram) :=
  scriptEnv 0 Ram.blank 0 fun _ => .exit code

/-- A system call with its arguments in order. -/
def Action.ecall (code : UInt64) (arguments : List UInt64) : Action :=
  .call ((A7, code) :: [A0, A1, A2, A3, A4, A5].zip arguments)

def spawnCall (cellDep spgsAddr : UInt64) : Action :=
  .ecall 2601 [cellDep, 3, 0, 0, 0, spgsAddr]

def joinCall (targetId exitCodeAddr : UInt64) : Action :=
  .ecall 2602 [targetId, exitCodeAddr]

def pipeCall (pipe1Addr : UInt64) : Action :=
  .ecall 2604 [pipe1Addr]

def writeCall (pipe bufferAddr lengthAddr : UInt64) : Action :=
  .ecall 2605 [bufferAddr, lengthAddr, pipe]

def readCall (pipe bufferAddr lengthAddr : UInt64) : Action :=
  .ecall 2606 [bufferAddr, lengthAddr, pipe]

/-- A memory image with the arguments of a spawn that passes one pipe at `0x200`,
and the lengths 8 at `0x500` and 12 at `0x508`. -/
def pipeImage (pipe : PipeId) : Ram :=
  ((((Ram.blank.setWord 0x200 0x300).setWord 0x208 0x220).setWord 0x220 pipe).setWord 0x500
    8).setWord 0x508 12

/-- A root that passes the write end of a pipe to the VM it spawns, reads twice
from it and joins it. The spawned VM writes once and exits. -/
def relayEnv : Env Ram (Cpu Ram) :=
  scriptEnv 1 (pipeImage 3) 40 fun
    | 0 => pipeCall 0x100
    | 1 => spawnCall 0 0x200
    | 2 => readCall 2 0x400 0x500
    | 3 => readCall 2 0x400 0x500
    | 4 => joinCall 1 0x600
    | 100 => writeCall 3 0x700 0x508
    | 101 => .exit 5
    | _ => .exit 0

/-- A memory image with the arguments of three spawns: one that passes pipe 2 at `0x200`, one
that passes pipe 3 at `0x240`, and one that passes nothing at `0x280`. -/
def crowdImage : Ram :=
  ((((pipeImage 2).setWord 0x240 0x300).setWord 0x248 0x260).setWord 0x260 3).setWord 0x280 0x300

/-- A root that spawns two VMs that talk to each other, of which one joins the other and is
woken by its exit, and then four VMs that join the root. -/
def crowdEnv : Env Ram (Cpu Ram) :=
  scriptEnv 3 crowdImage 40 fun
    | 0 => pipeCall 0x100
    | 1 => spawnCall 0 0x200
    | 2 => spawnCall 1 0x240
    | 3 => spawnCall 2 0x280
    | 4 => spawnCall 2 0x280
    | 5 => spawnCall 2 0x280
    | 6 => spawnCall 2 0x280
    | 100 => readCall 2 0x400 0x500
    | 101 => .exit 5
    | 200 => writeCall 3 0x700 0x500
    | 201 => joinCall 1 0x600
    | 300 => joinCall 0 0x600
    | _ => .exit 0

end DeterministicScheduler
