import DeterministicScheduler.Types
import DeterministicScheduler.Logic.Program

/-!
# The virtual machine a scheduler drives

The interpreter, its memory and its snapshots are a library outside this
repository. They appear as the interface `Memory` and the structure `Library`;
the fields of both that are propositions are the documented behaviour relied on. An
`Env` is a library whose snapshots restore every machine.

A register file, a program counter and a memory make a `Core`. A core and its
cycle counter make a `Cpu`, which is all a snapshot keeps. A `Machine` also
holds the exit code, which only a machine that has just exited carries.
-/
namespace DeterministicScheduler

open ProgramLogic

abbrev Reg := Fin 32

def A0 : Reg := 10
def A1 : Reg := 11
def A2 : Reg := 12
def A3 : Reg := 13
def A4 : Reg := 14
def A5 : Reg := 15
def A7 : Reg := 17

/-- Guest memory. Every access may fail; one that succeeds reads or changes
exactly the bytes it names. `byteAt` is the contents, used in statements only. -/
class Memory (μ : Type) where
  byteAt : μ → UInt64 → UInt8
  load8 : μ → UInt64 → Except Error UInt8
  load64 : μ → UInt64 → Except Error UInt64
  loadBytes : μ → UInt64 → UInt64 → Except Error Bytes
  store8 : μ → UInt64 → UInt64 → Except Error μ
  store64 : μ → UInt64 → UInt64 → Except Error μ
  storeBytes : μ → UInt64 → Bytes → Except Error μ
  /-- Fill pages with a content followed by zeros and make them executable. -/
  initPages : μ → UInt64 → UInt64 → Bytes → Except Error μ
  /-- Record pages as backed by transaction data. The record is kept with the memory: a
  snapshot leaves out a recorded page that was not written since, and resuming loads the
  page from the transaction again. -/
  trackPages : μ → UInt64 → UInt64 → DataPieceId → UInt64 → Except Error μ
  loadBytes_eq : ∀ {m addr size data}, loadBytes m addr size = .ok data →
    data = (List.range size.toNat).map fun i => byteAt m (addr + UInt64.ofNat i)
  store8_byteAt : ∀ {m addr value m'}, store8 m addr value = .ok m' → ∀ x,
    byteAt m' x = if x = addr then value.toUInt8 else byteAt m x
  store64_byteAt : ∀ {m addr value m'}, store64 m addr value = .ok m' → ∀ x,
    byteAt m' x = if (x - addr).toNat < 8
      then (value >>> (8 * (x - addr))).toUInt8 else byteAt m x
  storeBytes_byteAt : ∀ {m addr data m'}, storeBytes m addr data = .ok m' → ∀ x,
    byteAt m' x = (data[(x - addr).toNat]?).getD (byteAt m x)
  trackPages_byteAt : ∀ {m addr size id offset m'}, trackPages m addr size id offset = .ok m' →
    ∀ x, byteAt m' x = byteAt m x
  load8_error : ∀ {m addr e}, load8 m addr = .error e → ¬ e.Reserved
  load64_error : ∀ {m addr e}, load64 m addr = .error e → ¬ e.Reserved
  loadBytes_error : ∀ {m addr size e}, loadBytes m addr size = .error e → ¬ e.Reserved
  store8_error : ∀ {m addr value e}, store8 m addr value = .error e → ¬ e.Reserved
  store64_error : ∀ {m addr value e}, store64 m addr value = .error e → ¬ e.Reserved
  storeBytes_error : ∀ {m addr data e}, storeBytes m addr data = .error e → ¬ e.Reserved
  initPages_error : ∀ {m addr size data e},
    initPages m addr size data = .error e → ¬ e.Reserved
  trackPages_error : ∀ {m addr size id offset e},
    trackPages m addr size id offset = .error e → ¬ e.Reserved

structure Core (μ : Type) where
  registers : Reg → UInt64
  pc : UInt64
  memory : μ

structure Cpu (μ : Type) extends Core μ where
  cycles : ℕ

structure Machine (μ : Type) extends Cpu μ where
  exitCode : Int8

def Core.setRegister {μ : Type} (c : Core μ) (r : Reg) (value : UInt64) : Core μ :=
  { c with registers := Function.update c.registers r value }

/-- What an instruction, or a system call of another provider, does. A step
charges cycles beyond the instruction's own cost. -/
inductive Effect (μ : Type) where
  | step (core : Core μ) (charge : ℕ)
  | exit (code : Int8) (core : Core μ)
  | fail (error : Error) (core : Core μ)

/-- What a machine does next: an instruction of its own, or a system call with
the machine already past it. -/
inductive Next (μ : Type) where
  | instruction (effect : Effect μ)
  | ecall (core : Core μ)

/-- One transaction and the library a scheduler runs it with. No instruction can
see the cycle counter, so what a machine does depends on its core alone. A snapshot
restores a machine whose memory mirrors the transaction: every recorded page that it
leaves out holds what is loaded for it on resume. -/
structure Library {μ : Type} (Mirrors : TxData → μ → Prop) (κ : Type) where
  txData : TxData
  /-- The script version, whose error is reported by its text. -/
  selectVersion : Except String Unit
  /-- Parse a program, load it with its arguments and mark its pages, on a fresh
  machine. The number of bytes loaded is what booting charges for. -/
  loadProgram : DataPieceId → UInt64 → Bytes → List Bytes → Except Error (Core μ × UInt64)
  makeSnapshot : Cpu μ → Except Error κ
  resumeSnapshot : κ → Except Error (Cpu μ)
  cost : Core μ → ℕ
  next : Core μ → Next μ
  /-- System calls of the other providers, exiting among them. -/
  syscall : Core μ → Effect μ
  /-- Copy a piece of transaction data into memory, tracking its pages. The bytes
  written and the full length come back with the memory. -/
  storeCellData : μ → UInt64 → DataPieceId → UInt64 → UInt64 →
    Except Error (μ × UInt64 × UInt64)
  cost_pos : ∀ c, 0 < cost c
  resume_make : ∀ {m s}, Mirrors txData m.memory → makeSnapshot m = .ok s →
    resumeSnapshot s = .ok m
  makeSnapshot_error : ∀ {m e}, makeSnapshot m = .error e → ¬ e.Reserved
  resumeSnapshot_error : ∀ {s e}, resumeSnapshot s = .error e → ¬ e.Reserved
  loadProgram_error : ∀ {id offset program args e},
    loadProgram id offset program args = .error e → ¬ e.Reserved
  next_error : ∀ {c e c'}, next c = .instruction (.fail e c') → ¬ e.Reserved
  syscall_error : ∀ {c e c'}, syscall c = .fail e c' → ¬ e.Reserved
  storeCellData_error : ∀ {m addr id offset size e},
    storeCellData m addr id offset size = .error e → ¬ e.Reserved

/-- A library whose snapshots restore every machine. -/
abbrev Env (μ κ : Type) := Library (fun (_ : TxData) (_ : μ) => True) κ

/-- Snapshots can be taken of every machine. -/
def Library.SnapshotsTotal {μ κ : Type} {Mirrors : TxData → μ → Prop}
    (env : Library Mirrors κ) : Prop :=
  ∀ m, ∃ s, env.makeSnapshot m = .ok s

end DeterministicScheduler
