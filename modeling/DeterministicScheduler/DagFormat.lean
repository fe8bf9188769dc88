import DeterministicScheduler.Logic.Formats
import DeterministicScheduler.PipeWiring

/-!
# Workloads as messages

A workload is handed to its program as a message in the witness of the transaction. The
generator builds the message; readers verify it and then read its fields without checks.

Entities are the slices they consist of, and a reader of a slice in memory is not told
from an entity that owns it.
-/
namespace DeterministicScheduler.DataGraph

open Serialization

/-- Indices are eight bytes, from the low one up. -/
def buildVmIndex (val : ℕ) : Slice :=
  toLittleEndian 8 val

def buildPipeIndex (val : ℕ) : Slice :=
  toLittleEndian 8 val

/-- A vector of items of one size: their number and the items. -/
def PipeIndicesBuilder.write (items : List Slice) : Slice :=
  writeFixvec items

/-- A vector of bytes. The item of a write is the whole of it, with its four-byte length. -/
def BytesBuilder.write (bytes : Bytes) : Slice :=
  packNumber bytes.length ++ bytes

/-- A table: its size, the offsets of the fields, and the fields. -/
def PipeBuilder.write (vm readPipe writePipe : Slice) : Slice :=
  writeParts [vm, readPipe, writePipe]

/-- A vector of items of any size, laid out as a table is. -/
def PipesBuilder.write (items : List Slice) : Slice :=
  writeDynvec items

def WriteBuilder.write (fromVm fromPipe toVm toPipe data : Slice) : Slice :=
  writeParts [fromVm, fromPipe, toVm, toPipe, data]

def WritesBuilder.write (items : List Slice) : Slice :=
  writeDynvec items

def SpawnBuilder.write (fromVm child pipes : Slice) : Slice :=
  writeParts [fromVm, child, pipes]

def SpawnsBuilder.write (items : List Slice) : Slice :=
  writeDynvec items

def DataBuilder.write (spawns pipes writes : Slice) : Slice :=
  writeParts [spawns, pipes, writes]

/-- The message of a pipe, as the generator fills it in. -/
def Pipe.build (pipe : Pipe) : Slice :=
  PipeBuilder.write (buildVmIndex pipe.vm) (buildPipeIndex pipe.readPipe)
    (buildPipeIndex pipe.writePipe)

def Write.build (write : Write) : Slice :=
  WriteBuilder.write (buildVmIndex write.fromVm) (buildPipeIndex write.fromPipe)
    (buildVmIndex write.toVm) (buildPipeIndex write.toPipe) (BytesBuilder.write write.data)

def Spawn.build (spawn : Spawn) : Slice :=
  SpawnBuilder.write (buildVmIndex spawn.fromVm) (buildVmIndex spawn.child)
    (PipeIndicesBuilder.write (spawn.pipes.map buildPipeIndex))

/-- The message in the witness of the transaction. -/
def Data.build (data : Data) : Slice :=
  DataBuilder.write (SpawnsBuilder.write (data.spawns.map Spawn.build))
    (PipesBuilder.write (data.pipes.map Pipe.build))
    (WritesBuilder.write (data.writes.map Write.build))

/-- The default of a write, and with it the order of the bytes of a number. -/
example : ({ fromVm := 0, fromPipe := 0, toVm := 0, toPipe := 0, data := [] } : Write).build =
    [60, 0, 0, 0, 24, 0, 0, 0, 32, 0, 0, 0, 40, 0, 0, 0, 48, 0, 0, 0, 56, 0, 0, 0] ++
      List.replicate 36 0 := by decide

/-- An index is checked for its length only. -/
def VmIndexReader.verify : Verifier := fun _ =>
  verifyArray "VmIndexReader" 8

def PipeIndexReader.verify : Verifier := fun _ =>
  verifyArray "PipeIndexReader" 8

def PipeIndicesReader.verify : Verifier := fun _ =>
  verifyFixvec "PipeIndicesReader" 8

def BytesReader.verify : Verifier := fun _ =>
  verifyFixvec "BytesReader" 1

/-- A table is checked for its offsets and then field by field. Only a compatible reader lets
it have more fields than are known. -/
def PipeReader.verify : Verifier :=
  verifyTable "PipeReader" [VmIndexReader.verify, PipeIndexReader.verify, PipeIndexReader.verify]

def PipesReader.verify : Verifier :=
  verifyDynvec "PipesReader" PipeReader.verify

def WriteReader.verify : Verifier :=
  verifyTable "WriteReader" [VmIndexReader.verify, PipeIndexReader.verify, VmIndexReader.verify,
    PipeIndexReader.verify, BytesReader.verify]

def WritesReader.verify : Verifier :=
  verifyDynvec "WritesReader" WriteReader.verify

def SpawnReader.verify : Verifier :=
  verifyTable "SpawnReader" [VmIndexReader.verify, VmIndexReader.verify, PipeIndicesReader.verify]

def SpawnsReader.verify : Verifier :=
  verifyDynvec "SpawnsReader" SpawnReader.verify

/-- The check that comes before any field is read. -/
def DataReader.verify : Verifier :=
  verifyTable "DataReader" [SpawnsReader.verify, PipesReader.verify, WritesReader.verify]

/-- The conversion of eight bytes to a number, which panics on any other length. -/
def vmIndexToU64 (s : Slice) : Reading ℕ :=
  if s.length = 8 then .ok (fromLittleEndian s) else .error .panic

def pipeIndexToU64 (s : Slice) : Reading ℕ :=
  if s.length = 8 then .ok (fromLittleEndian s) else .error .panic

def PipeIndices.read (s : Slice) : Reading (List ℕ) := do
  let items ← fixvecItems 8 s
  items.mapM pipeIndexToU64

/-- The bytes without their length. -/
def Bytes.rawData (s : Slice) : Reading Slice :=
  range s 4 s.length

/-- The accessors of a pipe, each of which slices the table anew. -/
def Pipe.read (s : Slice) : Reading Pipe := do
  let vm ← tableField 3 0 s
  let readPipe ← tableField 3 1 s
  let writePipe ← tableField 3 2 s
  return { vm := ← vmIndexToU64 vm, readPipe := ← pipeIndexToU64 readPipe,
           writePipe := ← pipeIndexToU64 writePipe }

def Write.read (s : Slice) : Reading Write := do
  let fromVm ← tableField 5 0 s
  let fromPipe ← tableField 5 1 s
  let toVm ← tableField 5 2 s
  let toPipe ← tableField 5 3 s
  let data ← tableField 5 4 s
  return { fromVm := ← vmIndexToU64 fromVm, fromPipe := ← pipeIndexToU64 fromPipe,
           toVm := ← vmIndexToU64 toVm, toPipe := ← pipeIndexToU64 toPipe,
           data := ← Bytes.rawData data }

def Spawn.read (s : Slice) : Reading Spawn := do
  let fromVm ← tableField 3 0 s
  let child ← tableField 3 1 s
  let pipes ← tableField 3 2 s
  return { fromVm := ← vmIndexToU64 fromVm, child := ← vmIndexToU64 child,
           pipes := ← PipeIndices.read pipes }

/-- The items of a vector, one after another. -/
def readItems {α : Type} (read : Slice → Reading α) (s : Slice) : Reading (List α) := do
  let items ← dynvecItems s
  items.mapM read

/-- The whole of a workload, field by field and item by item. -/
def Data.read (s : Slice) : Reading Data := do
  let spawns ← tableField 3 0 s
  let pipes ← tableField 3 1 s
  let writes ← tableField 3 2 s
  return { spawns := ← readItems Spawn.read spawns, pipes := ← readItems Pipe.read pipes,
           writes := ← readItems Write.read writes }

/-- What the builders, the verifiers and the accessors above say of each type, as one format of
the library. -/
def vmIndexFormat : Format ℕ := .number "VmIndexReader" 8

def pipeIndexFormat : Format ℕ := .number "PipeIndexReader" 8

def pipeIndicesFormat : Format (List ℕ) := .fixvec "PipeIndicesReader" pipeIndexFormat 8

def bytesFormat : Format Slice := .bytes "BytesReader"

/-- The format of a table comes with the fields as nested pairs. -/
def pipeFormat : Format Pipe :=
  (Format.table "PipeReader"
    (.cons vmIndexFormat (.cons pipeIndexFormat (.cons pipeIndexFormat .nil)))).map
    (fun a => { vm := a.1, readPipe := a.2.1, writePipe := a.2.2.1 })
    (fun p => (p.vm, p.readPipe, p.writePipe, ()))

def writeFormat : Format Write :=
  (Format.table "WriteReader"
    (.cons vmIndexFormat (.cons pipeIndexFormat (.cons vmIndexFormat (.cons pipeIndexFormat
      (.cons bytesFormat .nil)))))).map
    (fun a => { fromVm := a.1, fromPipe := a.2.1, toVm := a.2.2.1, toPipe := a.2.2.2.1,
                data := a.2.2.2.2.1 })
    (fun w => (w.fromVm, w.fromPipe, w.toVm, w.toPipe, w.data, ()))

def spawnFormat : Format Spawn :=
  (Format.table "SpawnReader"
    (.cons vmIndexFormat (.cons vmIndexFormat (.cons pipeIndicesFormat .nil)))).map
    (fun a => { fromVm := a.1, child := a.2.1, pipes := a.2.2.1 })
    (fun s => (s.fromVm, s.child, s.pipes, ()))

/-- The format of a whole workload. -/
def dataFormat : Format Data :=
  (Format.table "DataReader"
    (.cons (.dynvec "SpawnsReader" spawnFormat) (.cons (.dynvec "PipesReader" pipeFormat)
      (.cons (.dynvec "WritesReader" writeFormat) .nil)))).map
    (fun a => { spawns := a.1, pipes := a.2.1, writes := a.2.2.1 })
    (fun d => (d.spawns, d.pipes, d.writes, ()))

theorem vmIndexFormat_lawful : vmIndexFormat.Lawful :=
  Format.number_lawful _ _

theorem pipeIndexFormat_lawful : pipeIndexFormat.Lawful :=
  Format.number_lawful _ _

/-- Eight bytes are read back from every item. -/
theorem pipeIndicesFormat_lawful : pipeIndicesFormat.Lawful :=
  Format.fixvec_lawful _ pipeIndexFormat_lawful (by decide) (length_toLittleEndian 8)
    fun _ h => if_neg (not_not_intro h)

/-- Tables of lawful fields are lawful. -/
theorem pipeFormat_lawful : pipeFormat.Lawful :=
  Format.map_lawful (Format.table_lawful _ (Fields.cons_lawful vmIndexFormat_lawful
    (Fields.cons_lawful pipeIndexFormat_lawful (Fields.cons_lawful pipeIndexFormat_lawful
      Fields.nil_lawful))) (List.cons_ne_nil _ _)) (fun _ => rfl) fun _ => rfl

theorem writeFormat_lawful : writeFormat.Lawful :=
  Format.map_lawful (Format.table_lawful _ (Fields.cons_lawful vmIndexFormat_lawful
    (Fields.cons_lawful pipeIndexFormat_lawful (Fields.cons_lawful vmIndexFormat_lawful
      (Fields.cons_lawful pipeIndexFormat_lawful (Fields.cons_lawful (Format.bytes_lawful _)
        Fields.nil_lawful))))) (List.cons_ne_nil _ _)) (fun _ => rfl) fun _ => rfl

theorem spawnFormat_lawful : spawnFormat.Lawful :=
  Format.map_lawful (Format.table_lawful _ (Fields.cons_lawful vmIndexFormat_lawful
    (Fields.cons_lawful vmIndexFormat_lawful (Fields.cons_lawful pipeIndicesFormat_lawful
      Fields.nil_lawful))) (List.cons_ne_nil _ _)) (fun _ => rfl) fun _ => rfl

/-- Vectors of lawful items are lawful, and so is the workload. -/
theorem dataFormat_lawful : dataFormat.Lawful :=
  Format.map_lawful (Format.table_lawful _ (Fields.cons_lawful
    (Format.dynvec_lawful _ spawnFormat_lawful) (Fields.cons_lawful
      (Format.dynvec_lawful _ pipeFormat_lawful) (Fields.cons_lawful
        (Format.dynvec_lawful _ writeFormat_lawful) Fields.nil_lawful))) (List.cons_ne_nil _ _))
    (fun _ => rfl) fun _ => rfl

/-- The fields of a table of three, spelled out. -/
theorem mapM_range_three (f : ℕ → Reading Slice) : (List.range 3).mapM f = (do
    let a ← f 0
    let b ← f 1
    let c ← f 2
    return [a, b, c]) := rfl

theorem mapM_range_five (f : ℕ → Reading Slice) : (List.range 5).mapM f = (do
    let a ← f 0
    let b ← f 1
    let c ← f 2
    let d ← f 3
    let e ← f 4
    return [a, b, c, d, e]) := rfl

theorem read_cons {α β : Type} (f : Format α) (fs : Fields β) (part : Slice) (parts : List Slice) :
    (Fields.cons f fs).read (part :: parts) = (do
      let a ← f.read part
      let b ← fs.read parts
      return (a, b)) := rfl

theorem read_nil : Fields.nil.read [] = pure () := rfl

/-- The formats read as the accessors do. -/
theorem vmIndexFormat_read : vmIndexFormat.read = vmIndexToU64 := rfl

theorem pipeIndexFormat_read : pipeIndexFormat.read = pipeIndexToU64 := rfl

theorem pipeIndicesFormat_read : pipeIndicesFormat.read = PipeIndices.read := rfl

theorem bytesFormat_read : bytesFormat.read = Bytes.rawData := rfl

/-- The format takes its fields apart in the order of the accessors. -/
theorem pipeFormat_read : pipeFormat.read = Pipe.read := by
  funext s
  show _ <$> ((List.range 3).mapM (fun i => tableField 3 i s) >>= _) = _
  simp only [mapM_range_three, read_cons, read_nil, vmIndexFormat_read, pipeIndexFormat_read,
    bind_assoc, pure_bind, map_bind, map_pure]
  rfl

theorem writeFormat_read : writeFormat.read = Write.read := by
  funext s
  show _ <$> ((List.range 5).mapM (fun i => tableField 5 i s) >>= _) = _
  simp only [mapM_range_five, read_cons, read_nil, vmIndexFormat_read, pipeIndexFormat_read,
    bytesFormat_read, bind_assoc, pure_bind, map_bind, map_pure]
  rfl

theorem spawnFormat_read : spawnFormat.read = Spawn.read := by
  funext s
  show _ <$> ((List.range 3).mapM (fun i => tableField 3 i s) >>= _) = _
  simp only [mapM_range_three, read_cons, read_nil, vmIndexFormat_read, pipeIndicesFormat_read,
    bind_assoc, pure_bind, map_bind, map_pure]
  rfl

/-- A workload is read by its format. -/
theorem dataFormat_read : dataFormat.read = Data.read := by
  funext s
  have hitems {α : Type} (name : String) (f : Format α) :
      (Format.dynvec name f).read = readItems f.read := rfl
  show _ <$> ((List.range 3).mapM (fun i => tableField 3 i s) >>= _) = _
  simp only [mapM_range_three, read_cons, read_nil, hitems, spawnFormat_read, pipeFormat_read,
    writeFormat_read, bind_assoc, pure_bind, map_bind, map_pure]
  rfl

/-- A workload is built by its format, and checked by it. -/
theorem dataFormat_write : dataFormat.write = Data.build := rfl

theorem dataFormat_verify : dataFormat.verify = DataReader.verify := rfl

/-- A workload whose indices fit their eight bytes. -/
structure Data.Small (data : Data) : Prop where
  spawns : ∀ s ∈ data.spawns, s.fromVm < 2 ^ 64 ∧ s.child < 2 ^ 64 ∧ ∀ q ∈ s.pipes, q < 2 ^ 64
  pipes : ∀ p ∈ data.pipes, p.vm < 2 ^ 64 ∧ p.readPipe < 2 ^ 64 ∧ p.writePipe < 2 ^ 64
  writes : ∀ w ∈ data.writes,
    w.fromVm < 2 ^ 64 ∧ w.fromPipe < 2 ^ 64 ∧ w.toVm < 2 ^ 64 ∧ w.toPipe < 2 ^ 64

/-- A number is written in eight bytes exactly when it is below `2 ^ 64`. -/
theorem vmIndexFormat_valid {n : ℕ} : vmIndexFormat.valid n ↔ n < 2 ^ 64 := by
  show n < 256 ^ 8 ↔ _
  norm_num

theorem pipeIndexFormat_valid {n : ℕ} : pipeIndexFormat.valid n ↔ n < 2 ^ 64 := by
  show n < 256 ^ 8 ↔ _
  norm_num

/-- The format can write exactly the workloads whose indices fit. -/
theorem dataFormat_valid (data : Data) : dataFormat.valid data ↔ data.Small := by
  constructor
  · rintro ⟨hspawns, hpipes, hwrites, -⟩
    refine ⟨fun s hs => ?_, fun p hp => ?_, fun w hw => ?_⟩
    · obtain ⟨hfrom, hchild, hlist, -⟩ := hspawns s hs
      exact ⟨vmIndexFormat_valid.mp hfrom, vmIndexFormat_valid.mp hchild,
        fun q hq => pipeIndexFormat_valid.mp (hlist q hq)⟩
    · obtain ⟨hvm, hread, hwrite, -⟩ := hpipes p hp
      exact ⟨vmIndexFormat_valid.mp hvm, pipeIndexFormat_valid.mp hread,
        pipeIndexFormat_valid.mp hwrite⟩
    · obtain ⟨hfrom, hfromPipe, hto, htoPipe, -⟩ := hwrites w hw
      exact ⟨vmIndexFormat_valid.mp hfrom, pipeIndexFormat_valid.mp hfromPipe,
        vmIndexFormat_valid.mp hto, pipeIndexFormat_valid.mp htoPipe⟩
  · intro h
    refine ⟨fun s hs => ?_, fun p hp => ?_, fun w hw => ?_, trivial⟩
    · obtain ⟨hfrom, hchild, hlist⟩ := h.spawns s hs
      exact ⟨vmIndexFormat_valid.mpr hfrom, vmIndexFormat_valid.mpr hchild,
        fun q hq => pipeIndexFormat_valid.mpr (hlist q hq), trivial⟩
    · obtain ⟨hvm, hread, hwrite⟩ := h.pipes p hp
      exact ⟨vmIndexFormat_valid.mpr hvm, pipeIndexFormat_valid.mpr hread,
        pipeIndexFormat_valid.mpr hwrite, trivial⟩
    · obtain ⟨hfrom, hfromPipe, hto, htoPipe⟩ := h.writes w hw
      exact ⟨vmIndexFormat_valid.mpr hfrom, pipeIndexFormat_valid.mpr hfromPipe,
        vmIndexFormat_valid.mpr hto, pipeIndexFormat_valid.mpr htoPipe, trivial, trivial⟩

variable {data : Data}

/-- What is built passes the check, in either mode. -/
theorem verify_build (h : data.Small) (hlength : data.build.length < 2 ^ 32) (compatible : Bool) :
    DataReader.verify compatible data.build = .ok () := by
  rw [← dataFormat_verify, ← dataFormat_write]
  exact dataFormat_lawful.accepts data ((dataFormat_valid data).mpr h) hlength compatible

/-- What is built is read back. -/
theorem read_build (h : data.Small) (hlength : data.build.length < 2 ^ 32) :
    Data.read data.build = .ok data := by
  rw [← dataFormat_read, ← dataFormat_write]
  exact dataFormat_lawful.reads data ((dataFormat_valid data).mpr h) hlength

/-- A message that passes the check can be read, and what is read is no larger. -/
theorem read_of_verify {compatible : Bool} {s : Slice}
    (h : DataReader.verify compatible s = .ok ()) :
    ∃ data : Data, Data.read s = .ok data ∧ data.Small ∧ data.build.length ≤ s.length := by
  obtain ⟨data, hread, hvalid, hlength⟩ := dataFormat_lawful.readable compatible s h
  rw [dataFormat_read] at hread
  exact ⟨data, hread, (dataFormat_valid data).mp hvalid, hlength⟩

/-- The size of a message is a number of four bytes. -/
theorem length_of_verify {compatible : Bool} {s : Slice}
    (h : DataReader.verify compatible s = .ok ()) : s.length < 2 ^ 32 := by
  rcases verifyTable_cases "DataReader" compatible _ s with ⟨e, he⟩ | ⟨parts, -, -, hlength, -⟩
  · cases he.symm.trans h
  · exact hlength

/-- A strict reader accepts exactly the messages that are built of workloads whose indices fit,
and reads the workload that a message is built of. -/
theorem dataReader_exact (s : Slice) (data : Data) :
    (DataReader.verify false s = .ok () ∧ Data.read s = .ok data) ↔
      data.Small ∧ s.length < 2 ^ 32 ∧ s = data.build := by
  constructor
  · rintro ⟨hverify, hread⟩
    obtain ⟨data', hread', hsmall, -⟩ := read_of_verify hverify
    obtain rfl := Except.ok.inj (hread.symm.trans hread')
    rw [← dataFormat_read] at hread
    exact ⟨hsmall, length_of_verify hverify,
      (dataFormat_lawful.canonical s data hverify hread).symm⟩
  · rintro ⟨hsmall, hlength, rfl⟩
    exact ⟨verify_build hsmall hlength false, read_build hsmall hlength⟩

/-- No message at all makes a reader read outside of it: neither when it is verified, in either
mode, nor when its contents are read afterwards. What is read from a message with more fields
than are known makes a message that a strict reader accepts and that is no longer. -/
theorem dataReader_total (compatible : Bool) (s : Slice) :
    DataReader.verify compatible s ≠ .error .panic ∧
    (DataReader.verify false s = .ok () → DataReader.verify compatible s = .ok ()) ∧
    (DataReader.verify compatible s = .ok () → ∃ data : Data, Data.read s = .ok data ∧
      DataReader.verify false data.build = .ok () ∧ Data.read data.build = .ok data ∧
      data.build.length ≤ s.length) := by
  refine ⟨dataFormat_lawful.total compatible s, fun h => ?_, fun h => ?_⟩
  · cases compatible with
    | false => exact h
    | true => exact dataFormat_lawful.weaker s h
  · obtain ⟨data, hread, hsmall, hle⟩ := read_of_verify h
    have hlength := hle.trans_lt (length_of_verify h)
    exact ⟨data, hread, verify_build hsmall hlength false, read_build hsmall hlength, hle⟩

end DeterministicScheduler.DataGraph
