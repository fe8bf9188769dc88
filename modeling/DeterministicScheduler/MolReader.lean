import DeterministicScheduler.DagFormat

/-!
# The reader of the guest

The program verifies its workload with another reader, which works on segments of memory.
It checks an item before it has seen the offsets of the later ones, so a broken message can
make it read outside of the segment, which may fault. What the library for C does with
numbers and with items of one size is a parameter.
-/
namespace DeterministicScheduler.DataGraph

open Serialization

/-- Memory whose bytes may be missing. -/
abbrev Mapped := ℕ → Option UInt8

structure MolSeg where
  ptr : ℕ
  size : ℕ

inductive MolErrno where
  | totalSize
  | header
  | offset
  | fieldCount
  | data
  deriving DecidableEq

/-- How a function that does not return `MOL_OK` ends. -/
inductive MolStop where
  | errno (error : MolErrno)
  | fault
  deriving DecidableEq

abbrev MolM := Except MolStop

abbrev MolVerifier := Mapped → MolSeg → Bool → MolM Unit

structure MolLibrary where
  unpackNumber : Mapped → ℕ → MolM ℕ
  verifyFixedSize : Mapped → MolSeg → ℕ → MolM Unit
  fixvecVerify : Mapped → MolSeg → ℕ → MolM Unit

/-- A failed verification of a part. -/
def orData (result : MolM Unit) : MolM Unit :=
  match result with
  | .error (.errno _) => .error (.errno .data)
  | result => result

section Reader

variable (lib : MolLibrary)

/-- The offsets of a table after the first. -/
def molOffsets (mem : Mapped) : ℕ → ℕ → ℕ → MolM (List ℕ)
  | _, previous, 0 => return [previous]
  | ptr, previous, n + 1 => do
    let next ← lib.unpackNumber mem (ptr + 4)
    if next < previous then .error (.errno .offset)
    else
      let offsets ← molOffsets mem (ptr + 4) next n
      return previous :: offsets

def molVerifyFields (mem : Mapped) (input : MolSeg) (compatible : Bool) :
    List MolVerifier → List ℕ → MolM Unit
  | [], _ => return ()
  | field :: fields, start :: stop :: offsets => do
    orData (field mem ⟨input.ptr + start, stop - start⟩ compatible)
    molVerifyFields mem input compatible fields (stop :: offsets)
  | _ :: _, _ => .error .fault

def molTableVerify (fields : List MolVerifier) : MolVerifier := fun mem input compatible => do
  if input.size < 4 then .error (.errno .header)
  else
    let totalSize ← lib.unpackNumber mem input.ptr
    if input.size ≠ totalSize then .error (.errno .totalSize)
    else if input.size < 8 then .error (.errno .header)
    else
      let offset ← lib.unpackNumber mem (input.ptr + 4)
      if 0 < offset % 4 ∨ offset < 8 then .error (.errno .offset)
      else
        let fieldCount := offset / 4 - 1
        if fieldCount < fields.length then .error (.errno .fieldCount)
        else if !compatible ∧ fields.length < fieldCount then .error (.errno .fieldCount)
        else if input.size < 4 * (fieldCount + 1) then .error (.errno .header)
        else
          let offsets ← molOffsets lib mem (input.ptr + 4) offset (fieldCount - 1)
          if totalSize < offsets.getLastD 0 then .error (.errno .offset)
          else molVerifyFields mem input compatible fields (offsets ++ [totalSize])

/-- The items from the one at `offset`, when the offset of the next comes after `ptr`. -/
def molVerifyItems (item : MolVerifier) (mem : Mapped) (input : MolSeg) (compatible : Bool)
    (totalSize : ℕ) : ℕ → ℕ → ℕ → MolM Unit
  | _, offset, 0 =>
    if totalSize < offset then .error (.errno .offset)
    else item mem ⟨input.ptr + offset, totalSize - offset⟩ compatible
  | ptr, offset, n + 1 => do
    let stop ← lib.unpackNumber mem (ptr + 4)
    if stop < offset then .error (.errno .offset)
    else
      orData (item mem ⟨input.ptr + offset, stop - offset⟩ compatible)
      molVerifyItems item mem input compatible totalSize (ptr + 4) stop n

def molDynvecVerify (item : MolVerifier) : MolVerifier := fun mem input compatible => do
  if input.size < 4 then .error (.errno .header)
  else
    let totalSize ← lib.unpackNumber mem input.ptr
    if input.size ≠ totalSize then .error (.errno .totalSize)
    else if input.size = 4 then return ()
    else if input.size < 8 then .error (.errno .header)
    else
      let offset ← lib.unpackNumber mem (input.ptr + 4)
      if 0 < offset % 4 ∨ offset < 8 then .error (.errno .offset)
      else
        let itemCount := offset / 4 - 1
        if input.size < 4 * (itemCount + 1) then .error (.errno .header)
        else
          molVerifyItems lib item mem input compatible totalSize (input.ptr + 4) offset
            (itemCount - 1)

namespace MolReader

def vmIndexVerify : MolVerifier := fun mem input _ => lib.verifyFixedSize mem input 8

def pipeIndexVerify : MolVerifier := fun mem input _ => lib.verifyFixedSize mem input 8

def pipeIndicesVerify : MolVerifier := fun mem input _ => lib.fixvecVerify mem input 8

def bytesVerify : MolVerifier := fun mem input _ => lib.fixvecVerify mem input 1

def pipeVerify : MolVerifier :=
  molTableVerify lib [vmIndexVerify lib, pipeIndexVerify lib, pipeIndexVerify lib]

def pipesVerify : MolVerifier :=
  molDynvecVerify lib (pipeVerify lib)

def writeVerify : MolVerifier :=
  molTableVerify lib [vmIndexVerify lib, pipeIndexVerify lib, vmIndexVerify lib,
    pipeIndexVerify lib, bytesVerify lib]

def writesVerify : MolVerifier :=
  molDynvecVerify lib (writeVerify lib)

def spawnVerify : MolVerifier :=
  molTableVerify lib [vmIndexVerify lib, vmIndexVerify lib, pipeIndicesVerify lib]

def spawnsVerify : MolVerifier :=
  molDynvecVerify lib (spawnVerify lib)

def dataVerify : MolVerifier :=
  molTableVerify lib [spawnsVerify lib, pipesVerify lib, writesVerify lib]

end MolReader

end Reader

/-- The memory from `ptr` on has these bytes. -/
def Holds (mem : Mapped) (ptr : ℕ) (s : Slice) : Prop :=
  ∀ i b, s[i]? = some b → mem (ptr + i) = some b

/-- The library reads numbers from the low byte up, and accepts segments of the right size. -/
structure MolLibrary.Documented (lib : MolLibrary) : Prop where
  unpackNumber : ∀ mem ptr s, s.length = 4 → Holds mem ptr s →
    lib.unpackNumber mem ptr = .ok (fromLittleEndian s)
  verifyFixedSize : ∀ mem input, lib.verifyFixedSize mem input input.size = .ok ()
  fixvecVerify : ∀ mem input itemSize items, 0 < itemSize →
    (∀ item ∈ items, item.length = itemSize) → Holds mem input.ptr (writeFixvec items) →
    input.size = (writeFixvec items).length → input.size < 2 ^ 32 →
    lib.fixvecVerify mem input itemSize = .ok ()

/-- The guest's verifier accepts what the host's does. -/
def Admits (c : MolVerifier) (v : Verifier) : Prop :=
  ∀ mem ptr s compatible, Holds mem ptr s → s.length < 2 ^ 32 → v compatible s = .ok () →
    c mem ⟨ptr, s.length⟩ compatible = .ok ()

theorem range_eq_ok {s part : Slice} {start stop : ℕ} (h : range s start stop = .ok part) :
    start ≤ stop ∧ stop ≤ s.length ∧ part.length = stop - start ∧
      ∀ i, i < stop - start → part[i]? = s[start + i]? := by
  rw [range] at h
  split at h
  · rename_i hbounds
    obtain rfl := Except.ok.inj h
    refine ⟨hbounds.1, hbounds.2, ?_, fun i hi => ?_⟩
    · rw [List.length_drop, List.length_take]
      omega
    · rw [List.getElem?_drop, List.getElem?_take_of_lt (by omega)]
  · cases h

theorem Holds.range {mem : Mapped} {ptr start stop : ℕ} {s part : Slice} (h : Holds mem ptr s)
    (hrange : range s start stop = .ok part) : Holds mem (ptr + start) part := by
  obtain ⟨-, -, hlength, hpart⟩ := range_eq_ok hrange
  intro i b hb
  have hlt := (List.getElem?_eq_some_iff.mp hb).1
  rw [hpart i (by omega)] at hb
  rw [Nat.add_assoc]
  exact h _ b hb

section Accepts

variable {lib : MolLibrary} (hlib : lib.Documented) {mem : Mapped} {ptr : ℕ} {s : Slice}
  {compatible : Bool}

include hlib

theorem Holds.unpackNumber (h : Holds mem ptr s) {i n : ℕ} (hread : unpackNumber s i = .ok n) :
    lib.unpackNumber mem (ptr + i) = .ok n := by
  rw [Serialization.unpackNumber] at hread
  obtain ⟨bytes, hrange, hn⟩ := bind_eq_ok hread
  obtain rfl := Except.ok.inj hn
  obtain ⟨-, -, hlength, -⟩ := range_eq_ok hrange
  exact hlib.unpackNumber _ _ _ (by omega) (h.range hrange)

theorem admits_array (name : String) (size : ℕ) :
    Admits (fun mem input _ => lib.verifyFixedSize mem input size)
      (fun _ => verifyArray name size) := by
  intro mem ptr s _ _ _ hverify
  have hsize : s.length = size := by
    by_contra hne
    simp only [verifyArray, if_pos hne] at hverify
    cases hverify
  rw [← hsize]
  exact hlib.verifyFixedSize mem ⟨ptr, s.length⟩

theorem admits_fixvec (name : String) (itemSize : ℕ) (hpos : 0 < itemSize) :
    Admits (fun mem input _ => lib.fixvecVerify mem input itemSize)
      (fun _ => verifyFixvec name itemSize) := by
  intro mem ptr s _ hholds hlength hverify
  rcases verifyFixvec_cases name itemSize s with ⟨e, he⟩ | ⟨items, rfl, -, hsize⟩
  · cases he.symm.trans hverify
  · exact hlib.fixvecVerify mem _ itemSize items hpos hsize hholds rfl hlength

omit hlib in
theorem molVerifyFields_ok {cs : List MolVerifier} {vs : List Verifier}
    (hadmits : List.Forall₂ Admits cs vs) (hholds : Holds mem ptr s) (hlength : s.length < 2 ^ 32)
    (input : MolSeg) (hptr : input.ptr = ptr) {offsets : List ℕ}
    (hverify : verifyFields compatible s vs offsets = .ok ()) :
    molVerifyFields mem input compatible cs offsets = .ok () := by
  induction hadmits generalizing offsets with
  | nil => rfl
  | cons hhead _ ih =>
    rcases offsets with _ | ⟨start, _ | ⟨stop, offsets⟩⟩
    · cases hverify
    · cases hverify
    · rw [verifyFields] at hverify
      obtain ⟨part, hrange, hverify⟩ := bind_eq_ok hverify
      obtain ⟨_, hpart, hverify⟩ := bind_eq_ok hverify
      obtain ⟨-, hstop, hsize, -⟩ := range_eq_ok hrange
      have haccept := hhead mem _ part compatible (hholds.range hrange) (by omega) hpart
      rw [hsize, ← hptr] at haccept
      rw [molVerifyFields, haccept]
      exact ih hverify

omit hlib in
/-- The offsets of the parts after the first, which memory has after `ptr`. -/
theorem molOffsets_ok (parts : List Slice) {first : Slice} {start ptr : ℕ}
    (hreads : ∀ i offset, (offsetsFrom (start + first.length) parts)[i]? = some offset →
      lib.unpackNumber mem (ptr + 4 * (i + 1)) = .ok offset) :
    molOffsets lib mem ptr start parts.length = .ok (offsetsFrom start (first :: parts)) := by
  induction parts generalizing first start ptr with
  | nil => rfl
  | cons part parts ih =>
    have hnext := hreads 0 _ rfl
    have hrest : molOffsets lib mem (ptr + 4) (start + first.length) parts.length =
        .ok (offsetsFrom (start + first.length) (part :: parts)) := by
      refine ih fun i offset hi => ?_
      have hread := hreads (i + 1) offset (by rw [offsetsFrom, List.getElem?_cons_succ]; exact hi)
      rwa [show ptr + 4 + 4 * (i + 1) = ptr + 4 * (i + 1 + 1) by ring]
    rw [List.length_cons, molOffsets, hnext, bind_ok, if_neg (by omega), hrest]
    rfl

omit hlib in
theorem molVerifyItems_ok {c : MolVerifier} {v : Verifier} (hadmits : Admits c v)
    (hholds : Holds mem ptr s) (hlength : s.length < 2 ^ 32) (input : MolSeg)
    (hptr : input.ptr = ptr) {totalSize : ℕ} (rest : List ℕ) {here offset : ℕ}
    (hreads : ∀ i next, rest[i]? = some next →
      lib.unpackNumber mem (here + 4 * (i + 1)) = .ok next)
    (hverify : verifyItems v compatible s (offset :: (rest ++ [totalSize])) = .ok ()) :
    molVerifyItems lib c mem input compatible totalSize here offset rest.length = .ok () := by
  induction rest generalizing here offset with
  | nil =>
    rw [List.nil_append, verifyItems] at hverify
    obtain ⟨part, hrange, hverify⟩ := bind_eq_ok hverify
    obtain ⟨_, hpart, -⟩ := bind_eq_ok hverify
    obtain ⟨hstart, hstop, hsize, -⟩ := range_eq_ok hrange
    have haccept := hadmits mem _ part compatible (hholds.range hrange) (by omega) hpart
    rw [hsize, ← hptr] at haccept
    rw [List.length_nil, molVerifyItems, if_neg (by omega), haccept]
  | cons next rest ih =>
    rw [List.cons_append, verifyItems] at hverify
    obtain ⟨part, hrange, hverify⟩ := bind_eq_ok hverify
    obtain ⟨_, hpart, hverify⟩ := bind_eq_ok hverify
    obtain ⟨hstart, hstop, hsize, -⟩ := range_eq_ok hrange
    have haccept := hadmits mem _ part compatible (hholds.range hrange) (by omega) hpart
    rw [hsize, ← hptr] at haccept
    have hrest : molVerifyItems lib c mem input compatible totalSize (here + 4) next rest.length =
        .ok () := by
      refine ih (fun i offset hi => ?_) hverify
      have hread := hreads (i + 1) offset (by rw [List.getElem?_cons_succ]; exact hi)
      rwa [show here + 4 + 4 * (i + 1) = here + 4 * (i + 1 + 1) by ring]
    rw [List.length_cons, molVerifyItems, hreads 0 next rfl, bind_ok, if_neg (by omega), haccept]
    exact hrest

/-- The header of a message of parts, as the guest reads it. -/
theorem Holds.header {parts : List Slice} (hholds : Holds mem ptr (writeParts parts))
    (hlength : (writeParts parts).length < 2 ^ 32) (hparts : parts ≠ []) :
    lib.unpackNumber mem ptr = .ok (writeParts parts).length ∧
    lib.unpackNumber mem (ptr + 4) = .ok (4 * (parts.length + 1)) ∧
    ∀ i offset, (offsetsFrom (4 * (parts.length + 1)) parts)[i]? = some offset →
      lib.unpackNumber mem (ptr + 4 * (i + 1)) = .ok offset := by
  refine ⟨hholds.unpackNumber hlib (unpackNumber_total hlength),
    hholds.unpackNumber hlib (unpackNumber_first hlength hparts), fun i offset hi => ?_⟩
  have hlt := (List.getElem?_eq_some_iff.mp hi).1
  rw [length_offsetsFrom] at hlt
  refine hholds.unpackNumber hlib (unpackNumber_offset hlength ?_ hlt)
  rwa [boundsFrom_eq, List.getElem?_append_left (by simpa using hlt)]

theorem admits_table (name : String) {cs : List MolVerifier} {vs : List Verifier}
    (hadmits : List.Forall₂ Admits cs vs) :
    Admits (molTableVerify lib cs) (verifyTable name vs) := by
  intro mem ptr s compatible hholds hlength hverify
  rcases verifyTable_cases name compatible vs s with ⟨e, he⟩ | ⟨parts, hparts, rfl, -, hle, hcount⟩
  · cases he.symm.trans hverify
  have hsize := length_writeParts parts
  have hpos := List.length_pos_iff.mpr hparts
  have hfields := hadmits.length_eq
  obtain ⟨htotal, hfirst, hoffsets⟩ := hholds.header hlib hlength hparts
  -- The host's verifier has checked the same fields at the same offsets.
  obtain ⟨front, hfront, hwrite⟩ := writeParts_front parts
  rw [verifyTable_write name compatible hparts hlength hle hcount,
    ← verifyFields_parts compatible front hle, hfront, ← hwrite, boundsFrom_eq,
    ← length_writeParts] at hverify
  have hchecked := molVerifyFields_ok hadmits hholds hlength ⟨ptr, (writeParts parts).length⟩ rfl
    hverify
  have hread : molOffsets lib mem (ptr + 4) (4 * (parts.length + 1)) (parts.length - 1) =
      .ok (offsetsFrom (4 * (parts.length + 1)) parts) := by
    obtain ⟨first, rest, rfl⟩ := List.exists_cons_of_ne_nil hparts
    refine molOffsets_ok rest fun i offset hi => ?_
    have hnext := hoffsets (i + 1) offset (by rw [offsetsFrom, List.getElem?_cons_succ]; exact hi)
    rwa [show ptr + 4 + 4 * (i + 1) = ptr + 4 * (i + 1 + 1) by ring]
  have hlast : (offsetsFrom (4 * (parts.length + 1)) parts).getLastD 0 ≤
      (writeParts parts).length := by
    rw [length_writeParts]
    refine boundsFrom_le _ ?_
    rw [boundsFrom_eq]
    refine List.mem_append_left _ ?_
    obtain ⟨first, rest, rfl⟩ := List.exists_cons_of_ne_nil hparts
    rw [offsetsFrom, List.getLastD_cons]
    exact List.getLastD_mem_cons
  have hcount' : ¬((!compatible) = true ∧ cs.length < 4 * (parts.length + 1) / 4 - 1) := by
    rintro ⟨hstrict, hlt⟩
    rcases hcount with rfl | hcount
    · cases hstrict
    · omega
  have hrest : 4 * (parts.length + 1) / 4 - 1 - 1 = parts.length - 1 := by omega
  rw [molTableVerify]
  dsimp only
  rw [if_neg (by omega), htotal, bind_ok, if_neg (not_not_intro rfl), if_neg (by omega), hfirst,
    bind_ok, if_neg (by omega), if_neg (by omega), if_neg hcount', if_neg (by omega), hrest, hread,
    bind_ok, if_neg (by omega)]
  exact hchecked

theorem admits_dynvec (name : String) {c : MolVerifier} {v : Verifier} (hadmits : Admits c v) :
    Admits (molDynvecVerify lib c) (verifyDynvec name v) := by
  intro mem ptr s compatible hholds hlength hverify
  have hcases : (∃ e, verifyDynvec name v compatible s = reject e) ∨
      ∃ items, s = writeDynvec items ∧ s.length < 2 ^ 32 := verifyDynvec_cases name compatible s
  rcases hcases with ⟨e, he⟩ | ⟨items, rfl, -⟩
  · cases he.symm.trans hverify
  rcases items with _ | ⟨first, rest⟩
  · have htotal := hholds.unpackNumber hlib (show unpackNumber (writeDynvec []) 0 = .ok 4 by decide)
    rw [Nat.add_zero] at htotal
    rw [molDynvecVerify]
    dsimp only
    rw [if_neg (by decide), htotal]
    rfl
  · have hverify' := (verifyDynvec_write name compatible hlength).symm.trans hverify
    have hwrite' : writeDynvec (first :: rest) = writeParts (first :: rest) :=
      if_neg (by simp)
    rw [hwrite'] at hholds hlength ⊢
    have hsize := length_writeParts (first :: rest)
    rw [List.length_cons] at hsize
    obtain ⟨htotal, hfirst, hoffsets⟩ := hholds.header hlib hlength (List.cons_ne_nil _ _)
    rw [List.length_cons] at hfirst hoffsets
    obtain ⟨front, hfront, hwrite⟩ := writeParts_front (first :: rest)
    rw [← verifyItems_parts v compatible front, hfront, ← hwrite, boundsFrom_eq,
      ← length_writeParts, List.length_cons, offsetsFrom, List.cons_append] at hverify'
    have hchecked : molVerifyItems lib c mem ⟨ptr, (writeParts (first :: rest)).length⟩ compatible
        (writeParts (first :: rest)).length (ptr + 4) (4 * (rest.length + 1 + 1))
        (offsetsFrom (4 * (rest.length + 1 + 1) + first.length) rest).length = .ok () := by
      refine molVerifyItems_ok hadmits hholds hlength _ rfl _ (fun i offset hi => ?_) hverify'
      have hnext := hoffsets (i + 1) offset (by rw [offsetsFrom, List.getElem?_cons_succ]; exact hi)
      rwa [show ptr + 4 + 4 * (i + 1) = ptr + 4 * (i + 1 + 1) by ring]
    rw [length_offsetsFrom] at hchecked
    have hrest : 4 * (rest.length + 1 + 1) / 4 - 1 - 1 = rest.length := by omega
    rw [molDynvecVerify]
    dsimp only
    rw [if_neg (by omega), htotal, bind_ok, if_neg (not_not_intro rfl), if_neg (by omega),
      if_neg (by omega), hfirst, bind_ok, if_neg (by omega), if_neg (by omega), hrest]
    exact hchecked

theorem admits_data : Admits (MolReader.dataVerify lib) DataReader.verify := by
  have hvm : Admits (MolReader.vmIndexVerify lib) VmIndexReader.verify := admits_array hlib _ _
  have hpipe : Admits (MolReader.pipeIndexVerify lib) PipeIndexReader.verify :=
      admits_array hlib _ _
  have hpipes : Admits (MolReader.pipeIndicesVerify lib) PipeIndicesReader.verify :=
    admits_fixvec hlib _ 8 (by decide)
  have hbytes : Admits (MolReader.bytesVerify lib) BytesReader.verify :=
    admits_fixvec hlib _ 1 (by decide)
  exact admits_table hlib _ (.cons
    (admits_dynvec hlib _ (admits_table hlib _ (.cons hvm (.cons hvm (.cons hpipes .nil)))))
    (.cons (admits_dynvec hlib _ (admits_table hlib _ (.cons hvm (.cons hpipe (.cons hpipe .nil)))))
    (.cons (admits_dynvec hlib _ (admits_table hlib _ (.cons hvm (.cons hpipe (.cons hvm
      (.cons hpipe (.cons hbytes .nil))))))) .nil)))

end Accepts

/-- A library as it is documented. -/
def molLibrary : MolLibrary where
  unpackNumber mem ptr :=
    match (List.range 4).mapM fun i => mem (ptr + i) with
    | some bytes => .ok (fromLittleEndian bytes)
    | none => .error .fault
  verifyFixedSize _ input size :=
    if input.size = size then .ok () else .error (.errno .totalSize)
  fixvecVerify mem input itemSize :=
    if input.size < 4 then .error (.errno .header)
    else
      match (List.range 4).mapM fun i => mem (input.ptr + i) with
      | some bytes =>
        if input.size = 4 + itemSize * fromLittleEndian bytes then .ok ()
        else .error (.errno .totalSize)
      | none => .error .fault

theorem mapM_holds {mem : Mapped} {ptr : ℕ} {s : Slice} (h : Holds mem ptr s)
    (hfour : s.length = 4) :
    (List.range 4).mapM (fun i => mem (ptr + i)) = some s := by
  obtain ⟨a, b, c, d, rfl⟩ : ∃ a b c d, s = [a, b, c, d] := by
    rcases s with _ | ⟨a, _ | ⟨b, _ | ⟨c, _ | ⟨d, _ | ⟨e, s⟩⟩⟩⟩⟩ <;> simp at hfour
    exact ⟨a, b, c, d, rfl⟩
  have hmap : (List.range 4).mapM (fun i => mem (ptr + i)) = (do
    let a ← mem (ptr + 0)
    let b ← mem (ptr + 1)
    let c ← mem (ptr + 2)
    let d ← mem (ptr + 3)
    return [a, b, c, d]) := rfl
  rw [hmap, h 0 a rfl, h 1 b rfl, h 2 c rfl, h 3 d rfl]
  rfl

theorem molLibrary_documented : molLibrary.Documented where
  unpackNumber mem ptr s hfour hholds := by
    simp only [molLibrary, mapM_holds hholds hfour]
  verifyFixedSize mem input := if_pos rfl
  fixvecVerify mem input itemSize items hpos hitems hholds hsize hlt := by
    have hlength : (writeFixvec items).length = 4 + itemSize * items.length := by
      rw [writeFixvec, List.length_append, length_packNumber, length_flatten_of_size hitems]
    have hle := Nat.le_mul_of_pos_left items.length hpos
    have hcount : Holds mem input.ptr (packNumber items.length) := by
      intro i b hb
      refine hholds i b ?_
      rw [writeFixvec, List.getElem?_append_left (List.getElem?_eq_some_iff.mp hb).1]
      exact hb
    have hread := fromLittleEndian_packNumber (show items.length < 2 ^ 32 by omega)
    simp only [molLibrary, mapM_holds hcount (length_packNumber _), hread]
    rw [if_neg (by omega), if_pos (by omega)]

/-- The memory with a message at an address and nothing else. -/
def memoryOf (ptr : ℕ) (s : Slice) : Mapped := fun x =>
  if ptr ≤ x then s[x - ptr]? else none

theorem holds_memoryOf (ptr : ℕ) (s : Slice) : Holds (memoryOf ptr s) ptr s := by
  intro i b hb
  rw [memoryOf, if_pos (Nat.le_add_right ptr i), Nat.add_sub_cancel_left]
  exact hb

/-- Wherever a message lies in memory, the guest's reader accepts it when the host's does, in
either mode, and reads nothing outside of it. -/
theorem molReader_accepts {lib : MolLibrary} (hlib : lib.Documented) {mem : Mapped} {ptr : ℕ}
    {s : Slice} {compatible : Bool} (hholds : Holds mem ptr s)
    (hverify : DataReader.verify compatible s = .ok ()) :
    MolReader.dataVerify lib mem ⟨ptr, s.length⟩ compatible = .ok () :=
  admits_data hlib mem ptr s compatible hholds (length_of_verify hverify) hverify

/-- The workload of a chain of VMs with a field that no reader knows. -/
def extendedMessage : Slice :=
  writeParts [SpawnsBuilder.write (chainData.spawns.map Spawn.build),
    PipesBuilder.write (chainData.pipes.map Pipe.build),
    WritesBuilder.write (chainData.writes.map Write.build), [7]]

theorem molReader_accepts_extended : extendedMessage.length = 359 ∧
    MolReader.dataVerify molLibrary (memoryOf 4096 extendedMessage)
      ⟨4096, extendedMessage.length⟩ true = .ok () :=
  ⟨by decide +kernel, molReader_accepts molLibrary_documented (holds_memoryOf 4096 extendedMessage)
    (by decide +kernel)⟩

theorem generateDataGraph_small {daggy : Daggy} {draws : Draws}
    {spawns writes convergingThreshold : ℕ} {data : Data} (hspawns : spawns < 2 ^ 32)
    (hwrites : writes < 2 ^ 32)
    (h : generateDataGraph daggy draws spawns writes convergingThreshold = some data) :
    data.Small := by
  obtain ⟨hw, -, hpipes⟩ := generateDataGraph_wired h
  have hused : ∀ q t, UsedBy data q t → q < 2 ^ 64 := by
    rintro q t ⟨w, hmem, ⟨rfl, -⟩ | ⟨rfl, -⟩⟩
    · have := (hpipes w hmem).1
      omega
    · have := (hpipes w hmem).2
      omega
  refine ⟨fun s hs => ?_, fun p hp => ?_, fun w hmem => ?_⟩
  · have hchild := hw.older s hs
    refine ⟨by omega, by omega, fun q hq => ?_⟩
    obtain ⟨t, hq⟩ := hw.used s.fromVm q (hw.passes s hs q hq)
    exact hused q t hq
  · have hvm := hw.creators p hp
    obtain ⟨w, hmem, hread, hwrite⟩ := hw.paired p hp
    have hends := hpipes w hmem
    omega
  · have hends := hw.ends w hmem
    have hpipe := hpipes w hmem
    omega

/-- A generated workload reaches the program as it was drawn: both readers accept the message
that is built of it, and it reads back the same. -/
theorem workload_message {daggy : Daggy} {draws : Draws}
    {spawns writes convergingThreshold : ℕ} {data : Data} (hspawns : spawns < 2 ^ 32)
    (hwrites : writes < 2 ^ 32)
    (h : generateDataGraph daggy draws spawns writes convergingThreshold = some data)
    (hlength : data.build.length < 2 ^ 32) {lib : MolLibrary} (hlib : lib.Documented)
    {mem : Mapped} {ptr : ℕ} (hholds : Holds mem ptr data.build) :
    DataReader.verify false data.build = .ok () ∧ Data.read data.build = .ok data ∧
      MolReader.dataVerify lib mem ⟨ptr, data.build.length⟩ false = .ok () := by
  have hsmall := generateDataGraph_small hspawns hwrites h
  have hverify := verify_build hsmall hlength false
  exact ⟨hverify, read_build hsmall hlength,
    admits_data hlib mem ptr _ false hholds hlength hverify⟩

theorem workload_message_chain :
    DataReader.verify false chainData.build = .ok () ∧ Data.read chainData.build = .ok chainData ∧
      MolReader.dataVerify molLibrary (memoryOf 4096 chainData.build)
        ⟨4096, chainData.build.length⟩ false = .ok () :=
  workload_message (by decide) (by decide) generateDataGraph_chain (by decide +kernel)
    molLibrary_documented (holds_memoryOf 4096 _)

end DeterministicScheduler.DataGraph
