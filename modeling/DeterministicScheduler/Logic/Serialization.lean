import Mathlib.Tactic

/-!
# Messages with offsets

A message is a number, a fixed number of bytes, a vector of items of one size, a
vector of items of any sizes or a table of fields. The last two begin with their
total size and the offsets of their parts, so that one part can be read without
the others.

A reader first verifies a message and then reads its parts without checks. It may
accept tables that have more fields than it knows. Reading outside of a slice is a
panic.
-/
namespace Serialization

/-- The bytes of a message, or of a part of one. -/
abbrev Slice := List UInt8

/-- Why a message is rejected, with the name of the reader that rejects it. -/
inductive VerificationError where
  | totalSizeNotMatch (name : String) (expected actual : ℕ)
  | headerIsBroken (name : String) (expected actual : ℕ)
  | offsetsNotMatch (name : String)
  | fieldCountNotMatch (name : String) (expected actual : ℕ)
  deriving DecidableEq

/-- A reader rejects a message, or it reads outside of it. -/
inductive Failure where
  | rejected (error : VerificationError)
  | panic
  deriving DecidableEq

abbrev Reading := Except Failure

def reject {α : Type} (error : VerificationError) : Reading α :=
  .error (.rejected error)

/-- A verifier of one type. In compatible mode it lets tables have more fields than are known. -/
abbrev Verifier := Bool → Slice → Reading Unit

@[simp] theorem bind_ok {ε α β : Type} (a : α) (f : α → Except ε β) :
    (Except.ok a >>= f) = f a := rfl

@[simp] theorem error_bind {α β : Type} (e : Failure) (f : α → Reading β) :
    (Except.error e >>= f) = .error e := rfl

/-- A number in `width` bytes, the low byte first. -/
def toLittleEndian : ℕ → ℕ → Slice
  | 0, _ => []
  | width + 1, n => UInt8.ofNat n :: toLittleEndian width (n / 256)

def fromLittleEndian : Slice → ℕ
  | [] => 0
  | b :: s => b.toNat + 256 * fromLittleEndian s

@[simp] theorem length_toLittleEndian (width n : ℕ) : (toLittleEndian width n).length = width := by
  induction width generalizing n with
  | zero => rfl
  | succ width ih => simp [toLittleEndian, ih]

/-- A number that fits is read back from its bytes. -/
theorem fromLittleEndian_to (width n : ℕ) (h : n < 256 ^ width) :
    fromLittleEndian (toLittleEndian width n) = n := by
  induction width generalizing n with
  | zero =>
    simp only [pow_zero] at h
    simp only [toLittleEndian, fromLittleEndian]
    omega
  | succ width ih =>
    have hrest : n / 256 < 256 ^ width := by
      rw [pow_succ] at h
      omega
    rw [toLittleEndian, fromLittleEndian, ih _ hrest, UInt8.toNat_ofNat']
    omega

/-- Bytes are written back from their number. -/
theorem toLittleEndian_from (s : Slice) : toLittleEndian s.length (fromLittleEndian s) = s := by
  induction s with
  | nil => rfl
  | cons b s ih =>
    have hlt := b.toNat_lt
    have hlow : UInt8.ofNat (b.toNat + 256 * fromLittleEndian s) = b := by
      apply UInt8.toNat_inj.mp
      rw [UInt8.toNat_ofNat']
      omega
    have hhigh : (b.toNat + 256 * fromLittleEndian s) / 256 = fromLittleEndian s := by omega
    rw [List.length_cons, fromLittleEndian, toLittleEndian, hlow, hhigh, ih]

theorem fromLittleEndian_lt (s : Slice) : fromLittleEndian s < 256 ^ s.length := by
  induction s with
  | nil => simp [fromLittleEndian]
  | cons b s ih =>
    have hlt := b.toNat_lt
    rw [fromLittleEndian, List.length_cons, pow_succ]
    omega

/-- Lengths and offsets are numbers of four bytes, the low byte first. -/
def packNumber (n : ℕ) : Slice :=
  toLittleEndian 4 n

@[simp] theorem length_packNumber (n : ℕ) : (packNumber n).length = 4 :=
  length_toLittleEndian 4 n

theorem fromLittleEndian_packNumber {n : ℕ} (h : n < 2 ^ 32) :
    fromLittleEndian (packNumber n) = n :=
  fromLittleEndian_to 4 n h

/-- The bytes of `s` from `start` to `stop`. -/
def range (s : Slice) (start stop : ℕ) : Reading Slice :=
  if start ≤ stop ∧ stop ≤ s.length then .ok ((s.take stop).drop start) else .error .panic

/-- A part is found between what comes before and after it. -/
theorem range_append (front part back : Slice) :
    range (front ++ (part ++ back)) front.length (front.length + part.length) = .ok part := by
  have hbounds : front.length ≤ front.length + part.length ∧
      front.length + part.length ≤ (front ++ (part ++ back)).length := by
    simp only [List.length_append]
    omega
  have htake : (front ++ (part ++ back)).take (front.length + part.length) = front ++ part := by
    rw [List.take_append, List.take_of_length_le (by omega), Nat.add_sub_cancel_left,
      List.take_left]
  rw [range, if_pos hbounds, htake, List.drop_left]

theorem range_ok {s : Slice} {start stop : ℕ} (h : start ≤ stop) (h' : stop ≤ s.length) :
    range s start stop = .ok ((s.take stop).drop start) :=
  if_pos ⟨h, h'⟩

/-- The number that begins at `i`. -/
def unpackNumber (s : Slice) (i : ℕ) : Reading ℕ := do
  let bytes ← range s i (i + 4)
  return fromLittleEndian bytes

/-- A number that fits is read back wherever it was written. -/
theorem unpackNumber_append {n : ℕ} (front back : Slice) (h : n < 2 ^ 32) :
    unpackNumber (front ++ (packNumber n ++ back)) front.length = .ok n := by
  have hrange := range_append front (packNumber n) back
  rw [length_packNumber] at hrange
  rw [unpackNumber, hrange, bind_ok, fromLittleEndian_packNumber h]
  rfl

theorem unpackNumber_ok {s : Slice} {i : ℕ} (h : i + 4 ≤ s.length) :
    unpackNumber s i = .ok (fromLittleEndian ((s.take (i + 4)).drop i)) := by
  rw [unpackNumber, range_ok (by omega) h]
  rfl

/-- The number that a message begins with is that of its first four bytes. -/
theorem take_of_unpackNumber {s : Slice} {n : ℕ} (h : 4 ≤ s.length)
    (hread : unpackNumber s 0 = .ok n) : s.take 4 = packNumber n := by
  rw [unpackNumber_ok (by omega), Except.ok.injEq] at hread
  have hfour : (s.take 4).length = 4 := by
    rw [List.length_take]
    omega
  have hpack := toLittleEndian_from (s.take 4)
  rw [hfour] at hpack
  rw [← hread]
  exact hpack.symm

/-- The numbers that a slice consists of. -/
def unpackNumbers : Slice → List ℕ
  | a :: b :: c :: d :: s => fromLittleEndian [a, b, c, d] :: unpackNumbers s
  | _ => []

theorem length_flatMap_packNumber (ns : List ℕ) : (ns.flatMap packNumber).length =
    4 * ns.length := by
  induction ns with
  | nil => rfl
  | cons n ns ih =>
    rw [List.flatMap_cons, List.length_append, ih, length_packNumber, List.length_cons]
    omega

theorem unpackNumbers_packNumber (n : ℕ) (s : Slice) :
    unpackNumbers (packNumber n ++ s) = fromLittleEndian (packNumber n) :: unpackNumbers s := rfl

/-- Numbers that fit are read back in their order. -/
theorem unpackNumbers_flatMap {ns : List ℕ} (h : ∀ n ∈ ns, n < 2 ^ 32) :
    unpackNumbers (ns.flatMap packNumber) = ns := by
  induction ns with
  | nil => rfl
  | cons n ns ih =>
    have hn := fromLittleEndian_packNumber (h n List.mem_cons_self)
    have htail := ih fun m hm => h m (List.mem_cons_of_mem _ hm)
    rw [List.flatMap_cons, unpackNumbers_packNumber, hn, htail]

/-- Bytes that make up numbers are written back from them. -/
theorem flatMap_unpackNumbers {s : Slice} (h : s.length % 4 = 0) :
    (unpackNumbers s).flatMap packNumber = s := by
  fun_induction unpackNumbers s with
  | case1 a b c d s ih =>
    have hs : s.length % 4 = 0 := by
      simp only [List.length_cons] at h
      omega
    rw [List.flatMap_cons, ih hs]
    have hpack : packNumber (fromLittleEndian [a, b, c, d]) = [a, b, c, d] :=
      toLittleEndian_from [a, b, c, d]
    rw [hpack]
    rfl
  | case2 s hs =>
    rcases s with _ | ⟨a, _ | ⟨b, _ | ⟨c, _ | ⟨d, s⟩⟩⟩⟩
    · rfl
    · simp at h
    · simp at h
    · simp at h
    · exact absurd rfl (hs a b c d s)

theorem unpackNumbers_lt {s : Slice} : ∀ n ∈ unpackNumbers s, n < 2 ^ 32 := by
  fun_induction unpackNumbers s with
  | case1 a b c d s ih =>
    intro n hn
    rcases List.mem_cons.mp hn with rfl | hn
    · have hlt : fromLittleEndian [a, b, c, d] < 256 ^ 4 := fromLittleEndian_lt [a, b, c, d]
      norm_num at hlt ⊢
      exact hlt
    · exact ih n hn
  | case2 s hs => simp

/-- Where parts begin that are laid out one after another. -/
def offsetsFrom : ℕ → List Slice → List ℕ
  | _, [] => []
  | start, part :: parts => start :: offsetsFrom (start + part.length) parts

/-- The total size, the offsets of the parts, and the parts. -/
def writeParts (parts : List Slice) : Slice :=
  let header := 4 * (parts.length + 1)
  packNumber (header + (parts.map List.length).sum) ++
    (offsetsFrom header parts).flatMap packNumber ++ parts.flatten

/-- The offsets before `offsetFirst`, and the end of the message. -/
def readOffsets (name : String) (s : Slice) (offsetFirst totalSize : ℕ) : Reading (List ℕ) := do
  let header ← range s 4 offsetFirst
  let offsets := unpackNumbers header ++ [totalSize]
  if (offsets.zip offsets.tail).any fun window => window.2 < window.1 then
    reject (.offsetsNotMatch name)
  else return offsets

/-- The offsets of parts and the end of the last. -/
def boundsFrom : ℕ → List Slice → List ℕ
  | start, [] => [start]
  | start, part :: parts => start :: boundsFrom (start + part.length) parts

@[simp] theorem length_offsetsFrom (start : ℕ) (parts : List Slice) :
    (offsetsFrom start parts).length = parts.length := by
  induction parts generalizing start with
  | nil => rfl
  | cons part parts ih => simp [offsetsFrom, ih]

theorem boundsFrom_eq (start : ℕ) (parts : List Slice) :
    boundsFrom start parts = offsetsFrom start parts ++ [start + (parts.map List.length).sum] := by
  induction parts generalizing start with
  | nil => rfl
  | cons part parts ih =>
    rw [boundsFrom, offsetsFrom, ih, List.map_cons, List.sum_cons, Nat.add_assoc]
    rfl

/-- The bounds begin with the first offset. -/
theorem exists_boundsFrom (start : ℕ) (parts : List Slice) :
    ∃ bounds, boundsFrom start parts = start :: bounds := by
  cases parts with
  | nil => exact ⟨[], rfl⟩
  | cons part parts => exact ⟨_, rfl⟩

theorem boundsFrom_le {start : ℕ} {parts : List Slice} :
    ∀ bound ∈ boundsFrom start parts, bound ≤ start + (parts.map List.length).sum := by
  induction parts generalizing start with
  | nil => simp [boundsFrom]
  | cons part parts ih =>
    intro bound hbound
    rw [List.map_cons, List.sum_cons]
    rcases List.mem_cons.mp hbound with rfl | hbound
    · omega
    · have := ih bound hbound
      omega

/-- No part ends before it begins. -/
theorem boundsFrom_ascending (start : ℕ) (parts : List Slice) :
    ((boundsFrom start parts).zip (boundsFrom start parts).tail).any
      (fun window => window.2 < window.1) = false := by
  induction parts generalizing start with
  | nil => rfl
  | cons part parts ih =>
    have htail := ih (start + part.length)
    obtain ⟨bounds, hbounds⟩ := exists_boundsFrom (start + part.length) parts
    rw [hbounds] at htail
    rw [boundsFrom, hbounds, List.tail_cons, List.zip_cons_cons, List.any_cons]
    rw [List.tail_cons] at htail
    rw [htail, Bool.or_false]
    simp

/-- The header and the parts make up the message. -/
theorem length_writeParts (parts : List Slice) :
    (writeParts parts).length = 4 * (parts.length + 1) + (parts.map List.length).sum := by
  simp only [writeParts, List.length_append, length_packNumber, length_flatMap_packNumber,
    length_offsetsFrom, List.length_flatten]
  omega

/-- Ascending offsets that end with the message are those of the parts they delimit. -/
theorem exists_parts (s : Slice) (start : ℕ) (offsets : List ℕ)
    (hascending : ((start :: offsets).zip offsets).any (fun window => window.2 < window.1) = false)
    (hlast : (start :: offsets).getLast? = some s.length) :
    start ≤ s.length ∧ ∃ parts, parts.length = offsets.length ∧
      parts.flatten = s.drop start ∧ boundsFrom start parts = start :: offsets := by
  induction offsets generalizing start with
  | nil =>
    simp only [List.getLast?_singleton, Option.some.injEq] at hlast
    subst hlast
    exact ⟨le_rfl, [], rfl, by simp, rfl⟩
  | cons stop offsets ih =>
    rw [List.zip_cons_cons, List.any_cons, Bool.or_eq_false_iff, decide_eq_false_iff_not,
      not_lt] at hascending
    rw [List.getLast?_cons_cons] at hlast
    obtain ⟨hstop, parts, hlength, hflatten, hbounds⟩ := ih stop hascending.2 hlast
    have hpart : ((s.take stop).drop start).length = stop - start := by
      rw [List.length_drop, List.length_take]
      omega
    refine ⟨hascending.1.trans hstop, (s.take stop).drop start :: parts, by simp [hlength], ?_, ?_⟩
    · rw [List.flatten_cons, hflatten, ← List.drop_append_of_le_length, List.take_append_drop]
      rw [List.length_take]
      omega
    · have hnext : start + (stop - start) = stop := by omega
      rw [boundsFrom, hpart, hnext, hbounds]

section Parts

variable {parts : List Slice} (hlength : (writeParts parts).length < 2 ^ 32)

include hlength

/-- The message begins with its own size. -/
theorem unpackNumber_total : unpackNumber (writeParts parts) 0 = .ok (writeParts parts).length := by
  have hlt := hlength
  rw [length_writeParts] at hlt ⊢
  have hread := unpackNumber_append [] ((offsetsFrom (4 * (parts.length + 1)) parts).flatMap
    packNumber ++ parts.flatten) hlt
  rw [writeParts, List.append_assoc]
  exact hread

/-- Any offset can be read without the others. -/
theorem unpackNumber_offset {i offset : ℕ}
    (hi : (boundsFrom (4 * (parts.length + 1)) parts)[i]? = some offset) (hlt : i < parts.length) :
    unpackNumber (writeParts parts) (4 * (i + 1)) = .ok offset := by
  have hle := boundsFrom_le offset (List.mem_of_getElem? hi)
  rw [← length_writeParts] at hle
  rw [boundsFrom_eq, List.getElem?_append_left (by simpa using hlt)] at hi
  obtain ⟨hi', hoffset⟩ := List.getElem?_eq_some_iff.mp hi
  have hsplit := List.take_append_drop i (offsetsFrom (4 * (parts.length + 1)) parts)
  rw [List.drop_eq_getElem_cons hi', hoffset] at hsplit
  have hread := unpackNumber_append (packNumber (4 * (parts.length + 1) +
      (parts.map List.length).sum) ++ ((offsetsFrom (4 * (parts.length + 1)) parts).take i).flatMap
        packNumber)
    (((offsetsFrom (4 * (parts.length + 1)) parts).drop (i + 1)).flatMap packNumber ++
      parts.flatten)
    (hle.trans_lt hlength)
  have hfront : (packNumber (4 * (parts.length + 1) + (parts.map List.length).sum) ++
      ((offsetsFrom (4 * (parts.length + 1)) parts).take i).flatMap packNumber).length =
      4 * (i + 1) := by
    rw [List.length_append, length_packNumber, length_flatMap_packNumber, List.length_take,
      length_offsetsFrom]
    omega
  rw [hfront] at hread
  rw [writeParts, ← hread]
  congr 1
  conv_lhs => rw [← hsplit]
  simp only [List.flatMap_append, List.flatMap_cons, List.append_assoc]

/-- The first offset tells the size of the header. -/
theorem unpackNumber_first (hparts : parts ≠ []) :
    unpackNumber (writeParts parts) 4 = .ok (4 * (parts.length + 1)) := by
  obtain ⟨bounds, hbounds⟩ := exists_boundsFrom (4 * (parts.length + 1)) parts
  have hfirst : (boundsFrom (4 * (parts.length + 1)) parts)[0]? =
      some (4 * (parts.length + 1)) := by
    rw [hbounds]
    rfl
  exact unpackNumber_offset hlength hfirst (List.length_pos_iff.mpr hparts)

/-- The offsets that were written are accepted and read back. -/
theorem readOffsets_write (name : String) :
    readOffsets name (writeParts parts) (4 * (parts.length + 1)) (writeParts parts).length =
      .ok (boundsFrom (4 * (parts.length + 1)) parts) := by
  have hheader : range (writeParts parts) 4 (4 * (parts.length + 1)) =
      .ok ((offsetsFrom (4 * (parts.length + 1)) parts).flatMap packNumber) := by
    have hrange := range_append (packNumber (4 * (parts.length + 1) +
      (parts.map List.length).sum)) ((offsetsFrom (4 * (parts.length + 1)) parts).flatMap
        packNumber)
      parts.flatten
    rw [length_packNumber, length_flatMap_packNumber, length_offsetsFrom] at hrange
    have hstop : 4 + 4 * parts.length = 4 * (parts.length + 1) := by omega
    rw [hstop] at hrange
    rw [writeParts, List.append_assoc]
    exact hrange
  have hsmall : ∀ offset ∈ offsetsFrom (4 * (parts.length + 1)) parts, offset < 2 ^ 32 := by
    intro offset hoffset
    have hle : offset ≤ (writeParts parts).length := by
      rw [length_writeParts]
      refine boundsFrom_le offset ?_
      rw [boundsFrom_eq]
      exact List.mem_append_left _ hoffset
    omega
  rw [readOffsets, hheader, bind_ok, unpackNumbers_flatMap hsmall]
  have hbounds := boundsFrom_eq (4 * (parts.length + 1)) parts
  rw [← length_writeParts] at hbounds
  simp only [← hbounds, boundsFrom_ascending]
  rfl

end Parts

/-- Offsets that a reader accepts are those of the parts the message consists of. -/
theorem parts_of_offsets {name : String} {s : Slice} {offsetFirst : ℕ} {offsets : List ℕ}
    (htotal : unpackNumber s 0 = .ok s.length) (hfirst : unpackNumber s 4 = .ok offsetFirst)
    (hmod : offsetFirst % 4 = 0) (hge : 8 ≤ offsetFirst) (hle : offsetFirst ≤ s.length)
    (hread : readOffsets name s offsetFirst s.length = .ok offsets) :
    ∃ parts, parts.length + 1 = offsetFirst / 4 ∧ s = writeParts parts := by
  have hrange := range_ok (show 4 ≤ offsetFirst by omega) hle
  have hheader : ((s.take offsetFirst).drop 4).length = offsetFirst - 4 := by
    rw [List.length_drop, List.length_take, Nat.min_eq_left hle]
  have hpacked := flatMap_unpackNumbers (show ((s.take offsetFirst).drop 4).length % 4 = 0 by omega)
  have hsmall := unpackNumbers_lt (s := (s.take offsetFirst).drop 4)
  rw [readOffsets, hrange, bind_ok] at hread
  generalize unpackNumbers ((s.take offsetFirst).drop 4) = numbers at hpacked hsmall hread
  have hcount := length_flatMap_packNumber numbers
  rw [hpacked, hheader] at hcount
  have htake := take_of_unpackNumber (by omega) htotal
  have hs : s = packNumber s.length ++ numbers.flatMap packNumber ++ s.drop offsetFirst := by
    have hfront : s.take 4 = (s.take offsetFirst).take 4 := by
      rw [List.take_take, Nat.min_eq_left (by omega)]
    rw [← htake, hpacked, hfront, List.take_append_drop, List.take_append_drop]
  cases numbers with
  | nil =>
    simp only [List.length_nil] at hcount
    omega
  | cons start rest =>
    -- The first offset is that of the first part, and says how many offsets there are.
    have hstart : start = offsetFirst := by
      have hread' := unpackNumber_append (packNumber s.length)
        (rest.flatMap packNumber ++ s.drop offsetFirst) (hsmall start List.mem_cons_self)
      rw [← List.append_assoc, ← List.append_assoc, List.append_assoc (packNumber s.length),
        ← List.flatMap_cons, ← hs, length_packNumber, hfirst, Except.ok.injEq] at hread'
      exact hread'.symm
    subst hstart
    by_cases hany : ((start :: rest ++ [s.length]).zip (start :: rest ++ [s.length]).tail).any
        (fun window => window.2 < window.1) = true
    · rw [if_pos hany] at hread
      cases hread
    · rw [Bool.not_eq_true] at hany
      obtain ⟨-, parts, hlength, hflatten, hbounds⟩ :=
        exists_parts s start (rest ++ [s.length]) hany
        (by rw [← List.cons_append, List.getLast?_concat])
      rw [List.length_append, List.length_singleton] at hlength
      rw [List.length_cons] at hcount
      have hheaderSize : 4 * (parts.length + 1) = start := by omega
      rw [boundsFrom_eq, ← List.cons_append] at hbounds
      obtain ⟨hoffsets, hend⟩ := List.append_inj' hbounds rfl
      refine ⟨parts, by omega, ?_⟩
      rw [writeParts, hheaderSize, hoffsets, List.singleton_inj.mp hend, hflatten]
      exact hs

/-- An array has its size and nothing else. -/
def verifyArray (name : String) (size : ℕ) (s : Slice) : Reading Unit :=
  if s.length ≠ size then reject (.totalSizeNotMatch name size s.length) else return ()

/-- A vector of items of one size: their number, and as many bytes. -/
def verifyFixvec (name : String) (itemSize : ℕ) (s : Slice) : Reading Unit := do
  if s.length < 4 then reject (.headerIsBroken name 4 s.length)
  else
    let itemCount ← unpackNumber s 0
    if itemCount = 0 then
      if s.length ≠ 4 then reject (.totalSizeNotMatch name 4 s.length) else return ()
    else
      let totalSize := 4 + itemSize * itemCount
      if s.length ≠ totalSize then reject (.totalSizeNotMatch name totalSize s.length)
      else return ()

/-- The number of the items and the items. -/
def writeFixvec (items : List Slice) : Slice :=
  packNumber items.length ++ items.flatten

def fixvecItem (itemSize : ℕ) (s : Slice) (i : ℕ) : Reading Slice :=
  range s (4 + itemSize * i) (4 + itemSize * i + itemSize)

def fixvecItems (itemSize : ℕ) (s : Slice) : Reading (List Slice) := do
  let itemCount ← unpackNumber s 0
  (List.range itemCount).mapM (fixvecItem itemSize s)

/-- The items between one offset and the next, each verified on its own. -/
def verifyItems (item : Verifier) (compatible : Bool) (s : Slice) : List ℕ → Reading Unit
  | start :: stop :: offsets => do
    item compatible (← range s start stop)
    verifyItems item compatible s (stop :: offsets)
  | _ => return ()

/-- A vector of items of any size. Its offsets tell how many there are. -/
def verifyDynvec (name : String) (item : Verifier) : Verifier := fun compatible s => do
  if s.length < 4 then reject (.headerIsBroken name 4 s.length)
  else
    let totalSize ← unpackNumber s 0
    if s.length ≠ totalSize then reject (.totalSizeNotMatch name totalSize s.length)
    else if s.length = 4 then return ()
    else if s.length < 8 then reject (.totalSizeNotMatch name 8 s.length)
    else
      let offsetFirst ← unpackNumber s 4
      if offsetFirst % 4 ≠ 0 ∨ offsetFirst < 8 then reject (.offsetsNotMatch name)
      else if s.length < offsetFirst then reject (.headerIsBroken name offsetFirst s.length)
      else
        let offsets ← readOffsets name s offsetFirst totalSize
        verifyItems item compatible s offsets

/-- A vector without items is its size alone. -/
def writeDynvec (items : List Slice) : Slice :=
  if items.length = 0 then packNumber 4 else writeParts items

/-- How many offsets there are. A count below zero is a panic. -/
def partCount (s : Slice) : Reading ℕ := do
  let totalSize ← unpackNumber s 0
  if totalSize = 4 then return 0
  else
    let offsetFirst ← unpackNumber s 4
    if offsetFirst / 4 = 0 then .error .panic else return offsetFirst / 4 - 1

def dynvecItem (s : Slice) (i : ℕ) : Reading Slice := do
  let start ← unpackNumber s (4 * (1 + i))
  let itemCount ← partCount s
  if i = itemCount - 1 then range s start s.length
  else
    let stop ← unpackNumber s (4 * (1 + i) + 4)
    range s start stop

def dynvecItems (s : Slice) : Reading (List Slice) := do
  let itemCount ← partCount s
  (List.range itemCount).mapM (dynvecItem s)

/-- The fields that are known, each between its offsets. -/
def verifyFields (compatible : Bool) (s : Slice) : List Verifier → List ℕ → Reading Unit
  | [], _ => return ()
  | field :: fields, start :: stop :: offsets => do
    field compatible (← range s start stop)
    verifyFields compatible s fields (stop :: offsets)
  | _ :: _, _ => .error .panic

/-- A table has as many fields as are known, or more where the mode allows it. -/
def verifyTable (name : String) (fields : List Verifier) : Verifier := fun compatible s => do
  if s.length < 4 then reject (.headerIsBroken name 4 s.length)
  else
    let totalSize ← unpackNumber s 0
    if s.length ≠ totalSize then reject (.totalSizeNotMatch name totalSize s.length)
    else if s.length < 8 then reject (.headerIsBroken name 8 s.length)
    else
      let offsetFirst ← unpackNumber s 4
      if offsetFirst % 4 ≠ 0 ∨ offsetFirst < 8 then reject (.offsetsNotMatch name)
      else if s.length < offsetFirst then reject (.headerIsBroken name offsetFirst s.length)
      else
        let fieldCount := offsetFirst / 4 - 1
        if fieldCount < fields.length then
          reject (.fieldCountNotMatch name fields.length fieldCount)
        else if !compatible ∧ fields.length < fieldCount then
          reject (.fieldCountNotMatch name fields.length fieldCount)
        else
          let offsets ← readOffsets name s offsetFirst totalSize
          verifyFields compatible s fields offsets

/-- The field at `i` of a table that is known to have `fieldCount` fields. -/
def tableField (fieldCount i : ℕ) (s : Slice) : Reading Slice := do
  let start ← unpackNumber s (4 * (i + 1))
  if i + 1 = fieldCount then
    if fieldCount ≠ (← partCount s) then
      let stop ← unpackNumber s (4 * (i + 2))
      range s start stop
    else range s start s.length
  else
    let stop ← unpackNumber s (4 * (i + 2))
    range s start stop

/-- The first of some parts is found behind the front. -/
theorem range_parts (front part : Slice) (parts : List Slice) :
    range (front ++ (part :: parts).flatten) front.length (front.length + part.length) =
      .ok part := by
  rw [List.flatten_cons]
  exact range_append front part parts.flatten

/-- The items of parts that are laid out are verified one by one. The induction is on the parts. -/
theorem verifyItems_parts (item : Verifier) (compatible : Bool) (front : Slice)
    (parts : List Slice) :
    verifyItems item compatible (front ++ parts.flatten) (boundsFrom front.length parts) =
      parts.forM (item compatible) := by
  induction parts generalizing front with
  | nil => rfl
  | cons part parts ih =>
    have hrest := ih (front ++ part)
    rw [List.length_append, List.append_assoc, ← List.flatten_cons] at hrest
    obtain ⟨bounds, hbounds⟩ := exists_boundsFrom (front.length + part.length) parts
    rw [hbounds] at hrest
    rw [boundsFrom, hbounds, verifyItems, range_parts, bind_ok, hrest]
    rfl

/-- The fields that are known are verified one by one, and the parts behind them are not. -/
theorem verifyFields_parts (compatible : Bool) (front : Slice) {fields : List Verifier}
    {parts : List Slice} (h : fields.length ≤ parts.length) :
    verifyFields compatible (front ++ parts.flatten) fields (boundsFrom front.length parts) =
      (fields.zip parts).forM fun field => field.1 compatible field.2 := by
  induction fields generalizing front parts with
  | nil => rfl
  | cons field fields ih =>
    cases parts with
    | nil => simp at h
    | cons part parts =>
      have hrest := ih (front ++ part) (Nat.le_of_succ_le_succ h)
      rw [List.length_append, List.append_assoc, ← List.flatten_cons] at hrest
      obtain ⟨bounds, hbounds⟩ := exists_boundsFrom (front.length + part.length) parts
      rw [hbounds] at hrest
      rw [boundsFrom, hbounds, verifyFields, range_parts, bind_ok, hrest, List.zip_cons_cons]
      rfl

theorem unpackNumber_lt {s : Slice} {i n : ℕ} (h : unpackNumber s i = .ok n) : n < 2 ^ 32 := by
  rw [unpackNumber] at h
  cases hrange : range s i (i + 4) with
  | error e =>
    rw [hrange] at h
    cases h
  | ok bytes =>
    rw [hrange, bind_ok] at h
    obtain rfl := Except.ok.inj h
    have hlength : bytes.length = 4 := by
      rw [range] at hrange
      split at hrange
      · obtain rfl := Except.ok.inj hrange
        rw [List.length_drop, List.length_take]
        omega
      · cases hrange
    have hlt := fromLittleEndian_lt bytes
    rw [hlength] at hlt
    exact hlt

/-- Offsets are rejected for a reason, or they can be read. -/
theorem readOffsets_cases {s : Slice} {offsetFirst : ℕ} (name : String) (totalSize : ℕ)
    (h : 4 ≤ offsetFirst) (h' : offsetFirst ≤ s.length) :
    readOffsets name s offsetFirst totalSize = reject (.offsetsNotMatch name) ∨
      ∃ offsets, readOffsets name s offsetFirst totalSize = .ok offsets := by
  rw [readOffsets, range_ok h h', bind_ok]
  dsimp only
  split
  · exact .inl rfl
  · exact .inr ⟨_, rfl⟩

/-- The front of a message of parts, up to the first of them. -/
theorem writeParts_front (parts : List Slice) :
    ∃ front : Slice, front.length = 4 * (parts.length + 1) ∧
      writeParts parts = front ++ parts.flatten := by
  refine ⟨_, ?_, rfl⟩
  rw [List.length_append, length_packNumber, length_flatMap_packNumber, length_offsetsFrom]
  omega

section Verified

variable (name : String) (compatible : Bool) {s : Slice} {parts : List Slice}
  {fields : List Verifier} {item : Verifier}

/-- A table that was written passes as its fields do. -/
theorem verifyTable_write (hparts : parts ≠ []) (hlength : (writeParts parts).length < 2 ^ 32)
    (hfields : fields.length ≤ parts.length)
    (hcount : compatible = true ∨ parts.length = fields.length) :
    verifyTable name fields compatible (writeParts parts) =
      (fields.zip parts).forM fun field => field.1 compatible field.2 := by
  have hpos := List.length_pos_iff.mpr hparts
  have hsize := length_writeParts parts
  have hcount' : ¬((!compatible) = true ∧ fields.length < 4 * (parts.length + 1) / 4 - 1) := by
    rintro ⟨hstrict, hlt⟩
    rcases hcount with rfl | hcount
    · cases hstrict
    · omega
  obtain ⟨front, hfront, hwrite⟩ := writeParts_front parts
  have hverify := verifyFields_parts compatible front hfields
  rw [hfront, ← hwrite] at hverify
  rw [verifyTable, if_neg (by omega), unpackNumber_total hlength, bind_ok,
    if_neg (not_not_intro rfl), if_neg (by omega), unpackNumber_first hlength hparts, bind_ok,
    if_neg (by omega), if_neg (by omega), if_neg (by omega), if_neg hcount',
    readOffsets_write hlength, bind_ok, hverify]

/-- A table is rejected for its layout, or it consists of as many parts as the mode asks for. -/
theorem verifyTable_cases (fields : List Verifier) (s : Slice) :
    (∃ e, verifyTable name fields compatible s = reject e) ∨
      ∃ parts, parts ≠ [] ∧ s = writeParts parts ∧ s.length < 2 ^ 32 ∧
        fields.length ≤ parts.length ∧ (compatible = true ∨ parts.length = fields.length) := by
  rw [verifyTable]
  by_cases hfour : s.length < 4
  · exact .inl ⟨_, if_pos hfour⟩
  obtain ⟨totalSize, htotal⟩ : ∃ n, unpackNumber s 0 = .ok n := ⟨_, unpackNumber_ok (by omega)⟩
  rw [if_neg hfour, htotal, bind_ok]
  by_cases hsize : s.length ≠ totalSize
  · exact .inl ⟨_, if_pos hsize⟩
  by_cases height : s.length < 8
  · exact .inl ⟨_, by rw [if_neg hsize, if_pos height]⟩
  obtain ⟨offsetFirst, hfirst⟩ : ∃ n, unpackNumber s 4 = .ok n := ⟨_, unpackNumber_ok (by omega)⟩
  rw [if_neg hsize, if_neg height, hfirst, bind_ok]
  by_cases hmod : offsetFirst % 4 ≠ 0 ∨ offsetFirst < 8
  · exact .inl ⟨_, if_pos hmod⟩
  by_cases hheader : s.length < offsetFirst
  · exact .inl ⟨_, by rw [if_neg hmod, if_pos hheader]⟩
  rw [if_neg hmod, if_neg hheader]
  by_cases hfew : offsetFirst / 4 - 1 < fields.length
  · exact .inl ⟨_, if_pos hfew⟩
  by_cases hmany : (!compatible) = true ∧ fields.length < offsetFirst / 4 - 1
  · exact .inl ⟨_, by rw [if_neg hfew, if_pos hmany]⟩
  rw [if_neg hfew, if_neg hmany]
  rcases readOffsets_cases name totalSize (by omega) (Nat.le_of_not_lt hheader) with
    hoffsets | ⟨offsets, hoffsets⟩
  · exact .inl ⟨_, by rw [hoffsets]; rfl⟩
  · rw [not_not] at hsize
    subst hsize
    obtain ⟨parts, hcount, hs⟩ := parts_of_offsets htotal hfirst (by omega) (by omega) (by omega)
      hoffsets
    refine .inr ⟨parts, ?_, hs, unpackNumber_lt htotal, by omega, ?_⟩
    · rintro rfl
      simp only [List.length_nil] at hcount
      omega
    · cases compatible with
      | true => exact .inl rfl
      | false =>
        simp only [Bool.not_false, true_and] at hmany
        exact .inr (by omega)

theorem verifyDynvec_write {items : List Slice} (hlength : (writeDynvec items).length < 2 ^ 32) :
    verifyDynvec name item compatible (writeDynvec items) = items.forM (item compatible) := by
  cases items with
  | nil =>
    have htotal : unpackNumber (packNumber 4) 0 = .ok 4 := by decide
    have hempty : writeDynvec [] = packNumber 4 := rfl
    rw [hempty, verifyDynvec, if_neg (by decide), htotal]
    rfl
  | cons first rest =>
    rw [writeDynvec, if_neg (by simp)] at hlength ⊢
    have hsize := length_writeParts (first :: rest)
    rw [List.length_cons] at hsize
    obtain ⟨front, hfront, hwrite⟩ := writeParts_front (first :: rest)
    have hverify := verifyItems_parts item compatible front (first :: rest)
    rw [hfront, ← hwrite] at hverify
    rw [verifyDynvec, if_neg (by omega), unpackNumber_total hlength, bind_ok,
      if_neg (not_not_intro rfl), if_neg (by omega), if_neg (by omega),
      unpackNumber_first hlength (by simp), bind_ok, List.length_cons, if_neg (by omega),
      if_neg (by omega), ← List.length_cons (a := first), readOffsets_write hlength,
        bind_ok, hverify]

/-- A vector is rejected for its layout, or it consists of items. -/
theorem verifyDynvec_cases (s : Slice) :
    (∃ e, verifyDynvec name item compatible s = reject e) ∨
      ∃ items, s = writeDynvec items ∧ s.length < 2 ^ 32 := by
  rw [verifyDynvec]
  by_cases hfour : s.length < 4
  · exact .inl ⟨_, if_pos hfour⟩
  obtain ⟨totalSize, htotal⟩ : ∃ n, unpackNumber s 0 = .ok n := ⟨_, unpackNumber_ok (by omega)⟩
  rw [if_neg hfour, htotal, bind_ok]
  by_cases hsize : s.length ≠ totalSize
  · exact .inl ⟨_, if_pos hsize⟩
  rw [if_neg hsize]
  rw [not_not] at hsize
  by_cases hempty : s.length = 4
  · refine .inr ⟨[], ?_, by omega⟩
    have htake := take_of_unpackNumber (by omega) htotal
    rw [List.take_of_length_le (by omega), ← hsize, hempty] at htake
    exact htake
  by_cases height : s.length < 8
  · exact .inl ⟨_, by rw [if_neg hempty, if_pos height]⟩
  obtain ⟨offsetFirst, hfirst⟩ : ∃ n, unpackNumber s 4 = .ok n := ⟨_, unpackNumber_ok (by omega)⟩
  rw [if_neg hempty, if_neg height, hfirst, bind_ok]
  by_cases hmod : offsetFirst % 4 ≠ 0 ∨ offsetFirst < 8
  · exact .inl ⟨_, if_pos hmod⟩
  by_cases hheader : s.length < offsetFirst
  · exact .inl ⟨_, by rw [if_neg hmod, if_pos hheader]⟩
  rw [if_neg hmod, if_neg hheader]
  rcases readOffsets_cases name totalSize (by omega) (Nat.le_of_not_lt hheader) with
    hoffsets | ⟨offsets, hoffsets⟩
  · exact .inl ⟨_, by rw [hoffsets]; rfl⟩
  · subst hsize
    obtain ⟨parts, hcount, hs⟩ := parts_of_offsets htotal hfirst (by omega) (by omega) (by omega)
      hoffsets
    refine .inr ⟨parts, ?_, unpackNumber_lt htotal⟩
    rw [writeDynvec, if_neg (by omega)]
    exact hs

end Verified

theorem mapM_ok {α β : Type} {f : α → Reading β} {as : List α} {bs : List β}
    (h : List.Forall₂ (fun a b => f a = .ok b) as bs) : as.mapM f = .ok bs := by
  induction h with
  | nil => rfl
  | cons hab _ ih => rw [List.mapM_cons, hab, bind_ok, ih, bind_ok]; rfl

/-- A list is read item by item, given each of them. -/
theorem mapM_range_ok {β : Type} {f : ℕ → Reading β} {bs : List β}
    (h : ∀ i b, bs[i]? = some b → f i = .ok b) : (List.range bs.length).mapM f = .ok bs := by
  refine mapM_ok (List.forall₂_iff_get.mpr ⟨by simp, fun i hi hi' => ?_⟩)
  have hb := h i _ (List.getElem?_eq_getElem hi')
  simpa using hb

/-- A part is found between its bounds. -/
theorem range_bounds (front : Slice) {parts : List Slice} {i : ℕ} {part : Slice}
    (hi : parts[i]? = some part) :
    ∃ start stop, (boundsFrom front.length parts)[i]? = some start ∧
      (boundsFrom front.length parts)[i + 1]? = some stop ∧
      range (front ++ parts.flatten) start stop = .ok part ∧
      (i + 1 = parts.length → stop = (front ++ parts.flatten).length) := by
  induction parts generalizing front i with
  | nil => simp at hi
  | cons first rest ih =>
    cases i with
    | zero =>
      obtain rfl : first = part := by simpa using hi
      obtain ⟨bounds, hbounds⟩ := exists_boundsFrom (front.length + first.length) rest
      refine ⟨front.length, front.length + first.length, by simp [boundsFrom],
        by simp [boundsFrom, hbounds], range_parts front first rest, ?_⟩
      intro hlast
      have hrest : rest = [] := by
        rw [← List.length_eq_zero_iff]
        simp only [List.length_cons] at hlast
        omega
      simp [hrest]
    | succ i =>
      rw [List.getElem?_cons_succ] at hi
      obtain ⟨start, stop, hstart, hstop, hrange, hlast⟩ := ih (front ++ first) hi
      rw [List.length_append] at hstart hstop
      rw [List.append_assoc, ← List.flatten_cons] at hrange hlast
      refine ⟨start, stop, by simpa [boundsFrom] using hstart, by simpa [boundsFrom] using hstop,
        hrange, fun hlen => hlast ?_⟩
      simpa using hlen

section Read

variable {parts : List Slice} (hlength : (writeParts parts).length < 2 ^ 32)

include hlength

theorem partCount_write (hparts : parts ≠ []) : partCount (writeParts parts) =
    .ok parts.length := by
  have hsize := length_writeParts parts
  have hpos := List.length_pos_iff.mpr hparts
  rw [partCount, unpackNumber_total hlength, bind_ok, if_neg (by omega),
    unpackNumber_first hlength hparts, bind_ok, if_neg (by omega)]
  have hcount : 4 * (parts.length + 1) / 4 - 1 = parts.length := by omega
  rw [hcount]
  rfl

variable {i : ℕ} {part : Slice} (hi : parts[i]? = some part)

include hi

/-- What a reader finds of the part at `i`. -/
theorem exists_bounds :
    ∃ start stop, unpackNumber (writeParts parts) (4 * (i + 1)) = .ok start ∧
      (i + 1 < parts.length → unpackNumber (writeParts parts) (4 * (i + 2)) = .ok stop) ∧
      (i + 1 = parts.length → stop = (writeParts parts).length) ∧
      range (writeParts parts) start stop = .ok part := by
  obtain ⟨front, hfront, hwrite⟩ := writeParts_front parts
  obtain ⟨start, stop, hstart, hstop, hrange, hlast⟩ := range_bounds front hi
  rw [hfront] at hstart hstop
  rw [← hwrite] at hrange hlast
  have hlt := (List.getElem?_eq_some_iff.mp hi).1
  exact ⟨start, stop, unpackNumber_offset hlength hstart hlt,
    unpackNumber_offset hlength hstop, hlast, hrange⟩

/-- A field is read back from a table that has it. -/
theorem tableField_write {fieldCount : ℕ} (hle : fieldCount ≤ parts.length) (hlt : i < fieldCount) :
    tableField fieldCount i (writeParts parts) = .ok part := by
  have hparts : parts ≠ [] := by
    rintro rfl
    simp at hi
  obtain ⟨start, stop, hstart, hstop, hlast, hrange⟩ := exists_bounds hlength hi
  rw [tableField, hstart, bind_ok, partCount_write hlength hparts, bind_ok]
  by_cases hend : i + 1 = fieldCount
  · rw [if_pos hend]
    by_cases hextra : fieldCount ≠ parts.length
    · rw [if_pos hextra, hstop (by omega), bind_ok, hrange]
    · rw [if_neg hextra, ← hlast (by omega), hrange]
  · rw [if_neg hend, hstop (by omega), bind_ok, hrange]

theorem dynvecItem_write : dynvecItem (writeParts parts) i = .ok part := by
  have hparts : parts ≠ [] := by
    rintro rfl
    simp at hi
  have hlt := (List.getElem?_eq_some_iff.mp hi).1
  obtain ⟨start, stop, hstart, hstop, hlast, hrange⟩ := exists_bounds hlength hi
  rw [dynvecItem, Nat.add_comm 1 i, hstart, bind_ok, partCount_write hlength hparts, bind_ok]
  by_cases hend : i = parts.length - 1
  · rw [if_pos hend, ← hlast (by omega), hrange]
  · have hnext : 4 * (i + 1) + 4 = 4 * (i + 2) := by omega
    rw [if_neg hend, hnext, hstop (by omega), bind_ok, hrange]

end Read

/-- The items of a vector are read back in their order. -/
theorem dynvecItems_write {items : List Slice} (hlength : (writeDynvec items).length < 2 ^ 32) :
    dynvecItems (writeDynvec items) = .ok items := by
  cases items with
  | nil => decide
  | cons first rest =>
    rw [writeDynvec, if_neg (by simp)] at hlength ⊢
    rw [dynvecItems, partCount_write hlength (by simp), bind_ok]
    exact mapM_range_ok fun i part hi => dynvecItem_write hlength hi

theorem tableFields_write {parts : List Slice} (hlength : (writeParts parts).length < 2 ^ 32)
    {fieldCount : ℕ} (hle : fieldCount ≤ parts.length) :
    (List.range fieldCount).mapM (fun i => tableField fieldCount i (writeParts parts)) =
      .ok (parts.take fieldCount) := by
  have htake : (parts.take fieldCount).length = fieldCount := by
    rw [List.length_take, Nat.min_eq_left hle]
  have hmap : (List.range (parts.take fieldCount).length).mapM
      (fun i => tableField fieldCount i (writeParts parts)) = .ok (parts.take fieldCount) := by
    refine mapM_range_ok fun i part hi => ?_
    have hlt := (List.getElem?_eq_some_iff.mp hi).1
    rw [htake] at hlt
    rw [List.getElem?_take_of_lt hlt] at hi
    exact tableField_write hlength hi hle hlt
  rwa [htake] at hmap

/-- Bytes of the right length are items of one size. -/
theorem exists_chunks (size : ℕ) (count : ℕ) (s : Slice) (h : s.length = size * count) :
    ∃ items : List Slice, items.length = count ∧ (∀ item ∈ items, item.length = size) ∧
      items.flatten = s := by
  induction count generalizing s with
  | zero =>
    have hs : s = [] := List.length_eq_zero_iff.mp (by simpa using h)
    exact ⟨[], rfl, by simp, by simp [hs]⟩
  | succ count ih =>
    rw [Nat.mul_succ] at h
    obtain ⟨items, hcount, hsize, hflatten⟩ := ih (s.drop size) (by rw [List.length_drop]; omega)
    refine ⟨s.take size :: items, by simp [hcount], ?_, ?_⟩
    · intro item hitem
      rcases List.mem_cons.mp hitem with rfl | hitem
      · rw [List.length_take]
        omega
      · exact hsize item hitem
    · rw [List.flatten_cons, hflatten, List.take_append_drop]

section Fixvec

variable {itemSize : ℕ} {items : List Slice}

theorem length_flatten_of_size (hsize : ∀ item ∈ items, item.length = itemSize) :
    items.flatten.length = itemSize * items.length := by
  induction items with
  | nil => simp
  | cons item items ih =>
    rw [List.flatten_cons, List.length_append, hsize item List.mem_cons_self,
      ih fun other hother => hsize other (List.mem_cons_of_mem _ hother), List.length_cons]
    ring

theorem unpackNumber_count (hcount : items.length < 2 ^ 32) :
    unpackNumber (writeFixvec items) 0 = .ok items.length :=
  unpackNumber_append [] items.flatten hcount

theorem verifyFixvec_write (name : String) (hcount : items.length < 2 ^ 32)
    (hsize : ∀ item ∈ items, item.length = itemSize) :
    verifyFixvec name itemSize (writeFixvec items) = .ok () := by
  have hlength : (writeFixvec items).length = 4 + itemSize * items.length := by
    rw [writeFixvec, List.length_append, length_packNumber, length_flatten_of_size hsize]
  rw [verifyFixvec, if_neg (by omega), unpackNumber_count hcount, bind_ok]
  by_cases hempty : items.length = 0
  · rw [if_pos hempty, if_neg (by rw [hlength, hempty]; simp)]
    rfl
  · rw [if_neg hempty, if_neg (by simpa using hlength)]
    rfl

/-- A vector of items of one size is rejected for its length, or it consists of them. -/
theorem verifyFixvec_cases (name : String) (itemSize : ℕ) (s : Slice) :
    (∃ e, verifyFixvec name itemSize s = reject e) ∨
      ∃ items : List Slice, s = writeFixvec items ∧ items.length < 2 ^ 32 ∧
        ∀ item ∈ items, item.length = itemSize := by
  rw [verifyFixvec]
  by_cases hfour : s.length < 4
  · exact .inl ⟨_, if_pos hfour⟩
  obtain ⟨itemCount, hcount⟩ : ∃ n, unpackNumber s 0 = .ok n := ⟨_, unpackNumber_ok (by omega)⟩
  have htake := take_of_unpackNumber (by omega) hcount
  rw [if_neg hfour, hcount, bind_ok]
  have hitems : s.length = 4 + itemSize * itemCount →
      ∃ items : List Slice, s = writeFixvec items ∧ items.length < 2 ^ 32 ∧
        ∀ item ∈ items, item.length = itemSize := by
    intro hlength
    obtain ⟨items, rfl, hsize, hflatten⟩ := exists_chunks itemSize itemCount (s.drop 4)
      (by rw [List.length_drop]; omega)
    refine ⟨items, ?_, unpackNumber_lt hcount, hsize⟩
    rw [writeFixvec, hflatten, ← htake, List.take_append_drop]
  by_cases hempty : itemCount = 0
  · by_cases hlength : s.length ≠ 4
    · exact .inl ⟨_, by rw [if_pos hempty, if_pos hlength]⟩
    · exact .inr (hitems (by rw [hempty]; omega))
  · by_cases hlength : s.length ≠ 4 + itemSize * itemCount
    · exact .inl ⟨_, by rw [if_neg hempty, if_pos hlength]⟩
    · exact .inr (hitems (by omega))

/-- The items of one size are read back in their order. -/
theorem fixvecItems_write (hcount : items.length < 2 ^ 32)
    (hsize : ∀ item ∈ items, item.length = itemSize) :
    fixvecItems itemSize (writeFixvec items) = .ok items := by
  rw [fixvecItems, unpackNumber_count hcount, bind_ok]
  refine mapM_range_ok fun i item hi => ?_
  obtain ⟨hlt, hitem⟩ := List.getElem?_eq_some_iff.mp hi
  have hsplit := List.take_append_drop i items
  rw [List.drop_eq_getElem_cons hlt, hitem] at hsplit
  have hfront : (packNumber items.length ++ (items.take i).flatten).length = 4 + itemSize * i := by
    rw [List.length_append, length_packNumber,
      length_flatten_of_size fun other hother => hsize other (List.mem_of_mem_take hother),
      List.length_take, Nat.min_eq_left (by omega)]
  have hrange := range_append (packNumber items.length ++ (items.take i).flatten) item
    (items.drop (i + 1)).flatten
  rw [hfront, hsize item (List.mem_of_getElem? hi)] at hrange
  rw [fixvecItem, ← hrange, writeFixvec]
  congr 1
  conv_lhs => rw [← hsplit]
  rw [List.flatten_append, List.flatten_cons, hsplit, List.append_assoc]

end Fixvec

end Serialization
