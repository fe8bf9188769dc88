import DeterministicScheduler.Types
import DeterministicScheduler.Logic.Simulation

/-!
# Escape encoding of arguments

Arguments of a guest are C strings, so the zero byte is escaped: `0x00` and the
escape byte `0xFE` itself are each written as `0xFE` and the byte minus one. The
encoder and one decoder work from one buffer into another and stop where the
destination is full; the second decoder overwrites its input.

A function here runs on the buffer it writes, and an access outside of it
crashes. Sizes are natural numbers, since no two buffers of a program together
exceed the range of a size.
-/
namespace DeterministicScheduler.EscapeEncoding

open ProgramLogic Program Outcome

/-- A read or a write of one byte of the buffer. -/
inductive Access where
  | read (i : ℕ)
  | write (i : ℕ)
  deriving DecidableEq

/-- A function that writes to a buffer and may return early with an error code. -/
abbrev BufferM := Program ℕ Access Bytes

def escapeErrorEncoding : ℕ := 1

def readByte (i : ℕ) : BufferM UInt8 := do
  let b ← unwrap (← get)[i]?
  emit (.read i)
  return b

def writeByte (i : ℕ) (b : UInt8) : BufferM Unit := do
  if i < (← get).length then
    emit (.write i)
    modify fun buf => buf.set i b
  else crash

def eeMaximumEncodingLength (length : ℕ) : ℕ :=
  length * 2

def eeDecodeLoop (dl : ℕ) (src : Bytes) (sl ds ss : ℕ) : BufferM (ℕ × ℕ) :=
  if _h : ss < sl ∧ ds < dl then do
    let b ← unwrap src[ss]?
    if b = 0xFE then
      if sl ≤ ss + 1 then throw escapeErrorEncoding
      else
        let escaped ← unwrap src[ss + 1]?
        writeByte ds (escaped + 1)
        eeDecodeLoop dl src sl (ds + 1) (ss + 2)
    else
      writeByte ds b
      eeDecodeLoop dl src sl (ds + 1) (ss + 1)
  else return (ds, ss)
termination_by sl - ss

/-- Decode from `src` while there is room, and return how much was written and how
much was read. -/
def eeDecode (dstLength : ℕ) (src : Bytes) (srcLength : ℕ) : BufferM (ℕ × ℕ) :=
  eeDecodeLoop dstLength src srcLength 0 0

def eeDecodeCharStringInPlaceLoop : ℕ → ℕ → ℕ → BufferM ℕ
  | 0, _, _ => crash
  | fuel + 1, ss, ds => do
    let b ← readByte ss
    if b = 0 then return ds
    else if b = 0xFE then
      let escaped ← readByte (ss + 1)
      if escaped = 0 then throw escapeErrorEncoding
      else
        writeByte ds (escaped + 1)
        eeDecodeCharStringInPlaceLoop fuel (ss + 2) (ds + 1)
    else
      writeByte ds b
      eeDecodeCharStringInPlaceLoop fuel (ss + 1) (ds + 1)

/-- Decode a C string into the buffer it is in, and return how much was written.
Each round reads further on and a read past the end crashes, so the length of the
buffer is fuel enough. -/
def eeDecodeCharStringInPlace : BufferM ℕ := do
  let buf ← get
  eeDecodeCharStringInPlaceLoop buf.length 0 0

def eeEncodeLoop (dl : ℕ) (src : Bytes) (sl ds ss : ℕ) : BufferM (ℕ × ℕ) :=
  if _h : ss < sl ∧ ds < dl then do
    let b ← unwrap src[ss]?
    if b = 0 ∨ b = 0xFE then
      if dl ≤ ds + 1 then return (ds, ss)
      else
        writeByte ds 0xFE
        writeByte (ds + 1) (b - 1)
        eeEncodeLoop dl src sl (ds + 2) (ss + 1)
    else
      writeByte ds b
      eeEncodeLoop dl src sl (ds + 1) (ss + 1)
  else return (ds, ss)
termination_by sl - ss

/-- Encode from `src` while there is room, and return how much was written and how
much was read. -/
def eeEncode (dstLength : ℕ) (src : Bytes) (srcLength : ℕ) : BufferM (ℕ × ℕ) :=
  eeEncodeLoop dstLength src srcLength 0 0

/-- The encoding of one byte. -/
def escape (b : UInt8) : Bytes :=
  if b = 0 ∨ b = 0xFE then [0xFE, b - 1] else [b]

def encode (s : Bytes) : Bytes :=
  s.flatMap escape

/-- The bytes that a string decodes to. Only an escape byte at the very end has no
meaning; after any other one comes the byte minus one. -/
def decode : Bytes → Option Bytes
  | [] => some []
  | b :: t =>
    if b = 0xFE then
      match t with
      | [] => none
      | escaped :: t => (decode t).map ((escaped + 1) :: ·)
    else (decode t).map (b :: ·)

theorem escape_length (b : UInt8) : 1 ≤ (escape b).length ∧ (escape b).length ≤ 2 := by
  unfold escape
  split <;> simp

theorem zero_not_mem_escape (b : UInt8) : 0 ∉ escape b := by
  unfold escape
  split
  · rename_i hb
    rcases hb with rfl | rfl <;> decide
  · rename_i hb
    rw [List.mem_singleton]
    exact fun hzero => hb (Or.inl hzero.symm)

@[simp] theorem encode_nil : encode [] = [] := rfl

@[simp] theorem encode_cons (b : UInt8) (s : Bytes) : encode (b :: s) = escape b ++ encode s := rfl

@[simp] theorem encode_append (s s' : Bytes) : encode (s ++ s') = encode s ++ encode s' :=
  List.flatMap_append

theorem encode_length_le (s : Bytes) : (encode s).length ≤ 2 * s.length := by
  induction s with
  | nil => simp
  | cons b s ih =>
    have hb := (escape_length b).2
    simp only [encode_cons, List.length_append, List.length_cons]
    omega

theorem zero_not_mem_encode (s : Bytes) : 0 ∉ encode s := by
  induction s with
  | nil => simp
  | cons b s ih =>
    rw [encode_cons, List.mem_append]
    exact fun h => h.elim (zero_not_mem_escape b) ih

@[simp] theorem decode_nil : decode [] = some [] := rfl

@[simp] theorem decode_escape_nil : decode [0xFE] = none := rfl

@[simp] theorem decode_escape_cons (escaped : UInt8) (t : Bytes) :
    decode (0xFE :: escaped :: t) = (decode t).map ((escaped + 1) :: ·) := by
  rw [decode, if_pos rfl]

theorem decode_cons {b : UInt8} (hb : b ≠ 0xFE) (t : Bytes) :
    decode (b :: t) = (decode t).map (b :: ·) := by
  rw [decode.eq_def]
  simp only [if_neg hb]

theorem decode_escape_append (b : UInt8) (t : Bytes) :
    decode (escape b ++ t) = (decode t).map (b :: ·) := by
  unfold escape
  split
  · simp
  · rename_i hb
    rw [List.singleton_append, decode_cons fun h => hb (Or.inr h)]

/-- Decoding undoes encoding. -/
theorem decode_encode (s : Bytes) : decode (encode s) = some s := by
  induction s with
  | nil => rfl
  | cons b s ih => rw [encode_cons, decode_escape_append, ih, Option.map_some]

section Buffers

variable {buf : Bytes} {i : ℕ} {b : UInt8}

/-- A buffer with other bytes from an index on. -/
def overwrite (buf : Bytes) (i : ℕ) (data : Bytes) : Bytes :=
  buf.take i ++ data ++ buf.drop (i + data.length)

@[simp] theorem overwrite_nil : overwrite buf i [] = buf := by
  simp [overwrite]

theorem overwrite_set (h : i < buf.length) (data : Bytes) :
    overwrite (buf.set i b) (i + 1) data = overwrite buf i (b :: data) := by
  have htake : (buf.set i b).take (i + 1) = buf.take i ++ [b] := by
    rw [List.set_eq_take_append_cons_drop, if_pos h, List.take_append]
    simp [List.take_take, Nat.min_eq_left h.le]
  have hdrop : (buf.set i b).drop (i + 1 + data.length) = buf.drop (i + (b :: data).length) := by
    rw [List.drop_set_of_lt (by omega), List.length_cons]
    congr 1
    omega
  simp only [overwrite, htake, hdrop, List.append_assoc, List.cons_append, List.nil_append]

theorem take_overwrite_zero (data : Bytes) : (overwrite buf 0 data).take data.length = data := by
  simp [overwrite]

theorem readByte_run (h : buf[i]? = some b) : readByte i buf = .ok b buf [.read i] := by
  simp only [readByte, get_bind_run, h, unwrap_some, pure_bind_run, emit_bind_run, pure_run]
  rfl

theorem writeByte_run (h : i < buf.length) :
    writeByte i b buf = .ok ⟨⟩ (buf.set i b) [.write i] := by
  simp only [writeByte, get_bind_run, if_pos h, emit_bind_run, modify_run]
  rfl

end Buffers

/-- What is encoded of a string when `room` bytes are left, and how much of it. -/
def encodeUpTo : ℕ → Bytes → Bytes × ℕ
  | _, [] => ([], 0)
  | room, b :: s =>
    if (escape b).length ≤ room then
      let (out, n) := encodeUpTo (room - (escape b).length) s
      (escape b ++ out, n + 1)
    else ([], 0)

theorem encodeUpTo_cons {room : ℕ} {b : UInt8} (h : (escape b).length ≤ room) (s : Bytes) :
    encodeUpTo room (b :: s) =
      (escape b ++ (encodeUpTo (room - (escape b).length) s).1,
        (encodeUpTo (room - (escape b).length) s).2 + 1) := by
  rw [encodeUpTo, if_pos h]

/-- A whole number of bytes is encoded. -/
theorem encodeUpTo_fst (room : ℕ) (s : Bytes) :
    (encodeUpTo room s).1 = encode (s.take (encodeUpTo room s).2) := by
  induction s generalizing room with
  | nil => rfl
  | cons b s ih =>
    by_cases h : (escape b).length ≤ room
    · rw [encodeUpTo_cons h, List.take_succ_cons, encode_cons, ← ih]
    · rw [encodeUpTo, if_neg h]
      rfl

/-- Twice the length is room enough for all. -/
theorem encodeUpTo_all {room : ℕ} {s : Bytes} (h : 2 * s.length ≤ room) :
    encodeUpTo room s = (encode s, s.length) := by
  induction s generalizing room with
  | nil => rfl
  | cons b s ih =>
    have hb := (escape_length b).2
    rw [List.length_cons] at h
    rw [encodeUpTo_cons (by omega), ih (by omega)]
    rfl

/-- Two bytes are room enough to go on. -/
theorem encodeUpTo_pos {room : ℕ} {s : Bytes} (hroom : 2 ≤ room) (hs : s ≠ []) :
    0 < (encodeUpTo room s).2 := by
  cases s with
  | nil => exact absurd rfl hs
  | cons b s =>
    have hb := (escape_length b).2
    rw [encodeUpTo_cons (by omega)]
    exact Nat.succ_pos _

theorem drop_eq_cons {s : Bytes} {i : ℕ} {b : UInt8} {t : Bytes} (h : s.drop i = b :: t) :
    s[i]? = some b ∧ i < s.length ∧ s.drop (i + 1) = t := by
  have hlt : i < s.length := by
    by_contra hge
    rw [List.drop_eq_nil_of_le (by omega)] at h
    cases h
  rw [List.drop_eq_getElem_cons hlt] at h
  obtain ⟨rfl, rfl⟩ := List.cons.inj h
  exact ⟨List.getElem?_eq_getElem hlt, hlt, rfl⟩

/-- The loop encodes what fits of the rest of its source. -/
theorem eeEncodeLoop_run {dst src t : Bytes} {dl ds ss : ℕ} (ht : src.drop ss = t)
    (hdl : dl ≤ dst.length) (hds : ds ≤ dl) :
    ∃ log, eeEncodeLoop dl src src.length ds ss dst =
      .ok (ds + (encodeUpTo (dl - ds) t).1.length, ss + (encodeUpTo (dl - ds) t).2)
        (overwrite dst ds (encodeUpTo (dl - ds) t).1) log := by
  induction t generalizing dst ds ss with
  | nil =>
    have hend : src.length ≤ ss := List.drop_eq_nil_iff.mp ht
    rw [eeEncodeLoop, dif_neg (by omega)]
    exact ⟨[], by simp [encodeUpTo]⟩
  | cons b t ih =>
    obtain ⟨hb, hss, ht'⟩ := drop_eq_cons ht
    have hpos := (escape_length b).1
    by_cases hroom : ds < dl
    · rw [eeEncodeLoop, dif_pos ⟨hss, hroom⟩, hb, unwrap_some, pure_bind_run]
      by_cases hescape : b = 0 ∨ b = 0xFE
      · have hescaped : escape b = [0xFE, b - 1] := if_pos hescape
        have hlength : (escape b).length = 2 := by rw [hescaped]; rfl
        rw [if_pos hescape]
        by_cases hfull : dl ≤ ds + 1
        · rw [if_pos hfull, encodeUpTo, if_neg (by omega)]
          exact ⟨[], by simp⟩
        · have hdl' : dl ≤ ((dst.set ds 0xFE).set (ds + 1) (b - 1)).length := by simpa using hdl
          have hds' : ds + 2 ≤ dl := by omega
          obtain ⟨log, hlog⟩ := ih ht' hdl' hds'
          have hset : ds + 1 < (dst.set ds 0xFE).length := by
            rw [List.length_set]
            omega
          rw [if_neg hfull, bind_of_ok (writeByte_run (by omega)),
            bind_of_ok (writeByte_run hset), hlog, encodeUpTo_cons (by omega), hlength, hescaped]
          simp only [after, Nat.sub_sub, overwrite_set hset,
            overwrite_set (show ds < dst.length by omega), List.cons_append, List.nil_append,
            List.length_cons, ok.injEq, Prod.mk.injEq]
          exact ⟨_, ⟨by omega, by omega⟩, trivial, rfl⟩
      · have hescaped : escape b = [b] := if_neg hescape
        have hlength : (escape b).length = 1 := by rw [hescaped]; rfl
        have hdl' : dl ≤ (dst.set ds b).length := by simpa using hdl
        have hds' : ds + 1 ≤ dl := hroom
        obtain ⟨log, hlog⟩ := ih ht' hdl' hds'
        rw [if_neg hescape, bind_of_ok (writeByte_run (by omega)), hlog,
          encodeUpTo_cons (by omega), hlength, hescaped]
        simp only [after, Nat.sub_sub, overwrite_set (show ds < dst.length by omega),
          List.cons_append, List.nil_append, List.length_cons, ok.injEq, Prod.mk.injEq]
        exact ⟨_, ⟨by omega, by omega⟩, trivial, rfl⟩
    · rw [eeEncodeLoop, dif_neg (by omega), encodeUpTo, if_neg (by omega)]
      exact ⟨[], by simp⟩

/-- An encoding call writes what fits of its source. -/
theorem eeEncode_run {dst : Bytes} {dl : ℕ} (src : Bytes) (hdl : dl ≤ dst.length) :
    ∃ log, eeEncode dl src src.length dst =
      .ok ((encodeUpTo dl src).1.length, (encodeUpTo dl src).2)
        (overwrite dst 0 (encodeUpTo dl src).1) log := by
  have hdrop : src.drop 0 = src := List.drop_zero
  obtain ⟨log, hlog⟩ := eeEncodeLoop_run hdrop hdl (Nat.zero_le _)
  exact ⟨log, by simpa [eeEncode] using hlog⟩

/-- What is decoded of a string when `room` bytes are left, and how much of it. -/
def decodeUpTo : ℕ → Bytes → Option (Bytes × ℕ)
  | 0, _ => some ([], 0)
  | _ + 1, [] => some ([], 0)
  | room + 1, b :: t =>
    if b = 0xFE then
      match t with
      | [] => none
      | escaped :: t => (decodeUpTo room t).map fun (out, n) => ((escaped + 1) :: out, n + 2)
    else (decodeUpTo room t).map fun (out, n) => (b :: out, n + 1)

@[simp] theorem decodeUpTo_zero (t : Bytes) : decodeUpTo 0 t = some ([], 0) := by
  unfold decodeUpTo
  rfl

@[simp] theorem decodeUpTo_nil (room : ℕ) : decodeUpTo room [] = some ([], 0) := by
  cases room <;> simp [decodeUpTo]

@[simp] theorem decodeUpTo_escape_nil (room : ℕ) : decodeUpTo (room + 1) [0xFE] = none := by
  rw [decodeUpTo, if_pos rfl]

@[simp] theorem decodeUpTo_escape_cons (room : ℕ) (escaped : UInt8) (t : Bytes) :
    decodeUpTo (room + 1) (0xFE :: escaped :: t) =
      (decodeUpTo room t).map fun (out, n) => ((escaped + 1) :: out, n + 2) := by
  rw [decodeUpTo, if_pos rfl]

theorem decodeUpTo_cons {b : UInt8} (hb : b ≠ 0xFE) (room : ℕ) (t : Bytes) :
    decodeUpTo (room + 1) (b :: t) =
      (decodeUpTo room t).map fun (out, n) => (b :: out, n + 1) := by
  rw [decodeUpTo.eq_def]
  simp only [if_neg hb]

/-- A string is empty, an escape byte alone, an escaped byte and a rest, or any
other byte and a rest. -/
theorem decode_induction {P : Bytes → Prop} (hnil : P []) (hlone : P [0xFE])
    (hescaped : ∀ escaped t, P t → P (0xFE :: escaped :: t))
    (hplain : ∀ b t, b ≠ 0xFE → P t → P (b :: t)) (t : Bytes) : P t := by
  induction hlength : t.length using Nat.strong_induction_on generalizing t with
  | _ n ih =>
    subst hlength
    match t with
    | [] => exact hnil
    | b :: t =>
      by_cases hb : b = 0xFE
      · subst hb
        match t with
        | [] => exact hlone
        | escaped :: t => exact hescaped escaped t (ih _ (by simp) t rfl)
      · exact hplain b t hb (ih _ (by simp) t rfl)

/-- The length is room enough to decode all. -/
theorem decodeUpTo_all (t : Bytes) {room : ℕ} (h : t.length ≤ room) :
    decodeUpTo room t = (decode t).map fun out => (out, t.length) := by
  induction t using decode_induction generalizing room with
  | hnil => simp
  | hlone =>
    cases room with
    | zero => simp at h
    | succ room => simp
  | hescaped escaped t ih =>
    cases room with
    | zero => simp at h
    | succ room =>
      have hle : t.length ≤ room := by
        simp only [List.length_cons] at h
        omega
      rw [decodeUpTo_escape_cons, decode_escape_cons, ih hle, Option.map_map, Option.map_map]
      rfl
  | hplain b t hb ih =>
    cases room with
    | zero => simp at h
    | succ room =>
      have hle : t.length ≤ room := by simpa using h
      rw [decodeUpTo_cons hb, decode_cons hb, ih hle, Option.map_map, Option.map_map]
      rfl

/-- Of a string that has a meaning a first part is decoded, and the rest still has
the rest of the meaning. One byte is room enough to go on. -/
theorem decodeUpTo_prefix {t out : Bytes} (h : decode t = some out) (room : ℕ) :
    ∃ out₁ n out₂, decodeUpTo room t = some (out₁, n) ∧ decode (t.drop n) = some out₂ ∧
      out = out₁ ++ out₂ ∧ (0 < room → t ≠ [] → 0 < n) := by
  induction t using decode_induction generalizing room out with
  | hnil =>
    cases h
    exact ⟨[], 0, [], by simp, rfl, rfl, by simp⟩
  | hlone => cases h
  | hescaped escaped t ih =>
    rw [decode_escape_cons] at h
    obtain ⟨rest, hrest, rfl⟩ := Option.map_eq_some_iff.mp h
    cases room with
    | zero => exact ⟨[], 0, (escaped + 1) :: rest, by simp, by simp [hrest], rfl, by simp⟩
    | succ room =>
      obtain ⟨out₁, n, out₂, hup, hdrop, rfl, _⟩ := ih hrest room
      refine ⟨(escaped + 1) :: out₁, n + 2, out₂, ?_, hdrop, rfl, by simp⟩
      rw [decodeUpTo_escape_cons, hup, Option.map_some]
  | hplain b t hb ih =>
    rw [decode_cons hb] at h
    obtain ⟨rest, hrest, rfl⟩ := Option.map_eq_some_iff.mp h
    cases room with
    | zero =>
      refine ⟨[], 0, b :: rest, by simp, ?_, rfl, by simp⟩
      rw [List.drop_zero, decode_cons hb, hrest, Option.map_some]
    | succ room =>
      obtain ⟨out₁, n, out₂, hup, hdrop, rfl, _⟩ := ih hrest room
      refine ⟨b :: out₁, n + 1, out₂, ?_, hdrop, rfl, by simp⟩
      rw [decodeUpTo_cons hb, hup, Option.map_some]

/-- An outcome that has decoded a number of bytes to `out`, or found no meaning. -/
def DecodesAs (o : Outcome ℕ Access Bytes (ℕ × ℕ)) (dst : Bytes) (ds ss : ℕ) :
    Option (Bytes × ℕ) → Prop
  | some (out, n) => ∃ log, o = .ok (ds + out.length, ss + n) (overwrite dst ds out) log
  | none => ∃ dst' log, o = .err escapeErrorEncoding dst' log

theorem DecodesAs.cons {o : Outcome ℕ Access Bytes (ℕ × ℕ)} {dst : Bytes} {ds ss k : ℕ}
    {b : UInt8} {r : Option (Bytes × ℕ)} (h : DecodesAs o (dst.set ds b) (ds + 1) (ss + k) r)
    (hds : ds < dst.length) (log : List Access) :
    DecodesAs (o.after log) dst ds ss (r.map fun (out, n) => (b :: out, n + k)) := by
  cases r with
  | none =>
    obtain ⟨dst', log', rfl⟩ := h
    exact ⟨dst', log ++ log', rfl⟩
  | some r =>
    obtain ⟨out, n⟩ := r
    obtain ⟨log', rfl⟩ := h
    refine ⟨log ++ log', ?_⟩
    simp only [after, overwrite_set hds, List.length_cons, ok.injEq, Prod.mk.injEq]
    exact ⟨⟨by omega, by omega⟩, trivial, trivial⟩

/-- A full destination ends the loop. -/
theorem eeDecodeLoop_full {dst src : Bytes} (t : Bytes) {dl ds ss : ℕ} (h : dl ≤ ds) :
    DecodesAs (eeDecodeLoop dl src src.length ds ss dst) dst ds ss (decodeUpTo (dl - ds) t) := by
  rw [eeDecodeLoop, dif_neg (by omega), Nat.sub_eq_zero_of_le h, decodeUpTo_zero]
  exact ⟨[], by simp⟩

/-- The loop decodes what fits of the rest of its source, and fails where that has
no meaning. -/
theorem eeDecodeLoop_run {dst src : Bytes} (t : Bytes) {dl ds ss : ℕ} (ht : src.drop ss = t)
    (hdl : dl ≤ dst.length) :
    DecodesAs (eeDecodeLoop dl src src.length ds ss dst) dst ds ss (decodeUpTo (dl - ds) t) := by
  induction t using decode_induction generalizing dst ds ss with
  | hnil =>
    have hend : src.length ≤ ss := List.drop_eq_nil_iff.mp ht
    rw [eeDecodeLoop, dif_neg (by omega), decodeUpTo_nil]
    exact ⟨[], by simp⟩
  | hlone =>
    rcases Nat.lt_or_ge ds dl with hroom | hfull
    · obtain ⟨hb, hss, ht'⟩ := drop_eq_cons ht
      have hend : src.length ≤ ss + 1 := List.drop_eq_nil_iff.mp ht'
      obtain ⟨room, hleft⟩ : ∃ room, dl - ds = room + 1 := ⟨dl - ds - 1, by omega⟩
      rw [eeDecodeLoop, dif_pos ⟨hss, hroom⟩, hb, unwrap_some, pure_bind_run, if_pos rfl,
        if_pos hend, hleft, decodeUpTo_escape_nil]
      exact ⟨dst, [], rfl⟩
    · exact eeDecodeLoop_full _ hfull
  | hescaped escaped t ih =>
    rcases Nat.lt_or_ge ds dl with hroom | hfull
    · obtain ⟨hb, hss, ht'⟩ := drop_eq_cons ht
      obtain ⟨hescaped, hss', ht''⟩ := drop_eq_cons ht'
      obtain ⟨room, hleft⟩ : ∃ room, dl - ds = room + 1 := ⟨dl - ds - 1, by omega⟩
      have hdl' : dl ≤ (dst.set ds (escaped + 1)).length := by simpa using hdl
      have hroom' : dl - (ds + 1) = room := by omega
      have hrest : DecodesAs (eeDecodeLoop dl src src.length (ds + 1) (ss + 2) _) _ (ds + 1)
          (ss + 2) (decodeUpTo room t) := hroom' ▸ ih ht'' hdl'
      rw [eeDecodeLoop, dif_pos ⟨hss, hroom⟩, hb, unwrap_some, pure_bind_run, if_pos rfl,
        if_neg (by omega), hescaped, unwrap_some, pure_bind_run,
        bind_of_ok (writeByte_run (by omega)), hleft, decodeUpTo_escape_cons]
      exact hrest.cons (by omega) _
    · exact eeDecodeLoop_full _ hfull
  | hplain b t hb ih =>
    rcases Nat.lt_or_ge ds dl with hroom | hfull
    · obtain ⟨hget, hss, ht'⟩ := drop_eq_cons ht
      obtain ⟨room, hleft⟩ : ∃ room, dl - ds = room + 1 := ⟨dl - ds - 1, by omega⟩
      have hdl' : dl ≤ (dst.set ds b).length := by simpa using hdl
      have hroom' : dl - (ds + 1) = room := by omega
      have hrest : DecodesAs (eeDecodeLoop dl src src.length (ds + 1) (ss + 1) _) _ (ds + 1)
          (ss + 1) (decodeUpTo room t) := hroom' ▸ ih ht' hdl'
      rw [eeDecodeLoop, dif_pos ⟨hss, hroom⟩, hget, unwrap_some, pure_bind_run, if_neg hb,
        bind_of_ok (writeByte_run (by omega)), hleft, decodeUpTo_cons hb]
      exact hrest.cons (by omega) _
    · exact eeDecodeLoop_full _ hfull

theorem eeDecode_run {dst : Bytes} {dl : ℕ} (src : Bytes) (hdl : dl ≤ dst.length) :
    DecodesAs (eeDecode dl src src.length dst) dst 0 0 (decodeUpTo dl src) := by
  have hdrop : src.drop 0 = src := List.drop_zero
  exact eeDecodeLoop_run src hdrop hdl

/-- No byte is read any more once it has been overwritten. -/
def OverwritesOnlyRead : List Access → Prop
  | [] => True
  | .read _ :: log => OverwritesOnlyRead log
  | .write i :: log => .read i ∉ log ∧ OverwritesOnlyRead log

/-- An outcome that has decoded the string from `ss` on to `out`, overwriting only
what it had read, or found no meaning. -/
def DecodesInPlace (o : Outcome ℕ Access Bytes ℕ) (buf : Bytes) (ss ds : ℕ) :
    Option Bytes → Prop
  | some out => ∃ log, o = .ok (ds + out.length) (overwrite buf ds out) log ∧
      OverwritesOnlyRead log ∧ ∀ i, .read i ∈ log → ss ≤ i
  | none => ∃ buf' log, o = .err escapeErrorEncoding buf' log

/-- Reads from `ss` on and a write before them, and a rest that reads further on. -/
theorem DecodesInPlace.cons {o : Outcome ℕ Access Bytes ℕ} {buf : Bytes} {ss ds k : ℕ} {b : UInt8}
    {r : Option Bytes} (h : DecodesInPlace o (buf.set ds b) (ss + k) (ds + 1) r)
    (hds : ds < buf.length) (hle : ds ≤ ss) (hk : 0 < k) {reads : List ℕ}
    (hreads : ∀ i ∈ reads, ss ≤ i) :
    DecodesInPlace (o.after (reads.map .read ++ [.write ds])) buf ss ds (r.map (b :: ·)) := by
  cases r with
  | none =>
    obtain ⟨buf', log', rfl⟩ := h
    exact ⟨buf', _, rfl⟩
  | some out =>
    obtain ⟨log, rfl, honly, hfrom⟩ := h
    have hread : .read ds ∉ log := by
      intro hin
      have := hfrom ds hin
      omega
    refine ⟨reads.map .read ++ [.write ds] ++ log, ?_, ?_, ?_⟩
    · simp only [after, overwrite_set hds, List.length_cons, ok.injEq]
      exact ⟨by omega, trivial, trivial⟩
    · clear hreads
      induction reads with
      | nil => exact ⟨hread, honly⟩
      | cons i reads ih => exact ih
    · intro i hi
      simp only [List.mem_append, List.mem_map, Access.read.injEq, exists_eq_right,
        List.mem_singleton, reduceCtorEq, or_false] at hi
      rcases hi with hi | hi
      · exact hreads i hi
      · have := hfrom i hi
        omega

/-- The loop decodes the rest of its string. It writes no further than it has read. -/
theorem eeDecodeCharStringInPlaceLoop_run {buf : Bytes} (t : Bytes) {rest : Bytes}
    {fuel ss ds : ℕ} (ht : buf.drop ss = t ++ 0 :: rest) (hzero : 0 ∉ t) (hfuel : t.length ≤ fuel)
    (hle : ds ≤ ss) :
    DecodesInPlace (eeDecodeCharStringInPlaceLoop (fuel + 1) ss ds buf) buf ss ds (decode t) := by
  induction t using decode_induction generalizing buf fuel ss ds with
  | hnil =>
    obtain ⟨hread, _, _⟩ := drop_eq_cons ht
    rw [eeDecodeCharStringInPlaceLoop, bind_of_ok (readByte_run hread), if_pos rfl]
    exact ⟨[.read ss], by simp [after], trivial, by simp⟩
  | hlone =>
    obtain ⟨hread, _, ht'⟩ := drop_eq_cons ht
    obtain ⟨hread', _, _⟩ := drop_eq_cons ht'
    rw [eeDecodeCharStringInPlaceLoop, bind_of_ok (readByte_run hread), if_neg (by decide),
      if_pos rfl, bind_of_ok (readByte_run hread'), if_pos rfl]
    exact ⟨buf, _, rfl⟩
  | hescaped escaped t ih =>
    obtain ⟨hread, hss, ht'⟩ := drop_eq_cons ht
    obtain ⟨hread', hss', ht''⟩ := drop_eq_cons ht'
    simp only [List.mem_cons, not_or] at hzero
    obtain ⟨_, hne, hzero⟩ := hzero
    have hkept : (buf.set ds (escaped + 1)).drop (ss + 2) = t ++ 0 :: rest := by
      rw [List.drop_set_of_lt (by omega)]
      exact ht''
    simp only [List.length_cons] at hfuel
    obtain ⟨fuel, rfl⟩ : ∃ n, fuel = n + 1 := ⟨fuel - 1, by omega⟩
    have hrest := ih hkept hzero (show t.length ≤ fuel by omega) (show ds + 1 ≤ ss + 2 by omega)
    rw [eeDecodeCharStringInPlaceLoop, bind_of_ok (readByte_run hread), if_neg (by decide),
      if_pos rfl, bind_of_ok (readByte_run hread'), if_neg (Ne.symm hne),
      bind_of_ok (writeByte_run (by omega)), after_after, after_after, decode_escape_cons]
    exact hrest.cons (by omega) hle (by decide) (show ∀ i ∈ [ss, ss + 1], ss ≤ i by simp)
  | hplain b t hb ih =>
    obtain ⟨hread, hss, ht'⟩ := drop_eq_cons ht
    simp only [List.mem_cons, not_or] at hzero
    have hkept : (buf.set ds b).drop (ss + 1) = t ++ 0 :: rest := by
      rw [List.drop_set_of_lt (by omega)]
      exact ht'
    simp only [List.length_cons] at hfuel
    obtain ⟨fuel, rfl⟩ : ∃ n, fuel = n + 1 := ⟨fuel - 1, by omega⟩
    have hrest := ih hkept hzero.2 (show t.length ≤ fuel by omega) (show ds + 1 ≤ ss + 1 by omega)
    rw [eeDecodeCharStringInPlaceLoop, bind_of_ok (readByte_run hread), if_neg (Ne.symm hzero.1),
      if_neg hb, bind_of_ok (writeByte_run (by omega)), after_after, decode_cons hb]
    exact hrest.cons (by omega) hle (by decide) (show ∀ i ∈ [ss], ss ≤ i by simp)

/-- A string and the zero byte after it decode in place to what the string means. -/
theorem eeDecodeCharStringInPlace_run {t : Bytes} (hzero : 0 ∉ t) (rest : Bytes) :
    DecodesInPlace (eeDecodeCharStringInPlace (t ++ 0 :: rest)) (t ++ 0 :: rest) 0 0
      (decode t) := by
  have hlength : (t ++ 0 :: rest).length = t.length + rest.length + 1 := by
    simp [Nat.add_assoc]
  rw [eeDecodeCharStringInPlace, get_bind_run, hlength]
  exact eeDecodeCharStringInPlaceLoop_run t List.drop_zero hzero (by omega) le_rfl

/-- Call after call on what is not consumed yet, the `k`-th into the whole of the
buffer `dsts k`, and the outputs put together. `none` is a failure, or a rest when
the calls are used up. -/
def inPieces (call : ℕ → Bytes → ℕ → BufferM (ℕ × ℕ)) (dsts : ℕ → Bytes) :
    ℕ → ℕ → Bytes → Option Bytes
  | _, _, [] => some []
  | 0, _, _ :: _ => none
  | calls + 1, k, b :: src =>
    match call (dsts k).length (b :: src) (b :: src).length (dsts k) with
    | .ok (n, consumed) dst _ =>
      (inPieces call dsts calls (k + 1) ((b :: src).drop consumed)).map (dst.take n ++ ·)
    | _ => none

/-- Calls that each consume something, and write the first part of what their source
means, write all of it in no more calls than there are bytes. -/
theorem inPieces_eq {call : ℕ → Bytes → ℕ → BufferM (ℕ × ℕ)} {dsts : ℕ → Bytes}
    (Means : Bytes → Bytes → Prop) (hnil : ∀ out, Means [] out → out = [])
    (hcall : ∀ k src out, src ≠ [] → Means src out → ∃ out₁ consumed log out₂,
      call (dsts k).length src src.length (dsts k) =
        .ok (out₁.length, consumed) (overwrite (dsts k) 0 out₁) log ∧
      0 < consumed ∧ Means (src.drop consumed) out₂ ∧ out = out₁ ++ out₂)
    (calls k : ℕ) {src out : Bytes} (hlength : src.length ≤ calls) (hmeans : Means src out) :
    inPieces call dsts calls k src = some out := by
  induction calls generalizing k src out with
  | zero =>
    obtain rfl := List.length_eq_zero_iff.mp (Nat.le_zero.mp hlength)
    rw [hnil out hmeans, inPieces]
  | succ calls ih =>
    cases src with
    | nil => rw [hnil out hmeans, inPieces]
    | cons b src =>
      obtain ⟨out₁, consumed, log, out₂, hrun, hpos, hrest, rfl⟩ :=
        hcall k (b :: src) out (List.cons_ne_nil _ _) hmeans
      have hlength' : ((b :: src).drop consumed).length ≤ calls := by
        rw [List.length_drop]
        omega
      rw [inPieces, hrun]
      dsimp only
      rw [ih (k + 1) hlength' hrest, take_overwrite_zero, Option.map_some]

theorem encode_inPieces {dsts : ℕ → Bytes} (hdsts : ∀ k, 2 ≤ (dsts k).length) (s : Bytes) :
    inPieces eeEncode dsts s.length 0 s = some (encode s) := by
  apply inPieces_eq (fun src out => out = encode src) (fun _ h => h) _ _ _ le_rfl rfl
  rintro k src out hsrc rfl
  obtain ⟨log, hrun⟩ := eeEncode_run src (le_refl (dsts k).length)
  refine ⟨_, _, log, _, hrun, encodeUpTo_pos (hdsts k) hsrc, rfl, ?_⟩
  rw [encodeUpTo_fst, ← encode_append, List.take_append_drop]

theorem decode_inPieces {dsts : ℕ → Bytes} (hdsts : ∀ k, 1 ≤ (dsts k).length) {t s : Bytes}
    (h : decode t = some s) : inPieces eeDecode dsts t.length 0 t = some s := by
  apply inPieces_eq (fun src out => decode src = some out) _ _ _ _ le_rfl h
  · intro out hout
    rw [decode_nil, Option.some.injEq] at hout
    exact hout.symm
  · intro k src out hsrc hout
    obtain ⟨out₁, n, out₂, hup, hrest, rfl, hpos⟩ := decodeUpTo_prefix hout (dsts k).length
    have hrun := eeDecode_run src (le_refl (dsts k).length)
    rw [hup] at hrun
    obtain ⟨log, hrun⟩ := hrun
    simp only [Nat.zero_add] at hrun
    exact ⟨out₁, n, log, out₂, hrun, hpos (hdsts k) hsrc, hrest, rfl⟩

/-- With room for the longest encoding all of a string is encoded, without a zero
byte. As a C string that decodes in place to the string again, and what is
overwritten has been read. Encoding or decoding in pieces gives the same. -/
theorem encoding_roundTrips (s dst : Bytes)
    (hdst : eeMaximumEncodingLength s.length ≤ dst.length) :
    ∃ n dst' log, eeEncode dst.length s s.length dst = .ok (n, s.length) dst' log ∧
      n ≤ 2 * s.length ∧ 0 ∉ dst'.take n ∧
      (∀ rest, ∃ buf log',
        eeDecodeCharStringInPlace (dst'.take n ++ 0 :: rest) = .ok s.length buf log' ∧
        buf.take s.length = s ∧ OverwritesOnlyRead log') ∧
      (∀ dsts : ℕ → Bytes, (∀ k, 2 ≤ (dsts k).length) →
        inPieces eeEncode dsts s.length 0 s = some (dst'.take n)) ∧
      ∀ dsts : ℕ → Bytes, (∀ k, 1 ≤ (dsts k).length) →
        inPieces eeDecode dsts n 0 (dst'.take n) = some s := by
  obtain ⟨log, hrun⟩ := eeEncode_run s (le_refl dst.length)
  have hroom : 2 * s.length ≤ dst.length := by
    rw [eeMaximumEncodingLength] at hdst
    omega
  rw [encodeUpTo_all hroom] at hrun
  refine ⟨_, _, log, hrun, encode_length_le s, ?_⟩
  rw [take_overwrite_zero]
  refine ⟨zero_not_mem_encode s, ?_, fun dsts hdsts => encode_inPieces hdsts s,
    fun dsts hdsts => decode_inPieces hdsts (decode_encode s)⟩
  intro rest
  have hdecoded := eeDecodeCharStringInPlace_run (zero_not_mem_encode s) rest
  rw [decode_encode] at hdecoded
  obtain ⟨log', hrun', honly, _⟩ := hdecoded
  exact ⟨_, log', by rw [hrun', Nat.zero_add], take_overwrite_zero s, honly⟩

/-- The three kinds of bytes through a buffer of six. -/
theorem encoding_roundTrips_three : ∃ n dst' log,
    eeEncode 6 [0, 0xFE, 7] 3 (List.replicate 6 0) = .ok (n, 3) dst' log ∧
      inPieces eeEncode (fun _ => [0, 0]) 3 0 [0, 0xFE, 7] = some (dst'.take n) := by
  obtain ⟨n, dst', log, hrun, _, _, _, hpieces, _⟩ :=
    encoding_roundTrips [0, 0xFE, 7] (List.replicate 6 0) (by decide)
  exact ⟨n, dst', log, hrun, hpieces _ fun _ => by decide⟩

/-- On a string without a zero byte, and room for its length, both decoders fail or
both succeed. Then they have decoded it to the same bytes. -/
theorem decoders_agree (t dst rest : Bytes) (hzero : 0 ∉ t) (hdst : t.length ≤ dst.length) :
    (∃ dst' log buf log',
      eeDecode dst.length t t.length dst = .err escapeErrorEncoding dst' log ∧
      eeDecodeCharStringInPlace (t ++ 0 :: rest) = .err escapeErrorEncoding buf log') ∨
    ∃ n dst' log buf log',
      eeDecode dst.length t t.length dst = .ok (n, t.length) dst' log ∧
      eeDecodeCharStringInPlace (t ++ 0 :: rest) = .ok n buf log' ∧
      dst'.take n = buf.take n := by
  have hbetween := eeDecode_run t (le_refl dst.length)
  have hinPlace := eeDecodeCharStringInPlace_run hzero rest
  rw [decodeUpTo_all t hdst] at hbetween
  cases hdecode : decode t with
  | none =>
    rw [hdecode] at hbetween hinPlace
    obtain ⟨dst', log, hrun⟩ := hbetween
    obtain ⟨buf, log', hrun'⟩ := hinPlace
    exact Or.inl ⟨dst', log, buf, log', hrun, hrun'⟩
  | some out =>
    rw [hdecode] at hbetween hinPlace
    obtain ⟨log, hrun⟩ := hbetween
    obtain ⟨log', hrun', _⟩ := hinPlace
    simp only [Nat.zero_add] at hrun hrun'
    refine Or.inr ⟨out.length, _, log, _, log', hrun, hrun', ?_⟩
    rw [take_overwrite_zero, take_overwrite_zero]

/-- An escape byte before one that the encoder never writes after it. -/
theorem decoders_agree_foreign : ∃ n dst' log buf log',
    eeDecode 3 [0xFE, 5, 9] 3 [0, 0, 0] = .ok (n, 3) dst' log ∧
      eeDecodeCharStringInPlace [0xFE, 5, 9, 0] = .ok n buf log' ∧
      dst'.take n = buf.take n := by
  have hok : (eeDecodeCharStringInPlace [0xFE, 5, 9, 0]).isOk = true := by decide
  rcases decoders_agree [0xFE, 5, 9] [0, 0, 0] [] (by decide) (by decide) with
    ⟨_, _, _, _, _, hfail⟩ | hagree
  · rw [show [0xFE, 5, 9, 0] = [0xFE, 5, 9] ++ (0 : UInt8) :: [] from rfl, hfail] at hok
    cases hok
  · exact hagree

end DeterministicScheduler.EscapeEncoding
