import DeterministicScheduler.Logic.Serialization

/-!
# Formats of messages

A format is how values are written, how messages are verified and how they are read.
It is lawful when a reader gets back what was written, when what is verified can be
read without a panic, and when a strict reader accepts nothing but what was written.
Vectors and tables of lawful formats are lawful.
-/
namespace Serialization

/-- How values are written, how messages are verified and how they are read. -/
structure Format (α : Type) where
  valid : α → Prop
  write : α → Slice
  verify : Verifier
  read : Slice → Reading α

/-- What is written is accepted and read back, what is accepted can be read without a panic,
and what is accepted without more fields than are known was written so. -/
structure Format.Lawful {α : Type} (f : Format α) : Prop where
  accepts : ∀ a, f.valid a → (f.write a).length < 2 ^ 32 → ∀ compatible,
    f.verify compatible (f.write a) = .ok ()
  reads : ∀ a, f.valid a → (f.write a).length < 2 ^ 32 → f.read (f.write a) = .ok a
  total : ∀ compatible s, f.verify compatible s ≠ .error .panic
  readable : ∀ compatible s, f.verify compatible s = .ok () →
    ∃ a, f.read s = .ok a ∧ f.valid a ∧ (f.write a).length ≤ s.length
  canonical : ∀ s a, f.verify false s = .ok () → f.read s = .ok a → f.write a = s
  weaker : ∀ s, f.verify false s = .ok () → f.verify true s = .ok ()

/-- The fields of a table, each with its format. -/
structure Fields (α : Type) where
  valid : α → Prop
  write : α → List Slice
  verify : List Verifier
  read : List Slice → Reading α

def Accepts (compatible : Bool) (fields : List Verifier) (parts : List Slice) : Prop :=
  List.Forall₂ (fun field part => field compatible part = .ok ()) fields parts

structure Fields.Lawful {α : Type} (fs : Fields α) : Prop where
  count : ∀ a, (fs.write a).length = fs.verify.length
  accepts : ∀ a, fs.valid a → (∀ part ∈ fs.write a, part.length < 2 ^ 32) → ∀ compatible,
    Accepts compatible fs.verify (fs.write a)
  reads : ∀ a, fs.valid a → (∀ part ∈ fs.write a, part.length < 2 ^ 32) →
    fs.read (fs.write a) = .ok a
  total : ∀ field ∈ fs.verify, ∀ compatible s, field compatible s ≠ .error .panic
  readable : ∀ compatible parts, Accepts compatible fs.verify parts →
    ∃ a, fs.read parts = .ok a ∧ fs.valid a ∧
      ((fs.write a).map List.length).sum ≤ (parts.map List.length).sum
  canonical : ∀ parts a, Accepts false fs.verify parts → fs.read parts = .ok a →
    fs.write a = parts
  weaker : ∀ parts, Accepts false fs.verify parts → Accepts true fs.verify parts

theorem bind_eq_ok {α β : Type} {x : Reading α} {f : α → Reading β} {b : β}
    (h : (x >>= f) = .ok b) : ∃ a, x = .ok a ∧ f a = .ok b := by
  cases x with
  | error e => cases h
  | ok a => exact ⟨a, rfl, h⟩

namespace Fields

def nil : Fields Unit where
  valid _ := True
  write _ := []
  verify := []
  read _ := .ok ()

def cons {α β : Type} (f : Format α) (fs : Fields β) : Fields (α × β) where
  valid a := f.valid a.1 ∧ fs.valid a.2
  write a := f.write a.1 :: fs.write a.2
  verify := f.verify :: fs.verify
  read
    | part :: parts => do
      let a ← f.read part
      let b ← fs.read parts
      return (a, b)
    | [] => .error .panic

theorem nil_lawful : nil.Lawful where
  count _ := rfl
  accepts _ _ _ _ := .nil
  reads _ _ _ := rfl
  total field hfield := by cases hfield
  readable _ parts h := ⟨(), rfl, trivial, by simp [nil]⟩
  canonical parts _ h _ := by
    cases h
    rfl
  weaker parts h := by
    cases h
    exact .nil

theorem cons_lawful {α β : Type} {f : Format α} {fs : Fields β} (hf : f.Lawful) (hfs : fs.Lawful) :
    (cons f fs).Lawful where
  count a := congrArg Nat.succ (hfs.count a.2)
  accepts a hvalid hlength compatible :=
    .cons (hf.accepts a.1 hvalid.1 (hlength _ List.mem_cons_self) compatible)
      (hfs.accepts a.2 hvalid.2 (fun part hpart => hlength part (List.mem_cons_of_mem _ hpart))
        compatible)
  reads a hvalid hlength := by
    have hhead := hf.reads a.1 hvalid.1 (hlength _ List.mem_cons_self)
    have htail := hfs.reads a.2 hvalid.2 fun part hpart =>
        hlength part (List.mem_cons_of_mem _ hpart)
    simp only [cons, hhead, htail, bind_ok]
    rfl
  total field hfield compatible s := by
    rcases List.mem_cons.mp hfield with rfl | hfield
    · exact hf.total compatible s
    · exact hfs.total field hfield compatible s
  readable compatible parts h := by
    cases h with
    | cons hpart hparts =>
      obtain ⟨a, hread, hvalid, hle⟩ := hf.readable _ _ hpart
      obtain ⟨b, hread', hvalid', hle'⟩ := hfs.readable _ _ hparts
      refine ⟨(a, b), ?_, ⟨hvalid, hvalid'⟩, ?_⟩
      · simp only [cons, hread, hread', bind_ok]
        rfl
      · simp only [cons, List.map_cons, List.sum_cons]
        omega
  canonical parts a h hread := by
    cases h with
    | cons hpart hparts =>
      simp only [cons] at hread
      obtain ⟨x, hx, hread⟩ := bind_eq_ok hread
      obtain ⟨y, hy, hread⟩ := bind_eq_ok hread
      obtain rfl := Except.ok.inj hread
      simp only [cons, hf.canonical _ _ hpart hx, hfs.canonical _ _ hparts hy]
  weaker parts h := by
    cases h with
    | cons hpart hparts => exact .cons (hf.weaker _ hpart) (hfs.weaker _ hparts)

end Fields

theorem reject_ne_panic {α : Type} (e : VerificationError) :
    (reject e : Reading α) ≠ .error .panic := by
  intro h
  cases h

theorem ok_ne_panic {α : Type} (a : α) : (.ok a : Reading α) ≠ .error .panic := by
  intro h
  cases h

theorem forM_ok_iff {α : Type} {f : α → Reading Unit} {as : List α} :
    as.forM f = .ok () ↔ ∀ a ∈ as, f a = .ok () := by
  induction as with
  | nil => exact ⟨fun _ => by simp, fun _ => rfl⟩
  | cons a as ih =>
    rw [List.forall_mem_cons, ← ih]
    constructor
    · intro h
      obtain ⟨_, ha, has⟩ := bind_eq_ok (show (f a >>= fun _ => as.forM f) = .ok () from h)
      exact ⟨ha, has⟩
    · rintro ⟨ha, has⟩
      show (f a >>= fun _ => as.forM f) = .ok ()
      rw [ha, bind_ok, has]

theorem forM_ne_panic {α : Type} {f : α → Reading Unit} {as : List α}
    (h : ∀ a ∈ as, f a ≠ .error .panic) : as.forM f ≠ .error .panic := by
  induction as with
  | nil => exact ok_ne_panic _
  | cons a as ih =>
    have hrest := ih fun b hb => h b (List.mem_cons_of_mem _ hb)
    show (f a >>= fun _ => as.forM f) ≠ .error .panic
    cases hfa : f a with
    | error e =>
      rw [error_bind, ← hfa]
      exact h a List.mem_cons_self
    | ok _ => rwa [bind_ok]

theorem accepts_iff {compatible : Bool} {fields : List Verifier} {parts : List Slice}
    (h : fields.length ≤ parts.length) :
    (fields.zip parts).forM (fun field => field.1 compatible field.2) = .ok () ↔
      Accepts compatible fields (parts.take fields.length) := by
  rw [forM_ok_iff, Accepts, List.forall₂_iff_zip]
  have hzip : fields.zip (parts.take fields.length) = fields.zip parts := by
    conv_rhs => rw [List.zip_eq_zip_take_min, Nat.min_eq_left h, List.take_length]
  rw [hzip]
  constructor
  · intro hall
    exact ⟨by simpa using h, fun hmem => hall _ hmem⟩
  · rintro ⟨-, hall⟩ ⟨field, part⟩ hmem
    exact hall hmem

theorem length_writeDynvec (items : List Slice) :
    (writeDynvec items).length = 4 * (items.length + 1) + (items.map List.length).sum := by
  cases items with
  | nil => rfl
  | cons item items => rw [writeDynvec, if_neg (by simp), length_writeParts]

section Lists

variable {α : Type}

theorem exists_forall₂ {P : Slice → α → Prop} {items : List Slice}
    (h : ∀ item ∈ items, ∃ a, P item a) : ∃ as, List.Forall₂ P items as := by
  induction items with
  | nil => exact ⟨[], .nil⟩
  | cons item items ih =>
    obtain ⟨a, ha⟩ := h item List.mem_cons_self
    obtain ⟨as, has⟩ := ih fun other hother => h other (List.mem_cons_of_mem _ hother)
    exact ⟨a :: as, .cons ha has⟩

theorem exists_of_forall₂_right {P : Slice → α → Prop} {items : List Slice} {as : List α}
    (h : List.Forall₂ P items as) {a : α} (ha : a ∈ as) : ∃ item ∈ items, P item a := by
  induction h with
  | nil => cases ha
  | cons hhead _ ih =>
    rcases List.mem_cons.mp ha with rfl | ha
    · exact ⟨_, List.mem_cons_self, hhead⟩
    · obtain ⟨item, hitem, h⟩ := ih ha
      exact ⟨item, List.mem_cons_of_mem _ hitem, h⟩

theorem sum_length_le {write : α → Slice} {items : List Slice} {as : List α}
    (h : List.Forall₂ (fun item a => (write a).length ≤ item.length) items as) :
    ((as.map write).map List.length).sum ≤ (items.map List.length).sum := by
  induction h with
  | nil => rfl
  | cons hhead _ ih =>
    simp only [List.map_cons, List.sum_cons]
    omega

theorem map_write_of_mapM_read {read : Slice → Reading α} {write : α → Slice} {items : List Slice}
    {as : List α} (hwrite : ∀ item ∈ items, ∀ a, read item = .ok a → write a = item)
    (h : items.mapM read = .ok as) : as.map write = items := by
  induction items generalizing as with
  | nil =>
    obtain rfl := Except.ok.inj h
    rfl
  | cons item items ih =>
    rw [List.mapM_cons] at h
    obtain ⟨a, ha, h⟩ := bind_eq_ok h
    obtain ⟨as', has, h⟩ := bind_eq_ok h
    obtain rfl := Except.ok.inj h
    rw [List.map_cons, hwrite item List.mem_cons_self a ha,
      ih (fun other hother => hwrite other (List.mem_cons_of_mem _ hother)) has]

end Lists

namespace Format

variable {α β : Type}

/-- A table of fields. A reader accepts more of them where it need not be strict. -/
def table (name : String) (fs : Fields α) : Format α where
  valid := fs.valid
  write a := writeParts (fs.write a)
  verify := verifyTable name fs.verify
  read s := do
    let parts ← (List.range fs.verify.length).mapM fun i => tableField fs.verify.length i s
    fs.read parts

def dynvec (name : String) (f : Format α) : Format (List α) where
  valid as := ∀ a ∈ as, f.valid a
  write as := writeDynvec (as.map f.write)
  verify := verifyDynvec name f.verify
  read s := do
    let items ← dynvecItems s
    items.mapM f.read

/-- A vector of items of one size, which are not verified on their own. -/
def fixvec (name : String) (f : Format α) (itemSize : ℕ) : Format (List α) where
  valid as := ∀ a ∈ as, f.valid a
  write as := writeFixvec (as.map f.write)
  verify _ := verifyFixvec name itemSize
  read s := do
    let items ← fixvecItems itemSize s
    items.mapM f.read

/-- A vector of bytes, read as a whole. -/
def bytes (name : String) : Format Slice where
  valid _ := True
  write s := packNumber s.length ++ s
  verify _ := verifyFixvec name 1
  read s := range s 4 s.length

/-- A number in `width` bytes. -/
def number (name : String) (width : ℕ) : Format ℕ where
  valid n := n < 256 ^ width
  write := toLittleEndian width
  verify _ := verifyArray name width
  read s := if s.length = width then .ok (fromLittleEndian s) else .error .panic

/-- The same messages for other values. -/
def map (f : Format α) (into : α → β) (out : β → α) : Format β where
  valid b := f.valid (out b)
  write b := f.write (out b)
  verify := f.verify
  read s := into <$> f.read s

theorem number_lawful (name : String) (width : ℕ) : (number name width).Lawful := by
  have hverify : ∀ s, verifyArray name width s = .ok () → s.length = width := by
    intro s h
    by_contra hne
    rw [verifyArray, if_pos hne] at h
    cases h
  have hread : ∀ s : Slice, s.length = width →
      (number name width).read s = .ok (fromLittleEndian s) := fun s h => if_pos h
  exact {
    accepts := fun n _ _ _ => if_neg (not_not_intro (length_toLittleEndian width n))
    reads := by
      intro n hvalid _
      have hn := hread _ (length_toLittleEndian width n)
      rw [fromLittleEndian_to width n hvalid] at hn
      exact hn
    total := by
      intro _ s
      show verifyArray name width s ≠ _
      rw [verifyArray]
      split
      · exact reject_ne_panic _
      · exact ok_ne_panic _
    readable := by
      intro _ s h
      have hlength := hverify s h
      have hlt := fromLittleEndian_lt s
      rw [hlength] at hlt
      refine ⟨_, hread s hlength, hlt, ?_⟩
      show (toLittleEndian width _).length ≤ _
      rw [length_toLittleEndian, hlength]
    canonical := by
      intro s n h hn
      have hlength := hverify s h
      rw [hread s hlength, Except.ok.injEq] at hn
      show toLittleEndian width n = s
      rw [← hn, ← hlength, toLittleEndian_from]
    weaker := fun _ h => h }

theorem map_lawful {f : Format α} (hf : f.Lawful) {into : α → β} {out : β → α}
    (hinto : ∀ b, into (out b) = b) (hout : ∀ a, out (into a) = a) : (f.map into out).Lawful := by
  have hread : ∀ s a, f.read s = .ok a → (f.map into out).read s = .ok (into a) := by
    intro s a h
    show into <$> f.read s = _
    rw [h]
    rfl
  exact {
    accepts := fun b hvalid hlength compatible => hf.accepts (out b) hvalid hlength compatible
    reads := by
      intro b hvalid hlength
      have hb := hread _ _ (hf.reads (out b) hvalid hlength)
      rwa [hinto] at hb
    total := hf.total
    readable := by
      intro compatible s h
      obtain ⟨a, ha, hvalid, hle⟩ := hf.readable compatible s h
      refine ⟨into a, hread s a ha, ?_, ?_⟩
      · show f.valid (out (into a))
        rwa [hout]
      · show (f.write (out (into a))).length ≤ _
        rwa [hout]
    canonical := by
      intro s b h hb
      obtain ⟨a, ha, -, -⟩ := hf.readable false s h
      rw [hread s a ha, Except.ok.injEq] at hb
      show f.write (out b) = s
      rw [← hb, hout]
      exact hf.canonical s a h ha
    weaker := hf.weaker }

theorem table_lawful (name : String) {fs : Fields α} (hfs : fs.Lawful) (hfields : fs.verify ≠ []) :
    (table name fs).Lawful := by
  have hwrite : ∀ a, fs.write a ≠ [] := by
    intro a h
    have hcount := hfs.count a
    rw [h] at hcount
    exact hfields (List.length_eq_zero_iff.mp hcount.symm)
  have hcases : ∀ compatible s, (table name fs).verify compatible s = .ok () →
      ∃ parts, s = writeParts parts ∧ (writeParts parts).length < 2 ^ 32 ∧
        fs.verify.length ≤ parts.length ∧
        (compatible = true ∨ parts.length = fs.verify.length) ∧ parts ≠ [] ∧
        Accepts compatible fs.verify (parts.take fs.verify.length) := by
    intro compatible s h
    rcases verifyTable_cases name compatible fs.verify s with
      ⟨e, he⟩ | ⟨parts, hparts, rfl, hlength, hle, hcount⟩
    · have h' := he.symm.trans h
      cases h'
    · have h' := (verifyTable_write name compatible hparts hlength hle hcount).symm.trans h
      rw [accepts_iff hle] at h'
      exact ⟨parts, rfl, hlength, hle, hcount, hparts, h'⟩
  have hread : ∀ parts, (writeParts parts).length < 2 ^ 32 → fs.verify.length ≤ parts.length →
      (table name fs).read (writeParts parts) = fs.read (parts.take fs.verify.length) := by
    intro parts hlength hle
    show (_ >>= _) = _
    rw [tableFields_write hlength hle, bind_ok]
  have hsmall : ∀ a, (writeParts (fs.write a)).length < 2 ^ 32 →
      ∀ part ∈ fs.write a, part.length < 2 ^ 32 := by
    intro a hlength part hpart
    have hle := List.single_le_sum (l := (fs.write a).map List.length) (by simp) _
      (List.mem_map_of_mem hpart)
    rw [length_writeParts] at hlength
    omega
  exact {
    accepts := by
      intro a hvalid hlength compatible
      have hcount := hfs.count a
      have haccepts := hfs.accepts a hvalid (hsmall a hlength) compatible
      show verifyTable name fs.verify compatible (writeParts (fs.write a)) = _
      rw [verifyTable_write name compatible (hwrite a) hlength hcount.ge (.inr hcount),
        accepts_iff hcount.ge, ← hcount, List.take_length]
      exact haccepts
    reads := by
      intro a hvalid hlength
      have hcount := hfs.count a
      show (table name fs).read (writeParts (fs.write a)) = _
      rw [hread _ hlength hcount.ge, ← hcount, List.take_length,
        hfs.reads a hvalid (hsmall a hlength)]
    total := by
      intro compatible s
      rcases verifyTable_cases name compatible fs.verify s with
        ⟨e, he⟩ | ⟨parts, hparts, rfl, hlength, hle, hcount⟩
      · show verifyTable name fs.verify compatible s ≠ _
        rw [he]
        exact reject_ne_panic e
      · show verifyTable name fs.verify compatible (writeParts parts) ≠ _
        rw [verifyTable_write name compatible hparts hlength hle hcount]
        refine forM_ne_panic fun field hfield => hfs.total field.1 ?_ compatible field.2
        exact (List.of_mem_zip hfield).1
    readable := by
      intro compatible s h
      obtain ⟨parts, rfl, hlength, hle, -, -, haccepts⟩ := hcases compatible s h
      obtain ⟨a, ha, hvalid, hsum⟩ := hfs.readable compatible _ haccepts
      refine ⟨a, by rw [hread parts hlength hle, ha], hvalid, ?_⟩
      have hsplit := congrArg (fun l => (l.map List.length).sum)
        (List.take_append_drop fs.verify.length parts)
      simp only [List.map_append, List.sum_append] at hsplit
      have hcount := hfs.count a
      show (writeParts (fs.write a)).length ≤ (writeParts parts).length
      rw [length_writeParts, length_writeParts]
      omega
    canonical := by
      intro s a h ha
      obtain ⟨parts, rfl, hlength, hle, hcount, -, haccepts⟩ := hcases false s h
      rw [hread parts hlength hle] at ha
      rcases hcount with hcount | hcount
      · cases hcount
      · rw [← hcount, List.take_length] at haccepts ha
        show writeParts (fs.write a) = writeParts parts
        rw [hfs.canonical parts a haccepts ha]
    weaker := by
      intro s h
      obtain ⟨parts, rfl, hlength, hle, -, hparts, haccepts⟩ := hcases false s h
      show verifyTable name fs.verify true (writeParts parts) = _
      rw [verifyTable_write name true hparts hlength hle (.inl rfl), accepts_iff hle]
      exact hfs.weaker _ haccepts }

theorem dynvec_lawful (name : String) {f : Format α} (hf : f.Lawful) : (dynvec name f).Lawful := by
  have hcases : ∀ compatible s, (dynvec name f).verify compatible s = .ok () →
      ∃ items, s = writeDynvec items ∧ (writeDynvec items).length < 2 ^ 32 ∧
        ∀ item ∈ items, f.verify compatible item = .ok () := by
    intro compatible s h
    rcases verifyDynvec_cases name compatible s with ⟨e, he⟩ | ⟨items, rfl, hlength⟩
    · have h' := he.symm.trans h
      cases h'
    · have h' := (verifyDynvec_write name compatible hlength).symm.trans h
      exact ⟨items, rfl, hlength, forM_ok_iff.mp h'⟩
  have hread : ∀ items, (writeDynvec items).length < 2 ^ 32 →
      (dynvec name f).read (writeDynvec items) = items.mapM f.read := by
    intro items hlength
    show (_ >>= _) = _
    rw [dynvecItems_write hlength, bind_ok]
  have hsmall : ∀ as : List α, (writeDynvec (as.map f.write)).length < 2 ^ 32 →
      ∀ a ∈ as, (f.write a).length < 2 ^ 32 := by
    intro as hlength a ha
    rw [length_writeDynvec] at hlength
    have hle := List.single_le_sum (l := (as.map f.write).map List.length) (by simp) _
      (List.mem_map_of_mem (List.mem_map_of_mem ha))
    omega
  exact {
    accepts := by
      intro as hvalid hlength compatible
      show verifyDynvec name f.verify compatible (writeDynvec (as.map f.write)) = _
      rw [verifyDynvec_write name compatible hlength, forM_ok_iff]
      intro item hitem
      obtain ⟨a, ha, rfl⟩ := List.mem_map.mp hitem
      exact hf.accepts a (hvalid a ha) (hsmall as hlength a ha) compatible
    reads := by
      intro as hvalid hlength
      show (dynvec name f).read (writeDynvec (as.map f.write)) = _
      rw [hread _ hlength]
      refine mapM_ok ?_
      rw [List.forall₂_map_left_iff, List.forall₂_same]
      exact fun a ha => hf.reads a (hvalid a ha) (hsmall as hlength a ha)
    total := by
      intro compatible s
      show verifyDynvec name f.verify compatible s ≠ _
      rcases verifyDynvec_cases name compatible s with ⟨e, he⟩ | ⟨items, rfl, hlength⟩
      · rw [he]
        exact reject_ne_panic e
      · rw [verifyDynvec_write name compatible hlength]
        exact forM_ne_panic fun item _ => hf.total compatible item
    readable := by
      intro compatible s h
      obtain ⟨items, rfl, hlength, hitems⟩ := hcases compatible s h
      obtain ⟨as, has⟩ := exists_forall₂ fun item hitem =>
        hf.readable compatible item (hitems item hitem)
      have hsum := sum_length_le (has.imp fun _ _ h => h.2.2)
      refine ⟨as, ?_, ?_, ?_⟩
      · rw [hread items hlength]
        exact mapM_ok (has.imp fun _ _ h => h.1)
      · intro a ha
        obtain ⟨item, -, h⟩ := exists_of_forall₂_right has ha
        exact h.2.1
      · show (writeDynvec (as.map f.write)).length ≤ _
        rw [length_writeDynvec, length_writeDynvec, List.length_map, has.length_eq]
        omega
    canonical := by
      intro s as h has
      obtain ⟨items, rfl, hlength, hitems⟩ := hcases false s h
      rw [hread items hlength] at has
      show writeDynvec (as.map f.write) = writeDynvec items
      rw [map_write_of_mapM_read (fun item hitem a => hf.canonical item a (hitems item hitem)) has]
    weaker := by
      intro s h
      obtain ⟨items, rfl, hlength, hitems⟩ := hcases false s h
      show verifyDynvec name f.verify true (writeDynvec items) = _
      rw [verifyDynvec_write name true hlength, forM_ok_iff]
      exact fun item hitem => hf.weaker item (hitems item hitem) }

/-- Vectors of items that every slice of their size is one of. -/
theorem fixvec_lawful (name : String) {f : Format α} (hf : f.Lawful) {itemSize : ℕ}
    (hpos : 0 < itemSize) (hwrite : ∀ a, (f.write a).length = itemSize)
    (hall : ∀ s : Slice, s.length = itemSize → f.verify false s = .ok ()) :
    (fixvec name f itemSize).Lawful := by
  have hsizes : ∀ as : List α, ∀ item ∈ as.map f.write, item.length = itemSize := by
    intro as item hitem
    obtain ⟨a, -, rfl⟩ := List.mem_map.mp hitem
    exact hwrite a
  have hsmall : ∀ as : List α, (writeFixvec (as.map f.write)).length < 2 ^ 32 →
      (as.map f.write).length < 2 ^ 32 ∧ (as ≠ [] → itemSize < 2 ^ 32) := by
    intro as hlength
    rw [writeFixvec, List.length_append, length_packNumber, length_flatten_of_size (hsizes as)]
      at hlength
    constructor
    · have hle := Nat.le_mul_of_pos_left (as.map f.write).length hpos
      omega
    · intro has
      have hle := Nat.le_mul_of_pos_right itemSize
        (show 0 < (as.map f.write).length by simpa [List.length_pos_iff] using has)
      omega
  have hcases : ∀ compatible s, (fixvec name f itemSize).verify compatible s = .ok () →
      ∃ items : List Slice, s = writeFixvec items ∧ items.length < 2 ^ 32 ∧
        ∀ item ∈ items, item.length = itemSize := by
    intro compatible s h
    rcases verifyFixvec_cases name itemSize s with ⟨e, he⟩ | hitems
    · have h' := he.symm.trans h
      cases h'
    · exact hitems
  have hread : ∀ items : List Slice, items.length < 2 ^ 32 →
      (∀ item ∈ items, item.length = itemSize) →
      (fixvec name f itemSize).read (writeFixvec items) = items.mapM f.read := by
    intro items hcount hsize
    show (_ >>= _) = _
    rw [fixvecItems_write hcount hsize, bind_ok]
  exact {
    accepts := fun as _ hlength _ => verifyFixvec_write name (hsmall as hlength).1 (hsizes as)
    reads := by
      intro as hvalid hlength
      show (fixvec name f itemSize).read (writeFixvec (as.map f.write)) = _
      rw [hread _ (hsmall as hlength).1 (hsizes as)]
      refine mapM_ok ?_
      rw [List.forall₂_map_left_iff, List.forall₂_same]
      intro a ha
      refine hf.reads a (hvalid a ha) ?_
      rw [hwrite]
      exact (hsmall as hlength).2 (List.ne_nil_of_mem ha)
    total := by
      intro _ s
      show verifyFixvec name itemSize s ≠ _
      rcases verifyFixvec_cases name itemSize s with ⟨e, he⟩ | ⟨items, rfl, hcount, hsize⟩
      · rw [he]
        exact reject_ne_panic e
      · rw [verifyFixvec_write name hcount hsize]
        exact ok_ne_panic _
    readable := by
      intro compatible s h
      obtain ⟨items, rfl, hcount, hsize⟩ := hcases compatible s h
      obtain ⟨as, has⟩ := exists_forall₂ fun item hitem =>
        hf.readable false item (hall item (hsize item hitem))
      have hsum := sum_length_le (has.imp fun _ _ h => h.2.2)
      refine ⟨as, ?_, ?_, ?_⟩
      · rw [hread items hcount hsize]
        exact mapM_ok (has.imp fun _ _ h => h.1)
      · intro a ha
        obtain ⟨item, -, h⟩ := exists_of_forall₂_right has ha
        exact h.2.1
      · show (writeFixvec (as.map f.write)).length ≤ _
        rw [writeFixvec, writeFixvec, List.length_append, List.length_append, length_packNumber,
          length_packNumber, List.length_flatten, List.length_flatten]
        omega
    canonical := by
      intro s as h has
      obtain ⟨items, rfl, hcount, hsize⟩ := hcases false s h
      rw [hread items hcount hsize] at has
      show writeFixvec (as.map f.write) = writeFixvec items
      rw [map_write_of_mapM_read (fun item hitem a =>
        hf.canonical item a (hall item (hsize item hitem))) has]
    weaker := fun _ h => h }

theorem bytes_lawful (name : String) : (bytes name).Lawful := by
  have hread : ∀ s : Slice, (bytes name).read ((bytes name).write s) = .ok s := by
    intro s
    have hrange := range_append (packNumber s.length) s []
    rw [List.append_nil, length_packNumber] at hrange
    show range (packNumber s.length ++ s) 4 (packNumber s.length ++ s).length = _
    rw [List.length_append, length_packNumber, hrange]
  have hcases : ∀ compatible s, (bytes name).verify compatible s = .ok () →
      ∃ t, s = (bytes name).write t := by
    intro compatible s h
    rcases verifyFixvec_cases name 1 s with ⟨e, he⟩ | ⟨items, rfl, -, hsize⟩
    · have h' := he.symm.trans h
      cases h'
    · refine ⟨items.flatten, ?_⟩
      show _ = packNumber items.flatten.length ++ items.flatten
      rw [length_flatten_of_size hsize, one_mul, writeFixvec]
  exact {
    accepts := by
      intro s _ hlength _
      obtain ⟨items, hcount, hsize, hflatten⟩ := exists_chunks 1 s.length s (Nat.one_mul _).symm
      have hlt : items.length < 2 ^ 32 := by
        change (packNumber s.length ++ s).length < 2 ^ 32 at hlength
        rw [List.length_append] at hlength
        omega
      have hverify := verifyFixvec_write name hlt hsize
      rw [writeFixvec, hflatten, hcount] at hverify
      exact hverify
    reads := fun s _ _ => hread s
    total := by
      intro _ s
      show verifyFixvec name 1 s ≠ _
      rcases verifyFixvec_cases name 1 s with ⟨e, he⟩ | ⟨items, rfl, hcount, hsize⟩
      · rw [he]
        exact reject_ne_panic e
      · rw [verifyFixvec_write name hcount hsize]
        exact ok_ne_panic _
    readable := by
      intro compatible s h
      obtain ⟨t, rfl⟩ := hcases compatible s h
      exact ⟨t, hread t, trivial, le_rfl⟩
    canonical := by
      intro s t h ht
      obtain ⟨t', rfl⟩ := hcases false s h
      rw [hread t', Except.ok.injEq] at ht
      rw [ht]
    weaker := fun _ h => h }

end Format

end Serialization
