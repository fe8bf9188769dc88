import DeterministicScheduler.Logic.Simulation

/-!
# Programs with a footprint

A state is seen as a part for each place and a rest. A program is local to some
places when what it does depends on their parts alone and it changes nothing
else. Local programs with disjoint footprints do not see each other: a loop over
them does what each would have done at its start, in whatever order.
-/
namespace ProgramLogic

universe u

open Outcome Program

variable {ε ω σ α β : Type u} {ι V R : Type*}

/-- A state as a part for each place and a rest, which determine it. -/
structure View (σ : Type u) (ι V R : Type*) where
  part : σ → ι → V
  rest : σ → R
  ext : ∀ s t, (∀ i, part s i = part t i) → rest s = rest t → s = t

namespace View

variable (v : View σ ι V R) {K L : ι → Prop} {s t s' t' : σ}

/-- Two states that have the same parts at some places. -/
def Agree (K : ι → Prop) (s t : σ) : Prop :=
  ∀ i, K i → v.part s i = v.part t i

/-- A state that differs from another at some places only. -/
def Within (K : ι → Prop) (s t : σ) : Prop :=
  (∀ i, ¬ K i → v.part t i = v.part s i) ∧ v.rest t = v.rest s

variable {v}

theorem Agree.symm (h : v.Agree K s t) : v.Agree K t s :=
  fun i hi => (h i hi).symm

theorem Agree.trans (h : v.Agree K s t) (h' : v.Agree K t s') : v.Agree K s s' :=
  fun i hi => (h i hi).trans (h' i hi)

theorem Within.refl (s : σ) : v.Within K s s :=
  ⟨fun _ _ => rfl, rfl⟩

theorem Within.trans (h : v.Within K s t) (h' : v.Within K t s') : v.Within K s s' :=
  ⟨fun i hi => (h'.1 i hi).trans (h.1 i hi), h'.2.trans h.2⟩

theorem Within.agree (h : v.Within K s t) (hdisjoint : ∀ i, K i → ¬ L i) : v.Agree L t s :=
  fun i hi => h.1 i fun hk => hdisjoint i hk hi

end View

/-- What `x` does from a state where `pre` holds depends on the places of `K` alone
and stays within them. -/
def Local (v : View σ ι V R) (K : ι → Prop) (pre : σ → Prop) (x : Program ε ω σ α) : Prop :=
  ∀ s t, pre s → v.Agree K s t → Simulates (fun _ => False) (x s) (x t)
    (fun _ s' t' => v.Agree K s' t' ∧ v.Within K s s' ∧ v.Within K t t') (fun _ _ => True)

section Rules

variable {v : View σ ι V R} {K : ι → Prop} {pre : σ → Prop} {x : Program ε ω σ α}
  {f : α → Program ε ω σ β}

theorem local_pure (a : α) : Local v K pre (pure a : Program ε ω σ α) :=
  fun s t _ h => ⟨t, rfl, h, .refl s, .refl t⟩

theorem local_throw (e : ε) : Local v K pre (throw e : Program ε ω σ α) :=
  fun _ t _ _ => Or.inr ⟨t, rfl, trivial⟩

theorem local_crash : Local v K pre (crash : Program ε ω σ α) :=
  fun _ _ _ _ => trivial

theorem local_emit (e : ω) : Local v K pre (emit e : Program ε ω σ PUnit) :=
  fun s t _ h => ⟨t, rfl, h, .refl s, .refl t⟩

theorem local_ofExcept (a : Except ε α) : Local v K pre (ofExcept a : Program ε ω σ α) := by
  cases a with
  | error e => exact local_throw e
  | ok a => exact local_pure a

theorem local_unwrap (a : Option α) : Local v K pre (unwrap a : Program ε ω σ α) := by
  cases a with
  | none => exact local_crash
  | some a => exact local_pure a

theorem local_bind (hx : Local v K pre x) (hf : ∀ a, Local v K (fun _ => True) (f a)) :
    Local v K pre (x >>= f) := by
  intro s t hs hst
  apply simulates_bind (hx s t hs hst)
  rintro a s' t' ⟨hst', hs', ht'⟩
  refine (hf a s' t' trivial hst').mono ?_ fun _ _ h => h
  rintro b s₂ t₂ ⟨hst₂, hs₂, ht₂⟩
  exact ⟨hst₂, hs'.trans hs₂, ht'.trans ht₂⟩

/-- Reading a state, of which only the places of `K` are used. -/
theorem local_get_bind {g : σ → Program ε ω σ β} (hcongr : ∀ s t, v.Agree K s t → g s = g t)
    (hg : ∀ s, Local v K pre (g s)) : Local v K pre (get >>= g) := by
  intro s t hs hst
  rw [get_bind_run, get_bind_run, ← hcongr s t hst]
  exact hg s s t hs hst

theorem local_ite {p : Prop} [Decidable p] {y : Program ε ω σ α} (hx : Local v K pre x)
    (hy : Local v K pre y) : Local v K pre (if p then x else y) := by
  split
  · exact hx
  · exact hy

/-- A change of the parts at `K` that only looks at these. -/
theorem local_modify {g : σ → σ} (hagree : ∀ s t, v.Agree K s t → v.Agree K (g s) (g t))
    (hwithin : ∀ s, v.Within K s (g s)) :
    Local v K pre (modify g : Program ε ω σ PUnit) :=
  fun s t _ hst => ⟨g t, rfl, hagree s t hst, hwithin s, hwithin t⟩

/-- A normal return stays within the places and carries over to a state that agrees. -/
theorem Local.ok (h : Local v K pre x) {s t s' : σ} {a : α} {l : List ω} (hs : pre s)
    (hst : v.Agree K s t) (hx : x s = .ok a s' l) :
    v.Within K s s' ∧ ∃ t', x t = .ok a t' l ∧ v.Agree K s' t' := by
  have hsim := h s t hs hst
  rw [hx] at hsim
  obtain ⟨t', ht', hagree, hwithin, _⟩ := hsim
  exact ⟨hwithin, t', ht', hagree⟩

end Rules

section Loops

variable {v : View σ ι V R} {f : α → Program ε ω σ PUnit} {K : α → ι → Prop}
  {pre : α → σ → Prop} {xs ys : List α} {s s' : σ} {l : List ω} {x : α}

/-- Programs that are local to places of their own, with what they require of these. -/
structure Locals (v : View σ ι V R) (f : α → Program ε ω σ PUnit) (K : α → ι → Prop)
    (pre : α → σ → Prop) (xs : List α) : Prop where
  each : ∀ x ∈ xs, Local v (K x) (pre x) (f x)
  congr : ∀ x ∈ xs, ∀ s t, v.Agree (K x) s t → pre x s → pre x t
  apart : xs.Pairwise fun x y => ∀ i, K x i → ¬ K y i

theorem Locals.tail (h : Locals v f K pre (x :: xs)) : Locals v f K pre xs :=
  ⟨fun y hy => h.each y (by simp [hy]), fun y hy => h.congr y (by simp [hy]),
    (List.pairwise_cons.mp h.apart).2⟩

theorem Locals.perm (h : Locals v f K pre xs) (hperm : xs.Perm ys) : Locals v f K pre ys := by
  refine ⟨fun y hy => h.each y (hperm.mem_iff.mpr hy), fun y hy =>
    h.congr y (hperm.mem_iff.mpr hy), ?_⟩
  refine (hperm.pairwise_iff ?_).mp h.apart
  exact fun hxy i hy hx => hxy i hx hy

/-- A loop that did at each footprint what its program does from the start. -/
structure Spread (v : View σ ι V R) (f : α → Program ε ω σ PUnit) (K : α → ι → Prop)
    (xs : List α) (s s' : σ) (l : List ω) : Prop where
  each : ∀ x ∈ xs, ∃ t lx, f x s = .ok ⟨⟩ t lx ∧ v.Agree (K x) t s'
  within : v.Within (fun i => ∃ x ∈ xs, K x i) s s'
  log : ∀ e, e ∈ l ↔ ∃ x ∈ xs, ∃ t lx, f x s = .ok ⟨⟩ t lx ∧ e ∈ lx

/-- What a program of the loop does is the same before and after the first one. -/
theorem Locals.unseen (h : Locals v f K pre (x :: xs)) (hpre : ∀ y ∈ x :: xs, pre y s) {s₁ : σ}
    {l₁ : List ω} (hrun : f x s = .ok ⟨⟩ s₁ l₁) {y : α} (hy : y ∈ xs) :
    pre y s₁ ∧ (∀ t ly, f y s = .ok ⟨⟩ t ly → ∃ t₁, f y s₁ = .ok ⟨⟩ t₁ ly ∧ v.Agree (K y) t t₁) ∧
      ∀ t₁ ly, f y s₁ = .ok ⟨⟩ t₁ ly → ∃ t, f y s = .ok ⟨⟩ t ly ∧ v.Agree (K y) t₁ t := by
  have hwithin := ((h.each x (by simp)).ok (hpre x (by simp)) (fun _ _ => rfl) hrun).1
  have hagree : v.Agree (K y) s s₁ :=
    (hwithin.agree ((List.pairwise_cons.mp h.apart).1 y hy)).symm
  have hpre₁ := h.congr y (by simp [hy]) s s₁ hagree (hpre y (by simp [hy]))
  refine ⟨hpre₁, fun t ly ht => ?_, fun t₁ ly ht₁ => ?_⟩
  · exact ((h.each y (by simp [hy])).ok (hpre y (by simp [hy])) hagree ht).2
  · exact ((h.each y (by simp [hy])).ok hpre₁ hagree.symm ht₁).2

theorem forM_spread (h : Locals v f K pre xs) (hpre : ∀ x ∈ xs, pre x s)
    (hrun : xs.forM f s = .ok ⟨⟩ s' l) : Spread v f K xs s s' l := by
  induction xs generalizing s l with
  | nil =>
    cases hrun
    exact ⟨by simp, .refl _, by simp⟩
  | cons x xs ih =>
    rw [forM_cons] at hrun
    obtain ⟨_, s₁, l₁, l₂, h₁, h₂, rfl⟩ := bind_eq_ok.mp hrun
    have hunseen := fun y hy => h.unseen hpre h₁ (y := y) hy
    have hfirst := ((h.each x (by simp)).ok (hpre x (by simp)) (fun _ _ => rfl) h₁).1
    have hrest := ih h.tail (fun y hy => (hunseen y hy).1) h₂
    refine ⟨?_, ?_, ?_⟩
    · intro y hy
      rcases List.mem_cons.mp hy with rfl | hy
      · refine ⟨s₁, l₁, h₁, fun i hi => (hrest.within.1 i ?_).symm⟩
        rintro ⟨z, hz, hzi⟩
        exact (List.pairwise_cons.mp h.apart).1 z hz i hi hzi
      · obtain ⟨t₁, ly, ht₁, hagree₁⟩ := hrest.each y hy
        obtain ⟨t, ht, hagree⟩ := (hunseen y hy).2.2 t₁ ly ht₁
        exact ⟨t, ly, ht, hagree.symm.trans hagree₁⟩
    · refine ⟨fun i hi => ?_, hrest.within.2.trans hfirst.2⟩
      rw [hrest.within.1 i fun ⟨y, hy, hyi⟩ => hi ⟨y, by simp [hy], hyi⟩,
        hfirst.1 i fun hxi => hi ⟨x, by simp, hxi⟩]
    · intro e
      rw [List.mem_append, hrest.log e]
      constructor
      · rintro (he | ⟨y, hy, t₁, ly, ht₁, he⟩)
        · exact ⟨x, by simp, s₁, l₁, h₁, he⟩
        · obtain ⟨t, ht, _⟩ := (hunseen y hy).2.2 t₁ ly ht₁
          exact ⟨y, by simp [hy], t, ly, ht, he⟩
      · rintro ⟨y, hy, t, ly, ht, he⟩
        rcases List.mem_cons.mp hy with rfl | hy
        · rw [h₁] at ht
          cases ht
          exact Or.inl he
        · obtain ⟨t₁, ht₁, _⟩ := (hunseen y hy).2.1 t ly ht
          exact Or.inr ⟨y, hy, t₁, ly, ht₁, he⟩

/-- A loop returns when each of its programs does from the start. -/
theorem forM_returns (h : Locals v f K pre xs) (hpre : ∀ x ∈ xs, pre x s)
    (heach : ∀ x ∈ xs, ∃ t lx, f x s = .ok ⟨⟩ t lx) : ∃ s' l, xs.forM f s = .ok ⟨⟩ s' l := by
  induction xs generalizing s with
  | nil => exact ⟨s, [], rfl⟩
  | cons x xs ih =>
    obtain ⟨s₁, l₁, h₁⟩ := heach x (by simp)
    have hunseen := fun y hy => h.unseen hpre h₁ (y := y) hy
    obtain ⟨s', l, hrest⟩ := ih h.tail (fun y hy => (hunseen y hy).1) fun y hy => by
      obtain ⟨t, ly, ht⟩ := heach y (by simp [hy])
      obtain ⟨t₁, ht₁, _⟩ := (hunseen y hy).2.1 t ly ht
      exact ⟨t₁, ly, ht₁⟩
    exact ⟨s', l₁ ++ l, by rw [forM_cons, bind_of_ok h₁, hrest]; rfl⟩

/-- The order of a loop over disjoint footprints does not matter. -/
theorem forM_perm (h : Locals v f K pre xs) (hpre : ∀ x ∈ xs, pre x s) (hperm : xs.Perm ys)
    (hrun : xs.forM f s = .ok ⟨⟩ s' l) : ∃ l', ys.forM f s = .ok ⟨⟩ s' l' := by
  have hspread := forM_spread h hpre hrun
  have hys := h.perm hperm
  have hpre' : ∀ y ∈ ys, pre y s := fun y hy => hpre y (hperm.mem_iff.mpr hy)
  obtain ⟨s₂, l₂, hrun'⟩ := forM_returns hys hpre' fun y hy => by
    obtain ⟨t, lx, ht, _⟩ := hspread.each y (hperm.mem_iff.mpr hy)
    exact ⟨t, lx, ht⟩
  have hspread' := forM_spread hys hpre' hrun'
  suffices heq : s₂ = s' from ⟨l₂, heq ▸ hrun'⟩
  apply v.ext
  · intro i
    by_cases hi : ∃ x ∈ xs, K x i
    · obtain ⟨x, hx, hxi⟩ := hi
      obtain ⟨t, lx, ht, hagree⟩ := hspread.each x hx
      obtain ⟨t', lx', ht', hagree'⟩ := hspread'.each x (hperm.mem_iff.mp hx)
      rw [ht] at ht'
      cases ht'
      rw [← hagree i hxi, ← hagree' i hxi]
    · have hi' : ¬ ∃ y ∈ ys, K y i := fun ⟨y, hy, hyi⟩ => hi ⟨y, hperm.mem_iff.mpr hy, hyi⟩
      rw [hspread.within.1 i hi, hspread'.within.1 i hi']
  · rw [hspread.within.2, hspread'.within.2]

end Loops

end ProgramLogic
