import DeterministicScheduler.Logic.Program

/-!
# Postconditions and simulations of programs

`Meets` bounds how one program can end. `Simulates` compares two programs that
may work on different states: the second must end as the first does, with the
same value or error and the same log. A crash of the first excuses the second,
and so does an error in the excused set `X`.

Both come with a rule for sequencing. Two programs in `Lockstep` end alike on all
related states and leave related ones; there is a rule for each construct.
-/
namespace ProgramLogic

universe u

variable {ε ω σ τ α β : Type u}

namespace Outcome

/-- `Q` holds after a normal return, `E` after an early one, and a crash happens
only if `C` does. -/
def Meets (o : Outcome ε ω σ α) (Q : α → σ → List ω → Prop) (E : ε → σ → List ω → Prop)
    (C : Prop) : Prop :=
  match o with
  | ok a s l => Q a s l
  | err e s l => E e s l
  | panic => C

/-- The second outcome is the first one, up to the states `Q` and `E` relate. -/
def Simulates (X : ε → Prop) (o₁ : Outcome ε ω σ α) (o₂ : Outcome ε ω τ α)
    (Q : α → σ → τ → Prop) (E : σ → τ → Prop) : Prop :=
  match o₁ with
  | ok a s l => ∃ t, o₂ = ok a t l ∧ Q a s t
  | err e s l => X e ∨ ∃ t, o₂ = err e t l ∧ E s t
  | panic => True

theorem Meets.mono {o : Outcome ε ω σ α} {Q Q' : α → σ → List ω → Prop}
    {E E' : ε → σ → List ω → Prop} {C C' : Prop} (h : o.Meets Q E C)
    (hQ : ∀ a s l, Q a s l → Q' a s l) (hE : ∀ e s l, E e s l → E' e s l) (hC : C → C') :
    o.Meets Q' E' C' := by
  cases o with
  | ok a s l => exact hQ a s l h
  | err e s l => exact hE e s l h
  | panic => exact hC h

theorem meets_of_forall {o : Outcome ε ω σ α} {Q : α → σ → List ω → Prop}
    {E : ε → σ → List ω → Prop} {C : Prop} (hQ : ∀ a s l, Q a s l) (hE : ∀ e s l, E e s l)
    (hC : C) : o.Meets Q E C := by
  cases o with
  | ok a s l => exact hQ a s l
  | err e s l => exact hE e s l
  | panic => exact hC

theorem Meets.after {o : Outcome ε ω σ α} {Q : α → σ → List ω → Prop}
    {E : ε → σ → List ω → Prop} {C : Prop} {l : List ω}
    (h : o.Meets (fun a s l' => Q a s (l ++ l')) (fun e s l' => E e s (l ++ l')) C) :
    (o.after l).Meets Q E C := by
  cases o <;> exact h

theorem Simulates.mono {X : ε → Prop} {o₁ : Outcome ε ω σ α} {o₂ : Outcome ε ω τ α}
    {Q Q' : α → σ → τ → Prop} {E E' : σ → τ → Prop} (h : Simulates X o₁ o₂ Q E)
    (hQ : ∀ a s t, Q a s t → Q' a s t) (hE : ∀ s t, E s t → E' s t) :
    Simulates X o₁ o₂ Q' E' := by
  cases o₁ with
  | ok a s l =>
    obtain ⟨t, ho, hq⟩ := h
    exact ⟨t, ho, hQ a s t hq⟩
  | err e s l =>
    rcases h with hx | ⟨t, ho, he⟩
    · exact Or.inl hx
    · exact Or.inr ⟨t, ho, hE s t he⟩
  | panic => trivial

theorem Simulates.after {X : ε → Prop} {o₁ : Outcome ε ω σ α} {o₂ : Outcome ε ω τ α}
    {Q : α → σ → τ → Prop} {E : σ → τ → Prop} (l : List ω) (h : Simulates X o₁ o₂ Q E) :
    Simulates X (o₁.after l) (o₂.after l) Q E := by
  cases o₁ with
  | ok a s l₁ =>
    obtain ⟨t, rfl, hq⟩ := h
    exact ⟨t, rfl, hq⟩
  | err e s l₁ =>
    rcases h with hx | ⟨t, rfl, he⟩
    · exact Or.inl hx
    · exact Or.inr ⟨t, rfl, he⟩
  | panic => trivial

end Outcome

namespace Program

open Outcome

theorem meets_bind {x : Program ε ω σ α} {f : α → Program ε ω σ β} {s : σ}
    {P : α → σ → List ω → Prop} {Q : β → σ → List ω → Prop} {E : ε → σ → List ω → Prop}
    {C : Prop} (hx : (x s).Meets P E C)
    (hf : ∀ a s' l, P a s' l → (f a s').Meets (fun b s'' l' => Q b s'' (l ++ l'))
      (fun e s'' l' => E e s'' (l ++ l')) C) :
    ((x >>= f) s).Meets Q E C := by
  rw [bind_run]
  cases ho : x s with
  | ok a s' l =>
    rw [ho] at hx
    exact Meets.after (hf a s' l hx)
  | err e s' l =>
    rw [ho] at hx
    exact hx
  | panic =>
    rw [ho] at hx
    exact hx

/-- A sequence is simulated half by half. The second half may use how the first ended. -/
theorem simulates_bind_run {X : ε → Prop} {x : Program ε ω σ α} {y : Program ε ω τ α}
    {f : α → Program ε ω σ β} {g : α → Program ε ω τ β} {s : σ} {t : τ}
    {P : α → σ → τ → Prop} {Q : β → σ → τ → Prop} {E : σ → τ → Prop}
    (hx : Simulates X (x s) (y t) P E)
    (hf : ∀ a s' t' l, x s = .ok a s' l → P a s' t' → Simulates X (f a s') (g a t') Q E) :
    Simulates X ((x >>= f) s) ((y >>= g) t) Q E := by
  rw [bind_run]
  cases ho : x s with
  | ok a s' l =>
    rw [ho] at hx
    obtain ⟨t', hy, hp⟩ := hx
    rw [bind_of_ok hy]
    exact (hf a s' t' l ho hp).after l
  | err e s' l =>
    rw [ho] at hx
    rcases hx with hx | ⟨t', hy, he⟩
    · exact Or.inl hx
    · exact Or.inr ⟨t', bind_of_err hy, he⟩
  | panic => trivial

theorem simulates_bind {X : ε → Prop} {x : Program ε ω σ α} {y : Program ε ω τ α}
    {f : α → Program ε ω σ β} {g : α → Program ε ω τ β} {s : σ} {t : τ}
    {P : α → σ → τ → Prop} {Q : β → σ → τ → Prop} {E : σ → τ → Prop}
    (hx : Simulates X (x s) (y t) P E)
    (hf : ∀ a s' t', P a s' t' → Simulates X (f a s') (g a t') Q E) :
    Simulates X ((x >>= f) s) ((y >>= g) t) Q E :=
  simulates_bind_run hx fun a s' t' _ _ => hf a s' t'

/-- Two programs that end alike on states related by `R`, which stay related. -/
def Lockstep (X : ε → Prop) (R : σ → τ → Prop) (x : Program ε ω σ α) (y : Program ε ω τ α) : Prop :=
  ∀ s t, R s t → Simulates X (x s) (y t) (fun _ => R) R

section Rules

variable {X : ε → Prop} {R : σ → τ → Prop} {x : Program ε ω σ α} {y : Program ε ω τ α}
  {f : α → Program ε ω σ β} {g : α → Program ε ω τ β}

theorem lockstep_pure (a : α) : Lockstep X R (pure a : Program ε ω σ α)
    (pure a : Program ε ω τ α) :=
  fun _ t h => ⟨t, rfl, h⟩

theorem lockstep_throw (e : ε) :
    Lockstep X R (throw e : Program ε ω σ α) (throw e : Program ε ω τ α) :=
  fun _ t h => Or.inr ⟨t, rfl, h⟩

theorem lockstep_crash : Lockstep X R (crash : Program ε ω σ α) y :=
  fun _ _ _ => trivial

theorem lockstep_emit (event : ω) :
    Lockstep X R (emit event : Program ε ω σ PUnit) (emit event : Program ε ω τ PUnit) :=
  fun _ t h => ⟨t, rfl, h⟩

theorem lockstep_bind (hx : Lockstep X R x y) (hf : ∀ a, Lockstep X R (f a) (g a)) :
    Lockstep X R (x >>= f) (y >>= g) := fun s t h =>
  simulates_bind (hx s t h) fun a s' t' h' => hf a s' t' h'

theorem lockstep_get_bind {f : σ → Program ε ω σ β} {g : τ → Program ε ω τ β}
    (h : ∀ s t, R s t → Lockstep X R (f s) (g t)) : Lockstep X R (get >>= f) (get >>= g) := by
  intro s t hrel
  rw [get_bind_run, get_bind_run]
  exact h s t hrel s t hrel

theorem lockstep_modify {f : σ → σ} {g : τ → τ} (h : ∀ s t, R s t → R (f s) (g t)) :
    Lockstep X R (modify f : Program ε ω σ PUnit) (modify g : Program ε ω τ PUnit) :=
  fun s t hrel => ⟨g t, rfl, h s t hrel⟩

theorem lockstep_unwrap (a : Option α) :
    Lockstep X R (unwrap a : Program ε ω σ α) (unwrap a : Program ε ω τ α) := by
  cases a with
  | none => exact lockstep_crash
  | some a => exact lockstep_pure a

theorem lockstep_ofExcept (a : Except ε α) :
    Lockstep X R (ofExcept a : Program ε ω σ α) (ofExcept a : Program ε ω τ α) := by
  cases a with
  | error e => exact lockstep_throw e
  | ok a => exact lockstep_pure a

/-- The rest of the programs may use what a computation has yielded. -/
theorem lockstep_ofExcept_bind {a : Except ε α} (hf : ∀ v, a = .ok v → Lockstep X R (f v) (g v)) :
    Lockstep X R (ofExcept a >>= f) (ofExcept a >>= g) := by
  cases a with
  | error e => exact fun _ t h => Or.inr ⟨t, rfl, h⟩
  | ok a =>
    intro s t h
    rw [ofExcept_ok, pure_bind_run, ofExcept_ok, pure_bind_run]
    exact hf a rfl s t h

theorem lockstep_ite {p : Prop} [Decidable p] {x' : Program ε ω σ α} {y' : Program ε ω τ α}
    (hx : p → Lockstep X R x y) (hy : ¬ p → Lockstep X R x' y') :
    Lockstep X R (if p then x else x') (if p then y else y') := by
  split
  · exact hx ‹_›
  · exact hy ‹_›

theorem lockstep_forM {f : α → Program ε ω σ PUnit} {g : α → Program ε ω τ PUnit} (xs : List α)
    (hf : ∀ a ∈ xs, Lockstep X R (f a) (g a)) : Lockstep X R (xs.forM f) (xs.forM g) := by
  induction xs with
  | nil => exact lockstep_pure _
  | cons a xs ih =>
    rw [forM_cons, forM_cons]
    exact lockstep_bind (hf a (by simp)) fun _ => ih fun b hb => hf b (by simp [hb])

end Rules

end Program

end ProgramLogic
