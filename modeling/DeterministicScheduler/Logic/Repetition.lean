import DeterministicScheduler.Logic.Program

/-!
# Programs repeated to their end

A program is repeated until a final state is reached or an attempt fails. Some
failures only interrupt: the program goes on from the state they leave behind.
Since a program is a function of its state, the end is determined, along with all
that was logged on the way. `view` keeps of an outcome what an observer sees: no
value, and of its log the events that show.
-/
namespace ProgramLogic

universe u

variable {ε ω ω' σ α β : Type u}

namespace Outcome

/-- An outcome as far as its events show. -/
def view (show? : ω → Option ω') : Outcome ε ω σ α → Outcome ε ω' σ PUnit
  | ok _ s l => ok ⟨⟩ s (l.filterMap show?)
  | err e s l => err e s (l.filterMap show?)
  | panic => panic

variable {show? : ω → Option ω'}

@[simp] theorem view_ok (a : α) (s : σ) (l : List ω) :
    (ok a s l : Outcome ε ω σ α).view show? = ok ⟨⟩ s (l.filterMap show?) := rfl

@[simp] theorem view_err (e : ε) (s : σ) (l : List ω) :
    (err e s l : Outcome ε ω σ α).view show? = err e s (l.filterMap show?) := rfl

@[simp] theorem view_panic : (panic : Outcome ε ω σ α).view show? = panic := rfl

@[simp] theorem view_after (l : List ω) (o : Outcome ε ω σ α) :
    (o.after l).view show? = (o.view show?).after (l.filterMap show?) := by
  cases o <;> simp [after]

end Outcome

namespace Program

open Outcome

/-- Programs that go on alike after the same beginning are seen to end alike. -/
theorem view_bind_congr {show? : ω → Option ω'} {x : Program ε ω σ α}
    {f g : α → Program ε ω σ β} (h : ∀ a s, (f a s).view show? = (g a s).view show?) (s : σ) :
    ((x >>= f) s).view show? = ((x >>= g) s).view show? := by
  rw [bind_run, bind_run]
  cases x s with
  | ok a s' l => rw [view_after, view_after, h]
  | err e s' l => rfl
  | panic => rfl

end Program

/-- The end of a repeated program, `ok` in a final state, with all it logged. -/
inductive Repeats (step : σ → Outcome ε ω σ PUnit) (final : σ → Prop) (resumes : ε → Prop) :
    σ → Except ε PUnit → σ → List ω → Prop
  | final {s : σ} (h : final s) : Repeats step final resumes s (.ok ⟨⟩) s []
  | failed {s t : σ} {e : ε} {l : List ω} (hs : ¬ final s) (h : step s = .err e t l)
    (he : ¬ resumes e) : Repeats step final resumes s (.error e) t l
  | resumed {s t u : σ} {e : ε} {l l' : List ω} {result : Except ε PUnit} (hs : ¬ final s)
    (h : step s = .err e t l) (he : resumes e)
    (h' : Repeats step final resumes t result u l') :
      Repeats step final resumes s result u (l ++ l')
  | stepped {s t u : σ} {l l' : List ω} {result : Except ε PUnit} (hs : ¬ final s)
    (h : step s = .ok ⟨⟩ t l) (h' : Repeats step final resumes t result u l') :
    Repeats step final resumes s result u (l ++ l')

/-- An attempt that ends as `o`, repeated from there. -/
def Continues (step : σ → Outcome ε ω σ PUnit) (final : σ → Prop) (resumes : ε → Prop)
    (o : Outcome ε ω σ PUnit) (result : Except ε PUnit) (u : σ) (l : List ω) : Prop :=
  match o with
  | .ok _ t l₁ => ∃ l₂, Repeats step final resumes t result u l₂ ∧ l = l₁ ++ l₂
  | .err e t l₁ =>
    (resumes e ∧ ∃ l₂, Repeats step final resumes t result u l₂ ∧ l = l₁ ++ l₂) ∨
      (¬ resumes e ∧ result = .error e ∧ u = t ∧ l = l₁)
  | .panic => False

section Rules

variable {step : σ → Outcome ε ω σ PUnit} {final : σ → Prop} {resumes : ε → Prop} {s u : σ}
  {result : Except ε PUnit} {l l' : List ω}

/-- Short of a final state a repetition is an attempt, repeated from its end. -/
theorem repeats_iff (hs : ¬ final s) :
    Repeats step final resumes s result u l ↔ Continues step final resumes (step s) result u l := by
  constructor
  · intro h
    cases h with
    | final hfinal => exact absurd hfinal hs
    | failed _ hstep he =>
      rw [hstep]
      exact Or.inr ⟨he, rfl, rfl, rfl⟩
    | resumed _ hstep he h' =>
      rw [hstep]
      exact Or.inl ⟨he, _, h', rfl⟩
    | stepped _ hstep h' =>
      rw [hstep]
      exact ⟨_, h', rfl⟩
  · intro h
    cases hstep : step s with
    | ok _ t l₁ =>
      rw [hstep] at h
      obtain ⟨l₂, h', rfl⟩ := h
      exact .stepped hs hstep h'
    | err e t l₁ =>
      rw [hstep] at h
      rcases h with ⟨he, l₂, h', rfl⟩ | ⟨he, rfl, rfl, rfl⟩
      · exact .resumed hs hstep he h'
      · exact .failed hs hstep he
    | panic =>
      rw [hstep] at h
      exact h.elim

/-- What was logged before an attempt stands before what it leads to. -/
theorem continues_after {o : Outcome ε ω σ PUnit} {l₀ : List ω} :
    Continues step final resumes (o.after l₀) result u l ↔
      ∃ l₁, Continues step final resumes o result u l₁ ∧ l = l₀ ++ l₁ := by
  cases o with
  | ok _ t l₁ =>
    constructor
    · rintro ⟨l₂, h, rfl⟩
      exact ⟨l₁ ++ l₂, ⟨l₂, h, rfl⟩, List.append_assoc _ _ _⟩
    · rintro ⟨_, ⟨l₂, h, rfl⟩, rfl⟩
      exact ⟨l₂, h, (List.append_assoc _ _ _).symm⟩
  | err e t l₁ =>
    constructor
    · rintro (⟨he, l₂, h, rfl⟩ | ⟨he, rfl, rfl, rfl⟩)
      · exact ⟨l₁ ++ l₂, Or.inl ⟨he, l₂, h, rfl⟩, List.append_assoc _ _ _⟩
      · exact ⟨l₁, Or.inr ⟨he, rfl, rfl, rfl⟩, rfl⟩
    · rintro ⟨_, ⟨he, l₂, h, rfl⟩ | ⟨he, rfl, rfl, rfl⟩, rfl⟩
      · exact Or.inl ⟨he, l₂, h, (List.append_assoc _ _ _).symm⟩
      · exact Or.inr ⟨he, rfl, rfl, rfl⟩
  | panic => exact iff_of_false (fun h => h) (fun ⟨_, h, _⟩ => h)

/-- A repeated program has one end. -/
theorem Repeats.unique {result' : Except ε PUnit} {u' : σ}
    (h : Repeats step final resumes s result u l)
    (h' : Repeats step final resumes s result' u' l') :
    result = result' ∧ u = u' ∧ l = l' := by
  induction h generalizing l' with
  | final hfinal =>
    cases h' with
    | final _ => exact ⟨rfl, rfl, rfl⟩
    | failed hs _ _ => exact absurd hfinal hs
    | resumed hs _ _ _ => exact absurd hfinal hs
    | stepped hs _ _ => exact absurd hfinal hs
  | failed hs hstep he =>
    rw [repeats_iff hs, hstep] at h'
    rcases h' with ⟨he', _⟩ | ⟨_, rfl, rfl, rfl⟩
    · exact absurd he' he
    · exact ⟨rfl, rfl, rfl⟩
  | resumed hs hstep he _ ih =>
    rw [repeats_iff hs, hstep] at h'
    rcases h' with ⟨_, l₂, hrest, rfl⟩ | ⟨he', _⟩
    · obtain ⟨rfl, rfl, rfl⟩ := ih hrest
      exact ⟨rfl, rfl, rfl⟩
    · exact absurd he he'
  | stepped hs hstep _ ih =>
    rw [repeats_iff hs, hstep] at h'
    obtain ⟨l₂, hrest, rfl⟩ := h'
    obtain ⟨rfl, rfl, rfl⟩ := ih hrest
    exact ⟨rfl, rfl, rfl⟩

theorem Continues.unique {o : Outcome ε ω σ PUnit} {result' : Except ε PUnit} {u' : σ}
    (h : Continues step final resumes o result u l)
    (h' : Continues step final resumes o result' u' l') : result = result' ∧ u = u' ∧ l = l' := by
  cases o with
  | ok _ t l₁ =>
    obtain ⟨l₂, hrest, rfl⟩ := h
    obtain ⟨l₂', hrest', rfl⟩ := h'
    obtain ⟨rfl, rfl, rfl⟩ := hrest.unique hrest'
    exact ⟨rfl, rfl, rfl⟩
  | err e t l₁ =>
    rcases h with ⟨he, l₂, hrest, rfl⟩ | ⟨he, rfl, rfl, rfl⟩
    · rcases h' with ⟨_, l₂', hrest', rfl⟩ | ⟨he', _⟩
      · obtain ⟨rfl, rfl, rfl⟩ := hrest.unique hrest'
        exact ⟨rfl, rfl, rfl⟩
      · exact absurd he he'
    · rcases h' with ⟨he', _⟩ | ⟨_, rfl, rfl, rfl⟩
      · exact absurd he' he
      · exact ⟨rfl, rfl, rfl⟩
  | panic => exact h.elim

/-- What every attempt keeps, a repetition that comes to a final state keeps. -/
theorem Repeats.invariant {I : σ → Prop}
    (hok : ∀ s t l, I s → ¬ final s → step s = .ok ⟨⟩ t l → I t)
    (hresumed : ∀ s e t l, I s → ¬ final s → step s = .err e t l → resumes e → I t)
    (h : Repeats step final resumes s (.ok ⟨⟩) u l) (hs : I s) : I u := by
  generalize hresult : (Except.ok ⟨⟩ : Except ε PUnit) = result at h
  induction h with
  | final _ => exact hs
  | failed _ _ _ => cases hresult
  | resumed hnot hstep he _ ih => exact ih (hresumed _ _ _ _ hs hnot hstep he) hresult
  | stepped hnot hstep _ ih => exact ih (hok _ _ _ hs hnot hstep) hresult

end Rules

end ProgramLogic
