import Mathlib.Tactic

/-!
# Transitions that log

A system steps from state to state and logs events on the way. A path is any
number of steps in turn, with the whole log. An assertion about a history and
the state it leads to holds along a path when each step keeps it, and one system
simulates another along paths when it does so step by step.
-/
namespace ProgramLogic

variable {σ ω : Type*} {step : σ → List ω → σ → Prop}

/-- Steps in turn, with all they log. -/
inductive Path (step : σ → List ω → σ → Prop) (s : σ) : List ω → σ → Prop
  | refl : Path step s [] s
  | tail {t u : σ} {l l' : List ω} (h : Path step s l t) (h' : step t l' u) :
    Path step s (l ++ l') u

namespace Path

variable {s t u : σ} {l l' : List ω}

theorem single (h : step s l t) : Path step s l t := by
  simpa using tail refl h

theorem trans (h : Path step s l t) (h' : Path step t l' u) : Path step s (l ++ l') u := by
  induction h' with
  | refl => simpa using h
  | tail _ hstep ih =>
    rw [← List.append_assoc]
    exact ih.tail hstep

/-- What each step keeps of a history and its state, a path keeps. -/
theorem keeps {I : List ω → σ → Prop}
    (hstep : ∀ tr s l t, I tr s → step s l t → I (tr ++ l) t) (h : Path step s l t)
    {tr : List ω} (hs : I tr s) : I (tr ++ l) t := by
  induction h with
  | refl => simpa using hs
  | tail _ h' ih =>
    rw [← List.append_assoc]
    exact hstep _ _ _ _ ih h'

/-- An invariant of the state alone. -/
theorem invariant {I : σ → Prop} (hstep : ∀ s l t, I s → step s l t → I t)
    (h : Path step s l t) (hs : I s) : I t := by
  induction h with
  | refl => exact hs
  | tail _ h' ih => exact hstep _ _ _ ih h'

end Path

/-- Every event of a log is as `P` says of it and of the events before it. -/
def Throughout (P : List ω → ω → Prop) (tr : List ω) : Prop :=
  ∀ h e rest, tr = h ++ e :: rest → P h e

variable {P : List ω → ω → Prop} {tr l : List ω}

theorem throughout_nil : Throughout P [] := by
  intro h e rest heq
  simp at heq

theorem throughout_cons {e : ω} :
    Throughout P (e :: l) ↔ P [] e ∧ Throughout (fun h => P (e :: h)) l := by
  constructor
  · intro hall
    exact ⟨hall [] e l rfl, fun h e' rest heq => hall (e :: h) e' rest (by rw [heq]; rfl)⟩
  · rintro ⟨hhead, htail⟩ h e' rest heq
    cases h with
    | nil =>
      cases heq
      exact hhead
    | cons e₁ h =>
      obtain ⟨rfl, hl⟩ := List.cons.inj heq
      exact htail h e' rest hl

theorem throughout_append :
    Throughout P (tr ++ l) ↔ Throughout P tr ∧ Throughout (fun h => P (tr ++ h)) l := by
  induction tr generalizing P with
  | nil => simp [throughout_nil]
  | cons e tr ih =>
    rw [List.cons_append, throughout_cons, throughout_cons, ih, and_assoc]
    rfl

end ProgramLogic
