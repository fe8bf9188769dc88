import Mathlib.Tactic

/-!
# Stateful programs that log, fail and crash

A program reads and writes one state. It ends with a value, with an error that
keeps the state reached so far (a mutable borrow is not rolled back when a call
returns early), or with a crash after which no state is observed. What it did is
kept in a log of events; a program cannot read its own log.

Assertions speak about a state together with the whole history of events, so an
invariant can relate the present state to everything logged before it.
-/
namespace ProgramLogic

universe u

/-- How a call ends. Only a normal or an early return leaves a state behind. -/
inductive Outcome (ε ω σ α : Type u) where
  | ok (value : α) (state : σ) (log : List ω)
  | err (error : ε) (state : σ) (log : List ω)
  | panic

namespace Outcome

variable {ε ω σ α : Type u}

/-- The outcome of a longer program whose first part logged `log`. -/
def after (log : List ω) : Outcome ε ω σ α → Outcome ε ω σ α
  | ok a s l => ok a s (log ++ l)
  | err e s l => err e s (log ++ l)
  | panic => panic

/-- The state left behind, when there is one. -/
def state? : Outcome ε ω σ α → Option σ
  | ok _ s _ => some s
  | err _ s _ => some s
  | panic => none

def value? : Outcome ε ω σ α → Option α
  | ok a _ _ => some a
  | _ => none

theorem value?_eq_some (o : Outcome ε ω σ α) (a : α) :
    o.value? = some a ↔ ∃ s l, o = ok a s l := by
  cases o <;> simp [value?]

/-- The error of an early return, and what was logged until it. -/
def error? : Outcome ε ω σ α → Option (ε × List ω)
  | err e _ l => some (e, l)
  | _ => none

theorem error?_eq_some (o : Outcome ε ω σ α) (e : ε) (l : List ω) :
    o.error? = some (e, l) ↔ ∃ s, o = err e s l := by
  cases o <;> simp [error?]

def isPanic : Outcome ε ω σ α → Bool
  | panic => true
  | _ => false

def isOk : Outcome ε ω σ α → Bool
  | ok _ _ _ => true
  | _ => false

def log : Outcome ε ω σ α → List ω
  | ok _ _ l => l
  | err _ _ l => l
  | panic => []

theorem isOk_eq_true (o : Outcome ε ω σ α) : o.isOk = true ↔ ∃ a s l, o = ok a s l := by
  cases o <;> simp [isOk]

@[simp] theorem isPanic_eq_true (o : Outcome ε ω σ α) : o.isPanic = true ↔ o = panic := by
  cases o <;> simp [isPanic]

@[simp] theorem after_nil (o : Outcome ε ω σ α) : o.after [] = o := by
  cases o <;> rfl

@[simp] theorem state?_after (l : List ω) (o : Outcome ε ω σ α) :
    (o.after l).state? = o.state? := by
  cases o <;> rfl

@[simp] theorem after_after (l₁ l₂ : List ω) (o : Outcome ε ω σ α) :
    (o.after l₂).after l₁ = o.after (l₁ ++ l₂) := by
  cases o <;> simp [after]

@[simp] theorem after_eq_ok {l l' : List ω} {o : Outcome ε ω σ α} {a : α} {s : σ} :
    o.after l = ok a s l' ↔ ∃ l₂, o = ok a s l₂ ∧ l' = l ++ l₂ := by
  constructor
  · intro h
    cases o with
    | ok a₁ s₁ l₂ =>
      simp only [after, ok.injEq] at h
      obtain ⟨rfl, rfl, rfl⟩ := h
      exact ⟨l₂, rfl, rfl⟩
    | err e s₁ l₂ => simp [after] at h
    | panic => simp [after] at h
  · rintro ⟨l₂, rfl, rfl⟩
    rfl

@[simp] theorem after_eq_err {l l' : List ω} {o : Outcome ε ω σ α} {e : ε} {s : σ} :
    o.after l = err e s l' ↔ ∃ l₂, o = err e s l₂ ∧ l' = l ++ l₂ := by
  constructor
  · intro h
    cases o with
    | ok a s₁ l₂ => simp [after] at h
    | err e₁ s₁ l₂ =>
      simp only [after, err.injEq] at h
      obtain ⟨rfl, rfl, rfl⟩ := h
      exact ⟨l₂, rfl, rfl⟩
    | panic => simp [after] at h
  · rintro ⟨l₂, rfl, rfl⟩
    rfl

@[simp] theorem after_eq_panic {l : List ω} {o : Outcome ε ω σ α} :
    o.after l = panic ↔ o = panic := by
  cases o <;> simp [after]

end Outcome

/-- A program over the state `σ`, raising `ε` and logging `ω`. -/
def Program (ε ω σ α : Type u) : Type u := σ → Outcome ε ω σ α

namespace Program

variable {ε ω σ α β : Type u}

def bind (x : Program ε ω σ α) (f : α → Program ε ω σ β) : Program ε ω σ β := fun s =>
  match x s with
  | .ok a s' l => (f a s').after l
  | .err e s' l => .err e s' l
  | .panic => .panic

instance : Monad (Program ε ω σ) where
  pure a s := .ok a s []
  bind := bind

instance : MonadStateOf σ (Program ε ω σ) where
  get s := .ok s s []
  set s' _ := .ok ⟨⟩ s' []
  modifyGet f s := .ok (f s).1 (f s).2 []

/-- Return early. -/
def throw (e : ε) : Program ε ω σ α := fun s => .err e s []

/-- Crash: a failed assertion, an `unwrap` of nothing, an index out of range. -/
def crash : Program ε ω σ α := fun _ => .panic

def emit (e : ω) : Program ε ω σ PUnit := fun s => .ok ⟨⟩ s [e]

/-- The value of a fallible pure computation, its failure returned early. -/
def ofExcept : Except ε α → Program ε ω σ α
  | .ok a => pure a
  | .error e => throw e

/-- The value of an option, `none` being a crash. -/
def unwrap : Option α → Program ε ω σ α
  | some a => pure a
  | none => crash

section Run

variable (s : σ)

@[simp] theorem pure_run (a : α) : (pure a : Program ε ω σ α) s = .ok a s [] := rfl

@[simp] theorem throw_run (e : ε) : (throw e : Program ε ω σ α) s = .err e s [] := rfl

@[simp] theorem crash_run : (crash : Program ε ω σ α) s = .panic := rfl

@[simp] theorem emit_run (e : ω) : (emit e : Program ε ω σ PUnit) s = .ok ⟨⟩ s [e] := rfl

@[simp] theorem get_run : (get : Program ε ω σ σ) s = .ok s s [] := rfl

@[simp] theorem set_run (s' : σ) : (set s' : Program ε ω σ PUnit) s = .ok ⟨⟩ s' [] := rfl

@[simp] theorem modify_run (f : σ → σ) :
    (modify f : Program ε ω σ PUnit) s = .ok ⟨⟩ (f s) [] := rfl

@[simp] theorem ofExcept_ok (a : α) : (ofExcept (.ok a) : Program ε ω σ α) = pure a := rfl

@[simp] theorem ofExcept_error (e : ε) :
    (ofExcept (.error e) : Program ε ω σ α) = throw e := rfl

@[simp] theorem unwrap_some (a : α) : (unwrap (some a) : Program ε ω σ α) = pure a := rfl

@[simp] theorem unwrap_none : (unwrap none : Program ε ω σ α) = crash := rfl

theorem bind_run (x : Program ε ω σ α) (f : α → Program ε ω σ β) :
    (x >>= f) s = match x s with
      | .ok a s' l => (f a s').after l
      | .err e s' l => .err e s' l
      | .panic => .panic := rfl

@[simp] theorem pure_bind_run (a : α) (f : α → Program ε ω σ β) :
    ((pure a : Program ε ω σ α) >>= f) s = f a s := by
  rw [bind_run, pure_run]; exact Outcome.after_nil _

@[simp] theorem throw_bind_run (e : ε) (f : α → Program ε ω σ β) :
    ((throw e : Program ε ω σ α) >>= f) s = .err e s [] := rfl

@[simp] theorem crash_bind_run (f : α → Program ε ω σ β) :
    ((crash : Program ε ω σ α) >>= f) s = .panic := rfl

@[simp] theorem emit_bind_run (e : ω) (f : PUnit → Program ε ω σ β) :
    ((emit e : Program ε ω σ PUnit) >>= f) s = (f ⟨⟩ s).after [e] := rfl

@[simp] theorem get_bind_run (f : σ → Program ε ω σ β) :
    ((get : Program ε ω σ σ) >>= f) s = f s s := by
  rw [bind_run, get_run]; exact Outcome.after_nil _

@[simp] theorem set_bind_run (s' : σ) (f : PUnit → Program ε ω σ β) :
    ((set s' : Program ε ω σ PUnit) >>= f) s = f ⟨⟩ s' := by
  rw [bind_run, set_run]; exact Outcome.after_nil _

@[simp] theorem modify_bind_run (g : σ → σ) (f : PUnit → Program ε ω σ β) :
    ((modify g : Program ε ω σ PUnit) >>= f) s = f ⟨⟩ (g s) := by
  rw [bind_run, modify_run]; exact Outcome.after_nil _

variable {s}

theorem bind_of_ok {x : Program ε ω σ α} {f : α → Program ε ω σ β} {a : α} {s' : σ}
    {l : List ω} (h : x s = .ok a s' l) : (x >>= f) s = (f a s').after l := by
  rw [bind_run, h]

theorem bind_of_err {x : Program ε ω σ α} {f : α → Program ε ω σ β} {e : ε} {s' : σ}
    {l : List ω} (h : x s = .err e s' l) : (x >>= f) s = .err e s' l := by
  rw [bind_run, h]

theorem bind_of_panic {x : Program ε ω σ α} {f : α → Program ε ω σ β}
    (h : x s = .panic) : (x >>= f) s = .panic := by
  rw [bind_run, h]

/-- A sequence returns normally exactly when both halves do. -/
theorem bind_eq_ok {x : Program ε ω σ α} {f : α → Program ε ω σ β} {b : β} {s₂ : σ}
    {l : List ω} : (x >>= f) s = .ok b s₂ l ↔
      ∃ a s₁ l₁ l₂, x s = .ok a s₁ l₁ ∧ f a s₁ = .ok b s₂ l₂ ∧ l = l₁ ++ l₂ := by
  rw [bind_run]
  cases hx : x s with
  | ok a s₁ l₁ =>
    simp only [Outcome.after_eq_ok, Outcome.ok.injEq]
    constructor
    · rintro ⟨l₂, hf, rfl⟩
      exact ⟨a, s₁, l₁, l₂, ⟨rfl, rfl, rfl⟩, hf, rfl⟩
    · rintro ⟨_, _, _, l₂, ⟨rfl, rfl, rfl⟩, hf, rfl⟩
      exact ⟨l₂, hf, rfl⟩
  | err e s₁ l₁ => simp
  | panic => simp

/-- A sequence returns early in its first half or in its second. -/
theorem bind_eq_err {x : Program ε ω σ α} {f : α → Program ε ω σ β} {e : ε} {s₂ : σ}
    {l : List ω} : (x >>= f) s = .err e s₂ l ↔
      x s = .err e s₂ l ∨
      ∃ a s₁ l₁ l₂, x s = .ok a s₁ l₁ ∧ f a s₁ = .err e s₂ l₂ ∧ l = l₁ ++ l₂ := by
  rw [bind_run]
  cases hx : x s with
  | ok a s₁ l₁ =>
    simp only [Outcome.after_eq_err, Outcome.ok.injEq, reduceCtorEq, false_or]
    constructor
    · rintro ⟨l₂, hf, rfl⟩
      exact ⟨a, s₁, l₁, l₂, ⟨rfl, rfl, rfl⟩, hf, rfl⟩
    · rintro ⟨_, _, _, l₂, ⟨rfl, rfl, rfl⟩, hf, rfl⟩
      exact ⟨l₂, hf, rfl⟩
  | err e s₁ l₁ => simp
  | panic => simp

theorem bind_eq_panic {x : Program ε ω σ α} {f : α → Program ε ω σ β} :
    (x >>= f) s = .panic ↔
      x s = .panic ∨ ∃ a s₁ l₁, x s = .ok a s₁ l₁ ∧ f a s₁ = .panic := by
  rw [bind_run]
  cases hx : x s with
  | ok a s₁ l₁ =>
    simp only [Outcome.after_eq_panic, Outcome.ok.injEq, reduceCtorEq, false_or]
    constructor
    · intro hf
      exact ⟨a, s₁, l₁, ⟨rfl, rfl, rfl⟩, hf⟩
    · rintro ⟨_, _, _, ⟨rfl, rfl, rfl⟩, hf⟩
      exact hf
  | err e s₁ l₁ => simp
  | panic => simp

@[simp] theorem forM_nil_run (f : α → Program ε ω σ PUnit) :
    (List.forM [] f) s = .ok ⟨⟩ s [] := rfl

theorem forM_cons (f : α → Program ε ω σ PUnit) (x : α) (xs : List α) :
    List.forM (x :: xs) f = f x >>= fun _ => List.forM xs f := rfl

end Run

end Program

end ProgramLogic
