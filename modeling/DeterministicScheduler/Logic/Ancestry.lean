import Mathlib.Tactic

/-!
# Ancestry by parent pointers

Nodes with at most one parent each. Ancestors are found by going up some number of
generations, and where a depth drops by one with every generation that number is
determined. Two nodes with a common ancestor have a lowest one: all their other
common ancestors are above it, equally far beyond from either side.
-/
namespace ProgramLogic

variable {α : Type*} {parent : α → Option α} {depth : α → ℕ} {a b c l m n x : α} {i j k : ℕ}

/-- The ancestor some number of generations up. -/
def up (parent : α → Option α) : ℕ → α → Option α
  | 0, n => some n
  | k + 1, n => (up parent k n).bind parent

@[simp] theorem up_zero : up parent 0 n = some n := rfl

theorem up_succ : up parent (k + 1) n = (up parent k n).bind parent := rfl

theorem up_add (i j : ℕ) : up parent (i + j) n = (up parent i n).bind (up parent j) := by
  induction j with
  | zero => cases up parent i n <;> simp
  | succ j ih =>
    rw [← Nat.add_assoc, up_succ, ih]
    cases up parent i n <;> rfl

theorem up_of_le (h : up parent i n = some m) (hle : i ≤ j) :
    up parent j n = up parent (j - i) m := by
  rw [← Nat.add_sub_cancel' hle, up_add, h, Option.bind_some, Nat.add_sub_cancel_left]

/-- Generations below an existing one exist. -/
theorem up_isSome (h : up parent i n = some m) (hle : k ≤ i) : ∃ c, up parent k n = some c := by
  cases hk : up parent k n with
  | some c => exact ⟨c, rfl⟩
  | none =>
    rw [← Nat.add_sub_cancel' hle, up_add, hk] at h
    cases h

def Ancestor (parent : α → Option α) (a n : α) : Prop :=
  ∃ k, up parent k n = some a

theorem Ancestor.refl (n : α) : Ancestor parent n n :=
  ⟨0, rfl⟩

/-- A common ancestor below all others. -/
structure LowestCommon (parent : α → Option α) (l a b : α) : Prop where
  left : Ancestor parent l a
  right : Ancestor parent l b
  lowest : ∀ c, Ancestor parent c a → Ancestor parent c b → Ancestor parent c l

/-- The nodes on the way from `l` down to `n`, without `l`. Each stands for the
edge to its parent. -/
def OnPath (parent : α → Option α) (l n c : α) : Prop :=
  ∃ k i, k < i ∧ up parent k n = some c ∧ up parent i n = some l

/-- The first ancestor of `a` that is one of `b` is the lowest. -/
theorem exists_lowestCommon (ha : Ancestor parent c a) (hb : Ancestor parent c b) :
    ∃ l, LowestCommon parent l a b := by
  classical
  have hex : ∃ i, ∃ x, up parent i a = some x ∧ Ancestor parent x b := by
    obtain ⟨i, hi⟩ := ha
    exact ⟨i, c, hi, hb⟩
  obtain ⟨l, hl, hlb⟩ := Nat.find_spec hex
  refine ⟨l, ⟨_, hl⟩, hlb, ?_⟩
  rintro x ⟨j, hj⟩ hxb
  have hle : Nat.find hex ≤ j := Nat.find_min' hex ⟨x, hj, hxb⟩
  rw [up_of_le hl hle] at hj
  exact ⟨_, hj⟩

/-- A depth that drops by one from a node to its parent. -/
def Ranked (parent : α → Option α) (depth : α → ℕ) : Prop :=
  ∀ n p, parent n = some p → depth n = depth p + 1

namespace Ranked

variable (h : Ranked parent depth)

include h

theorem up_depth (hk : up parent k n = some m) : depth n = depth m + k := by
  induction k generalizing m with
  | zero =>
    cases hk
    rfl
  | succ k ih =>
    obtain ⟨p, hp, hm⟩ := Option.bind_eq_some_iff.mp hk
    rw [ih hp, h p m hm]
    omega

/-- A node is one number of generations up only. -/
theorem up_inj (hi : up parent i n = some m) (hj : up parent j n = some m) : i = j := by
  have := h.up_depth hi
  have := h.up_depth hj
  omega

/-- Common ancestors are equally far beyond the lowest one from either side. -/
theorem common (hl : LowestCommon parent l a b) (hi : up parent i a = some l)
    (hj : up parent j b = some l) (hk : up parent k a = some x) {k' : ℕ}
    (hk' : up parent k' b = some x) : ∃ r, k = i + r ∧ k' = j + r ∧ up parent r l = some x := by
  obtain ⟨r, hr⟩ := hl.lowest x ⟨k, hk⟩ ⟨k', hk'⟩
  have hleft : up parent (i + r) a = some x := by rw [up_add, hi, Option.bind_some, hr]
  have hright : up parent (j + r) b = some x := by rw [up_add, hj, Option.bind_some, hr]
  exact ⟨r, h.up_inj hk hleft, h.up_inj hk' hright, hr⟩

end Ranked

section Numbers

variable {parent : ℕ → Option ℕ} {n m k : ℕ}

/-- The number of generations up to the node without a parent. -/
def generations (parent : ℕ → Option ℕ) (n : ℕ) : ℕ :=
  match parent n with
  | none => 0
  | some p => if p < n then generations parent p + 1 else 0
termination_by n

theorem generations_ranked (h : ∀ n p, parent n = some p → p < n) :
    Ranked parent (generations parent) := by
  intro n p hp
  rw [generations, hp]
  simp only [if_pos (h n p hp)]

theorem up_add_le (h : ∀ n p, parent n = some p → p < n) (hk : up parent k n = some m) :
    m + k ≤ n := by
  induction k generalizing m with
  | zero =>
    cases hk
    exact le_rfl
  | succ k ih =>
    obtain ⟨p, hp, hm⟩ := Option.bind_eq_some_iff.mp hk
    have := ih hp
    have := h p m hm
    omega

end Numbers

end ProgramLogic
