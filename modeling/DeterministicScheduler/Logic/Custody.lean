import Mathlib.Data.List.Induction
import Mathlib.Logic.Relation
import Mathlib.Order.Defs.Unbundled

/-!
# Things that change hands

A thing is made once and is then handed over, alone or with others. Its holder is
whoever received it last, and its maker before that. When every handover is by
the holder, a thing comes from its maker to its holder hand by hand. When givers
also come before their takers, nobody gets back what it has given away.
-/
namespace ProgramLogic

/-- Things that pass from one holder to another. -/
structure Handover (α β : Type*) where
  giver : α
  taker : α
  things : List β

variable {α β : Type*} {x : β} {a b maker : α} {h : Handover α β} {hs hs' : List (Handover α β)}

/-- That `x` passed from `a` to `b`. -/
def Gives (hs : List (Handover α β)) (x : β) (a b : α) : Prop :=
  ∃ h ∈ hs, x ∈ h.things ∧ h.giver = a ∧ h.taker = b

theorem Gives.append (hgives : Gives hs x a b) (hs' : List (Handover α β)) :
    Gives (hs ++ hs') x a b := by
  obtain ⟨h, hmem, hgives⟩ := hgives
  exact ⟨h, List.mem_append_left _ hmem, hgives⟩

theorem gives_concat : Gives (hs ++ [h]) x a b ↔
    Gives hs x a b ∨ x ∈ h.things ∧ h.giver = a ∧ h.taker = b := by
  simp [Gives, or_and_right, exists_or]

variable [DecidableEq β]

/-- Who holds a thing of `maker` after some handovers. -/
def holderOf (x : β) (maker : α) (hs : List (Handover α β)) : α :=
  hs.foldl (fun holder h => if x ∈ h.things then h.taker else holder) maker

@[simp] theorem holderOf_nil : holderOf x maker [] = maker := rfl

@[simp] theorem holderOf_concat : holderOf x maker (hs ++ [h]) =
    if x ∈ h.things then h.taker else holderOf x maker hs := by
  simp [holderOf]

/-- What has never been handed over is with its maker. -/
theorem holderOf_of_kept (hkept : ∀ h ∈ hs, x ∉ h.things) : holderOf x maker hs = maker := by
  induction hs using List.reverseRecOn with
  | nil => rfl
  | append_singleton hs h ih =>
    rw [holderOf_concat, if_neg (hkept h (by simp))]
    exact ih fun h' hmem => hkept h' (List.mem_append_left _ hmem)

/-- A holder is the maker or a taker. -/
theorem holderOf_of_all {P : α → Prop} (hmaker : P maker) (htaker : ∀ h ∈ hs, P h.taker) :
    P (holderOf x maker hs) := by
  induction hs using List.reverseRecOn with
  | nil => exact hmaker
  | append_singleton hs h ih =>
    rw [holderOf_concat]
    split
    · exact htaker h (by simp)
    · exact ih fun h' hmem => htaker h' (List.mem_append_left _ hmem)

/-- Every handover of `x` is by its holder. -/
def Orderly (x : β) (maker : α) (hs : List (Handover α β)) : Prop :=
  ∀ hs₁ h hs₂, hs = hs₁ ++ h :: hs₂ → x ∈ h.things → h.giver = holderOf x maker hs₁

namespace Orderly

theorem of_kept (hkept : ∀ h ∈ hs, x ∉ h.things) : Orderly x maker hs := by
  intro hs₁ h hs₂ heq hx
  exact absurd hx (hkept h (by simp [heq]))

theorem of_append (horder : Orderly x maker (hs ++ hs')) : Orderly x maker hs := by
  intro hs₁ h hs₂ heq hx
  exact horder hs₁ h (hs₂ ++ hs') (by simp [heq]) hx

theorem concat_iff : Orderly x maker (hs ++ [h]) ↔
    Orderly x maker hs ∧ (x ∈ h.things → h.giver = holderOf x maker hs) := by
  constructor
  · intro horder
    exact ⟨horder.of_append, fun hx => horder hs h [] rfl hx⟩
  · rintro ⟨horder, hlast⟩ hs₁ h' hs₂ heq hx
    rcases List.eq_nil_or_concat hs₂ with rfl | ⟨hs₃, h₃, rfl⟩
    · obtain ⟨hbefore, hlast'⟩ := List.append_inj' heq rfl
      obtain rfl : h = h' := List.head_eq_of_cons_eq hlast'
      exact hbefore ▸ hlast hx
    · rw [List.concat_eq_append, ← List.cons_append, ← List.append_assoc] at heq
      exact horder hs₁ h' hs₃ (List.append_inj' heq rfl).1 hx

/-- A thing came to its holder from its maker. -/
theorem handed (horder : Orderly x maker hs) :
    Relation.ReflTransGen (Gives hs x) maker (holderOf x maker hs) := by
  induction hs using List.reverseRecOn with
  | nil => exact .refl
  | append_singleton hs h ih =>
    obtain ⟨horder, hlast⟩ := concat_iff.mp horder
    have hmono : Gives hs x ≤ Gives (hs ++ [h]) x := fun _ _ hgives => hgives.append [h]
    have hbefore : Relation.ReflTransGen (Gives (hs ++ [h]) x) maker (holderOf x maker hs) :=
      Relation.ReflTransGen.mono hmono _ _ (ih horder)
    rw [holderOf_concat]
    split
    · rename_i hx
      exact hbefore.tail (gives_concat.mpr (Or.inr ⟨hx, hlast hx, rfl⟩))
    · exact hbefore

/-- Where givers are before their takers, who gave a thing away is before its holder. -/
theorem giver_before {before : α → α → Prop} [IsTrans α before] (horder : Orderly x maker hs)
    (hall : ∀ h ∈ hs, before h.giver h.taker) (hgives : Gives hs x a b) :
    before a (holderOf x maker hs) := by
  induction hs using List.reverseRecOn with
  | nil =>
    obtain ⟨h, hmem, _⟩ := hgives
    simp at hmem
  | append_singleton hs h ih =>
    obtain ⟨horder, hlast⟩ := concat_iff.mp horder
    have hearlier : Gives hs x a b → before a (holderOf x maker hs) :=
      ih horder fun h' hmem => hall h' (List.mem_append_left _ hmem)
    have hstep := hall h (by simp)
    rw [holderOf_concat]
    rcases gives_concat.mp hgives with hgives | ⟨hx, rfl, rfl⟩
    · split
      · rename_i hx
        exact IsTrans.trans _ _ _ (hearlier hgives) (hlast hx ▸ hstep)
      · exact hearlier hgives
    · rw [if_pos hx]
      exact hstep

end Orderly

end ProgramLogic
