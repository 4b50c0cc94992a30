import Mathlib

/-! Comparisons of two components that are not lexicographic: one of them is less. -/

namespace Acqua

/-- On `S`, `lt` is a strict total order that agrees with the equality `eqv`. -/
structure StrictTotalOn {γ : Type*} (S : Set γ) (lt eqv : γ → γ → Prop) : Prop where
  irrefl : ∀ a ∈ S, ¬ lt a a
  asymm : ∀ a ∈ S, ∀ b ∈ S, lt a b → ¬ lt b a
  trans : ∀ a ∈ S, ∀ b ∈ S, ∀ c ∈ S, lt a b → lt b c → lt a c
  trichotomous : ∀ a ∈ S, ∀ b ∈ S,
    lt a b ∧ ¬ eqv a b ∧ ¬ lt b a ∨ ¬ lt a b ∧ eqv a b ∧ ¬ lt b a ∨
      ¬ lt a b ∧ ¬ eqv a b ∧ lt b a

section Component

variable {α β γ : Type*} [LinearOrder α] [LinearOrder β]

/-- One of the two components is less. -/
def ComponentLt (f : γ → α) (g : γ → β) (a b : γ) : Prop := f a < f b ∨ g a < g b

def ComponentEq (f : γ → α) (g : γ → β) (a b : γ) : Prop := f a = f b ∧ g a = g b

/-- The components never compare in opposite directions. -/
def Agree (f : γ → α) (g : γ → β) (S : Set γ) : Prop :=
  ∀ a ∈ S, ∀ b ∈ S, f a < f b → g a ≤ g b

variable {f : γ → α} {g : γ → β} {S : Set γ}

theorem Agree.le_of_lt (h : Agree f g S) {a b : γ} (ha : a ∈ S) (hb : b ∈ S)
    (hlt : ComponentLt f g a b) : f a ≤ f b ∧ g a ≤ g b := by
  rcases hlt with hf | hg
  · exact ⟨hf.le, h a ha b hb hf⟩
  · refine ⟨le_of_not_gt fun hf => ?_, hg.le⟩
    exact absurd (h b hb a ha hf) hg.not_ge

theorem Agree.asymm (h : Agree f g S) {a b : γ} (ha : a ∈ S) (hb : b ∈ S)
    (hlt : ComponentLt f g a b) : ¬ ComponentLt f g b a := by
  obtain ⟨hf, hg⟩ := h.le_of_lt ha hb hlt
  rintro (hf' | hg')
  · exact hf'.not_ge hf
  · exact hg'.not_ge hg

theorem Agree.trans (h : Agree f g S) {a b c : γ} (hb : b ∈ S) (hc : c ∈ S)
    (hab : ComponentLt f g a b) (hbc : ComponentLt f g b c) : ComponentLt f g a c := by
  obtain ⟨hf, hg⟩ := h.le_of_lt hb hc hbc
  rcases hab with hf' | hg'
  · exact Or.inl (hf'.trans_le hf)
  · exact Or.inr (hg'.trans_le hg)

theorem not_componentLt_of_eq {a b : γ} (h : ComponentEq f g a b) : ¬ ComponentLt f g a b := by
  obtain ⟨hf, hg⟩ := h
  rintro (hlt | hlt)
  · exact hlt.ne hf
  · exact hlt.ne hg

theorem componentLt_trichotomy (f : γ → α) (g : γ → β) (a b : γ) :
    ComponentLt f g a b ∨ ComponentEq f g a b ∨ ComponentLt f g b a := by
  rcases lt_trichotomy (f a) (f b) with hf | hf | hf
  · exact Or.inl (Or.inl hf)
  · rcases lt_trichotomy (g a) (g b) with hg | hg | hg
    · exact Or.inl (Or.inr hg)
    · exact Or.inr (Or.inl ⟨hf, hg⟩)
    · exact Or.inr (Or.inr (Or.inr hg))
  · exact Or.inr (Or.inr (Or.inl hf))

theorem strictTotalOn_component_iff :
    StrictTotalOn S (ComponentLt f g) (ComponentEq f g) ↔ Agree f g S := by
  constructor
  · intro h a ha b hb hf
    by_contra hg
    exact h.asymm a ha b hb (Or.inl hf) (Or.inr (not_le.mp hg))
  · intro h
    refine ⟨fun a _ => not_componentLt_of_eq ⟨rfl, rfl⟩, fun a ha b hb => h.asymm ha hb,
      fun a _ b hb c hc => h.trans hb hc, fun a ha b hb => ?_⟩
    have hback : ComponentEq f g a b → ComponentEq f g b a := fun heq => ⟨heq.1.symm, heq.2.symm⟩
    rcases componentLt_trichotomy f g a b with hlt | heq | hlt
    · exact Or.inl ⟨hlt, fun heq => not_componentLt_of_eq heq hlt, h.asymm ha hb hlt⟩
    · exact Or.inr (Or.inl
        ⟨not_componentLt_of_eq heq, heq, not_componentLt_of_eq (hback heq)⟩)
    · exact Or.inr (Or.inr
        ⟨h.asymm hb ha hlt, fun heq => not_componentLt_of_eq (hback heq) hlt, hlt⟩)

theorem strictTotalOn_iff_agree {lt eqv : γ → γ → Prop}
    (hlt : ∀ a b, lt a b ↔ ComponentLt f g a b) (heqv : ∀ a b, eqv a b ↔ ComponentEq f g a b) :
    StrictTotalOn S lt eqv ↔ Agree f g S := by
  obtain rfl : lt = ComponentLt f g := funext₂ fun a b => propext (hlt a b)
  obtain rfl : eqv = ComponentEq f g := funext₂ fun a b => propext (heqv a b)
  exact strictTotalOn_component_iff

end Component

/-- Octets in the order of their numbers; strings of them are in lexicographic order then. -/
instance octetOrder : LinearOrder UInt8 where
  le_refl _ := UInt8.le_refl _
  le_trans _ _ _ := UInt8.le_trans
  lt_iff_le_not_ge a b := by
    rw [UInt8.lt_iff_toNat_lt, UInt8.le_iff_toNat_le, UInt8.le_iff_toNat_le]
    omega
  le_antisymm _ _ := UInt8.le_antisymm
  le_total := UInt8.le_total
  toDecidableLE := inferInstance

end Acqua
