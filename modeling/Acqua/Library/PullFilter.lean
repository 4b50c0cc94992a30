import Mathlib

/-! Filters that give one element at a time and take what they need of a source. -/

namespace Acqua

section PullFilter

variable {α β σ : Type*} {get : σ → List α → (σ × Option β) × List α}

variable (get) in
/-- Calling `get` until there is nothing more comes to an end and gives these elements. -/
inductive Pulls : σ → List α → List β → Prop
  | done {s s' : σ} {src src' : List α} (h : get s src = ((s', none), src')) : Pulls s src []
  | more {s s' : σ} {src src' : List α} {b : β} {out : List β}
      (h : get s src = ((s', some b), src')) (hout : Pulls s' src' out) : Pulls s src (b :: out)

variable {s s' : σ} {src src' : List α} {out out' : List β}

theorem Pulls.congr (h : Pulls get s src out) (hget : get s' src' = get s src) :
    Pulls get s' src' out := by
  cases h with
  | done h => exact Pulls.done (hget.trans h)
  | more h hout => exact Pulls.more (hget.trans h) hout

theorem Pulls.unique (h : Pulls get s src out) (h' : Pulls get s src out') : out = out' := by
  induction h generalizing out' with
  | done h =>
    cases h' with
    | done => rfl
    | more h' =>
      rw [h] at h'
      simp at h'
  | more h hout ih =>
    cases h' with
    | done h' =>
      rw [h] at h'
      simp at h'
    | more h' hout' =>
      rw [h] at h'
      simp only [Prod.mk.injEq, Option.some.injEq] at h'
      obtain ⟨⟨rfl, rfl⟩, rfl⟩ := h'
      rw [ih hout']

/-- A filter that never runs out in states with an invariant that it keeps never ends. -/
theorem not_pulls_of_invariant {P : σ → Prop}
    (hstep : ∀ s src, P s → ∃ s' b src', get s src = ((s', some b), src') ∧ P s') (hs : P s) :
    ¬ Pulls get s src out := by
  intro h
  induction h with
  | done h =>
    obtain ⟨s', b, src', hget, -⟩ := hstep _ _ hs
    rw [h] at hget
    simp at hget
  | more h _ ih =>
    obtain ⟨s', b, src', hget, hs'⟩ := hstep _ _ hs
    rw [h] at hget
    simp only [Prod.mk.injEq, Option.some.injEq] at hget
    obtain ⟨⟨rfl, rfl⟩, rfl⟩ := hget
    exact ih hs'

end PullFilter

end Acqua
