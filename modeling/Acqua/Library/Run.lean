import Mathlib

/-! Runs of a step function over a list of inputs, and properties of every step taken. -/

namespace Acqua

section Run

variable {σ ι : Type*} (step : σ → ι → σ)

/-- `P` holds of the state and the input of every step of the run from `s`. -/
def EveryStep (P : σ → ι → Prop) (s : σ) (inputs : List ι) : Prop :=
  ∀ pre i post, inputs = pre ++ i :: post → P (pre.foldl step s) i

variable {step}

@[simp]
theorem everyStep_nil {P : σ → ι → Prop} (s : σ) : EveryStep step P s [] := by
  intro pre i post h
  simp at h

theorem everyStep_cons {P : σ → ι → Prop} {s : σ} {i : ι} {inputs : List ι} :
    EveryStep step P s (i :: inputs) ↔ P s i ∧ EveryStep step P (step s i) inputs := by
  constructor
  · intro h
    refine ⟨h [] i inputs rfl, ?_⟩
    intro pre j post hj
    exact h (i :: pre) j post (by simp [hj])
  · rintro ⟨hi, h⟩ pre j post hj
    cases pre with
    | nil =>
      obtain ⟨rfl, rfl⟩ := List.cons.inj hj
      exact hi
    | cons k pre =>
      obtain ⟨rfl, rfl⟩ := List.cons.inj hj
      exact h pre j post rfl

theorem EveryStep.imp {P Q : σ → ι → Prop} {s : σ} {inputs : List ι}
    (hpq : ∀ s i, P s i → Q s i) (h : EveryStep step P s inputs) : EveryStep step Q s inputs :=
  fun pre i post hi => hpq _ _ (h pre i post hi)

/-- Two properties of steps that agree while an invariant holds, either of which keeps
the invariant, hold along the same runs. -/
theorem everyStep_congr_of_invariant {P Q : σ → ι → Prop} {Inv : σ → Prop}
    (hpq : ∀ s i, Inv s → (P s i ↔ Q s i)) (hstep : ∀ s i, Inv s → Q s i → Inv (step s i))
    {s : σ} {inputs : List ι} (hs : Inv s) :
    EveryStep step P s inputs ↔ EveryStep step Q s inputs := by
  induction inputs generalizing s with
  | nil => simp
  | cons i inputs ih =>
    rw [everyStep_cons, everyStep_cons]
    constructor
    · rintro ⟨hp, h⟩
      have hq := (hpq s i hs).mp hp
      exact ⟨hq, (ih (hstep s i hs hq)).mp h⟩
    · rintro ⟨hq, h⟩
      exact ⟨(hpq s i hs).mpr hq, (ih (hstep s i hs hq)).mpr h⟩

theorem EveryStep.invariant {Q : σ → ι → Prop} {Inv : σ → Prop}
    (hstep : ∀ s i, Inv s → Q s i → Inv (step s i)) {s : σ} {inputs : List ι}
    (h : EveryStep step Q s inputs) (hs : Inv s) : Inv (inputs.foldl step s) := by
  induction inputs generalizing s with
  | nil => exact hs
  | cons i inputs ih =>
    obtain ⟨hq, h⟩ := everyStep_cons.mp h
    exact ih h (hstep s i hs hq)

theorem foldl_invariant {Inv : σ → Prop} (hstep : ∀ s i, Inv s → Inv (step s i))
    {s : σ} (hs : Inv s) (inputs : List ι) : Inv (inputs.foldl step s) := by
  induction inputs generalizing s with
  | nil => exact hs
  | cons i inputs ih => exact ih (hstep s i hs)

end Run

end Acqua
