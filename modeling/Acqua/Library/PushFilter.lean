import Mathlib

/-! Filters that take one element at a time and write any number of elements, and the
composition of an encoding filter with the filter that decodes its output. -/

namespace Acqua

section PushFilter

variable {α β γ σ τ : Type*}

/-- Feeds the elements one by one and collects what is written. -/
def pushAll (put : σ → α → σ × List β) : σ → List α → σ × List β
  | s, [] => (s, [])
  | s, a :: as =>
    let r := put s a
    let r' := pushAll put r.1 as
    (r'.1, r.2 ++ r'.2)

variable {put : σ → α → σ × List β}

@[simp]
theorem pushAll_nil (s : σ) : pushAll put s [] = (s, []) := rfl

theorem pushAll_cons (s : σ) (a : α) (as : List α) :
    pushAll put s (a :: as) =
      ((pushAll put (put s a).1 as).1, (put s a).2 ++ (pushAll put (put s a).1 as).2) := rfl

theorem pushAll_singleton (s : σ) (a : α) : pushAll put s [a] = put s a := by
  simp [pushAll_cons]

theorem pushAll_append (s : σ) (as bs : List α) :
    pushAll put s (as ++ bs) =
      ((pushAll put (pushAll put s as).1 bs).1,
        (pushAll put s as).2 ++ (pushAll put (pushAll put s as).1 bs).2) := by
  induction as generalizing s with
  | nil => rfl
  | cons a as ih => simp only [List.cons_append, pushAll_cons, ih, List.append_assoc]

theorem pushAll_of_ignored {s : σ} {as : List α} (h : ∀ a ∈ as, put s a = (s, [])) :
    pushAll put s as = (s, []) := by
  induction as with
  | nil => rfl
  | cons a as ih =>
    rw [pushAll_cons, h a (by simp)]
    simp only [ih (fun b hb => h b (by simp [hb])), List.append_nil]

/-- A decoder that lags behind an encoder by the elements `pending`, step after step,
lags behind it by some elements at the end of any input. -/
theorem pushAll_simulation {decode : τ → β → τ × List α} (Lags : σ → τ → List α → Prop)
    (hstep : ∀ s t pending a, Lags s t pending →
      ∃ pending', Lags (put s a).1 (pushAll decode t (put s a).2).1 pending' ∧
        pending ++ [a] = (pushAll decode t (put s a).2).2 ++ pending')
    {s : σ} {t : τ} {pending : List α} (h : Lags s t pending) (as : List α) :
    ∃ pending', Lags (pushAll put s as).1 (pushAll decode t (pushAll put s as).2).1 pending' ∧
      pending ++ as = (pushAll decode t (pushAll put s as).2).2 ++ pending' := by
  induction as generalizing s t pending with
  | nil => exact ⟨pending, h, by simp⟩
  | cons a as ih =>
    obtain ⟨mid, hmid, heq⟩ := hstep s t pending a h
    obtain ⟨pending', hend, heq'⟩ := ih hmid
    refine ⟨pending', by rw [pushAll_cons, pushAll_append]; exact hend, ?_⟩
    have hsplit : pending ++ a :: as = (pending ++ [a]) ++ as := by simp
    rw [hsplit, heq, List.append_assoc, heq', pushAll_cons, pushAll_append]
    simp only [List.append_assoc]

end PushFilter

end Acqua
