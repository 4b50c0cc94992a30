import Mathlib

/-! Filters that may refuse an element, and the buffer in front of such a filter: what is refused
stays there and is offered again. -/

namespace Acqua

/-- The runs in which a buffer hands a text to the filter behind it. A run is empty where the
buffer is flushed again with nothing new in it. -/
structure Buffering (α : Type*) where
  runs : List α → List (List α)
  flatten_runs : ∀ text, (runs text).flatten = text

section WriteLoop

variable {α β σ : Type*}

theorem flatten_flushed (k : Nat) (text : List α) :
    (text :: List.replicate k []).flatten = text := by
  simp

/-- One run, and `k` flushes behind it. -/
def Buffering.flushed (k : Nat) : Buffering α :=
  ⟨fun text => text :: List.replicate k [], flatten_flushed k⟩

/-- Offers the elements one by one up to the first that is refused: what the filter has become,
what is written, and what is left. -/
def offer (put : σ → α → σ × Option (List β)) : σ → List α → σ × List β × List α
  | s, [] => (s, [], [])
  | s, a :: as =>
    match put s a with
    | (s', none) => (s', [], a :: as)
    | (s', some out) =>
      let r := offer put s' as
      (r.1, out ++ r.2.1, r.2.2)

/-- Offers each run behind what is left of those before it, and collects what is written. -/
def offerRuns (put : σ → α → σ × Option (List β)) : σ → List α → List (List α) → List β
  | _, _, [] => []
  | s, left, run :: runs =>
    let r := offer put s (left ++ run)
    r.2.1 ++ offerRuns put r.1 r.2.2 runs

/-- What a filter writes for a text that comes out of a buffer. -/
def writeAll (put : σ → α → σ × Option (List β)) (S : Buffering α) (s : σ) (text : List α) :
    List β :=
  offerRuns put s [] (S.runs text)

variable {put : σ → α → σ × Option (List β)} {s s' : σ} {a : α}

theorem offer_refused (h : put s a = (s', none)) (as : List α) :
    offer put s (a :: as) = (s', [], a :: as) := by
  rw [offer, h]

theorem offer_cons {out : List β} (h : put s a = (s', some out)) (as : List α) :
    offer put s (a :: as) =
      ((offer put s' as).1, out ++ (offer put s' as).2.1, (offer put s' as).2.2) := by
  rw [offer, h]

/-- Nothing is refused before the end of the first part, or it all is left. -/
theorem offer_append (s : σ) (as bs : List α) :
    offer put s (as ++ bs) =
      if (offer put s as).2.2 = [] then
        ((offer put (offer put s as).1 bs).1,
          (offer put s as).2.1 ++ (offer put (offer put s as).1 bs).2.1,
          (offer put (offer put s as).1 bs).2.2)
      else ((offer put s as).1, (offer put s as).2.1, (offer put s as).2.2 ++ bs) := by
  induction as generalizing s with
  | nil => rfl
  | cons a as ih =>
    rcases hput : put s a with ⟨s', _ | out⟩
    · rw [List.cons_append, offer_refused hput, offer_refused hput]
      rfl
    · rw [List.cons_append, offer_cons hput, offer_cons hput, ih]
      dsimp only
      split_ifs
      · rw [List.append_assoc]
      · rfl

/-- Where nothing is refused, the runs do not matter. -/
theorem offerRuns_of_accepted {runs : List (List α)} (h : (offer put s runs.flatten).2.2 = []) :
    offerRuns put s [] runs = (offer put s runs.flatten).2.1 := by
  induction runs generalizing s with
  | nil => rfl
  | cons run runs ih =>
    rw [List.flatten_cons, offer_append] at h ⊢
    rw [offerRuns, List.nil_append]
    by_cases hrun : (offer put s run).2.2 = []
    · rw [if_pos hrun] at h ⊢
      dsimp only at h ⊢
      rw [hrun, ih h]
    · rw [if_neg hrun] at h
      exact absurd (List.append_eq_nil_iff.mp h).1 hrun

theorem writeAll_of_accepted {text : List α} (h : (offer put s text).2.2 = []) (S : Buffering α) :
    writeAll put S s text = (offer put s text).2.1 := by
  have hflatten := S.flatten_runs text
  rw [writeAll, offerRuns_of_accepted (by rwa [hflatten]), hflatten]

theorem writeAll_flushed_zero (s : σ) (text : List α) :
    writeAll put (.flushed 0) s text = (offer put s text).2.1 := by
  simp [writeAll, Buffering.flushed, offerRuns]

/-- What is left of the run is offered once more. -/
theorem writeAll_flushed_one (s : σ) (text : List α) :
    writeAll put (.flushed 1) s text =
      (offer put s text).2.1 ++ (offer put (offer put s text).1 (offer put s text).2.2).2.1 := by
  simp [writeAll, Buffering.flushed, offerRuns]

/-- A property of everything that a filter may write for the elements of a text. -/
theorem forall_mem_offer {p : α → Prop} {q : β → Prop}
    (hput : ∀ s a, p a → ∀ out ∈ (put s a).2, ∀ b ∈ out, q b) (s : σ) {text : List α}
    (h : ∀ a ∈ text, p a) : ∀ b ∈ (offer put s text).2.1, q b := by
  induction text generalizing s with
  | nil => exact fun b hb => absurd hb List.not_mem_nil
  | cons a text ih =>
    obtain ⟨ha, htext⟩ := List.forall_mem_cons.mp h
    rcases hs : put s a with ⟨s', _ | out⟩
    · rw [offer_refused hs]
      exact fun b hb => absurd hb List.not_mem_nil
    · rw [offer_cons hs]
      exact List.forall_mem_append.mpr
        ⟨hput s a ha out (congrArg Prod.snd hs), ih s' htext⟩

theorem offer_left_suffix (s : σ) (text : List α) : (offer put s text).2.2 <:+ text := by
  induction text generalizing s with
  | nil => exact List.suffix_rfl
  | cons a text ih =>
    rcases hs : put s a with ⟨s', _ | out⟩
    · rw [offer_refused hs]
    · rw [offer_cons hs]
      exact (ih s').trans (List.suffix_cons a text)

/-- The same of what is written for the runs of a text. -/
theorem forall_mem_writeAll {p : α → Prop} {q : β → Prop}
    (hput : ∀ s a, p a → ∀ out ∈ (put s a).2, ∀ b ∈ out, q b) (S : Buffering α) (s : σ)
    {text : List α} (h : ∀ a ∈ text, p a) : ∀ b ∈ writeAll put S s text, q b := by
  have hruns : ∀ runs left s, (∀ a ∈ left, p a) → (∀ a ∈ runs.flatten, p a) →
      ∀ b ∈ offerRuns put s left runs, q b := by
    intro runs
    induction runs with
    | nil => exact fun left s _ _ b hb => absurd hb List.not_mem_nil
    | cons run runs ih =>
      intro left s hleft hrun
      rw [List.flatten_cons, List.forall_mem_append] at hrun
      have hall : ∀ a ∈ left ++ run, p a := List.forall_mem_append.mpr ⟨hleft, hrun.1⟩
      rw [offerRuns]
      exact List.forall_mem_append.mpr ⟨forall_mem_offer hput s hall,
        ih _ _ (fun a ha => hall a ((offer_left_suffix s _).subset ha)) hrun.2⟩
  exact hruns _ [] s (fun a ha => absurd ha List.not_mem_nil) (by rwa [S.flatten_runs])

/-- A filter that writes at most one element for each writes no more than it was offered. -/
theorem length_offer_le (hput : ∀ s a, ∀ out ∈ (put s a).2, out.length ≤ 1) (s : σ)
    (text : List α) :
    (offer put s text).2.1.length + (offer put s text).2.2.length ≤ text.length := by
  induction text generalizing s with
  | nil => exact le_rfl
  | cons a text ih =>
    rcases hs : put s a with ⟨s', _ | out⟩
    · rw [offer_refused hs, List.length_nil, Nat.zero_add]
    · have hout := hput s a out (congrArg Prod.snd hs)
      have hrest := ih s'
      rw [offer_cons hs, List.length_append, List.length_cons]
      dsimp only
      omega

theorem length_writeAll_le (hput : ∀ s a, ∀ out ∈ (put s a).2, out.length ≤ 1)
    (S : Buffering α) (s : σ) (text : List α) : (writeAll put S s text).length ≤ text.length := by
  have hruns : ∀ runs left s,
      (offerRuns put s left runs).length ≤ left.length + runs.flatten.length := by
    intro runs
    induction runs with
    | nil => exact fun left s => Nat.zero_le _
    | cons run runs ih =>
      intro left s
      have hrun := length_offer_le hput s (left ++ run)
      have hrest := ih (offer put s (left ++ run)).2.2 (offer put s (left ++ run)).1
      rw [List.length_append] at hrun
      rw [offerRuns, List.length_append, List.flatten_cons, List.length_append]
      omega
  have hlength := hruns (S.runs text) [] s
  rwa [S.flatten_runs, List.length_nil, Nat.zero_add] at hlength

end WriteLoop

end Acqua
