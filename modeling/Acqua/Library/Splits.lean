import Mathlib

/-! Statements about every element of a list with what stands before and behind it, and the
run of elements that a list begins with. -/

namespace Acqua

theorem forall_split_nil {α : Type*} {Q : List α → α → List α → Prop} :
    ∀ pre x post, [] = pre ++ x :: post → Q pre x post :=
  fun _ _ _ h => absurd h.symm (List.append_ne_nil_of_right_ne_nil _ (List.cons_ne_nil _ _))

theorem forall_split_cons {α : Type*} {Q : List α → α → List α → Prop} {a : α} {l : List α} :
    (∀ pre x post, a :: l = pre ++ x :: post → Q pre x post) ↔
      Q [] a l ∧ ∀ pre x post, l = pre ++ x :: post → Q (a :: pre) x post := by
  constructor
  · intro h
    exact ⟨h [] a l rfl, fun pre x post heq => h (a :: pre) x post (congrArg (a :: ·) heq)⟩
  · rintro ⟨hhead, htail⟩ pre x post heq
    cases pre with
    | nil =>
      obtain ⟨rfl, rfl⟩ := List.cons.inj heq
      exact hhead
    | cons b pre =>
      obtain ⟨rfl, hrest⟩ := List.cons.inj heq
      exact htail pre x post hrest

section Run

variable {α : Type*} {p : α → Bool} {run rest : List α} {a : α}

theorem takeWhile_run (hrun : ∀ b ∈ run, p b) (ha : ¬ p a) :
    (run ++ a :: rest).takeWhile p = run := by
  rw [List.takeWhile_append_of_pos hrun, List.takeWhile_cons_of_neg (by simpa using ha),
    List.append_nil]

theorem dropWhile_run (hrun : ∀ b ∈ run, p b) (ha : ¬ p a) :
    (run ++ a :: rest).dropWhile p = a :: rest := by
  rw [List.dropWhile_append_of_pos hrun, List.dropWhile_cons_of_neg (by simpa using ha)]

variable {s : List α}

/-- What stands behind a text adds nothing to the run at its start, where it cannot go on with
it. -/
theorem takeWhile_stop (hrest : ∀ b ∈ rest.head?, ¬ p b) :
    (s ++ rest).takeWhile p = s.takeWhile p := by
  have hnil : rest.takeWhile p = [] := by
    cases rest with
    | nil => rfl
    | cons b rest => exact List.takeWhile_cons_of_neg (hrest b rfl)
  rw [List.takeWhile_append, hnil, List.append_nil]
  split
  · exact ((List.takeWhile_prefix p).eq_of_length ‹_›).symm
  · rfl

theorem dropWhile_stop (hrest : ∀ b ∈ rest.head?, ¬ p b) :
    (s ++ rest).dropWhile p = s.dropWhile p ++ rest := by
  have hsplit := List.takeWhile_append_dropWhile (p := p) (l := s ++ rest)
  have hsplit' := List.takeWhile_append_dropWhile (p := p) (l := s)
  rw [takeWhile_stop hrest] at hsplit
  refine @List.append_cancel_left _ (s.takeWhile p) _ _ ?_
  rw [hsplit, ← List.append_assoc, hsplit']

end Run

end Acqua
