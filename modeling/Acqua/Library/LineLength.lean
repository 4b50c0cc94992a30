import Mathlib

/-! The lengths of the lines of a text. -/

namespace Acqua

section LineLength

variable {α : Type*} (isEnd : α → Prop) [DecidablePred isEnd]

/-- No run of characters between line ends is longer. -/
def LinesAtMost (limit : Nat) (text : List α) : Prop :=
  ∀ line, line <:+: text → (∀ ch ∈ line, ¬ isEnd ch) → line.length ≤ limit

/-- What follows `used` characters of a line keeps the limit. -/
def RestAtMost (limit : Nat) : Nat → List α → Prop
  | used, [] => used ≤ limit
  | used, ch :: text =>
    if isEnd ch then used ≤ limit ∧ RestAtMost limit 0 text else RestAtMost limit (used + 1) text

variable {isEnd} {limit used used' : Nat} {text line : List α}

theorem RestAtMost.le (h : RestAtMost isEnd limit used text) : used ≤ limit := by
  induction text generalizing used with
  | nil => exact h
  | cons ch text ih =>
    rw [RestAtMost] at h
    split_ifs at h
    · exact h.1
    · exact Nat.le_of_succ_le (ih h)

theorem RestAtMost.mono (h : RestAtMost isEnd limit used text) (hle : used' ≤ used) :
    RestAtMost isEnd limit used' text := by
  induction text generalizing used used' with
  | nil => exact hle.trans h
  | cons ch text ih =>
    rw [RestAtMost] at h ⊢
    split_ifs at h ⊢
    · exact ⟨hle.trans h.1, h.2⟩
    · exact ih h (Nat.succ_le_succ hle)

theorem restAtMost_cons {ch : α} (hch : ¬ isEnd ch) :
    RestAtMost isEnd limit used (ch :: text) ↔ RestAtMost isEnd limit (used + 1) text := by
  rw [RestAtMost, if_neg hch]

theorem restAtMost_end {ch : α} (hch : isEnd ch) :
    RestAtMost isEnd limit used (ch :: text) ↔ used ≤ limit ∧ RestAtMost isEnd limit 0 text := by
  rw [RestAtMost, if_pos hch]

theorem restAtMost_append (hline : ∀ ch ∈ line, ¬ isEnd ch) :
    RestAtMost isEnd limit used (line ++ text) ↔
      RestAtMost isEnd limit (used + line.length) text := by
  induction line generalizing used with
  | nil => rfl
  | cons ch line ih =>
    obtain ⟨hch, hrest⟩ := List.forall_mem_cons.mp hline
    rw [List.cons_append, restAtMost_cons hch, ih hrest, List.length_cons, Nat.add_assoc,
      Nat.add_comm 1]

/-- The ends of a line of which there is one at least. -/
theorem restAtMost_ends (hne : line ≠ []) (hline : ∀ ch ∈ line, isEnd ch) (hused : used ≤ limit)
    (h : RestAtMost isEnd limit 0 text) : RestAtMost isEnd limit used (line ++ text) := by
  induction line generalizing used with
  | nil => exact absurd rfl hne
  | cons ch line ih =>
    obtain ⟨hch, hrest⟩ := List.forall_mem_cons.mp hline
    rw [List.cons_append, restAtMost_end hch]
    refine ⟨hused, ?_⟩
    by_cases hnil : line = []
    · rwa [hnil]
    · exact ih hnil hrest (Nat.zero_le limit)

theorem RestAtMost.of_append {pre : List α} (h : RestAtMost isEnd limit used (pre ++ text)) :
    ∃ used, RestAtMost isEnd limit used text := by
  induction pre generalizing used with
  | nil => exact ⟨used, h⟩
  | cons ch pre ih =>
    rw [List.cons_append, RestAtMost] at h
    split_ifs at h
    · exact ih h.2
    · exact ih h

theorem RestAtMost.linesAtMost (h : RestAtMost isEnd limit used text) :
    LinesAtMost isEnd limit text := by
  rintro line ⟨pre, post, rfl⟩ hline
  rw [List.append_assoc] at h
  obtain ⟨used, hused⟩ := h.of_append
  rw [restAtMost_append hline] at hused
  exact (Nat.le_add_left _ _).trans hused.le

omit [DecidablePred isEnd] in
theorem linesAtMost_of_length (h : text.length ≤ limit) : LinesAtMost isEnd limit text :=
  fun _ hline _ => hline.length_le.trans h

end LineLength

end Acqua
