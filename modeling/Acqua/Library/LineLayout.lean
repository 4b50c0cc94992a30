import Mathlib

/-! Texts in lines of one length, of which only the last may be shorter. -/

namespace Acqua

section LineLayout

variable {α : Type*} {isChar : α → Prop} {brk : List α} {limit : Nat}

/-- The text is lines with a break behind each. None is empty or too long, and each but the last is
full. -/
def LineLayout (isChar : α → Prop) (brk : List α) (limit : Nat) (text : List α) : Prop :=
  ∃ lines : List (List α), lines ≠ [] ∧ text = lines.flatMap (· ++ brk) ∧
    (∀ line ∈ lines, line ≠ [] ∧ line.length ≤ limit ∧ ∀ ch ∈ line, isChar ch) ∧
    ∀ line ∈ lines.dropLast, line.length = limit

theorem LineLayout.single {line : List α} (hne : line ≠ []) (hlength : line.length ≤ limit)
    (hchars : ∀ ch ∈ line, isChar ch) : LineLayout isChar brk limit (line ++ brk) := by
  refine ⟨[line], List.cons_ne_nil _ _, by simp, ?_, by simp⟩
  rintro l hl
  obtain rfl := List.mem_singleton.mp hl
  exact ⟨hne, hlength, hchars⟩

theorem LineLayout.cons {line text : List α} (hpos : 0 < limit) (hlength : line.length = limit)
    (hchars : ∀ ch ∈ line, isChar ch) (h : LineLayout isChar brk limit text) :
    LineLayout isChar brk limit (line ++ (brk ++ text)) := by
  obtain ⟨lines, hne, rfl, hlines, hfull⟩ := h
  have hline : line ≠ [] := List.length_pos_iff.mp (hlength ▸ hpos)
  refine ⟨line :: lines, List.cons_ne_nil _ _, by simp,
    List.forall_mem_cons.mpr ⟨⟨hline, hlength.le, hchars⟩, hlines⟩, ?_⟩
  rw [List.dropLast_cons_of_ne_nil hne]
  exact List.forall_mem_cons.mpr ⟨hlength, hfull⟩

/-- Such a text begins with a character of its first line. -/
theorem LineLayout.head {text : List α} (h : LineLayout isChar brk limit text) :
    ∃ ch rest, isChar ch ∧ text = ch :: rest := by
  obtain ⟨lines, hne, rfl, hlines, -⟩ := h
  obtain ⟨line, lines, rfl⟩ := List.exists_cons_of_ne_nil hne
  obtain ⟨hline, -, hchars⟩ := hlines line (by simp)
  obtain ⟨ch, line, rfl⟩ := List.exists_cons_of_ne_nil hline
  exact ⟨ch, _, hchars ch (by simp), rfl⟩

end LineLayout

end Acqua
