import Mathlib

/-! Splitting a text at universal newlines: `cr`, `lf`, and `cr` followed by `lf`, each end one
line. -/

namespace Acqua

section UniversalNewlines

variable {α : Type*} [DecidableEq α] (cr lf : α)

/-- The lines that end in the text when `line` was read before it, and what is left after the
last. -/
def linesFrom : List α → List α → List (List α) × List α
  | line, [] => ([], line)
  | line, [c] => if c = cr ∨ c = lf then ([line], []) else ([], line ++ [c])
  | line, c :: c' :: text =>
    if c = cr ∧ c' = lf then
      let r := linesFrom [] text
      (line :: r.1, r.2)
    else if c = cr ∨ c = lf then
      let r := linesFrom [] (c' :: text)
      (line :: r.1, r.2)
    else linesFrom (line ++ [c]) (c' :: text)

def skipOne (a : α) : List α → List α
  | [] => []
  | c :: text => if c = a then text else c :: text

@[simp]
theorem skipOne_nil (a : α) : skipOne a [] = [] := rfl

@[simp]
theorem skipOne_cons_self (a : α) (text : List α) : skipOne a (a :: text) = text := if_pos rfl

theorem skipOne_cons_of_ne {a c : α} (h : c ≠ a) (text : List α) :
    skipOne a (c :: text) = c :: text := if_neg h

theorem skipOne_append {a : α} {text : List α} (h : text ≠ []) (rest : List α) :
    skipOne a (text ++ rest) = skipOne a text ++ rest := by
  cases text with
  | nil => exact absurd rfl h
  | cons c text =>
    by_cases hc : c = a
    · simp [skipOne, hc]
    · simp [skipOne, hc]

theorem length_skipOne_le (a : α) (text : List α) : (skipOne a text).length ≤ text.length := by
  cases text with
  | nil => exact le_rfl
  | cons c text =>
    by_cases hc : c = a
    · simp [skipOne, hc]
    · simp [skipOne, hc]

variable {cr lf}

theorem length_skipOne_skipOne_lt {c : α} (hc : c = cr ∨ c = lf) (text : List α) :
    (skipOne lf (skipOne cr (c :: text))).length < (c :: text).length := by
  have hskip := length_skipOne_le lf text
  have hlength : (c :: text).length = text.length + 1 := List.length_cons
  by_cases hcr : c = cr
  · rw [hcr, skipOne_cons_self, ← hcr]
    omega
  · rw [skipOne_cons_of_ne hcr, hc.resolve_left hcr, skipOne_cons_self, ← hc.resolve_left hcr]
    omega

theorem linesFrom_newline (h : cr ≠ lf) {c : α} (hc : c = cr ∨ c = lf) (line text : List α) :
    linesFrom cr lf line (c :: text) =
      (line :: (linesFrom cr lf [] (skipOne lf (skipOne cr (c :: text)))).1,
        (linesFrom cr lf [] (skipOne lf (skipOne cr (c :: text)))).2) := by
  cases text with
  | nil =>
    rcases hc with rfl | rfl
    · simp [linesFrom]
    · simp [linesFrom, skipOne_cons_of_ne h.symm]
  | cons c' text =>
    rcases hc with rfl | rfl
    · by_cases hc' : c' = lf
      · simp [linesFrom, hc']
      · simp [linesFrom, hc', skipOne_cons_of_ne hc']
    · simp [linesFrom, h.symm, skipOne_cons_of_ne h.symm]

theorem linesFrom_of_ne {c : α} (hcr : c ≠ cr) (hlf : c ≠ lf) (line text : List α) :
    linesFrom cr lf line (c :: text) = linesFrom cr lf (line ++ [c]) text := by
  cases text with
  | nil => simp [linesFrom, hcr, hlf]
  | cons c' text => simp [linesFrom, hcr, hlf]

theorem linesFrom_append_of_no_newline {pre : List α} (hpre : ∀ c ∈ pre, c ≠ cr ∧ c ≠ lf)
    (line text : List α) : linesFrom cr lf line (pre ++ text) = linesFrom cr lf (line ++ pre) text := by
  induction pre generalizing line with
  | nil => simp
  | cons c pre ih =>
    have hc := hpre c (by simp)
    rw [List.cons_append, linesFrom_of_ne hc.1 hc.2, ih fun d hd => hpre d (by simp [hd])]
    simp

theorem linesFrom_cr (h : cr ≠ lf) (line text : List α) :
    linesFrom cr lf line (cr :: text) =
      (line :: (linesFrom cr lf [] (skipOne lf text)).1,
        (linesFrom cr lf [] (skipOne lf text)).2) := by
  rw [linesFrom_newline h (Or.inl rfl), skipOne_cons_self]

theorem linesFrom_lf (h : cr ≠ lf) (line text : List α) :
    linesFrom cr lf line (lf :: text) =
      (line :: (linesFrom cr lf [] text).1, (linesFrom cr lf [] text).2) := by
  rw [linesFrom_newline h (Or.inr rfl), skipOne_cons_of_ne h.symm, skipOne_cons_self]

omit [DecidableEq α] in
theorem getLast?_cons_eq_iff {c a : α} (hc : c ≠ a) (text : List α) :
    (c :: text).getLast? = some a ↔ text.getLast? = some a := by
  cases text with
  | nil => simp [hc]
  | cons c' text => rw [List.getLast?_cons_cons]

theorem getLast?_skipOne_eq_iff {a b : α} (h : a ≠ b) (text : List α) :
    (skipOne a text).getLast? = some b ↔ text.getLast? = some b := by
  cases text with
  | nil => rfl
  | cons c text =>
    by_cases hc : c = a
    · subst hc
      rw [skipOne_cons_self, getLast?_cons_eq_iff h]
    · rw [skipOne_cons_of_ne hc]

/-- What stands before a line end, and what is after it. -/
theorem linesFrom_line (h : cr ≠ lf) {line : List α} (hline : ∀ c ∈ line, c ≠ cr ∧ c ≠ lf)
    (text : List α) :
    linesFrom cr lf [] (line ++ cr :: lf :: text) =
        (line :: (linesFrom cr lf [] text).1, (linesFrom cr lf [] text).2) ∧
      linesFrom cr lf [] (line ++ lf :: text) =
        (line :: (linesFrom cr lf [] text).1, (linesFrom cr lf [] text).2) := by
  rw [linesFrom_append_of_no_newline hline, linesFrom_append_of_no_newline hline, linesFrom_cr h,
    linesFrom_lf h, skipOne_cons_self]
  exact ⟨rfl, rfl⟩

theorem linesFrom_lines (h : cr ≠ lf) {lines : List (List α)}
    (hlines : ∀ line ∈ lines, ∀ c ∈ line, c ≠ cr ∧ c ≠ lf) (text : List α) :
    linesFrom cr lf [] (lines.flatMap (· ++ [cr, lf]) ++ text) =
      (lines ++ (linesFrom cr lf [] text).1, (linesFrom cr lf [] text).2) := by
  induction lines with
  | nil => rfl
  | cons line lines ih =>
    obtain ⟨hline, hrest⟩ := List.forall_mem_cons.mp hlines
    have htext : (line :: lines).flatMap (· ++ [cr, lf]) ++ text =
        line ++ cr :: lf :: (lines.flatMap (· ++ [cr, lf]) ++ text) := by simp
    rw [htext, (linesFrom_line h hline _).1, ih hrest]
    rfl

/-- Lines with `lf` between them, and an end after the last one. -/
theorem linesFrom_joined (h : cr ≠ lf) {lines : List (List α)} (hne : lines ≠ [])
    (hlines : ∀ line ∈ lines, ∀ c ∈ line, c ≠ cr ∧ c ≠ lf) (text : List α) :
    linesFrom cr lf [] ([lf].intercalate lines ++ cr :: lf :: text) =
      (lines ++ (linesFrom cr lf [] text).1, (linesFrom cr lf [] text).2) := by
  induction lines with
  | nil => exact absurd rfl hne
  | cons line lines ih =>
    obtain ⟨hline, hrest⟩ := List.forall_mem_cons.mp hlines
    cases lines with
    | nil =>
      rw [List.intercalate_singleton, (linesFrom_line h hline text).1]
      rfl
    | cons next lines =>
      have htext : [lf].intercalate (line :: next :: lines) ++ cr :: lf :: text =
          line ++ lf :: ([lf].intercalate (next :: lines) ++ cr :: lf :: text) := by
        simp [List.intercalate]
      rw [htext, (linesFrom_line h hline _).2, ih (List.cons_ne_nil _ _) hrest]
      rfl

theorem mem_splitOn {a : α} {text line : List α} (h : line ∈ text.splitOn a) :
    ∀ c ∈ line, c ∈ text ∧ c ≠ a := by
  induction text generalizing line with
  | nil =>
    rw [List.splitOn_nil, List.mem_singleton] at h
    simp [h]
  | cons d text ih =>
    obtain ⟨first, lines, hsplit⟩ := List.exists_cons_of_ne_nil (List.splitOn_ne_nil a text)
    have hmem : ∀ line ∈ text.splitOn a, ∀ c ∈ line, c ∈ d :: text ∧ c ≠ a :=
      fun line hline c hc => ⟨List.mem_cons_of_mem _ (ih hline c hc).1, (ih hline c hc).2⟩
    rw [List.splitOn_cons_eq_if_modifyHead] at h
    split_ifs at h with hd
    · rcases List.mem_cons.mp h with rfl | hline
      · simp
      · exact hmem line hline
    · rw [hsplit, List.modifyHead_cons, List.mem_cons] at h
      rcases h with rfl | hline
      · exact List.forall_mem_cons.mpr
          ⟨⟨List.mem_cons_self, by simpa using hd⟩, hmem first (by rw [hsplit]; simp)⟩
      · exact hmem line (by rw [hsplit]; exact List.mem_cons_of_mem _ hline)

/-- A text that is cut somewhere: an `lf` after the cut belongs to a `cr` before it. -/
theorem linesFrom_append (h : cr ≠ lf) (line text rest : List α) :
    let r := linesFrom cr lf line text
    let r' := linesFrom cr lf r.2 (if text.getLast? = some cr then skipOne lf rest else rest)
    linesFrom cr lf line (text ++ rest) = (r.1 ++ r'.1, r'.2) := by
  induction hn : text.length using Nat.strong_induction_on generalizing line text with
  | _ n ih =>
    subst hn
    dsimp only at ih ⊢
    match text with
    | [] => simp [linesFrom]
    | c :: text =>
      by_cases hcr : c = cr
      · subst hcr
        match text with
        | [] => simp [linesFrom_cr h, linesFrom]
        | c' :: text =>
          rw [List.cons_append, linesFrom_cr h, linesFrom_cr h, List.getLast?_cons_cons]
          by_cases hc' : c' = lf
          · subst hc'
            simp only [List.cons_append, skipOne_cons_self, getLast?_cons_eq_iff h.symm]
            rw [ih text.length (by simp) [] text rfl]
          · rw [List.cons_append, skipOne_cons_of_ne hc', skipOne_cons_of_ne hc',
              ← List.cons_append, ih (c' :: text).length (by simp) [] (c' :: text) rfl]
            rfl
      · by_cases hlf : c = lf
        · subst hlf
          rw [List.cons_append, linesFrom_lf h, linesFrom_lf h,
            ih text.length (by simp) [] text rfl]
          simp only [getLast?_cons_eq_iff h.symm, List.cons_append]
        · rw [List.cons_append, linesFrom_of_ne hcr hlf, linesFrom_of_ne hcr hlf,
            ih text.length (by simp) (line ++ [c]) text rfl]
          simp only [getLast?_cons_eq_iff hcr]

variable (cr lf) in
/-- `linesFrom` where `last` is the last element read before. -/
def linesAfter (line : List α) (last : α) (text : List α) : List (List α) × List α :=
  linesFrom cr lf line (if last = cr then skipOne lf text else text)

theorem linesAfter_append (h : cr ≠ lf) (line : List α) (last : α) {beg : List α} (hbeg : beg ≠ [])
    (text : List α) :
    let r := linesAfter cr lf line last beg
    let r' := linesAfter cr lf r.2 (beg.getLast hbeg) text
    linesAfter cr lf line last (beg ++ text) = (r.1 ++ r'.1, r'.2) := by
  have hlast : beg.getLast hbeg = cr ↔ beg.getLast? = some cr := by
    rw [List.getLast?_eq_some_getLast hbeg, Option.some.injEq]
  simp only [linesAfter, hlast]
  by_cases hcr : last = cr
  · simp only [if_pos hcr, skipOne_append hbeg]
    rw [linesFrom_append h]
    simp only [getLast?_skipOne_eq_iff h.symm]
  · simp only [if_neg hcr]
    rw [linesFrom_append h]

section Separators

variable {sep : α → Bool} (hsep : ∀ c, sep c = true ↔ c = cr ∨ c = lf) {beg it : List α} {c : α}

include hsep

omit [DecidableEq α] in
theorem newline_of_dropWhile (hit : beg.dropWhile (fun c => !sep c) = c :: it) :
    c = cr ∨ c = lf := by
  have hhead := List.head?_dropWhile_not (fun c => !sep c) beg
  rw [hit] at hhead
  exact (hsep c).mp (by simpa using hhead)

theorem length_skipOne_lt_of_dropWhile (hit : beg.dropWhile (fun c => !sep c) = c :: it) :
    (skipOne lf (skipOne cr (c :: it))).length < beg.length := by
  have hlength := List.length_dropWhile_le (fun c => !sep c) beg
  rw [hit] at hlength
  exact (length_skipOne_skipOne_lt (newline_of_dropWhile hsep hit) it).trans_le hlength

theorem linesFrom_of_dropWhile_nil (hit : beg.dropWhile (fun c => !sep c) = []) (line : List α) :
    linesFrom cr lf line beg = ([], line ++ beg) := by
  have hnone : ∀ c ∈ beg, c ≠ cr ∧ c ≠ lf := by
    intro c hc
    have hnot := List.dropWhile_eq_nil_iff.mp hit c hc
    rw [Bool.not_eq_true', ← Bool.not_eq_true, hsep] at hnot
    exact not_or.mp hnot
  have hbeg := linesFrom_append_of_no_newline hnone line []
  rwa [List.append_nil] at hbeg

theorem linesFrom_of_dropWhile_cons (h : cr ≠ lf)
    (hit : beg.dropWhile (fun c => !sep c) = c :: it) (line : List α) :
    linesFrom cr lf line beg =
      let r := linesFrom cr lf [] (skipOne lf (skipOne cr (c :: it)))
      ((line ++ beg.takeWhile fun c => !sep c) :: r.1, r.2) := by
  have hpre : ∀ c ∈ beg.takeWhile (fun c => !sep c), c ≠ cr ∧ c ≠ lf := by
    intro c hc
    have hnot := List.mem_takeWhile_imp hc
    rw [Bool.not_eq_true', ← Bool.not_eq_true, hsep] at hnot
    exact not_or.mp hnot
  conv_lhs => rw [← List.takeWhile_append_dropWhile (p := fun c => !sep c) (l := beg), hit]
  rw [linesFrom_append_of_no_newline hpre, linesFrom_newline h (newline_of_dropWhile hsep hit)]

end Separators

end UniversalNewlines

end Acqua
