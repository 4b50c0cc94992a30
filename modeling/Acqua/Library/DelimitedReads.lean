import Mathlib

/-! The search for a delimiter in a stream that comes in pieces. -/

namespace Acqua

section Find

variable {α : Type*} [DecidableEq α]

/-- The position behind the first delimiter. -/
def findDelimiter (delim : List α) : List α → Option Nat
  | [] => if delim = [] then some 0 else none
  | a :: s =>
    if delim.isPrefixOf (a :: s) then some delim.length else (findDelimiter delim s).map (· + 1)

/-- The pieces are put to the buffer until a delimiter is found in it: the position behind it, the
buffer and the pieces left, or nothing when the pieces end. -/
def readDelimited (delim buffer : List α) (pieces : List (List α)) :
    Option (Nat × List α × List (List α)) :=
  match findDelimiter delim buffer with
  | some n => some (n, buffer, pieces)
  | none =>
    match pieces with
    | [] => none
    | piece :: pieces => readDelimited delim (buffer ++ piece) pieces

variable {delim s rest buffer : List α} {pieces : List (List α)} {n : Nat} {a : α}

theorem findDelimiter_of_prefix (hne : delim ≠ []) (h : delim <+: s) :
    findDelimiter delim s = some delim.length := by
  cases s with
  | nil => exact absurd (List.prefix_nil.mp h) hne
  | cons a s => rw [findDelimiter, if_pos (List.isPrefixOf_iff_prefix.mpr h)]

theorem findDelimiter_cons (h : ¬ delim <+: a :: s) :
    findDelimiter delim (a :: s) = (findDelimiter delim s).map (· + 1) := by
  rw [findDelimiter, if_neg (fun hpre => h (List.isPrefixOf_iff_prefix.mp hpre))]

theorem findDelimiter_le (h : findDelimiter delim s = some n) :
    delim.length ≤ n ∧ n ≤ s.length := by
  induction s generalizing n with
  | nil =>
    rw [findDelimiter] at h
    split_ifs at h with hdelim
    cases h
    simp [hdelim]
  | cons a s ih =>
    by_cases hpre : delim <+: a :: s
    · rw [findDelimiter, if_pos (List.isPrefixOf_iff_prefix.mpr hpre)] at h
      cases h
      exact ⟨le_rfl, hpre.length_le⟩
    · rw [findDelimiter_cons hpre] at h
      obtain ⟨m, hm, rfl⟩ := Option.map_eq_some_iff.mp h
      have hle := ih hm
      rw [List.length_cons]
      omega

/-- What is found is found whatever comes behind. -/
theorem findDelimiter_append (h : findDelimiter delim s = some n) (t : List α) :
    findDelimiter delim (s ++ t) = some n := by
  induction s generalizing n with
  | nil =>
    rw [findDelimiter] at h
    split_ifs at h with hdelim
    cases h
    cases t <;> simp [findDelimiter, hdelim]
  | cons a s ih =>
    by_cases hpre : delim <+: a :: s
    · rw [findDelimiter, if_pos (List.isPrefixOf_iff_prefix.mpr hpre)] at h
      have hmore : delim <+: a :: (s ++ t) := hpre.trans ⟨t, rfl⟩
      rw [List.cons_append, findDelimiter, if_pos (List.isPrefixOf_iff_prefix.mpr hmore), h]
    · rw [findDelimiter_cons hpre] at h
      obtain ⟨m, hm, rfl⟩ := Option.map_eq_some_iff.mp h
      have hle := findDelimiter_le hm
      have hmore : ¬ delim <+: a :: (s ++ t) := fun hmore =>
        hpre (List.prefix_of_prefix_length_le hmore ⟨t, rfl⟩ (by rw [List.length_cons]; omega))
      rw [List.cons_append, findDelimiter_cons hmore, ih hm, Option.map_some]

theorem findDelimiter_left_none {t : List α} (h : findDelimiter delim (s ++ t) = none) :
    findDelimiter delim s = none := by
  rcases hs : findDelimiter delim s with _ | n
  · rfl
  · rw [findDelimiter_append hs] at h
    cases h

theorem findDelimiter_right_none {t : List α} (h : findDelimiter delim (s ++ t) = none) :
    findDelimiter delim t = none := by
  induction s with
  | nil => exact h
  | cons a s ih =>
    rw [List.cons_append, findDelimiter] at h
    split_ifs at h
    exact ih (Option.map_eq_none_iff.mp h)

/-- Nothing in front of the first delimiter ends in one. -/
theorem findDelimiter_take (hne : delim ≠ []) (h : findDelimiter delim s = some n) :
    findDelimiter delim (s.take (n - delim.length)) = none := by
  rcases hm : findDelimiter delim (s.take (n - delim.length)) with _ | m
  · rfl
  · have hle := (findDelimiter_le hm).2
    have hmn := findDelimiter_append hm (s.drop (n - delim.length))
    rw [List.take_append_drop, h] at hmn
    obtain rfl := Option.some.inj hmn
    have hn := (findDelimiter_le h).1
    have hpos := List.length_pos_of_ne_nil hne
    rw [List.length_take] at hle
    omega

/-- What a delimiter does not begin with is passed over. -/
theorem findDelimiter_run (hne : delim ≠ []) (h : ∀ b ∈ s, delim.head? ≠ some b) :
    findDelimiter delim (s ++ rest) = (findDelimiter delim rest).map (· + s.length) := by
  induction s with
  | nil => simp
  | cons b s ih =>
    obtain ⟨hb, hs⟩ := List.forall_mem_cons.mp h
    obtain ⟨d, ds, rfl⟩ := List.exists_cons_of_ne_nil hne
    have hpre : ¬ d :: ds <+: b :: (s ++ rest) := fun hpre =>
      hb (congrArg some (List.cons_prefix_cons.mp hpre).1)
    rw [List.cons_append, findDelimiter_cons hpre, ih hs, Option.map_map, List.length_cons]
    congr 1

theorem readDelimited_of_some (h : findDelimiter delim buffer = some n) (pieces : List (List α)) :
    readDelimited delim buffer pieces = some (n, buffer, pieces) := by
  cases pieces <;> simp only [readDelimited, h]

theorem readDelimited_of_none (h : findDelimiter delim buffer = none) (piece : List α)
    (pieces : List (List α)) :
    readDelimited delim buffer (piece :: pieces) = readDelimited delim (buffer ++ piece) pieces := by
  simp only [readDelimited, h]

/-- What is found depends on what comes in and not on how it is cut into pieces. -/
theorem readDelimited_bytes (h : findDelimiter delim (buffer ++ pieces.flatten) = some n) :
    ∃ buffer' pieces', readDelimited delim buffer pieces = some (n, buffer', pieces') ∧
      n ≤ buffer'.length ∧ buffer' ++ pieces'.flatten = buffer ++ pieces.flatten := by
  induction pieces generalizing buffer with
  | nil =>
    rw [List.flatten_nil, List.append_nil] at h
    exact ⟨buffer, [], readDelimited_of_some h [], (findDelimiter_le h).2, rfl⟩
  | cons piece pieces ih =>
    rcases hm : findDelimiter delim buffer with _ | m
    · rw [List.flatten_cons, ← List.append_assoc] at h ⊢
      rw [readDelimited_of_none hm]
      exact ih h
    · obtain rfl : m = n := Option.some.inj ((findDelimiter_append hm _).symm.trans h)
      exact ⟨buffer, piece :: pieces, readDelimited_of_some hm _, (findDelimiter_le hm).2, rfl⟩

theorem readDelimited_bytes_none (h : findDelimiter delim (buffer ++ pieces.flatten) = none) :
    readDelimited delim buffer pieces = none := by
  have hbuffer := findDelimiter_left_none h
  induction pieces generalizing buffer with
  | nil => simp only [readDelimited, hbuffer]
  | cons piece pieces ih =>
    rw [List.flatten_cons, ← List.append_assoc] at h
    rw [readDelimited_of_none hbuffer]
    exact ih h (findDelimiter_left_none h)

end Find

end Acqua
