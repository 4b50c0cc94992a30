import Mathlib

/-! Requests of a number of elements that are answered with whole pieces: a piece that is begun
within the number is taken to its end. -/

namespace Acqua

section PieceFill

variable {ω : Type*}

/-- What is taken when `n` elements are asked for, and the pieces left. -/
def fill (n : Nat) : List (List ω) → List ω × List (List ω)
  | [] => ([], [])
  | p :: ps =>
    if n = 0 then ([], p :: ps)
    else
      let r := fill (n - p.length) ps
      (p ++ r.1, r.2)

/-- Some first pieces have `n` elements, or there are not more than that. -/
def AtBoundary (ps : List (List ω)) (n : Nat) : Prop :=
  (∃ qs, qs <+: ps ∧ qs.flatten.length = n) ∨ ps.flatten.length ≤ n

theorem atBoundary_zero (ps : List (List ω)) : AtBoundary ps 0 :=
  .inl ⟨[], List.nil_prefix, rfl⟩

theorem atBoundary_nil (n : Nat) : AtBoundary ([] : List (List ω)) n :=
  .inr (Nat.zero_le n)

theorem atBoundary_cons {p : List ω} {ps : List (List ω)} {n : Nat} (hn : n ≠ 0) :
    AtBoundary (p :: ps) n ↔ p.length ≤ n ∧ AtBoundary ps (n - p.length) := by
  constructor
  · rintro (⟨qs, hqs, hlength⟩ | hle)
    · cases qs with
      | nil => exact absurd hlength.symm hn
      | cons q qs =>
        obtain ⟨rfl, hrest⟩ := List.cons_prefix_cons.mp hqs
        rw [List.flatten_cons, List.length_append] at hlength
        exact ⟨by omega, .inl ⟨qs, hrest, by omega⟩⟩
    · rw [List.flatten_cons, List.length_append] at hle
      exact ⟨by omega, .inr (by omega)⟩
  · rintro ⟨hle, ⟨qs, hqs, hlength⟩ | hrest⟩
    · refine .inl ⟨p :: qs, List.cons_prefix_cons.mpr ⟨rfl, hqs⟩, ?_⟩
      rw [List.flatten_cons, List.length_append]
      omega
    · refine .inr ?_
      rw [List.flatten_cons, List.length_append]
      omega

theorem length_fill_le_iff (ps : List (List ω)) (n : Nat) :
    (fill n ps).1.length ≤ n ↔ AtBoundary ps n := by
  induction ps generalizing n with
  | nil => exact iff_of_true (Nat.zero_le n) (atBoundary_nil n)
  | cons p ps ih =>
    by_cases hn : n = 0
    · subst hn
      rw [fill, if_pos rfl]
      exact iff_of_true (Nat.zero_le 0) (atBoundary_zero _)
    · have hrest := ih (n - p.length)
      rw [fill, if_neg hn, atBoundary_cons hn, ← hrest, List.length_append]
      omega

theorem atBoundary_add_iff {ps : List (List ω)} {n : Nat} (h : (fill n ps).1.length ≤ n)
    (k : Nat) : AtBoundary ps (n + k) ↔ AtBoundary (fill n ps).2 k := by
  induction ps generalizing n with
  | nil => exact iff_of_true (atBoundary_nil (n + k)) (atBoundary_nil k)
  | cons p ps ih =>
    by_cases hn : n = 0
    · subst hn
      rw [fill, if_pos rfl, Nat.zero_add]
    · rw [fill, if_neg hn, List.length_append] at h
      have hrest := ih (n := n - p.length) (by omega)
      have hsum : n + k - p.length = n - p.length + k := by omega
      rw [fill, if_neg hn, atBoundary_cons (by omega), hsum, hrest]
      exact and_iff_right (by omega)

theorem fill_eq {ps : List (List ω)} {n : Nat} (h : (fill n ps).1.length ≤ n) :
    (fill n ps).1 = ps.flatten.take n ∧ (fill n ps).2.flatten = ps.flatten.drop n := by
  induction ps generalizing n with
  | nil => exact ⟨List.take_nil.symm, List.drop_nil.symm⟩
  | cons p ps ih =>
    by_cases hn : n = 0
    · subst hn
      rw [fill, if_pos rfl]
      exact ⟨rfl, rfl⟩
    · rw [fill, if_neg hn, List.length_append] at h
      obtain ⟨hout, hrest⟩ := ih (n := n - p.length) (by omega)
      rw [fill, if_neg hn, List.flatten_cons, List.take_append, List.drop_append,
        List.take_of_length_le (by omega), List.drop_of_length_le (by omega)]
      exact ⟨congrArg (p ++ ·) hout, hrest⟩

/-- One request after the other, each number with its answer. -/
def fills : List Nat → List (List ω) → List (Nat × List ω)
  | [], _ => []
  | n :: ns, ps => (n, (fill n ps).1) :: fills ns (fill n ps).2

/-- No answer is too long exactly when the numbers asked for up to the end of each request are
those of whole pieces. -/
theorem fills_bounded_iff (ns : List Nat) (ps : List (List ω)) :
    (∀ r ∈ fills ns ps, r.2.length ≤ r.1) ↔ ∀ pre, pre <+: ns → AtBoundary ps pre.sum := by
  induction ns generalizing ps with
  | nil =>
    refine iff_of_true (fun r hr => absurd hr List.not_mem_nil) (fun pre hpre => ?_)
    rw [List.prefix_nil.mp hpre]
    exact atBoundary_zero ps
  | cons n ns ih =>
    rw [fills, List.forall_mem_cons, ih, length_fill_le_iff]
    constructor
    · rintro ⟨hfirst, hrest⟩ pre hpre
      cases pre with
      | nil => exact atBoundary_zero ps
      | cons m pre =>
        obtain ⟨rfl, hpre'⟩ := List.cons_prefix_cons.mp hpre
        rw [List.sum_cons, atBoundary_add_iff ((length_fill_le_iff ps m).mpr hfirst)]
        exact hrest pre hpre'
    · intro hall
      have hfirst := hall [n] (List.prefix_append [n] ns)
      rw [List.sum_singleton] at hfirst
      refine ⟨hfirst, fun pre hpre => ?_⟩
      have hsum := hall (n :: pre) (List.cons_prefix_cons.mpr ⟨rfl, hpre⟩)
      rwa [List.sum_cons, atBoundary_add_iff ((length_fill_le_iff ps n).mpr hfirst)] at hsum

theorem flatMap_fills {ns : List Nat} {ps : List (List ω)}
    (h : ∀ r ∈ fills ns ps, r.2.length ≤ r.1) :
    (fills ns ps).flatMap Prod.snd = ps.flatten.take ns.sum := by
  induction ns generalizing ps with
  | nil => rfl
  | cons n ns ih =>
    rw [fills, List.forall_mem_cons] at h
    obtain ⟨hout, hrest⟩ := fill_eq h.1
    rw [fills, List.flatMap_cons, ih h.2, hout, hrest, List.sum_cons, List.take_add]

end PieceFill

end Acqua
