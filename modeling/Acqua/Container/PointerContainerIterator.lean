import Mathlib

/-! `pointer_container_iterator`: an iterator with a pointer to its container, compared to others
by cases on who has one. -/

namespace Acqua

/-- `ptr` is the container that is owned, if any; `it` means nothing without one. -/
structure PointerContainerIterator (γ ι : Type*) where
  ptr : Option γ
  it : ι

namespace PointerContainerIterator

section Equality

variable {γ ι : Type*} [DecidableEq ι] (end' : γ → ι)

/-- `operator*`, where it refers to an element: the element at a place of a container. -/
def element (a : PointerContainerIterator γ ι) : Option (γ × ι) :=
  match a.ptr with
  | some p => if a.it = end' p then none else some (p, a.it)
  | none => none

variable {end'} {a b c : PointerContainerIterator γ ι} {p q : γ}

theorem element_of_none (ha : a.ptr = none) : a.element end' = none := by
  rw [element, ha]

theorem element_of_some (ha : a.ptr = some p) :
    a.element end' = if a.it = end' p then none else some (p, a.it) := by
  rw [element, ha]

theorem exists_of_element {e : γ × ι} (h : a.element end' = some e) :
    a.ptr = some e.1 ∧ a.it = e.2 ∧ a.it ≠ end' e.1 := by
  cases ha : a.ptr with
  | none =>
    rw [element_of_none ha] at h
    exact absurd h (Option.some_ne_none e).symm
  | some p =>
    rw [element_of_some ha] at h
    split_ifs at h with hend
    obtain rfl := Option.some.inj h
    exact ⟨rfl, rfl, hend⟩

theorem it_of_element_eq_none (ha : a.ptr = some p) (h : a.element end' = none) :
    a.it = end' p := by
  rw [element_of_some ha] at h
  by_contra hend
  rw [if_neg hend] at h
  exact absurd h (Option.some_ne_none _)

variable [DecidableEq γ] (end')

/-- `operator==`. -/
def eq (lhs rhs : PointerContainerIterator γ ι) : Bool :=
  match lhs.ptr, rhs.ptr with
  | some l, some r => !(l = r && lhs.it ≠ rhs.it)
  | some l, none => !(lhs.it ≠ end' l)
  | none, some r => !(rhs.it ≠ end' r)
  | none, none => true

variable {end'}

theorem eq_of_none (ha : a.ptr = none) (hb : b.ptr = none) : a.eq end' b = true := by
  rw [eq, ha, hb]

theorem eq_none_iff (ha : a.ptr = some p) (hb : b.ptr = none) :
    a.eq end' b = true ↔ a.it = end' p := by
  simp [eq, ha, hb]

theorem eq_same_iff (ha : a.ptr = some p) (hb : b.ptr = some p) :
    a.eq end' b = true ↔ a.it = b.it := by
  simp [eq, ha, hb]

theorem eq_of_ne (ha : a.ptr = some p) (hb : b.ptr = some q) (h : p ≠ q) :
    a.eq end' b = true := by
  simp [eq, ha, hb, h]

theorem eq_swap (a b : PointerContainerIterator γ ι) : a.eq end' b = b.eq end' a := by
  cases ha : a.ptr with
  | none =>
    cases hb : b.ptr with
    | none => simp [eq, ha, hb]
    | some q => simp [eq, ha, hb]
  | some p =>
    cases hb : b.ptr with
    | none => simp [eq, ha, hb]
    | some q => simp [eq, ha, hb, eq_comm]

theorem eq_self (a : PointerContainerIterator γ ι) : a.eq end' a = true := by
  cases ha : a.ptr with
  | none => exact eq_of_none ha ha
  | some p => exact (eq_same_iff ha ha).mpr rfl

variable (end') (S : Set (PointerContainerIterator γ ι))

/-- On `S`, `operator==` is an equivalence, and iterators that it takes for equal refer to the same
element if both do to any. -/
structure RightOn : Prop where
  equivalence : Equivalence fun a b : S => a.1.eq end' b.1 = true
  element_eq : ∀ a ∈ S, ∀ b ∈ S, a.eq end' b = true →
    ∀ e f, a.element end' = some e → b.element end' = some f → e = f

/-- An iterator that refers to an element has none of another container beside it; or else that
one is at the end, all own a container, and those of its own container are where it is. -/
def Unmixed : Prop :=
  ∀ a ∈ S, a.element end' ≠ none → ∀ b ∈ S, b.ptr ≠ none → b.ptr ≠ a.ptr →
    b.element end' = none ∧ ∀ c ∈ S, c.ptr ≠ none ∧ (c.ptr = a.ptr → c.it = a.it)

variable {end' S}

theorem RightOn.unmixed (h : RightOn end' S) : Unmixed end' S := by
  intro a ha hdereferenced b hb howner hother
  obtain ⟨e, he⟩ := Option.ne_none_iff_exists'.mp hdereferenced
  obtain ⟨q, hq⟩ := Option.ne_none_iff_exists'.mp howner
  obtain ⟨hp, hit, hend⟩ := exists_of_element he
  have hne : q ≠ e.1 := by
    rintro rfl
    exact hother (hq.trans hp.symm)
  have hba : b.eq end' a = true := eq_of_ne hq hp hne
  have htrans : ∀ c ∈ S, c.eq end' b = true → c.eq end' a = true := fun c hc hcb =>
    h.equivalence.trans (x := ⟨c, hc⟩) (y := ⟨b, hb⟩) (z := ⟨a, ha⟩) hcb hba
  have hlast : b.element end' = none := by
    by_contra hsome
    obtain ⟨f, hf⟩ := Option.ne_none_iff_exists'.mp hsome
    obtain rfl := h.element_eq b hb a ha hba f e hf he
    exact hother ((exists_of_element hf).1.trans hp.symm)
  refine ⟨hlast, fun c hc => ⟨fun hnone => hend ?_, fun hsame => ?_⟩⟩
  · have hcb : c.eq end' b = true := by
      rw [eq_swap]
      exact (eq_none_iff hq hnone).mpr (it_of_element_eq_none hq hlast)
    rw [← eq_none_iff hp hnone, eq_swap]
    exact htrans c hc hcb
  · have hcp := hsame.trans hp
    exact (eq_same_iff hcp hp).mp (htrans c hc (eq_of_ne hcp hq hne.symm))

theorem eq_of_ends (ha : a.element end' = none) (hb : b.element end' = none) :
    a.eq end' b = true := by
  cases hp : a.ptr with
  | none =>
    cases hq : b.ptr with
    | none => exact eq_of_none hp hq
    | some q =>
      rw [eq_swap]
      exact (eq_none_iff hq hp).mpr (it_of_element_eq_none hq hb)
  | some p =>
    have hit := it_of_element_eq_none hp ha
    cases hq : b.ptr with
    | none => exact (eq_none_iff hp hq).mpr hit
    | some q =>
      by_cases hpq : p = q
      · rw [← hpq] at hq
        exact (eq_same_iff hp hq).mpr (hit.trans (it_of_element_eq_none hq hb).symm)
      · exact eq_of_ne hp hq hpq

theorem Unmixed.trans_of_element (h : Unmixed end' S) {a b c : PointerContainerIterator γ ι}
    (ha : a ∈ S) (hb : b ∈ S) (hc : c ∈ S) (hdereferenced : a.element end' ≠ none)
    (hab : a.eq end' b = true) (hbc : b.eq end' c = true) : a.eq end' c = true := by
  obtain ⟨e, he⟩ := Option.ne_none_iff_exists'.mp hdereferenced
  obtain ⟨hp, -, hend⟩ := exists_of_element he
  have hgoal : c.ptr ≠ none → (c.ptr = a.ptr → c.it = a.it) → a.eq end' c = true := by
    intro howner hsame
    obtain ⟨r, hr⟩ := Option.ne_none_iff_exists'.mp howner
    by_cases hpr : e.1 = r
    · rw [← hpr] at hr
      exact (eq_same_iff hp hr).mpr (hsame (hr.trans hp.symm)).symm
    · exact eq_of_ne hp hr hpr
  cases hq : b.ptr with
  | none => exact absurd ((eq_none_iff hp hq).mp hab) hend
  | some q =>
    by_cases hpq : e.1 = q
    · rw [← hpq] at hq
      have hit := (eq_same_iff hp hq).mp hab
      refine hgoal (fun hnone => hend ?_) (fun hsame => ?_)
      · exact hit.trans ((eq_none_iff hq hnone).mp hbc)
      · exact (hit.trans ((eq_same_iff hq (hsame.trans hp)).mp hbc)).symm
    · have hother : b.ptr ≠ a.ptr := fun heq =>
        hpq (Option.some.inj (hp.symm.trans (heq.symm.trans hq)))
      obtain ⟨howner, hsame⟩ := (h a ha hdereferenced b hb (by simp [hq]) hother).2 c hc
      exact hgoal howner hsame

theorem Unmixed.trans (h : Unmixed end' S) {a b c : PointerContainerIterator γ ι} (ha : a ∈ S)
    (hb : b ∈ S) (hc : c ∈ S) (hab : a.eq end' b = true) (hbc : b.eq end' c = true) :
    a.eq end' c = true := by
  by_cases hdereferenced : a.element end' = none
  · by_cases hlast : c.element end' = none
    · exact eq_of_ends hdereferenced hlast
    · rw [eq_swap] at hab hbc ⊢
      exact h.trans_of_element hc hb ha hlast hbc hab
  · exact h.trans_of_element ha hb hc hdereferenced hab hbc

/-- The comparison is right on a set of iterators exactly where it does not mix containers. -/
theorem iterator_equality_iff (S : Set (PointerContainerIterator γ ι)) :
    RightOn end' S ↔ Unmixed end' S := by
  refine ⟨RightOn.unmixed, fun h => ⟨⟨fun a => eq_self a.1, ?_, ?_⟩, ?_⟩⟩
  · intro a b hab
    rwa [eq_swap]
  · intro a b c hab hbc
    exact h.trans a.2 b.2 c.2 hab hbc
  · intro a ha b hb hab e f he hf
    obtain ⟨hp, hit, -⟩ := exists_of_element he
    obtain ⟨hq, hit', -⟩ := exists_of_element hf
    by_cases hsame : e.1 = f.1
    · rw [← hsame] at hq
      exact Prod.ext hsame (hit.symm.trans (((eq_same_iff hp hq).mp hab).trans hit'))
    · have hother : b.ptr ≠ a.ptr := fun heq =>
        hsame (Option.some.inj (hp.symm.trans (heq.symm.trans hq)))
      have hnone := (h a ha (by simp [he]) b hb (by simp [hq]) hother).1
      exact absurd (hf.symm.trans hnone) (Option.some_ne_none f)

end Equality

/-- Iterators into two vectors of one element each are equal, and so are the second one's end and
the default; the first iterator and the default are not. -/
theorem not_right_of_two_containers :
    let end' : Nat → Nat := fun _ => 1
    let first : PointerContainerIterator Nat Nat := ⟨some 0, 0⟩
    let other : PointerContainerIterator Nat Nat := ⟨some 1, 0⟩
    let last : PointerContainerIterator Nat Nat := ⟨some 1, 1⟩
    let default : PointerContainerIterator Nat Nat := ⟨none, 0⟩
    (first.eq end' other = true ∧ first.element end' ≠ other.element end') ∧
      (first.eq end' last = true ∧ last.eq end' default = true ∧ first.eq end' default = false) ∧
      ¬ RightOn end' Set.univ := by
  intro end' first other last default
  refine ⟨by decide, by decide, fun h => ?_⟩
  have hsame := h.element_eq first trivial other trivial (by decide) (0, 0) (1, 0) rfl rfl
  exact absurd hsame (by decide)

end PointerContainerIterator

end Acqua
