import Mathlib

/-! Sums with end-around carry: the carry out of the `w` low bits is added to them. -/

namespace Acqua

variable {w : Nat}

/-- The low bits and the carry out of them. -/
def endAround (w n : Nat) : Nat := n % 2 ^ w + n / 2 ^ w

/-- The one's complement sum of words of `w` bits. -/
def onesSum (w : Nat) (words : List Nat) : Nat := words.foldl (fun s x => endAround w (s + x)) 0

@[simp]
theorem endAround_eq_zero {n : Nat} : endAround w n = 0 ↔ n = 0 := by
  constructor
  · intro h
    obtain ⟨hmod, hdiv⟩ := Nat.add_eq_zero_iff.mp h
    rw [← Nat.div_add_mod n (2 ^ w), hmod, hdiv]
    rfl
  · rintro rfl
    simp [endAround]

theorem endAround_modEq (n : Nat) : endAround w n ≡ n [MOD 2 ^ w - 1] := by
  have hone : 2 ^ w ≡ 1 [MOD 2 ^ w - 1] :=
    ((Nat.modEq_iff_dvd' Nat.one_le_two_pow).mpr dvd_rfl).symm
  calc endAround w n = 1 * (n / 2 ^ w) + n % 2 ^ w := by rw [endAround, one_mul, add_comm]
    _ ≡ 2 ^ w * (n / 2 ^ w) + n % 2 ^ w [MOD 2 ^ w - 1] :=
      Nat.ModEq.add_right _ (Nat.ModEq.mul_right _ hone.symm)
    _ = n := Nat.div_add_mod n (2 ^ w)

theorem endAround_lt {n : Nat} (h : n ≤ 2 * (2 ^ w - 1)) : endAround w n < 2 ^ w := by
  have hpos : 0 < 2 ^ w := Nat.two_pow_pos w
  have hmod := Nat.mod_lt n hpos
  have hdiv := Nat.div_add_mod n (2 ^ w)
  rw [endAround]
  by_cases hlt : n < 2 ^ w
  · rw [Nat.div_eq_of_lt hlt]
    omega
  · have hone : n / 2 ^ w = 1 := by
      have hle : n / 2 ^ w < 2 := (Nat.div_lt_iff_lt_mul hpos).mpr (by omega)
      have hge : 1 ≤ n / 2 ^ w := (Nat.one_le_div_iff hpos).mpr (by omega)
      omega
    rw [hone] at hdiv ⊢
    omega

theorem endAround_of_lt {n : Nat} (h : n < 2 ^ w) : endAround w n = n := by
  rw [endAround, Nat.mod_eq_of_lt h, Nat.div_eq_of_lt h, add_zero]

theorem endAround_le (n : Nat) : endAround w n ≤ (2 ^ w - 1) + n / 2 ^ w := by
  have hmod := Nat.mod_lt n (Nat.two_pow_pos w)
  rw [endAround]
  omega

theorem eq_of_modEq_pred {x y : Nat} (hx : x < 2 ^ w) (hy : y < 2 ^ w)
    (h : x ≡ y [MOD 2 ^ w - 1]) (hzero : x = 0 ↔ y = 0) : x = y := by
  wlog hle : x ≤ y generalizing x y
  · exact (this hy hx h.symm hzero.symm (by omega)).symm
  · obtain ⟨k, hk⟩ := (Nat.modEq_iff_dvd' hle).mp h
    rcases Nat.eq_zero_or_pos k with rfl | hpos
    · omega
    · have hmul : (2 ^ w - 1) * 1 ≤ (2 ^ w - 1) * k := Nat.mul_le_mul_left _ hpos
      have hx0 : x = 0 := by omega
      rw [hx0, hzero.mp hx0]

section OnesSum

variable {words words' : List Nat}

theorem foldl_endAround (hwords : ∀ x ∈ words, x < 2 ^ w) {s : Nat} (hs : s < 2 ^ w) :
    words.foldl (fun s x => endAround w (s + x)) s < 2 ^ w ∧
      words.foldl (fun s x => endAround w (s + x)) s ≡ s + words.sum [MOD 2 ^ w - 1] ∧
      (words.foldl (fun s x => endAround w (s + x)) s = 0 ↔ s + words.sum = 0) := by
  induction words generalizing s with
  | nil => exact ⟨hs, Nat.ModEq.refl _, Iff.rfl⟩
  | cons x words ih =>
    have hx := hwords x (by simp)
    obtain ⟨hlt, hmod, hzero⟩ := ih (fun y hy => hwords y (List.mem_cons_of_mem _ hy))
      (endAround_lt (by omega : s + x ≤ 2 * (2 ^ w - 1)))
    rw [List.foldl_cons, List.sum_cons]
    refine ⟨hlt, hmod.trans ?_, hzero.trans ?_⟩
    · rw [← add_assoc]
      exact (endAround_modEq (s + x)).add_right _
    · rw [← add_assoc, Nat.add_eq_zero_iff, endAround_eq_zero, ← Nat.add_eq_zero_iff]

theorem onesSum_lt (hwords : ∀ x ∈ words, x < 2 ^ w) : onesSum w words < 2 ^ w :=
  (foldl_endAround hwords (Nat.two_pow_pos w)).1

theorem onesSum_modEq (hwords : ∀ x ∈ words, x < 2 ^ w) :
    onesSum w words ≡ words.sum [MOD 2 ^ w - 1] := by
  have hmod := (foldl_endAround hwords (Nat.two_pow_pos w)).2.1
  rwa [zero_add] at hmod

theorem onesSum_eq_zero (hwords : ∀ x ∈ words, x < 2 ^ w) :
    onesSum w words = 0 ↔ words.sum = 0 := by
  have hzero := (foldl_endAround hwords (Nat.two_pow_pos w)).2.2
  rwa [zero_add] at hzero

theorem onesSum_eq_iff (hwords : ∀ x ∈ words, x < 2 ^ w) {x : Nat} (hx : x < 2 ^ w) :
    onesSum w words = x ↔ words.sum ≡ x [MOD 2 ^ w - 1] ∧ (words.sum = 0 ↔ x = 0) := by
  constructor
  · rintro rfl
    exact ⟨(onesSum_modEq hwords).symm, (onesSum_eq_zero hwords).symm⟩
  · rintro ⟨hmod, hzero⟩
    exact eq_of_modEq_pred (onesSum_lt hwords) hx ((onesSum_modEq hwords).trans hmod)
      ((onesSum_eq_zero hwords).trans hzero)

end OnesSum

end Acqua
