import Acqua.Ctype

/-! Decimal numbers in octets, and texts of several parts. -/

namespace Acqua

def decimalValue (digits : List UInt8) : Nat :=
  digits.foldl (fun n ch => 10 * n + (ch.toNat - 48)) 0

theorem octets_repr (n : Nat) : octets (Nat.repr n) = (Nat.toDigits 10 n).map chr := by
  simp [octets, Nat.repr]

theorem toDigits_range {n : Nat} {c : Char} (hc : c ∈ Nat.toDigits 10 n) :
    48 ≤ c.toNat ∧ c.toNat ≤ 57 := by
  have hdigit := Nat.isDigit_of_mem_toDigits (by decide) (by decide) hc
  simpa [Char.isDigit, UInt32.le_iff_toNat_le] using hdigit

theorem isdigit_repr (n : Nat) : ∀ ch ∈ octets (Nat.repr n), isdigit ch := by
  rw [octets_repr]
  intro ch hch
  obtain ⟨c, hc, rfl⟩ := List.mem_map.mp hch
  obtain ⟨hlow, hhigh⟩ := toDigits_range hc
  have hnat : (chr c).toNat = c.toNat := toNat_chr (by omega)
  have hzero : (chr '0').toNat = 48 := rfl
  have hnine : (chr '9').toNat = 57 := rfl
  simp only [isdigit, UInt8.le_iff_toNat_le, hnat, hzero, hnine, decide_eq_true_eq]
  exact ⟨hlow, hhigh⟩

theorem foldl_digits {cs : List Char} (hcs : ∀ c ∈ cs, 48 ≤ c.toNat ∧ c.toNat ≤ 57) (n : Nat) :
    (cs.map chr).foldl (fun n ch => 10 * n + (ch.toNat - 48)) n = Nat.ofDigitChars 10 cs n := by
  induction cs generalizing n with
  | nil => simp
  | cons c cs ih =>
    have hc := hcs c (by simp)
    rw [List.map_cons, List.foldl_cons, Nat.ofDigitChars_cons, toNat_chr (by omega)]
    exact ih (fun d hd => hcs d (by simp [hd])) _

theorem decimalValue_repr (n : Nat) : decimalValue (octets (Nat.repr n)) = n := by
  rw [decimalValue, octets_repr, foldl_digits fun c hc => toDigits_range hc,
    Nat.ofDigitChars_ten_toDigits]

theorem octets_repr_inj {m n : Nat} (h : octets (Nat.repr m) = octets (Nat.repr n)) : m = n := by
  rw [← decimalValue_repr m, h, decimalValue_repr]

theorem octets_repr_ne_nil (n : Nat) : octets (Nat.repr n) ≠ [] := by
  rw [octets_repr]
  simp [Nat.toDigits_ne_nil]

theorem length_repr_le {n k : Nat} (hk : 0 < k) : (octets (Nat.repr n)).length ≤ k ↔ n < 10 ^ k := by
  rw [octets_repr, List.length_map]
  exact Nat.length_toDigits_le_iff (by decide) hk

theorem intercalate_cons {α : Type*} (sep : α) (part : List α) (parts : List (List α)) :
    [sep].intercalate (part :: parts) = part ++ parts.flatMap (sep :: ·) := by
  induction parts generalizing part with
  | nil => rw [List.intercalate_singleton, List.flatMap_nil, List.append_nil]
  | cons next parts ih =>
    rw [List.intercalate_cons_cons, ih, List.flatMap_cons, List.append_assoc, List.singleton_append,
      List.cons_append]

end Acqua
