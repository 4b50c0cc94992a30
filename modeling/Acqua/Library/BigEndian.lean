import Mathlib

/-! Strings of octets as numbers, and what a carry does to them. -/

namespace Acqua

/-- The number with these octets, the least significant one first. -/
def littleValue (digits : List UInt8) : Nat := Nat.ofDigits 256 (digits.map UInt8.toNat)

/-- The number with these octets, the most significant one first. -/
def value (bytes : List UInt8) : Nat := littleValue bytes.reverse

@[simp]
theorem littleValue_nil : littleValue [] = 0 := rfl

@[simp]
theorem littleValue_cons (digit : UInt8) (digits : List UInt8) :
    littleValue (digit :: digits) = digit.toNat + 256 * littleValue digits := by
  simp [littleValue, Nat.ofDigits_cons]

theorem littleValue_lt (digits : List UInt8) : littleValue digits < 256 ^ digits.length := by
  have hlt := Nat.ofDigits_lt_base_pow_length (b := 256) (l := digits.map UInt8.toNat)
    (by decide) (by simpa using fun digit _ => digit.toNat_lt)
  rwa [List.length_map] at hlt

theorem littleValue_inj {digits digits' : List UInt8} (hlen : digits.length = digits'.length)
    (h : littleValue digits = littleValue digits') : digits = digits' := by
  have hdigits : ∀ digits : List UInt8, ∀ n ∈ digits.map UInt8.toNat, n < 256 := by
    simpa using fun _ digit _ => digit.toNat_lt
  have hmap := Nat.ofDigits_inj_of_len_eq (b := 256) (by decide) (by simpa using hlen)
    (hdigits digits) (hdigits digits') h
  exact List.map_injective_iff.mpr (fun _ _ => UInt8.toNat_inj.mp) hmap

/-- The octets of a number in a field of this width, the least significant one first. -/
def littleOctets : Nat → Nat → List UInt8
  | 0, _ => []
  | width + 1, n => UInt8.ofNat n :: littleOctets width (n / 256)

@[simp]
theorem length_littleOctets (width n : Nat) : (littleOctets width n).length = width := by
  induction width generalizing n with
  | zero => rfl
  | succ width ih => rw [littleOctets, List.length_cons, ih]

theorem littleValue_littleOctets {width n : Nat} (h : n < 256 ^ width) :
    littleValue (littleOctets width n) = n := by
  induction width generalizing n with
  | zero =>
    rw [pow_zero] at h
    rw [littleOctets, littleValue_nil]
    omega
  | succ width ih =>
    rw [pow_succ] at h
    rw [littleOctets, littleValue_cons, ih (Nat.div_lt_of_lt_mul (by linarith)),
      UInt8.toNat_ofNat']
    exact Nat.mod_add_div n 256

theorem value_lt (bytes : List UInt8) : value bytes < 256 ^ bytes.length := by
  simpa [value] using littleValue_lt bytes.reverse

theorem value_inj {bytes bytes' : List UInt8} (hlen : bytes.length = bytes'.length)
    (h : value bytes = value bytes') : bytes = bytes' :=
  List.reverse_injective (littleValue_inj (by simpa using hlen) h)

theorem digit_add_emod {digit base : Int} (h : 0 ≤ digit) (hlt : digit < base) (n : Int)
    {modulus : Int} (hmodulus : 0 < modulus) :
    digit + base * (n % modulus) = (digit + base * n) % (base * modulus) := by
  have hnonneg := Int.emod_nonneg n hmodulus.ne'
  have hmod := Int.emod_lt_of_pos n hmodulus
  have hsplit : digit + base * n =
      digit + base * (n % modulus) + base * modulus * (n / modulus) := by
    linear_combination base * (Int.mul_ediv_add_emod n modulus).symm
  rw [hsplit, Int.add_mul_emod_self_left]
  have hbase : 0 < base := h.trans_lt hlt
  refine (Int.emod_eq_of_lt (add_nonneg h (mul_nonneg hbase.le hnonneg)) ?_).symm
  nlinarith

theorem toNat_ofInt (n : Int) : ((UInt8.ofInt n).toNat : Int) = n % 256 := by
  have hnonneg := Int.emod_nonneg n (show (256 : Int) ≠ 0 by decide)
  have hlt := Int.emod_lt_of_pos n (show (0 : Int) < 256 by decide)
  rw [UInt8.ofInt, UInt8.toNat_ofNat']
  omega

section Residue

variable {n : Nat}

/-- The residue of a string of `n` octets. -/
def residue (n : Nat) (bytes : List UInt8) : ZMod (256 ^ n) := value bytes

theorem residue_inj {bytes bytes' : List UInt8} (hlen : bytes.length = n)
    (hlen' : bytes'.length = n) (h : residue n bytes = residue n bytes') : bytes = bytes' := by
  have hlt := value_lt bytes
  have hlt' := value_lt bytes'
  rw [hlen] at hlt
  rw [hlen'] at hlt'
  have hmod := (ZMod.natCast_eq_natCast_iff' _ _ _).mp h
  rw [Nat.mod_eq_of_lt hlt, Nat.mod_eq_of_lt hlt'] at hmod
  exact value_inj (hlen.trans hlen'.symm) hmod

theorem residue_eq_iff {bytes : List UInt8} (hlen : bytes.length = n) (x : Int) :
    residue n bytes = x ↔ (value bytes : Int) = x % 256 ^ n := by
  have hlt := value_lt bytes
  rw [hlen] at hlt
  have hcast : residue n bytes = ((value bytes : Int) : ZMod (256 ^ n)) := by
    rw [residue, Int.cast_natCast]
  have hself : (value bytes : Int) % 256 ^ n = value bytes :=
    Int.emod_eq_of_lt (Int.natCast_nonneg _) (by exact_mod_cast hlt)
  rw [hcast, ZMod.intCast_eq_intCast_iff, Int.ModEq]
  push_cast
  rw [hself]

end Residue

end Acqua
