import Mathlib

/-! The bits of octets, the most significant one first. -/

namespace Acqua

def octetBits (ch : UInt8) : List Bool := (List.range 8).map fun i => ch.toNat.testBit (7 - i)

def bits (bytes : List UInt8) : List Bool := bytes.flatMap octetBits

/-- A number of ones, and zeros up to a length. -/
def onesThenZeros (ones length : Nat) : List Bool :=
  List.replicate ones true ++ List.replicate (length - ones) false

@[simp]
theorem length_octetBits (ch : UInt8) : (octetBits ch).length = 8 := by simp [octetBits]

@[simp]
theorem bits_nil : bits [] = [] := rfl

@[simp]
theorem bits_cons (ch : UInt8) (rest : List UInt8) : bits (ch :: rest) = octetBits ch ++ bits rest :=
  List.flatMap_cons

theorem length_bits (bytes : List UInt8) : (bits bytes).length = 8 * bytes.length := by
  induction bytes with
  | nil => rfl
  | cons ch rest ih =>
    rw [bits_cons, List.length_append, length_octetBits, ih, List.length_cons]
    omega

theorem octetBits_injective : Function.Injective octetBits := by
  intro ch ch' h
  refine UInt8.toNat_inj.mp (Nat.eq_of_testBit_eq fun i => ?_)
  rcases Nat.lt_or_ge i 8 with hlt | hge
  · have hbit := congrArg (fun bs => bs[7 - i]?) h
    simp only [octetBits, List.getElem?_map, List.getElem?_range (show 7 - i < 8 by omega),
      Option.map_some, Option.some.injEq] at hbit
    rwa [show 7 - (7 - i) = i by omega] at hbit
  · have hpow : 2 ^ 8 ≤ 2 ^ i := Nat.pow_le_pow_right (by decide) hge
    rw [Nat.testBit_lt_two_pow (ch.toNat_lt.trans_le hpow),
      Nat.testBit_lt_two_pow (ch'.toNat_lt.trans_le hpow)]

theorem bits_injective : Function.Injective bits := by
  intro bytes bytes' h
  induction bytes generalizing bytes' with
  | nil =>
    have hlen := congrArg List.length h
    rw [length_bits, length_bits, List.length_nil] at hlen
    exact (List.eq_nil_of_length_eq_zero (by omega)).symm
  | cons ch rest ih =>
    cases bytes' with
    | nil =>
      have hlen := congrArg List.length h
      rw [length_bits, length_bits, List.length_nil, List.length_cons] at hlen
      omega
    | cons ch' rest' =>
      rw [bits_cons, bits_cons] at h
      obtain ⟨hfirst, hrest⟩ := List.append_inj h (by rw [length_octetBits, length_octetBits])
      rw [octetBits_injective hfirst, ih hrest]

theorem bits_replicate_zero (k : Nat) :
    bits (List.replicate k 0) = List.replicate (8 * k) false := by
  induction k with
  | zero => rfl
  | succ k ih =>
    have hzero : octetBits 0 = List.replicate 8 false := by decide
    rw [List.replicate_succ, bits_cons, ih, hzero, List.replicate_append_replicate]
    congr 1
    omega

theorem bits_replicate_ones (k : Nat) :
    bits (List.replicate k 0xFF) = List.replicate (8 * k) true := by
  induction k with
  | zero => rfl
  | succ k ih =>
    have hones : octetBits 0xFF = List.replicate 8 true := by decide
    rw [List.replicate_succ, bits_cons, ih, hones, List.replicate_append_replicate]
    congr 1
    omega

end Acqua
