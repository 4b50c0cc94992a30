import Acqua.Network.PrefixAssign

/-! `in_mask` and `netmask_length` of `detail/address_impl.hpp`. An `int` that overflows gives no
result. -/

namespace Acqua

/-- `std::numeric_limits<int>::max()`. -/
def intMax : Int := 2 ^ 31 - 1

/-- `a + b` of `int`, neither of them negative. -/
def addInt (a b : Int) : Option Int := if a + b ≤ intMax then some (a + b) else none

namespace AddressImpl

/-- `std::accumulate`. -/
def accumulate : List UInt8 → Int → Option Int
  | [], init => some init
  | ch :: rest, init => (addInt init ch.toNat).bind (accumulate rest)

/-- The octets that end a netmask. -/
def partialOctets : List UInt8 :=
  [0b00000000, 0b10000000, 0b11000000, 0b11100000, 0b11110000, 0b11111000, 0b11111100, 0b11111110]

/-- The loop of `in_mask`. -/
def inMaskLoop : List UInt8 → Option Bool
  | [] => some true
  | it :: rest =>
    if it ∈ partialOctets then (accumulate rest 0).map fun sum => sum = 0
    else if it = 0b11111111 then inMaskLoop rest
    else some false

/-- `in_mask`, of octets that are not empty. -/
def inMask (bytes : List UInt8) : Option Bool :=
  if bytes.head? = some 0 then some false else inMaskLoop bytes

/-- The loop over the bits of an octet, down from bit `i`. -/
def countOnes (ch : UInt8) : Nat → Nat
  | 0 => 0
  | i + 1 => if ch.toNat.testBit (i + 1) then countOnes ch i + 1 else 0

def netmaskLengthLoop : List UInt8 → Int → Option Int
  | [], len => some len
  | ch :: rest, len =>
    (addInt len (if ch = 0xFF then 8 else countOnes ch 7)).bind (netmaskLengthLoop rest)

def netmaskLength (bytes : List UInt8) : Option Int := netmaskLengthLoop bytes 0

/-- The octets with `n` ones before zeros. -/
def netmaskOctets (length n : Nat) : List UInt8 := keepBits (List.replicate length 0xFF) n

theorem netmaskOctets_succ (length n : Nat) : netmaskOctets (length + 1) n =
    if 8 ≤ n then 0xFF :: netmaskOctets length (n - 8)
    else maskOctet n :: List.replicate length 0 := by
  rw [netmaskOctets, List.replicate_succ, keepBits, List.length_replicate]
  split_ifs
  · rfl
  · exact congrArg (· :: _) UInt8.neg_one_and

theorem bits_netmaskOctets {length n : Nat} (h : n ≤ 8 * length) :
    bits (netmaskOctets length n) = onesThenZeros n (8 * length) := by
  rw [netmaskOctets, bits_keepBits (by rwa [List.length_replicate]), bits_replicate_ones,
    List.take_replicate, min_eq_left h, List.length_replicate, onesThenZeros]

theorem bits_eq_iff {bytes : List UInt8} {n : Nat} (h : n ≤ 8 * bytes.length) :
    bits bytes = onesThenZeros n (8 * bytes.length) ↔ bytes = netmaskOctets bytes.length n := by
  rw [← bits_netmaskOctets h, bits_injective.eq_iff]

def octetSum (bytes : List UInt8) : Int := (bytes.map fun ch => (ch.toNat : Int)).sum

theorem octetSum_nonneg (bytes : List UInt8) : 0 ≤ octetSum bytes := by
  refine List.sum_nonneg fun x hx => ?_
  obtain ⟨ch, -, rfl⟩ := List.mem_map.mp hx
  exact Int.natCast_nonneg _

theorem octetSum_cons (ch : UInt8) (rest : List UInt8) :
    octetSum (ch :: rest) = ch.toNat + octetSum rest := rfl

theorem octetSum_eq_zero_iff (bytes : List UInt8) :
    octetSum bytes = 0 ↔ bytes = List.replicate bytes.length 0 := by
  induction bytes with
  | nil => exact iff_of_true rfl rfl
  | cons ch rest ih =>
    have hnonneg := octetSum_nonneg rest
    rw [octetSum_cons, List.length_cons, List.replicate_succ, List.cons.injEq, ← ih,
      ← UInt8.toNat_inj]
    constructor
    · intro h
      exact ⟨show ch.toNat = 0 by omega, by omega⟩
    · rintro ⟨hch, hrest⟩
      rw [hch, hrest]
      rfl

theorem accumulate_eq (bytes : List UInt8) {init : Int} (hinit : init ≤ intMax) :
    accumulate bytes init =
      if init + octetSum bytes ≤ intMax then some (init + octetSum bytes) else none := by
  induction bytes generalizing init with
  | nil =>
    have hsum : octetSum [] = 0 := rfl
    rw [accumulate, hsum, add_zero, if_pos hinit]
  | cons ch rest ih =>
    have hnonneg := octetSum_nonneg rest
    rw [accumulate, addInt, octetSum_cons, ← add_assoc]
    split_ifs with hfirst htotal htotal
    · rw [Option.bind_some, ih hfirst, if_pos htotal]
    · rw [Option.bind_some, ih hfirst, if_neg htotal]
    · omega
    · rfl

theorem partialOctets_eq : partialOctets = (List.range 8).map maskOctet := by decide

theorem mem_partialOctets {it : UInt8} : it ∈ partialOctets ↔ ∃ n < 8, maskOctet n = it := by
  simp only [partialOctets_eq, List.mem_map, List.mem_range]

theorem maskOctet_ne : ∀ n < 8, maskOctet n ≠ 0xFF := by decide

theorem maskOctet_inj : ∀ n < 8, ∀ n' < 8, maskOctet n = maskOctet n' → n = n' := by
  decide

theorem cons_eq_netmaskOctets_iff {it : UInt8} {rest : List UInt8} {n : Nat} :
    it :: rest = netmaskOctets (rest.length + 1) n ↔
      8 ≤ n ∧ it = 0xFF ∧ rest = netmaskOctets rest.length (n - 8) ∨
        n < 8 ∧ it = maskOctet n ∧ rest = List.replicate rest.length 0 := by
  rw [netmaskOctets_succ]
  split_ifs with hle
  · simp [hle]
  · simp [hle, not_le.mp hle]

/-- The octets that `in_mask` adds up: those after the first one that is not `0xFF`. -/
def summed (bytes : List UInt8) : List UInt8 := (bytes.dropWhile (· = 0xFF)).tail

theorem inMaskLoop_spec {bytes : List UInt8} (hsum : octetSum (summed bytes) ≤ intMax) :
    ∃ b, inMaskLoop bytes = some b ∧
      (b = true ↔ ∃ n ≤ 8 * bytes.length, bytes = netmaskOctets bytes.length n) := by
  induction bytes with
  | nil => exact ⟨true, rfl, iff_of_true rfl ⟨0, le_rfl, rfl⟩⟩
  | cons it rest ih =>
    simp only [inMaskLoop, List.length_cons, cons_eq_netmaskOctets_iff]
    split_ifs with hpartial hones
    · obtain ⟨n, hn, rfl⟩ := mem_partialOctets.mp hpartial
      have hrest : 0 + octetSum rest ≤ intMax := by
        rw [zero_add]
        rwa [summed, List.dropWhile_cons_of_neg (by simpa using maskOctet_ne n hn)] at hsum
      refine ⟨_, by rw [accumulate_eq rest (by decide), if_pos hrest, Option.map_some], ?_⟩
      rw [decide_eq_true_eq, zero_add, octetSum_eq_zero_iff]
      constructor
      · intro hrest
        exact ⟨n, by omega, Or.inr ⟨hn, rfl, hrest⟩⟩
      · rintro ⟨n', -, ⟨-, hff, -⟩ | ⟨-, -, hrest⟩⟩
        · exact absurd hff (maskOctet_ne n hn)
        · exact hrest
    · rw [summed, List.dropWhile_cons_of_pos (by simpa using hones)] at hsum
      obtain ⟨b, hb, hiff⟩ := ih hsum
      refine ⟨b, hb, hiff.trans ?_⟩
      constructor
      · rintro ⟨n, hn, hrest⟩
        exact ⟨n + 8, by omega, Or.inl ⟨by omega, hones, by rwa [Nat.add_sub_cancel]⟩⟩
      · rintro ⟨n, hn, ⟨-, -, hrest⟩ | ⟨hlt, hmask, -⟩⟩
        · exact ⟨n - 8, by omega, hrest⟩
        · exact absurd (hmask.symm.trans hones) (maskOctet_ne n hlt)
    · refine ⟨false, rfl, iff_of_false Bool.false_ne_true ?_⟩
      rintro ⟨n, -, ⟨-, hff, -⟩ | ⟨hlt, hmask, -⟩⟩
      · exact hones hff
      · exact hpartial (mem_partialOctets.mpr ⟨n, hlt, hmask.symm⟩)

theorem inMask_spec {bytes : List UInt8} (hne : bytes ≠ [])
    (hsum : octetSum (summed bytes) ≤ intMax) :
    ∃ b, inMask bytes = some b ∧
      (b = true ↔ ∃ n, 1 ≤ n ∧ n ≤ 8 * bytes.length ∧ bytes = netmaskOctets bytes.length n) := by
  cases bytes with
  | nil => exact absurd rfl hne
  | cons it rest =>
    have hzero : maskOctet 0 = 0 := by decide
    simp only [inMask, List.head?_cons, Option.some.injEq]
    split_ifs with hit
    · refine ⟨false, rfl, iff_of_false Bool.false_ne_true ?_⟩
      rintro ⟨n, hpos, -, hmask⟩
      rcases cons_eq_netmaskOctets_iff.mp hmask with ⟨-, hff, -⟩ | ⟨hlt, hmask, -⟩
      · exact absurd (hit.symm.trans hff) (by decide)
      · have hn := maskOctet_inj n hlt 0 (by decide) (by rw [← hmask, hit, hzero])
        omega
    · obtain ⟨b, hb, hiff⟩ := inMaskLoop_spec hsum
      refine ⟨b, hb, hiff.trans ?_⟩
      constructor
      · rintro ⟨n, hn, hmask⟩
        refine ⟨n, Nat.one_le_iff_ne_zero.mpr ?_, hn, hmask⟩
        rintro rfl
        rcases cons_eq_netmaskOctets_iff.mp hmask with ⟨hle, -⟩ | ⟨-, hfirst, -⟩
        · omega
        · exact hit (hfirst.trans hzero)
      · rintro ⟨n, -, hn, hmask⟩
        exact ⟨n, hn, hmask⟩

theorem netmaskLengthLoop_zeros (k : Nat) {len : Int} (hlen : len ≤ intMax) :
    netmaskLengthLoop (List.replicate k 0) len = some len := by
  induction k with
  | zero => rfl
  | succ k ih =>
    have hzero : countOnes 0 7 = 0 := by decide
    rw [List.replicate_succ, netmaskLengthLoop, if_neg (by decide), hzero, addInt,
      Nat.cast_zero, add_zero, if_pos hlen, Option.bind_some, ih]

theorem countOnes_maskOctet : ∀ n < 8, countOnes (maskOctet n) 7 = n := by decide

theorem netmaskLengthLoop_netmaskOctets (k : Nat) {n : Nat} (hn : n ≤ 8 * k) {len : Int}
    (hlen : len + n ≤ intMax) :
    netmaskLengthLoop (netmaskOctets k n) len = some (len + n) := by
  induction k generalizing n len with
  | zero =>
    obtain rfl : n = 0 := by omega
    rw [Nat.cast_zero, add_zero]
    rfl
  | succ k ih =>
    rw [netmaskOctets_succ]
    split_ifs with hle
    · have hrest : len + 8 + (n - 8 : Nat) = len + n := by omega
      rw [netmaskLengthLoop, if_pos rfl, addInt, if_pos (by omega), Option.bind_some,
        ih (by omega) (by omega), hrest]
    · have hlt : n < 8 := by omega
      rw [netmaskLengthLoop, if_neg (maskOctet_ne n hlt), countOnes_maskOctet n hlt, addInt,
        if_pos hlen, Option.bind_some, netmaskLengthLoop_zeros k hlen]

/-- Netmasks are told as long as no sum overflows. -/
theorem inMask_netmaskLength (bytes : List UInt8) (hne : bytes ≠ []) :
    (octetSum (summed bytes) ≤ intMax →
      ∃ b, inMask bytes = some b ∧ (b = true ↔ ∃ n, 1 ≤ n ∧ n ≤ 8 * bytes.length ∧
        bits bytes = onesThenZeros n (8 * bytes.length))) ∧
    ∀ n ≤ 8 * bytes.length, bits bytes = onesThenZeros n (8 * bytes.length) → n ≤ intMax →
      netmaskLength bytes = some (n : Int) := by
  constructor
  · intro hsum
    obtain ⟨b, hb, hiff⟩ := inMask_spec hne hsum
    refine ⟨b, hb, hiff.trans (exists_congr fun n => and_congr_right fun _ => ?_)⟩
    exact and_congr_right fun hn => (bits_eq_iff hn).symm
  · intro n hn hbits hmax
    have hcount := netmaskLengthLoop_netmaskOctets bytes.length hn
      (show (0 : Int) + n ≤ intMax by rwa [zero_add])
    rw [← (bits_eq_iff hn).mp hbits, zero_add] at hcount
    exact hcount

theorem inMask_netmaskLength_of_slash_twenty :
    (∃ b, inMask [255, 255, 240, 0] = some b ∧ (b = true ↔ ∃ n, 1 ≤ n ∧ n ≤ 8 * 4 ∧
      bits [255, 255, 240, 0] = onesThenZeros n (8 * 4))) ∧
    netmaskLength [255, 255, 240, 0] = some (20 : Nat) := by
  obtain ⟨hmask, hlength⟩ := inMask_netmaskLength [255, 255, 240, 0] (by decide)
  exact ⟨hmask (by decide), hlength 20 (by decide) (by decide) (by decide)⟩

/-- The octets after the first add up to more than an `int` holds. -/
theorem inMask_overflow : inMask (0x80 :: List.replicate 8421505 0xFF) = none := by
  have hsum : ∀ k : Nat, octetSum (List.replicate k 0xFF) = 255 * k := by
    intro k
    induction k with
    | zero => rfl
    | succ k ih =>
      rw [List.replicate_succ, octetSum_cons, ih, show (0xFF : UInt8).toNat = 255 from rfl]
      push_cast
      ring
  have hover : ¬ 0 + octetSum (List.replicate 8421505 0xFF) ≤ intMax := by
    rw [hsum]
    decide
  rw [inMask, List.head?_cons, if_neg (by decide), inMaskLoop, if_pos (by decide),
    accumulate_eq _ (by decide), if_neg hover, Option.map_none]

end AddressImpl

end Acqua
