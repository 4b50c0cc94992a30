import Acqua.Library.BigEndian

/-! `address_impl_base` of `detail/address_impl.hpp`, and the offsets of the address classes. -/

namespace Acqua

/-- `std::numeric_limits<std::ptrdiff_t>::min()`. -/
def longMin : Int := -2 ^ 63

namespace AddressImpl

-- The loops go from `rbegin()` to `rend()`: the digits are those of the reversed octets.

def incrLoop : List UInt8 → List UInt8
  | [] => []
  | it :: rest => if it + 1 = 0x00 then (it + 1) :: incrLoop rest else (it + 1) :: rest

def incr (bytes : List UInt8) : List UInt8 := (incrLoop bytes.reverse).reverse

def decrLoop : List UInt8 → List UInt8
  | [] => []
  | it :: rest => if it - 1 = 0xFF then (it - 1) :: decrLoop rest else (it - 1) :: rest

def decr (bytes : List UInt8) : List UInt8 := (decrLoop bytes.reverse).reverse

def addLoop : List UInt8 → Int → List UInt8
  | [], _ => []
  | it :: rest, num =>
    if num = 0 then it :: rest
    else
      let rhs := UInt8.ofInt num
      (it + rhs) :: addLoop rest (num >>> (8 : Nat) + if it + rhs < rhs then 1 else 0)

def subLoop : List UInt8 → Int → List UInt8
  | [], _ => []
  | lhs :: rest, num =>
    if num = 0 then lhs :: rest
    else
      let rhs := UInt8.ofInt num
      (lhs - rhs) :: subLoop rest (num >>> (8 : Nat) + if lhs < rhs then 1 else 0)

mutual

/-- `add`. After `sub` the loop runs all the same. There is no result when `-num` overflows. -/
def add (bytes : List UInt8) (num : Int) : Option (List UInt8) :=
  if num < 0 then
    if num = longMin then none
    else (sub bytes (-num)).map fun bytes => (addLoop bytes.reverse num).reverse
  else some (addLoop bytes.reverse num).reverse
termination_by if num < 0 then 1 else 0
decreasing_by simp_all; omega

/-- `sub`, likewise. -/
def sub (bytes : List UInt8) (num : Int) : Option (List UInt8) :=
  if num < 0 then
    if num = longMin then none
    else (add bytes (-num)).map fun bytes => (subLoop bytes.reverse num).reverse
  else some (subLoop bytes.reverse num).reverse
termination_by if num < 0 then 1 else 0
decreasing_by simp_all; omega

end

variable (bytes : List UInt8) (num : Int)

theorem length_addLoop : (addLoop bytes num).length = bytes.length := by
  induction bytes generalizing num with
  | nil => rfl
  | cons it rest ih =>
    rw [addLoop]
    split_ifs
    · rfl
    · rw [List.length_cons, ih, List.length_cons]

theorem length_subLoop : (subLoop bytes num).length = bytes.length := by
  induction bytes generalizing num with
  | nil => rfl
  | cons lhs rest ih =>
    rw [subLoop]
    split_ifs
    · rfl
    · rw [List.length_cons, ih, List.length_cons]

/-- `num` is left with what the sum of the digit did not take, the carry included. -/
theorem add_carry (it : UInt8) :
    ((it + UInt8.ofInt num).toNat : Int) +
        256 * (num >>> (8 : Nat) + if it + UInt8.ofInt num < UInt8.ofInt num then 1 else 0) =
      it.toNat + num := by
  have hrhs := toNat_ofInt num
  have hit := it.toNat_lt
  have hsum := UInt8.toNat_add it (UInt8.ofInt num)
  have hlt := UInt8.lt_iff_toNat_lt (a := it + UInt8.ofInt num) (b := UInt8.ofInt num)
  have hshift : num >>> (8 : Nat) = num / 256 := Int.shiftRight_eq_div_pow num 8
  rw [hshift]
  split_ifs with hcarry
  · rw [hlt] at hcarry
    omega
  · rw [hlt] at hcarry
    omega

theorem sub_borrow (lhs : UInt8) :
    ((lhs - UInt8.ofInt num).toNat : Int) -
        256 * (num >>> (8 : Nat) + if lhs < UInt8.ofInt num then 1 else 0) =
      lhs.toNat - num := by
  have hrhs := toNat_ofInt num
  have hlhs := lhs.toNat_lt
  have hdiff := UInt8.toNat_sub lhs (UInt8.ofInt num)
  have hlt := UInt8.lt_iff_toNat_lt (a := lhs) (b := UInt8.ofInt num)
  have hshift : num >>> (8 : Nat) = num / 256 := Int.shiftRight_eq_div_pow num 8
  rw [hshift]
  split_ifs with hborrow
  · rw [hlt] at hborrow
    omega
  · rw [hlt] at hborrow
    omega

theorem littleValue_emod : (littleValue bytes : Int) % 256 ^ bytes.length = littleValue bytes :=
  Int.emod_eq_of_lt (Int.natCast_nonneg _) (by exact_mod_cast littleValue_lt bytes)

theorem littleValue_addLoop : (littleValue (addLoop bytes num) : Int) =
    (littleValue bytes + num) % 256 ^ bytes.length := by
  induction bytes generalizing num with
  | nil => simp [addLoop]
  | cons it rest ih =>
    rw [addLoop]
    split_ifs with hnum
    · rw [hnum, add_zero, littleValue_emod]
    · have hdigit := (it + UInt8.ofInt num).toNat_lt
      rw [littleValue_cons, littleValue_cons, Nat.cast_add, Nat.cast_mul, ih, List.length_cons,
        pow_succ', Nat.cast_ofNat, digit_add_emod (Int.natCast_nonneg _) (by omega) _
          (by positivity), Nat.cast_add, Nat.cast_mul, Nat.cast_ofNat]
      congr 1
      linear_combination add_carry num it

theorem littleValue_subLoop : (littleValue (subLoop bytes num) : Int) =
    (littleValue bytes - num) % 256 ^ bytes.length := by
  induction bytes generalizing num with
  | nil => simp [subLoop]
  | cons lhs rest ih =>
    rw [subLoop]
    split_ifs with hnum
    · rw [hnum, sub_zero, littleValue_emod]
    · have hdigit := (lhs - UInt8.ofInt num).toNat_lt
      rw [littleValue_cons, littleValue_cons, Nat.cast_add, Nat.cast_mul, ih, List.length_cons,
        pow_succ', Nat.cast_ofNat, digit_add_emod (Int.natCast_nonneg _) (by omega) _
          (by positivity), Nat.cast_add, Nat.cast_mul, Nat.cast_ofNat]
      congr 1
      linear_combination sub_borrow num lhs

section Residue

variable {n : Nat} {bytes : List UInt8} {num : Int}

theorem residue_addLoop (hlen : bytes.length = n) :
    residue n (addLoop bytes.reverse num).reverse = residue n bytes + num := by
  have hsum : residue n bytes + num = ((value bytes + num : Int) : ZMod (256 ^ n)) := by
    rw [residue, Int.cast_add, Int.cast_natCast]
  rw [hsum, residue_eq_iff (by rw [List.length_reverse, length_addLoop, List.length_reverse, hlen]),
    value, List.reverse_reverse, littleValue_addLoop, List.length_reverse, hlen, value]

theorem residue_subLoop (hlen : bytes.length = n) :
    residue n (subLoop bytes.reverse num).reverse = residue n bytes - num := by
  have hdiff : residue n bytes - num = ((value bytes - num : Int) : ZMod (256 ^ n)) := by
    rw [residue, Int.cast_sub, Int.cast_natCast]
  rw [hdiff,
    residue_eq_iff (by rw [List.length_reverse, length_subLoop, List.length_reverse, hlen]),
    value, List.reverse_reverse, littleValue_subLoop, List.length_reverse, hlen, value]

/-- By how much `add` and `sub` offset an address: a negative number counts twice. -/
def effect (num : Int) : Int := if num < 0 then 2 * num else num

theorem add_longMin : add bytes longMin = none := by
  rw [add, if_pos (by decide), if_pos rfl]

theorem sub_longMin : sub bytes longMin = none := by
  rw [sub, if_pos (by decide), if_pos rfl]

theorem add_of_nonneg (hnum : 0 ≤ num) :
    add bytes num = some (addLoop bytes.reverse num).reverse := by
  rw [add, if_neg hnum.not_gt]

theorem sub_of_nonneg (hnum : 0 ≤ num) :
    sub bytes num = some (subLoop bytes.reverse num).reverse := by
  rw [sub, if_neg hnum.not_gt]

theorem length_reverse_addLoop (bytes : List UInt8) (num : Int) :
    (addLoop bytes.reverse num).reverse.length = bytes.length := by
  rw [List.length_reverse, length_addLoop, List.length_reverse]

theorem length_reverse_subLoop (bytes : List UInt8) (num : Int) :
    (subLoop bytes.reverse num).reverse.length = bytes.length := by
  rw [List.length_reverse, length_subLoop, List.length_reverse]

theorem add_spec (hlen : bytes.length = n) (hmin : num ≠ longMin) :
    ∃ r, add bytes num = some r ∧ r.length = n ∧ residue n r = residue n bytes + effect num := by
  rcases lt_or_ge num 0 with hneg | hnum
  · have hsub : sub bytes (-num) = some (subLoop bytes.reverse (-num)).reverse :=
      sub_of_nonneg (by omega)
    have hlen' := (length_reverse_subLoop bytes (-num)).trans hlen
    refine ⟨_, by rw [add, if_pos hneg, if_neg hmin, hsub, Option.map_some], ?_, ?_⟩
    · rw [length_reverse_addLoop, hlen']
    · rw [residue_addLoop hlen', residue_subLoop hlen, effect, if_pos hneg]
      push_cast
      ring
  · refine ⟨_, add_of_nonneg hnum, (length_reverse_addLoop bytes num).trans hlen, ?_⟩
    rw [residue_addLoop hlen, effect, if_neg hnum.not_gt]

theorem sub_spec (hlen : bytes.length = n) (hmin : num ≠ longMin) :
    ∃ r, sub bytes num = some r ∧ r.length = n ∧ residue n r = residue n bytes - effect num := by
  rcases lt_or_ge num 0 with hneg | hnum
  · have hadd : add bytes (-num) = some (addLoop bytes.reverse (-num)).reverse :=
      add_of_nonneg (by omega)
    have hlen' := (length_reverse_addLoop bytes (-num)).trans hlen
    refine ⟨_, by rw [sub, if_pos hneg, if_neg hmin, hadd, Option.map_some], ?_, ?_⟩
    · rw [length_reverse_subLoop, hlen']
    · rw [residue_subLoop hlen', residue_addLoop hlen, effect, if_pos hneg]
      push_cast
      ring
  · refine ⟨_, sub_of_nonneg hnum, (length_reverse_subLoop bytes num).trans hlen, ?_⟩
    rw [residue_subLoop hlen, effect, if_neg hnum.not_gt]

theorem length_add {r : List UInt8} (h : add bytes num = some r) : r.length = bytes.length := by
  have hmin : num ≠ longMin := by
    rintro rfl
    rw [add_longMin] at h
    cases h
  obtain ⟨r', hr', hlen, -⟩ := add_spec (Eq.refl bytes.length) hmin
  rwa [← Option.some.inj (hr'.symm.trans h)]

theorem length_sub {r : List UInt8} (h : sub bytes num = some r) : r.length = bytes.length := by
  have hmin : num ≠ longMin := by
    rintro rfl
    rw [sub_longMin] at h
    cases h
  obtain ⟨r', hr', hlen, -⟩ := sub_spec (Eq.refl bytes.length) hmin
  rwa [← Option.some.inj (hr'.symm.trans h)]

end Residue

end AddressImpl

/-- `bytes_` of an address: 4 octets of IPv4, 6 of the link layer, 16 of IPv6. -/
@[ext]
structure NetworkAddress (n : Nat) where
  bytes : List UInt8
  size : bytes.length = n

namespace NetworkAddress

open AddressImpl

variable {n : Nat}

/-- `operator+=`. -/
def addAssign (a : NetworkAddress n) (num : Int) : Option (NetworkAddress n) :=
  (add a.bytes num).pmap NetworkAddress.mk fun _ h => (length_add h).trans a.size

/-- `operator-=`. -/
def subAssign (a : NetworkAddress n) (num : Int) : Option (NetworkAddress n) :=
  (sub a.bytes num).pmap NetworkAddress.mk fun _ h => (length_sub h).trans a.size

def residue (a : NetworkAddress n) : ZMod (256 ^ n) := Acqua.residue n a.bytes

theorem residue_inj {a a' : NetworkAddress n} (h : a.residue = a'.residue) : a = a' :=
  NetworkAddress.ext (Acqua.residue_inj a.size a'.size h)

theorem residue_eq_iff (a : NetworkAddress n) (x : Int) :
    a.residue = x ↔ (value a.bytes : Int) = x % 256 ^ n :=
  Acqua.residue_eq_iff a.size x

theorem addAssign_spec (a : NetworkAddress n) {num : Int} (hmin : num ≠ longMin) :
    ∃ r, a.addAssign num = some r ∧ r.residue = a.residue + effect num := by
  obtain ⟨r, hr, hlen, hresidue⟩ := add_spec a.size hmin
  refine ⟨⟨r, hlen⟩, ?_, hresidue⟩
  simp only [addAssign, hr, Option.pmap_some]

theorem subAssign_spec (a : NetworkAddress n) {num : Int} (hmin : num ≠ longMin) :
    ∃ r, a.subAssign num = some r ∧ r.residue = a.residue - effect num := by
  obtain ⟨r, hr, hlen, hresidue⟩ := sub_spec a.size hmin
  refine ⟨⟨r, hlen⟩, ?_, hresidue⟩
  simp only [subAssign, hr, Option.pmap_some]

theorem addAssign_longMin (a : NetworkAddress n) : a.addAssign longMin = none := by
  simp only [addAssign, add_longMin, Option.pmap_none]

end NetworkAddress

end Acqua
