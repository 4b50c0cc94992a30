import Acqua.Network.Address

/-! Offsets of addresses as numbers modulo a power of 256. -/

namespace Acqua

namespace NetworkAddress

open AddressImpl

variable {n : Nat}

/-- A `long int`. -/
def IsLong (num : Int) : Prop := longMin ≤ num ∧ num < -longMin

/-- `+= num` and `-= num` offset the number, and `-= num` undoes `+= num`. -/
structure Offsets (a : NetworkAddress n) (num : Int) : Prop where
  add : ∃ r, a.addAssign num = some r ∧ (value r.bytes : Int) = (value a.bytes + num) % 256 ^ n
  sub : ∃ r, a.subAssign num = some r ∧ (value r.bytes : Int) = (value a.bytes - num) % 256 ^ n
  restore : (a.addAssign num).bind (fun r => r.subAssign num) = some a

theorem residue_eq_add_iff (a r : NetworkAddress n) (num : Int) :
    (value r.bytes : Int) = (value a.bytes + num) % 256 ^ n ↔ r.residue = a.residue + num := by
  rw [← residue_eq_iff, Int.cast_add, Int.cast_natCast]
  rfl

theorem residue_eq_sub_iff (a r : NetworkAddress n) (num : Int) :
    (value r.bytes : Int) = (value a.bytes - num) % 256 ^ n ↔ r.residue = a.residue - num := by
  rw [← residue_eq_iff, Int.cast_sub, Int.cast_natCast]
  rfl

theorem cast_eq_zero_iff (num : Int) :
    (num : ZMod (256 ^ n)) = 0 ↔ (256 : Int) ^ n ∣ num := by
  rw [ZMod.intCast_zmod_eq_zero_iff_dvd]
  push_cast
  rfl

theorem effect_eq_iff (num : Int) : (effect num : ZMod (256 ^ n)) = num ↔
    0 ≤ num ∨ (256 : Int) ^ n ∣ num := by
  rcases lt_or_ge num 0 with hneg | hnum
  · rw [effect, if_pos hneg, ← cast_eq_zero_iff]
    push_cast
    constructor
    · intro h
      exact Or.inr (by linear_combination h)
    · rintro (hnonneg | h)
      · omega
      · rw [h, mul_zero]
  · rw [effect, if_neg hnum.not_gt]
    exact iff_of_true rfl (Or.inl hnum)

theorem restore (a : NetworkAddress n) {num : Int} (hmin : num ≠ longMin) :
    (a.addAssign num).bind (fun r => r.subAssign num) = some a := by
  obtain ⟨r, hadd, hr⟩ := a.addAssign_spec hmin
  obtain ⟨r', hsub, hr'⟩ := r.subAssign_spec hmin
  have hback : r' = a := residue_inj (by rw [hr', hr, add_sub_cancel_right])
  rw [hadd, Option.bind_some, hsub, hback]

theorem effect_neg (num : Int) : effect num + effect (-num) = -|num| := by
  unfold effect
  rcases abs_cases num with ⟨habs, hnum⟩ | ⟨habs, hneg⟩
  · rw [habs]
    split_ifs <;> omega
  · rw [habs]
    split_ifs <;> omega

theorem addAssign_neg_iff (a : NetworkAddress n) {num : Int} (hlong : IsLong num)
    (hmin : num ≠ longMin) :
    a.addAssign (-num) = a.subAssign num ↔ (256 : Int) ^ n ∣ num := by
  have hneg : -num ≠ longMin := by
    have hlt := hlong.2
    omega
  obtain ⟨r, hadd, hr⟩ := a.addAssign_spec hneg
  obtain ⟨r', hsub, hr'⟩ := a.subAssign_spec hmin
  have heffect : (effect num : ZMod (256 ^ n)) + effect (-num) = -(|num| : Int) := by
    exact_mod_cast congrArg (Int.cast : Int → ZMod (256 ^ n)) (effect_neg num)
  rw [hadd, hsub, Option.some.injEq, ← dvd_abs, ← cast_eq_zero_iff]
  constructor
  · intro h
    have hresidue := congrArg residue h
    rw [hr, hr'] at hresidue
    linear_combination heffect - hresidue
  · intro h
    refine residue_inj ?_
    rw [hr, hr']
    linear_combination heffect - h

theorem offsets_iff (a : NetworkAddress n) {num : Int} (hlong : IsLong num) :
    (a.Offsets num ↔ 0 ≤ num ∨ num ≠ longMin ∧ (256 : Int) ^ n ∣ num) ∧
      (num ≠ longMin → (a.addAssign (-num) = a.subAssign num ↔ (256 : Int) ^ n ∣ num)) := by
  refine ⟨?_, addAssign_neg_iff a hlong⟩
  rcases eq_or_ne num longMin with rfl | hmin
  · refine iff_of_false ?_ (by simp [longMin])
    intro h
    obtain ⟨r, hr, -⟩ := h.add
    rw [addAssign_longMin] at hr
    cases hr
  · obtain ⟨r, hadd, hr⟩ := a.addAssign_spec hmin
    obtain ⟨r', hsub, hr'⟩ := a.subAssign_spec hmin
    have hcond : 0 ≤ num ∨ num ≠ longMin ∧ (256 : Int) ^ n ∣ num ↔
        (effect num : ZMod (256 ^ n)) = num := by
      rw [effect_eq_iff]
      simp [hmin]
    rw [hcond]
    constructor
    · intro h
      obtain ⟨s, hs, hvalue⟩ := h.add
      obtain rfl := Option.some.inj (hadd.symm.trans hs)
      have heq := (residue_eq_add_iff a r num).mp hvalue
      rw [hr] at heq
      exact add_left_cancel heq
    · intro h
      exact ⟨⟨r, hadd, (residue_eq_add_iff a r num).mpr (by rw [hr, h])⟩,
        ⟨r', hsub, (residue_eq_sub_iff a r' num).mpr (by rw [hr', h])⟩, restore a hmin⟩

/-- The address 0.0.0.1. -/
def one : NetworkAddress 4 := ⟨[0, 0, 0, 1], rfl⟩

theorem offsets_iff_of_neg_one :
    (one.Offsets (-1) ↔ (0 : Int) ≤ -1 ∨ (-1 : Int) ≠ longMin ∧ (256 : Int) ^ 4 ∣ -1) ∧
      ((-1 : Int) ≠ longMin →
        (one.addAssign (- -1) = one.subAssign (-1) ↔ (256 : Int) ^ 4 ∣ -1)) :=
  offsets_iff one ⟨by decide, by decide⟩

/-- `-1` is added after 1 was subtracted. -/
theorem not_offsets_neg_one :
    one.addAssign (-1) = some ⟨[255, 255, 255, 255], rfl⟩ ∧
      ((value one.bytes : Int) + -1) % 256 ^ 4 = 0 ∧ ¬ one.Offsets (-1) := by
  have hmin : (-1 : Int) ≠ longMin := by decide
  obtain ⟨r, hadd, hr⟩ := one.addAssign_spec hmin
  have hvalue : (value r.bytes : Int) = 256 ^ 4 - 1 := by
    have hlong := (r.residue_eq_iff (value one.bytes + effect (-1))).mp (by
      rw [hr, Int.cast_add, Int.cast_natCast]
      rfl)
    rw [hlong]
    decide
  have hbytes : r = ⟨[255, 255, 255, 255], rfl⟩ := by
    refine NetworkAddress.ext (value_inj r.size ?_)
    have hlast : (value [255, 255, 255, 255] : Int) = 256 ^ 4 - 1 := by decide
    exact_mod_cast hvalue.trans hlast.symm
  refine ⟨hadd.trans (congrArg some hbytes), by decide, fun h => ?_⟩
  obtain ⟨s, hs, hs'⟩ := h.add
  obtain rfl := Option.some.inj (hadd.symm.trans hs)
  rw [hvalue] at hs'
  exact absurd hs' (by decide)

end NetworkAddress

namespace AddressImpl

variable (bytes : List UInt8)

theorem addLoop_zero : addLoop bytes 0 = bytes := by
  cases bytes with
  | nil => rfl
  | cons it rest => rw [addLoop, if_pos rfl]

theorem subLoop_zero : subLoop bytes 0 = bytes := by
  cases bytes with
  | nil => rfl
  | cons lhs rest => rw [subLoop, if_pos rfl]

theorem incrLoop_eq : incrLoop bytes = addLoop bytes 1 := by
  induction bytes with
  | nil => rfl
  | cons it rest ih =>
    have hone : UInt8.ofInt 1 = 1 := rfl
    have hcarry : it + 1 < 1 ↔ it + 1 = 0x00 := by
      rw [UInt8.lt_iff_toNat_lt, ← UInt8.toNat_inj]
      exact Nat.lt_one_iff
    rw [incrLoop, addLoop, if_neg (show (1 : Int) ≠ 0 by decide), hone]
    dsimp only
    by_cases hzero : it + 1 = 0x00
    · rw [if_pos hzero, if_pos (hcarry.mpr hzero), ih]
      rfl
    · rw [if_neg hzero, if_neg fun hlt => hzero (hcarry.mp hlt)]
      exact congrArg _ (addLoop_zero rest).symm

theorem decrLoop_eq : decrLoop bytes = subLoop bytes 1 := by
  induction bytes with
  | nil => rfl
  | cons it rest ih =>
    have hone : UInt8.ofInt 1 = 1 := rfl
    have hborrow : it < 1 ↔ it - 1 = 0xFF := by
      rw [UInt8.lt_iff_toNat_lt, ← UInt8.toNat_inj, UInt8.toNat_sub]
      have hit := it.toNat_lt
      have h1 : (1 : UInt8).toNat = 1 := rfl
      have h255 : (0xFF : UInt8).toNat = 255 := rfl
      omega
    rw [decrLoop, subLoop, if_neg (show (1 : Int) ≠ 0 by decide), hone]
    dsimp only
    by_cases hff : it - 1 = 0xFF
    · rw [if_pos hff, if_pos (hborrow.mpr hff), ih]
      rfl
    · rw [if_neg hff, if_neg fun hlt => hff (hborrow.mp hlt)]
      exact congrArg _ (subLoop_zero rest).symm

theorem add_one : add bytes 1 = some (incr bytes) := by
  rw [add_of_nonneg (by decide), incr, incrLoop_eq]

theorem sub_one : sub bytes 1 = some (decr bytes) := by
  rw [sub_of_nonneg (by decide), decr, decrLoop_eq]

theorem residue_incr {n : Nat} {bytes : List UInt8} (hlen : bytes.length = n) :
    (incr bytes).length = n ∧ residue n (incr bytes) = residue n bytes + 1 := by
  obtain ⟨r, hr, hlen', hresidue⟩ := add_spec hlen (show (1 : Int) ≠ longMin by decide)
  obtain rfl := Option.some.inj ((add_one bytes).symm.trans hr)
  exact ⟨hlen', by simpa [effect] using hresidue⟩

theorem residue_decr {n : Nat} {bytes : List UInt8} (hlen : bytes.length = n) :
    (decr bytes).length = n ∧ residue n (decr bytes) = residue n bytes - 1 := by
  obtain ⟨r, hr, hlen', hresidue⟩ := sub_spec hlen (show (1 : Int) ≠ longMin by decide)
  obtain rfl := Option.some.inj ((sub_one bytes).symm.trans hr)
  exact ⟨hlen', by simpa [effect] using hresidue⟩

/-- `incr` and `decr` step the number, undo each other, and are offsets by 1. -/
theorem incr_decr (bytes : List UInt8) :
    (value (incr bytes) : Int) = (value bytes + 1) % 256 ^ bytes.length ∧
      (value (decr bytes) : Int) = (value bytes - 1) % 256 ^ bytes.length ∧
      decr (incr bytes) = bytes ∧ incr (decr bytes) = bytes ∧
      add bytes 1 = some (incr bytes) ∧ sub bytes 1 = some (decr bytes) := by
  obtain ⟨hincr, hnext⟩ := residue_incr (Eq.refl bytes.length)
  obtain ⟨hdecr, hprev⟩ := residue_decr (Eq.refl bytes.length)
  obtain ⟨hback, hback'⟩ := residue_decr hincr
  obtain ⟨hforth, hforth'⟩ := residue_incr hdecr
  refine ⟨?_, ?_, ?_, ?_, add_one bytes, sub_one bytes⟩
  · rw [← residue_eq_iff hincr, hnext, residue]
    push_cast
    rfl
  · rw [← residue_eq_iff hdecr, hprev, residue]
    push_cast
    rfl
  · exact residue_inj hback rfl (by rw [hback', hnext, add_sub_cancel_right])
  · exact residue_inj hforth rfl (by rw [hforth', hprev, sub_add_cancel])

end AddressImpl

end Acqua
