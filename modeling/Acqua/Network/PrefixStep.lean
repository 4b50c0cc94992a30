import Acqua.Network.Prefix

/-! Steps of prefixes, one at a time and many at once. -/

namespace Acqua

open AddressImpl

theorem Family.modulus (T : Family) : (2 : Int) ^ T.maxMasklen = 256 ^ T.size := by
  cases T <;> rfl

theorem shlInt_of_le {len : Nat} (h : len ≤ 30) : shlInt len = some (2 ^ len) := by
  interval_cases len <;> rfl

theorem shlInt_sign : shlInt 31 = some (-2 ^ 31) := rfl

theorem shlInt_of_ge {len : Nat} (h : 32 ≤ len) : shlInt len = none := if_neg h.not_gt

/-- By how much a step offsets the address. -/
def stride (len : Nat) : Int := if len ≤ 30 then 2 ^ len else -2 ^ 32

theorem shlInt_spec {len : Nat} (h : len < 32) : ∃ num, shlInt len = some num ∧ num ≠ longMin ∧
    effect num = stride len := by
  rcases Nat.lt_or_ge 30 len with hlen | hlen
  · obtain rfl : len = 31 := by omega
    exact ⟨_, shlInt_sign, by decide, by decide⟩
  · have hpos : (0 : Int) < 2 ^ len := by positivity
    refine ⟨2 ^ len, shlInt_of_le hlen, ?_, ?_⟩
    · rw [longMin]
      omega
    · rw [effect, if_neg hpos.not_gt, stride, if_pos hlen]

/-- `op` offsets an address in the direction of `s`. -/
def Directed {n : Nat} (s : Int) (op : NetworkAddress n → Int → Option (NetworkAddress n)) : Prop :=
  ∀ a num, num ≠ longMin → ∃ r, op a num = some r ∧ r.residue = a.residue + s * effect num

theorem directed_addAssign {n : Nat} : Directed 1 (NetworkAddress.addAssign (n := n)) := by
  intro a num hmin
  obtain ⟨r, hr, hresidue⟩ := a.addAssign_spec hmin
  exact ⟨r, hr, by rw [hresidue, Int.cast_one, one_mul]⟩

theorem directed_subAssign {n : Nat} : Directed (-1) (NetworkAddress.subAssign (n := n)) := by
  intro a num hmin
  obtain ⟨r, hr, hresidue⟩ := a.subAssign_spec hmin
  refine ⟨r, hr, ?_⟩
  rw [hresidue]
  push_cast
  ring

namespace PrefixAddress

variable {T : Family} {op : NetworkAddress T.size → Int → Option (NetworkAddress T.size)} {s : Int}

theorem step_of_ge {p : PrefixAddress T} (h : 32 ≤ p.hostlen) : p.step op = none := by
  rw [step, shlInt_of_ge h, Option.bind_none]

theorem step_spec (hop : Directed s op) {p : PrefixAddress T} (h : p.hostlen < 32) :
    ∃ q, p.step op = some q ∧ q.masklen = p.masklen ∧
      q.address.residue = p.address.residue + s * stride p.hostlen := by
  obtain ⟨num, hnum, hmin, heffect⟩ := shlInt_spec h
  obtain ⟨a, ha, hresidue⟩ := hop p.address num hmin
  refine ⟨{ p with address := a }, ?_, rfl, by rw [← heffect, hresidue]⟩
  rw [step, hnum, Option.bind_some, ha, Option.map_some]

theorem back (p : PrefixAddress T) (h : p.hostlen < 32) :
    p.incr.bind (fun q => q.decr) = some p := by
  obtain ⟨q, hincr, hmask, hq⟩ := step_spec directed_addAssign h
  have hhost : q.hostlen = p.hostlen := by rw [hostlen, hmask, hostlen]
  obtain ⟨r, hdecr, hmask', hr⟩ := step_spec directed_subAssign (hhost.trans_lt h)
  have hback : r = p := by
    refine PrefixAddress.ext (hmask'.trans hmask) (NetworkAddress.residue_inj ?_)
    rw [hr, hq, hhost]
    push_cast
    ring
  rw [incr, hincr, Option.bind_some, decr, hdecr, hback]

/-- `++` and `--` step the address by the size of the prefix, and `--` undoes `++`. -/
structure Steps (p : PrefixAddress T) : Prop where
  incr : ∃ q, p.incr = some q ∧ q.masklen = p.masklen ∧ (value q.address.bytes : Int) =
    (value p.address.bytes + 2 ^ (T.maxMasklen - p.masklen)) % 2 ^ T.maxMasklen
  decr : ∃ q, p.decr = some q ∧ q.masklen = p.masklen ∧ (value q.address.bytes : Int) =
    (value p.address.bytes - 2 ^ (T.maxMasklen - p.masklen)) % 2 ^ T.maxMasklen
  back : p.incr.bind (fun q => q.decr) = some p

theorem residue_iff (p q : PrefixAddress T) (x : Int) :
    (value q.address.bytes : Int) = (value p.address.bytes + x) % 2 ^ T.maxMasklen ↔
      q.address.residue = p.address.residue + x := by
  rw [T.modulus, ← NetworkAddress.residue_eq_iff, Int.cast_add, Int.cast_natCast]
  rfl

theorem dvd_of_cast_eq_zero {x : Int} (h : (x : ZMod (256 ^ T.size)) = 0) : (2 : Int) ^ 32 ∣ x := by
  have hdvd := (ZMod.intCast_zmod_eq_zero_iff_dvd x _).mp h
  push_cast at hdvd
  rw [← T.modulus] at hdvd
  refine dvd_trans (pow_dvd_pow 2 ?_) hdvd
  cases T <;> decide

theorem steps_iff (p : PrefixAddress T) : p.Steps ↔ T.maxMasklen - p.masklen ≤ 30 := by
  constructor
  · intro h
    obtain ⟨q, hincr, -, hvalue⟩ := h.incr
    by_contra hlen
    rcases Nat.lt_or_ge p.hostlen 32 with hlt | hge
    · have hhost : p.hostlen = 31 := by
        rw [hostlen] at hlt ⊢
        omega
      obtain ⟨r, hr, -, hresidue⟩ := step_spec directed_addAssign hlt
      obtain rfl := Option.some.inj (hincr.symm.trans hr)
      rw [residue_iff, ← hostlen, hhost] at hvalue
      rw [hhost, stride, if_neg (by decide)] at hresidue
      have hzero : ((2 ^ 31 + 2 ^ 32 : Int) : ZMod (256 ^ T.size)) = 0 := by
        push_cast at hvalue hresidue ⊢
        linear_combination hresidue - hvalue
      exact absurd (dvd_of_cast_eq_zero hzero) (by decide)
    · rw [incr, step_of_ge hge] at hincr
      cases hincr
  · intro hlen
    have hlt : p.hostlen < 32 := by
      rw [hostlen]
      omega
    have hstride : stride p.hostlen = 2 ^ (T.maxMasklen - p.masklen) := by
      rw [stride, if_pos (show p.hostlen ≤ 30 from hlen), hostlen]
    obtain ⟨q, hincr, hmask, hq⟩ := step_spec directed_addAssign hlt
    obtain ⟨r, hdecr, hmask', hr⟩ := step_spec directed_subAssign hlt
    rw [hstride] at hq hr
    refine ⟨⟨q, hincr, hmask, ?_⟩, ⟨r, hdecr, hmask', ?_⟩, back p hlt⟩
    · rw [residue_iff, hq, Int.cast_one, one_mul]
    · rw [sub_eq_add_neg, residue_iff, hr]
      push_cast
      ring

end PrefixAddress

/-- 128.0.0.0/1. -/
def shortPrefix : PrefixAddress .internet4 := ⟨1, ⟨[128, 0, 0, 0], rfl⟩, by decide⟩

/-- `1 << 31` is negative, and so it counts twice and the address stays the same. -/
theorem not_steps_shortPrefix : shortPrefix.incr = some shortPrefix ∧ ¬ shortPrefix.Steps := by
  obtain ⟨q, hincr, hmask, hq⟩ :=
    PrefixAddress.step_spec (p := shortPrefix) directed_addAssign (by decide)
  have hsame : q = shortPrefix := by
    refine PrefixAddress.ext hmask (NetworkAddress.residue_inj ?_)
    have hstride : ((1 * stride shortPrefix.hostlen : Int) : ZMod (256 ^ Family.internet4.size)) =
        0 := (ZMod.intCast_zmod_eq_zero_iff_dvd _ _).mpr (by decide)
    rw [hq, ← Int.cast_mul, hstride, add_zero]
  refine ⟨hincr.trans (congrArg some hsame), fun h => ?_⟩
  obtain ⟨r, hr, -, hvalue⟩ := h.incr
  obtain rfl := Option.some.inj (hincr.symm.trans hr)
  rw [hsame] at hvalue
  exact absurd hvalue (by decide)

end Acqua
