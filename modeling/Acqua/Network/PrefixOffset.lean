import Acqua.Network.PrefixStep

/-! The loops of `operator+=` and `operator-=` of prefixes, which take 1, 2, 4 and so on from the
number until it is zero. -/

namespace Acqua

open AddressImpl

/-- `f` so many times. -/
def repeated {α : Type} (f : α → Option α) : Nat → α → Option α
  | 0, a => some a
  | k + 1, a => (f a).bind (repeated f k)

theorem shlUint_pow {j len : Nat} (hlen : len < 32) :
    shlUint (2 ^ j) len = some (2 ^ (j + len) % 2 ^ 32) := by
  rw [shlUint, if_pos hlen, Nat.shiftLeft_eq, pow_add]

theorem double_pow (j : Nat) : ((2 ^ j % 2 ^ 32) <<< 1) % 2 ^ 32 = 2 ^ (j + 1) % 2 ^ 32 := by
  rw [Nat.shiftLeft_eq, pow_one, Nat.mod_mul_mod, pow_succ 2 j]

theorem pow_mod (m : Nat) :
    ((2 ^ m % 2 ^ 32 : Nat) : Int) = 2 ^ min (m + 1) 32 - 2 ^ min m 32 := by
  rcases Nat.lt_or_ge m 32 with hlt | hge
  · rw [Nat.mod_eq_of_lt (Nat.pow_lt_pow_right (by decide) hlt), min_eq_left (by omega),
      min_eq_left hlt.le, pow_succ]
    push_cast
    ring
  · rw [Nat.mod_eq_zero_of_dvd (pow_dvd_pow 2 hge), min_eq_right (by omega), min_eq_right hge,
      sub_self]
    rfl

namespace PrefixAddress

variable {T : Family} {op : NetworkAddress T.size → Int → Option (NetworkAddress T.size)}
  {s : Int} {len : Nat}

theorem rounds_of_zero {num : Int} (hnum : num ≠ 0) (fuel : Nat) (a : NetworkAddress T.size) :
    rounds op len fuel a num 0 = none := by
  induction fuel generalizing a with
  | zero => rfl
  | succ fuel ih =>
    rw [rounds, if_neg hnum]
    simp only [Nat.cast_zero, sub_zero, Nat.zero_shiftLeft, Nat.zero_mod, ih]
    cases shlUint 0 len with
    | none => rfl
    | some offset =>
      rw [Option.bind_some]
      cases op a offset <;> rfl

theorem rounds_of_ge (hlen : 32 ≤ len) {num : Int} (hnum : num ≠ 0) (fuel : Nat)
    (a : NetworkAddress T.size) (i : Nat) : rounds op len fuel a num i = none := by
  cases fuel with
  | zero => rfl
  | succ fuel => rw [rounds, if_neg hnum, shlUint, if_neg hlen.not_gt, Option.bind_none]

theorem rounds_done {fuel i : Nat} {a r : NetworkAddress T.size}
    (h : rounds op len fuel a 0 i = some r) : r = a := by
  cases fuel with
  | zero => cases h
  | succ fuel =>
    rw [rounds, if_pos rfl] at h
    exact (Option.some.inj h).symm

theorem rounds_succ (hop : Directed s op) (hlen : len < 32) {j : Nat} (hj : j < 32) {num : Int}
    (hnum : num ≠ 0) (fuel : Nat) (a : NetworkAddress T.size) : ∃ a' : NetworkAddress T.size,
      a'.residue = a.residue +
        s * ((2 ^ min (j + 1 + len) 32 - 2 ^ min (j + len) 32 : Int) : ZMod (256 ^ T.size)) ∧
      rounds op len (fuel + 1) a num (2 ^ j % 2 ^ 32) =
        rounds op len fuel a' (num - 2 ^ j) (2 ^ (j + 1) % 2 ^ 32) := by
  have hpow : 2 ^ j % 2 ^ 32 = 2 ^ j := Nat.mod_eq_of_lt (Nat.pow_lt_pow_right (by decide) hj)
  have hnonneg : (0 : Int) ≤ (2 ^ (j + len) % 2 ^ 32 : Nat) := Int.natCast_nonneg _
  have hmin : ((2 ^ (j + len) % 2 ^ 32 : Nat) : Int) ≠ longMin := by
    rw [longMin]
    omega
  obtain ⟨a', ha', hresidue⟩ := hop a _ hmin
  refine ⟨a', ?_, ?_⟩
  · rw [hresidue, effect, if_neg hnonneg.not_gt, pow_mod, Nat.add_right_comm]
  · rw [rounds, if_neg hnum, double_pow, hpow, shlUint_pow hlen, Option.bind_some, ha',
      Option.bind_some]
    push_cast
    rfl

theorem rounds_spec (hop : Directed s op) {fuel j : Nat} (hj : j ≤ 32) {a r : NetworkAddress T.size}
    {num : Int} (h : rounds op len fuel a num (2 ^ j % 2 ^ 32) = some r) (hnum : num ≠ 0) :
    len < 32 ∧ ∃ k, j < k ∧ k ≤ 32 ∧ num = 2 ^ k - 2 ^ j ∧ r.residue = a.residue +
      s * ((2 ^ min (k + len) 32 - 2 ^ min (j + len) 32 : Int) : ZMod (256 ^ T.size)) := by
  induction fuel generalizing j a num with
  | zero => cases h
  | succ fuel ih =>
    have hlen : len < 32 := by
      by_contra hge
      rw [rounds_of_ge (not_lt.mp hge) hnum] at h
      cases h
    refine ⟨hlen, ?_⟩
    rcases hj.eq_or_lt with rfl | hlt
    · rw [Nat.mod_self, rounds_of_zero hnum] at h
      cases h
    · obtain ⟨a', ha', hround⟩ := rounds_succ hop hlen hlt hnum fuel a
      rw [hround] at h
      by_cases hlast : num - 2 ^ j = 0
      · rw [hlast] at h
        rw [rounds_done h]
        refine ⟨j + 1, Nat.lt_succ_self j, hlt, ?_, ha'⟩
        rw [pow_succ]
        omega
      · obtain ⟨-, k, hjk, hk, hnum', hr⟩ := ih hlt h hlast
        refine ⟨k, by omega, hk, ?_, ?_⟩
        · rw [pow_succ] at hnum'
          omega
        · rw [hr, ha']
          push_cast
          ring

theorem exists_rounds (hop : Directed s op) (hlen : len < 32) {j k : Nat} (hjk : j ≤ k)
    (hk : k ≤ 32) (a : NetworkAddress T.size) :
    ∃ r, rounds op len (k - j + 1) a (2 ^ k - 2 ^ j) (2 ^ j % 2 ^ 32) = some r := by
  induction hd : k - j generalizing j a with
  | zero =>
    obtain rfl : j = k := by omega
    exact ⟨a, by rw [rounds, if_pos (sub_self _)]⟩
  | succ d ih =>
    have hlt : (2 : Int) ^ j < 2 ^ k := pow_lt_pow_right₀ (by decide) (by omega)
    obtain ⟨a', -, hround⟩ := rounds_succ hop hlen (show j < 32 by omega)
      (show (2 : Int) ^ k - 2 ^ j ≠ 0 by omega) (d + 1) a
    obtain ⟨r, hr⟩ := ih (show j + 1 ≤ k by omega) a' (by omega)
    refine ⟨r, ?_⟩
    rw [hround, ← hr, pow_succ (2 : Int) j]
    congr 1
    ring

theorem repeated_spec (hop : Directed s op) (k : Nat) {p : PrefixAddress T} (h : p.hostlen < 32) :
    ∃ q, repeated (step op) k p = some q ∧ q.masklen = p.masklen ∧
      q.address.residue = p.address.residue + s * (k * stride p.hostlen) := by
  induction k generalizing p with
  | zero => exact ⟨p, rfl, rfl, by simp⟩
  | succ k ih =>
    obtain ⟨q, hstep, hmask, hq⟩ := step_spec hop h
    have hhost : q.hostlen = p.hostlen := by rw [hostlen, hmask, hostlen]
    obtain ⟨r, hr, hmask', hresidue⟩ := ih (hhost.trans_lt h)
    refine ⟨r, by rw [repeated, hstep, Option.bind_some, hr], hmask'.trans hmask, ?_⟩
    rw [hresidue, hhost, hq]
    push_cast
    ring

/-- The numbers that the loop takes to zero, and where it does what as many steps do. -/
def Doubles (p : PrefixAddress T) (num : Nat) : Prop :=
  num = 0 ∨ ∃ k, 1 ≤ k ∧ k ≤ 32 ∧ num + 1 = 2 ^ k ∧ p.hostlen ≤ 30 ∧
    (T = .internet4 ∨ k + p.hostlen ≤ 32)

theorem pow_min_eq_iff {m : Nat} (hm : m ≤ 62) :
    ((2 ^ min m 32 : Int) : ZMod (256 ^ T.size)) = (2 ^ m : Int) ↔ T = .internet4 ∨ m ≤ 32 := by
  rcases Nat.lt_or_ge 32 m with hlt | hle
  · rw [min_eq_right hlt.le]
    have hdvd : ((2 ^ 32 : Int) : ZMod (256 ^ T.size)) = (2 ^ m : Int) ↔
        (2 : Int) ^ T.maxMasklen ∣ 2 ^ m - 2 ^ 32 := by
      rw [ZMod.intCast_eq_intCast_iff_dvd_sub, T.modulus]
      push_cast
      rfl
    rw [hdvd]
    cases T with
    | internet4 =>
      have hpow : (2 : Int) ^ 32 ∣ 2 ^ m := pow_dvd_pow 2 hlt.le
      exact iff_of_true (dvd_sub hpow dvd_rfl) (Or.inl rfl)
    | internet6 =>
      refine iff_of_false (fun hdvd => ?_) (by simp [hlt])
      have hpos : (2 : Int) ^ 32 < 2 ^ m := pow_lt_pow_right₀ (by decide) hlt
      have hle : (2 : Int) ^ m ≤ 2 ^ 62 := pow_le_pow_right₀ (by decide) hm
      have hbig := Int.le_of_dvd (sub_pos.mpr hpos) hdvd
      have hmax : (2 : Int) ^ Family.internet6.maxMasklen = 2 ^ 128 := rfl
      omega
  · rw [min_eq_left hle]
    exact iff_of_true rfl (Or.inr hle)

theorem cancel_sign (hs : s = 1 ∨ s = -1) {x y : ZMod (256 ^ T.size)} :
    (s : ZMod (256 ^ T.size)) * x = s * y ↔ x = y := by
  rcases hs with rfl | rfl <;> simp

theorem meet_iff {k len num : Nat} (hk : 1 ≤ k) (hk' : k ≤ 32) (hlen : len < 32)
    (hnum : (num : Int) = 2 ^ k - 1) :
    ((2 ^ min (k + len) 32 - 2 ^ min (0 + len) 32 : Int) : ZMod (256 ^ T.size)) =
        (num : ZMod (256 ^ T.size)) * (stride len : ZMod (256 ^ T.size)) ↔
      len ≤ 30 ∧ (T = .internet4 ∨ k + len ≤ 32) := by
  have hnum' : (num : ZMod (256 ^ T.size)) = 2 ^ k - 1 := by
    exact_mod_cast congrArg (Int.cast : Int → ZMod (256 ^ T.size)) hnum
  rw [zero_add, min_eq_left hlen.le]
  rcases Nat.lt_or_ge 30 len with hwide | hle
  · obtain rfl : len = 31 := by omega
    refine iff_of_false (fun h => ?_) (by omega)
    rw [min_eq_right (by omega), stride, if_neg (by decide)] at h
    have hzero : ((2 ^ 31 + num * 2 ^ 32 : Int) : ZMod (256 ^ T.size)) = 0 := by
      push_cast at h ⊢
      linear_combination h
    have hdvd := dvd_of_cast_eq_zero hzero
    omega
  · rw [stride, if_pos hle, ← pow_min_eq_iff (by omega), hnum']
    simp only [hle, true_and]
    push_cast
    rw [pow_add]
    constructor
    · intro h
      linear_combination h
    · intro h
      linear_combination h

theorem offset_spec (hop : Directed s op) (hs : s = 1 ∨ s = -1) (p : PrefixAddress T)
    (num : Nat) :
    (∃ fuel q, offset op fuel p num = some q ∧ repeated (step op) num p = some q) ↔
      p.Doubles num := by
  constructor
  · rintro ⟨fuel, q, hq, hsteps⟩
    by_cases hnum : num = 0
    · exact Or.inl hnum
    · obtain ⟨r, hr, rfl⟩ := Option.map_eq_some_iff.mp hq
      obtain ⟨hlen, k, hk, hk', hpow, hresidue⟩ := rounds_spec (j := 0) hop (by decide) hr
        (by exact_mod_cast hnum)
      obtain ⟨q', hq', -, hsum⟩ := repeated_spec hop num hlen
      have heq := congrArg (fun p => p.address.residue) (Option.some.inj (hsteps.symm.trans hq'))
      dsimp only at heq
      rw [hresidue, hsum, add_right_inj, cancel_sign hs, meet_iff hk hk' hlen hpow] at heq
      have hcast : ((num + 1 : Nat) : Int) = (2 ^ k : Nat) := by
        push_cast
        rw [hpow]
        ring
      exact Or.inr ⟨k, hk, hk', by exact_mod_cast hcast, heq⟩
  · rintro (rfl | ⟨k, hk, hk', hpow, hle, hfits⟩)
    · exact ⟨1, p, by rw [offset, rounds, if_pos Nat.cast_zero, Option.map_some], rfl⟩
    · have hlen : p.hostlen < 32 := by omega
      have hnum : (num : Int) = 2 ^ k - 1 := by
        have hcast : ((num + 1 : Nat) : Int) = 2 ^ k := by exact_mod_cast hpow
        push_cast at hcast
        omega
      obtain ⟨r, hr⟩ := exists_rounds hop hlen (Nat.zero_le k) hk' p.address
      have hne : (2 : Int) ^ k - 2 ^ 0 ≠ 0 := by
        have hlt : (2 : Int) ^ 0 < 2 ^ k := pow_lt_pow_right₀ (by decide) hk
        omega
      obtain ⟨-, k', -, -, hsame, hresidue⟩ := rounds_spec hop (by decide) hr hne
      obtain rfl : k = k' := Nat.pow_right_injective le_rfl (by
        have heq : (2 : Int) ^ k = 2 ^ k' := by omega
        exact_mod_cast heq)
      obtain ⟨q, hq, hmask, hsum⟩ := repeated_spec hop num hlen
      have heq : ({ p with address := r } : PrefixAddress T) = q := by
        refine PrefixAddress.ext hmask.symm (NetworkAddress.residue_inj ?_)
        rw [hsum, hresidue, (meet_iff hk hk' hlen hnum).mpr ⟨hle, hfits⟩]
      refine ⟨k - 0 + 1, q, ?_, hq⟩
      rw [offset, hnum]
      rw [pow_zero, show 2 ^ 0 % 2 ^ 32 = 1 from rfl] at hr
      rw [hr, Option.map_some, heq]

theorem addAssign_natCast (fuel : Nat) (p : PrefixAddress T) (num : Nat) :
    p.addAssign fuel num = offset NetworkAddress.addAssign fuel p num := by
  rw [addAssign, if_neg (Int.natCast_nonneg num).not_gt]

theorem subAssign_natCast (fuel : Nat) (p : PrefixAddress T) (num : Nat) :
    p.subAssign fuel num = offset NetworkAddress.subAssign fuel p num := by
  rw [subAssign, if_neg (Int.natCast_nonneg num).not_gt]

theorem addAssign_of_neg (fuel : Nat) (p : PrefixAddress T) {num : Int} (hneg : num < 0)
    (hmin : num ≠ longMin) :
    p.addAssign fuel num = offset NetworkAddress.subAssign fuel p num.natAbs := by
  rw [addAssign, if_pos hneg, if_neg hmin, ← subAssign_natCast, Int.ofNat_natAbs_of_nonpos hneg.le]

theorem subAssign_of_neg (fuel : Nat) (p : PrefixAddress T) {num : Int} (hneg : num < 0)
    (hmin : num ≠ longMin) :
    p.subAssign fuel num = offset NetworkAddress.addAssign fuel p num.natAbs := by
  rw [subAssign, if_pos hneg, if_neg hmin, ← addAssign_natCast, Int.ofNat_natAbs_of_nonpos hneg.le]

/-- `+= num` and `-= num` terminate, as `++` and `--` so many times in the direction of the
sign. -/
def OffsetsBySteps (p : PrefixAddress T) (num : Int) : Prop :=
  (∃ fuel q, p.addAssign fuel num = some q ∧
    (if num < 0 then repeated decr num.natAbs p else repeated incr num.natAbs p) = some q) ∧
  ∃ fuel q, p.subAssign fuel num = some q ∧
    (if num < 0 then repeated incr num.natAbs p else repeated decr num.natAbs p) = some q

theorem doubles_longMin (p : PrefixAddress T) : ¬ p.Doubles longMin.natAbs := by
  rintro (h | ⟨k, -, hk, h, -⟩)
  · exact absurd h (by decide)
  · have hle : 2 ^ k ≤ 2 ^ 32 := Nat.pow_le_pow_right (by decide) hk
    have habs : longMin.natAbs = 2 ^ 63 := rfl
    omega

theorem offsetsBySteps_iff (p : PrefixAddress T) (num : Int) :
    p.OffsetsBySteps num ↔ num = 0 ∨ ∃ k, 1 ≤ k ∧ k ≤ 32 ∧ num.natAbs + 1 = 2 ^ k ∧
      T.maxMasklen - p.masklen ≤ 30 ∧
        (T = .internet4 ∨ k + (T.maxMasklen - p.masklen) ≤ 32) := by
  have hadd := offset_spec directed_addAssign (Or.inl rfl) p num.natAbs
  have hsub := offset_spec directed_subAssign (Or.inr rfl) p num.natAbs
  have hcond : (num = 0 ∨ ∃ k, 1 ≤ k ∧ k ≤ 32 ∧ num.natAbs + 1 = 2 ^ k ∧
      T.maxMasklen - p.masklen ≤ 30 ∧
        (T = .internet4 ∨ k + (T.maxMasklen - p.masklen) ≤ 32)) ↔ p.Doubles num.natAbs := by
    rw [Doubles, Int.natAbs_eq_zero]
    rfl
  rw [hcond, OffsetsBySteps]
  rcases lt_or_ge num 0 with hneg | hnum
  · rw [if_pos hneg, if_pos hneg]
    by_cases hmin : num = longMin
    · subst hmin
      refine iff_of_false ?_ (doubles_longMin p)
      rintro ⟨⟨fuel, q, hq, -⟩, -⟩
      rw [addAssign, if_pos hneg, if_pos rfl] at hq
      cases hq
    · simp only [addAssign_of_neg _ p hneg hmin, subAssign_of_neg _ p hneg hmin]
      exact ⟨fun h => hsub.mp h.1, fun h => ⟨hsub.mpr h, hadd.mpr h⟩⟩
  · rw [if_neg hnum.not_gt, if_neg hnum.not_gt]
    obtain ⟨k, rfl⟩ := Int.eq_ofNat_of_zero_le hnum
    simp only [addAssign_natCast, subAssign_natCast, Int.natAbs_natCast] at hadd hsub ⊢
    exact ⟨fun h => hadd.mp h.1, fun h => ⟨hadd.mpr h, hsub.mpr h⟩⟩

end PrefixAddress

/-- 10.0.0.0/8. -/
def classA : PrefixAddress .internet4 := ⟨8, ⟨[10, 0, 0, 0], rfl⟩, by decide⟩

/-- 1 is taken from 2, and then 2, and the number is never zero. -/
theorem not_offsetsBySteps_two :
    (∀ fuel, classA.addAssign fuel 2 = none) ∧ ¬ classA.OffsetsBySteps 2 := by
  have hnone : ∀ fuel, classA.addAssign fuel 2 = none := by
    intro fuel
    rw [show (2 : Int) = (2 : Nat) from rfl, PrefixAddress.addAssign_natCast,
      PrefixAddress.offset, Option.map_eq_none_iff]
    refine Option.eq_none_iff_forall_ne_some.mpr fun r hr => ?_
    obtain ⟨-, k, -, -, hnum, -⟩ :=
      PrefixAddress.rounds_spec (j := 0) directed_addAssign (by decide) hr (by decide)
    cases k with
    | zero => exact absurd hnum (by decide)
    | succ k =>
      rw [pow_succ] at hnum
      push_cast at hnum
      omega
  refine ⟨hnone, fun h => ?_⟩
  obtain ⟨⟨fuel, q, hq, -⟩, -⟩ := h
  rw [hnone fuel] at hq
  cases hq

end Acqua
