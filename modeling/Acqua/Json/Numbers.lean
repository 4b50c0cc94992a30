import Acqua.Json.Completeness

/-! What `number_parser` delivers for the numbers of RFC 8259, and when its arithmetic overflows.
Where it does, it wraps around as everywhere in the parser, and the number is not the one that was
written. -/

namespace Acqua

namespace Json

def inLong (n : Int) : Bool := -2 ^ 63 ≤ n ∧ n < 2 ^ 63

def inInt (n : Int) : Bool := -2 ^ 31 ≤ n ∧ n < 2 ^ 31

/-- What a number stands for. -/
def Scalar.rational : Scalar → Option ℚ
  | .long n => some n
  | .quotient decimal fraction => some (decimal / fraction)
  | .power decimal exponent fraction => some (decimal * 10 ^ exponent / fraction)
  | _ => none

namespace NumberParser

/-- `decimal_ *= -1` behind the test of the sign. -/
def signFits (p : NumberParser) : Bool :=
  match p.sign with
  | .plus => true
  | .minus => inLong (p.decimal * -1)

/-- No operation of one call overflows. -/
def fits (p : NumberParser) (ch : UInt8) : Bool :=
  match p.n with
  | .decimal =>
    if ch = chr 'e' ∨ ch = chr 'E' then p.signFits
    else if ch = chr '.' then true
    else if isdigit ch then inLong (p.decimal * 10) ∧ inLong (p.decimal * 10 + digit ch)
    else p.signFits
  | .fraction =>
    if ch = chr 'e' ∨ ch = chr 'E' then p.signFits
    else if isdigit ch then
      -- `decimal_ * 10 + ch - '0'`, from left to right
      inLong (p.decimal * 10) ∧ inLong (p.decimal * 10 + ch.toNat) ∧
        inLong (p.decimal * 10 + ch.toNat - '0'.toNat) ∧ inInt (p.fraction * 10)
    else p.signFits
  | .exp => true
  | .exponent =>
    if isdigit ch then inInt (p.exponent * 10) ∧ inInt (p.exponent * 10 + digit ch)
    else
      match p.sign with
      | .plus => true
      | .minus => inInt (p.exponent * -1)

/-- What comes of some characters of which the last completes the number, where every operation
wraps around that overflows. -/
def wrapped : NumberParser → List UInt8 → Option Scalar
  | _, [] => none
  | p, ch :: rest =>
    match p.next ch with
    | some p => wrapped p rest
    | none => if rest = [] then p.result else none

/-- No operation overflows up to the end of the number. -/
def allFit : NumberParser → List UInt8 → Bool
  | _, [] => true
  | p, ch :: rest => p.fits ch && (p.next ch).all fun p => allFit p rest

/-- What the parser makes of some characters if nothing overflows on the way, where it is what an
arithmetic without bounds would make of them. -/
def deliver (p : NumberParser) (text : List UInt8) : Option Scalar :=
  if p.allFit text then p.wrapped text else none

theorem deliver_cons (p : NumberParser) (ch : UInt8) (rest : List UInt8) :
    p.deliver (ch :: rest) =
      if p.fits ch then
        match p.next ch with
        | some p => p.deliver rest
        | none => if rest = [] then p.result else none
      else none := by
  rw [deliver, allFit, wrapped]
  cases p.fits ch with
  | false => rfl
  | true =>
    cases p.next ch with
    | none => rfl
    | some p => rfl

/-- `new_number`. -/
def ofFirst (ch : UInt8) : NumberParser :=
  if ch = chr '-' then make 0 .minus
  else if ch = chr '+' then make 0 .plus
  else make (digit ch) .plus

def read : List UInt8 → Option Scalar
  | [] => none
  | ch :: rest => deliver (ofFirst ch) rest

end NumberParser

/-- The last part of a number. -/
structure Exponent where
  e : UInt8
  sign : Option UInt8
  first : UInt8
  rest : List UInt8
  isExp : e = chr 'e' ∨ e = chr 'E'
  isSign : ∀ ch ∈ sign, ch = chr '+' ∨ ch = chr '-'
  isDigits : ∀ d ∈ first :: rest, isdigit d

namespace Exponent

def text (x : Exponent) : List UInt8 := x.e :: (x.sign.toList ++ x.first :: x.rest)

def magnitude (x : Exponent) : Int := ofDigits (x.first :: x.rest)

def value (x : Exponent) : Int := if x.sign = some (chr '-') then -x.magnitude else x.magnitude

end Exponent

/-- A number of RFC 8259. There are no fraction digits where there is no `.`. -/
structure NumberLiteral where
  minus : Bool
  first : UInt8
  rest : List UInt8
  frac : List UInt8
  exp : Option Exponent
  isInt : ∀ d ∈ first :: rest, isdigit d
  leading : first = chr '0' → rest = []
  isFrac : ∀ d ∈ frac, isdigit d

namespace NumberLiteral

def text (l : NumberLiteral) : List UInt8 :=
  (if l.minus then [chr '-'] else []) ++ (l.first :: l.rest) ++
    (if l.frac = [] then [] else chr '.' :: l.frac) ++ (l.exp.elim [] Exponent.text)

/-- The digits of the integer and of the fraction as one number. -/
def decimal (l : NumberLiteral) : Int := ofDigits (l.first :: l.rest ++ l.frac)

def signed (l : NumberLiteral) : Int := if l.minus then -l.decimal else l.decimal

def magnitude (l : NumberLiteral) : Int := l.exp.elim 0 Exponent.magnitude

def exponent (l : NumberLiteral) : Int := l.exp.elim 0 Exponent.value

def value (l : NumberLiteral) : ℚ := l.signed / 10 ^ l.frac.length * 10 ^ l.exponent

/-- How many digits there are from the first that is not 0 on. -/
def significant (l : NumberLiteral) : Nat :=
  ((l.first :: l.rest ++ l.frac).dropWhile (· = chr '0')).length

/-- The digits are within `long`, and so is the character that is added for the last one of a
fraction. -/
def InLong (l : NumberLiteral) : Prop := l.decimal + (if l.frac = [] then 0 else 48) < 2 ^ 63

instance (l : NumberLiteral) : Decidable l.InLong := inferInstanceAs (Decidable (_ < _))

/-- What the parser delivers when nothing overflows. -/
def scalar (l : NumberLiteral) : Scalar :=
  match l.exp with
  | none => if l.frac = [] then .long l.signed else .quotient l.signed (10 ^ l.frac.length)
  | some x => .power l.signed x.value (10 ^ l.frac.length)

theorem rational_scalar (l : NumberLiteral) : l.scalar.rational = some l.value := by
  cases hexp : l.exp with
  | none =>
    have hzero : l.exponent = 0 := by rw [exponent, hexp, Option.elim_none]
    rw [scalar, hexp, value, hzero, zpow_zero, mul_one]
    by_cases hfrac : l.frac = []
    · rw [hfrac]
      simp [Scalar.rational]
    · simp [hfrac, Scalar.rational]
  | some x =>
    have hvalue : l.exponent = x.value := by rw [exponent, hexp, Option.elim_some]
    rw [scalar, hexp, value, hvalue, Scalar.rational, Option.some.injEq]
    push_cast
    rw [mul_div_right_comm]

end NumberLiteral

/-- A number with more digits behind it. -/
def appendDigits (n : Int) (ds : List UInt8) : Int := ds.foldl (fun n ch => n * 10 + digit ch) n

theorem appendDigits_cons (n : Int) (d : UInt8) (ds : List UInt8) :
    appendDigits n (d :: ds) = appendDigits (n * 10 + digit d) ds := rfl

theorem ofDigits_cons (d : UInt8) (ds : List UInt8) :
    ofDigits (d :: ds) = appendDigits (digit d) ds := by
  rw [ofDigits, List.foldl_cons, zero_mul, zero_add, appendDigits]

theorem ofDigits_append (ds es : List UInt8) :
    ofDigits (ds ++ es) = appendDigits (ofDigits ds) es :=
  List.foldl_append

theorem le_appendDigits {ds : List UInt8} (hds : ∀ d ∈ ds, isdigit d) {n : Int} (hn : 0 ≤ n) :
    n ≤ appendDigits n ds := by
  induction ds generalizing n with
  | nil => exact le_refl n
  | cons d ds ih =>
    obtain ⟨hd, hrest⟩ := List.forall_mem_cons.mp hds
    have hdigit := digit_range hd
    have htail := ih hrest (n := n * 10 + digit d) (by omega)
    rw [appendDigits_cons]
    omega

theorem ofDigits_nonneg {ds : List UInt8} (hds : ∀ d ∈ ds, isdigit d) : 0 ≤ ofDigits ds :=
  le_appendDigits hds (le_refl 0)

theorem appendDigits_lt {ds : List UInt8} (hds : ∀ d ∈ ds, isdigit d) (n : Int) :
    appendDigits n ds < (n + 1) * 10 ^ ds.length := by
  induction ds generalizing n with
  | nil => simp [appendDigits]
  | cons d ds ih =>
    obtain ⟨hd, hrest⟩ := List.forall_mem_cons.mp hds
    have hdigit := digit_range hd
    calc appendDigits n (d :: ds) < (n * 10 + digit d + 1) * 10 ^ ds.length := ih hrest _
      _ ≤ (n + 1) * 10 * 10 ^ ds.length :=
        mul_le_mul_of_nonneg_right (by omega) (pow_nonneg (by decide) _)
      _ = (n + 1) * 10 ^ (d :: ds).length := by rw [List.length_cons, pow_succ']; ring

theorem toNat_eq_digit (ch : UInt8) : (ch.toNat : Int) = digit ch + 48 := by
  rw [digit]
  exact (sub_add_cancel _ _).symm

theorem int_eq {n : Int} (h : -2 ^ 31 ≤ n) (h' : n < 2 ^ 31) : int n = n := by
  rw [int, Int.bmod_eq_of_le]
  · simpa using h
  · simpa using h'

/-- A character that is no part of a number. -/
def EndsNumber (ch : UInt8) : Prop :=
  ¬ isdigit ch ∧ ch ≠ chr '.' ∧ ch ≠ chr 'e' ∧ ch ≠ chr 'E'

theorem digit_ne {ch : UInt8} (h : isdigit ch) :
    ch ≠ chr '.' ∧ ch ≠ chr 'e' ∧ ch ≠ chr 'E' ∧ ch ≠ chr '-' ∧ ch ≠ chr '+' := by
  refine ⟨?_, ?_, ?_, ?_, ?_⟩ <;>
  · rintro rfl
    exact absurd h (by decide)

theorem eq_zero_of_isdigit {ch : UInt8} (h : isdigit ch)
    (hrange : ¬ (chr '1' ≤ ch ∧ ch ≤ chr '9')) : ch = chr '0' := by
  have hzero : (chr '0').toNat = 48 := rfl
  have hone : (chr '1').toNat = 49 := rfl
  have hnine : (chr '9').toNat = 57 := rfl
  simp only [isdigit, decide_eq_true_eq, UInt8.le_iff_toNat_le] at h hrange
  apply UInt8.toNat_inj.mp
  omega

namespace NumberParser

section Scan

variable {sign : Sign} {ds : List UInt8} (hds : ∀ d ∈ ds, isdigit d) (rest : List UInt8)
include hds

theorem deliver_decimal {n : Int} (hn : 0 ≤ n) (hlt : n < 2 ^ 63) :
    deliver ⟨.decimal, n, 1, 0, sign⟩ (ds ++ rest) =
      if appendDigits n ds < 2 ^ 63 then
        deliver ⟨.decimal, appendDigits n ds, 1, 0, sign⟩ rest
      else none := by
  induction ds generalizing n with
  | nil => exact (if_pos hlt).symm
  | cons d ds ih =>
    obtain ⟨hd, hrest⟩ := List.forall_mem_cons.mp hds
    have hdigit := digit_range hd
    obtain ⟨hdot, he, hE, -⟩ := digit_ne hd
    have hle := le_appendDigits hrest (n := n * 10 + digit d) (by omega)
    by_cases hnext : n * 10 + digit d < 2 ^ 63
    · have hfits : fits ⟨.decimal, n, 1, 0, sign⟩ d := by
        simp [fits, he, hE, hdot, hd, inLong]
        omega
      have hstep : next ⟨.decimal, n, 1, 0, sign⟩ d =
          some ⟨.decimal, n * 10 + digit d, 1, 0, sign⟩ := by
        simp [next, he, hE, hdot, hd, long_eq (by omega) hnext]
      rw [List.cons_append, deliver_cons, if_pos hfits, hstep, appendDigits_cons]
      exact ih hrest (by omega) hnext
    · have hfits : ¬ fits ⟨.decimal, n, 1, 0, sign⟩ d := by
        simp [fits, he, hE, hdot, hd, inLong]
        omega
      rw [List.cons_append, deliver_cons, if_neg hfits, appendDigits_cons, if_neg (by omega)]

theorem deliver_fraction {n f : Int} (hn : 0 ≤ n) (hf : 1 ≤ f) (hfint : f < 2 ^ 31) :
    deliver ⟨.fraction, n, f, 0, sign⟩ (ds ++ rest) =
      if ds = [] ∨ (appendDigits n ds + 48 < 2 ^ 63 ∧ f * 10 ^ ds.length < 2 ^ 31) then
        deliver ⟨.fraction, appendDigits n ds, f * 10 ^ ds.length, 0, sign⟩ rest
      else none := by
  induction ds generalizing n f with
  | nil =>
    rw [if_pos (Or.inl rfl), List.length_nil, pow_zero, mul_one]
    rfl
  | cons d ds ih =>
    obtain ⟨hd, hrest⟩ := List.forall_mem_cons.mp hds
    have hdigit := digit_range hd
    have hchar := toNat_eq_digit d
    obtain ⟨hdot, he, hE, -⟩ := digit_ne hd
    have hle := le_appendDigits hrest (n := n * 10 + digit d) (by omega)
    have hpow : f * 10 ^ (d :: ds).length = f * 10 * 10 ^ ds.length := by
      rw [List.length_cons, pow_succ']
      ring
    have hone : f * 10 ≤ f * 10 * 10 ^ ds.length :=
      le_mul_of_one_le_right (by omega) (one_le_pow₀ (by decide))
    have hzero : ('0'.toNat : Int) = 48 := rfl
    by_cases hnext : n * 10 + digit d + 48 < 2 ^ 63 ∧ f * 10 < 2 ^ 31
    · have hfits : fits ⟨.fraction, n, f, 0, sign⟩ d := by
        simp [fits, he, hE, hd, inLong, inInt, hchar]
        omega
      have hlong : long (n * 10 + digit d) = n * 10 + digit d := long_eq (by omega) (by omega)
      have hint : int (f * 10) = f * 10 := int_eq (by omega) hnext.2
      have hstep : next ⟨.fraction, n, f, 0, sign⟩ d =
          some ⟨.fraction, n * 10 + digit d, f * 10, 0, sign⟩ := by
        simp [next, he, hE, hd, hlong, hint]
      rw [List.cons_append, deliver_cons, if_pos hfits, hstep, appendDigits_cons, hpow]
      refine (ih hrest (by omega) (by omega) hnext.2).trans (if_congr ?_ rfl rfl)
      rw [or_iff_right (List.cons_ne_nil d ds), or_iff_right_of_imp]
      rintro rfl
      rw [List.length_nil, pow_zero, mul_one]
      exact hnext
    · have hfits : ¬ fits ⟨.fraction, n, f, 0, sign⟩ d := by
        simp [fits, he, hE, hd, inLong, inInt, hchar]
        omega
      rw [List.cons_append, deliver_cons, if_neg hfits, appendDigits_cons, hpow, if_neg]
      rw [or_iff_right (List.cons_ne_nil d ds)]
      exact fun h => hnext ⟨by omega, by omega⟩

theorem deliver_exponent {v f x : Int} (hx : 0 ≤ x) (hlt : x < 2 ^ 31) :
    deliver ⟨.exponent, v, f, x, sign⟩ (ds ++ rest) =
      if appendDigits x ds < 2 ^ 31 then
        deliver ⟨.exponent, v, f, appendDigits x ds, sign⟩ rest
      else none := by
  induction ds generalizing x with
  | nil => exact (if_pos hlt).symm
  | cons d ds ih =>
    obtain ⟨hd, hrest⟩ := List.forall_mem_cons.mp hds
    have hdigit := digit_range hd
    have hle := le_appendDigits hrest (n := x * 10 + digit d) (by omega)
    by_cases hnext : x * 10 + digit d < 2 ^ 31
    · have hfits : fits ⟨.exponent, v, f, x, sign⟩ d := by
        simp [fits, hd, inInt]
        omega
      have hint : int (x * 10 + digit d) = x * 10 + digit d := int_eq (by omega) hnext
      have hstep : next ⟨.exponent, v, f, x, sign⟩ d =
          some ⟨.exponent, v, f, x * 10 + digit d, sign⟩ := by
        simp [next, hd, hint]
      rw [List.cons_append, deliver_cons, if_pos hfits, hstep, appendDigits_cons]
      exact ih hrest (by omega) hnext
    · have hfits : ¬ fits ⟨.exponent, v, f, x, sign⟩ d := by
        simp [fits, hd, inInt]
        omega
      rw [List.cons_append, deliver_cons, if_neg hfits, appendDigits_cons, if_neg (by omega)]

end Scan

/-- The sign that `new_number` is given. -/
def signOf (minus : Bool) : Sign := if minus then .minus else .plus

section End

variable {n f : Int} (hn : 0 ≤ n) (hlt : n < 2 ^ 63) (minus : Bool) (k : NType)
include hn hlt

theorem signed_eq : signed ⟨k, n, f, 0, signOf minus⟩ = if minus then -n else n := by
  cases minus with
  | false => rfl
  | true =>
    have hneg : long (-n) = -n := long_eq (by omega) (by omega)
    simp [signed, signOf, hneg]

theorem signFits_eq : signFits ⟨k, n, f, 0, signOf minus⟩ = true := by
  cases minus with
  | false => rfl
  | true =>
    simp [signFits, signOf, inLong]
    omega

variable {ch : UInt8}

theorem deliver_decimal_end (hch : EndsNumber ch) :
    deliver ⟨.decimal, n, f, 0, signOf minus⟩ [ch] = some (.long (if minus then -n else n)) := by
  obtain ⟨hdigit, hdot, he, hE⟩ := hch
  have hfits : fits ⟨.decimal, n, f, 0, signOf minus⟩ ch := by
    simp [fits, he, hE, hdot, hdigit, signFits_eq hn hlt]
  have hstep : next ⟨.decimal, n, f, 0, signOf minus⟩ ch = none := by
    simp [next, he, hE, hdot, hdigit]
  rw [deliver_cons, if_pos hfits, hstep]
  simp [result, signed_eq hn hlt]

theorem deliver_fraction_end (hch : EndsNumber ch) :
    deliver ⟨.fraction, n, f, 0, signOf minus⟩ [ch] =
      some (.quotient (if minus then -n else n) f) := by
  obtain ⟨hdigit, -, he, hE⟩ := hch
  have hfits : fits ⟨.fraction, n, f, 0, signOf minus⟩ ch := by
    simp [fits, he, hE, hdigit, signFits_eq hn hlt]
  have hstep : next ⟨.fraction, n, f, 0, signOf minus⟩ ch = none := by
    simp [next, he, hE, hdigit]
  rw [deliver_cons, if_pos hfits, hstep]
  simp [result, signed_eq hn hlt]

theorem deliver_e (hk : k = .decimal ∨ k = .fraction) (he : ch = chr 'e' ∨ ch = chr 'E')
    (rest : List UInt8) :
    deliver ⟨k, n, f, 0, signOf minus⟩ (ch :: rest) =
      deliver ⟨.exp, if minus then -n else n, f, 0, signOf minus⟩ rest := by
  have hfits : fits ⟨k, n, f, 0, signOf minus⟩ ch := by
    rcases hk with rfl | rfl <;> simp [fits, he, signFits_eq hn hlt]
  have hstep : next ⟨k, n, f, 0, signOf minus⟩ ch =
      some ⟨.exp, if minus then -n else n, f, 0, signOf minus⟩ := by
    rcases hk with rfl | rfl <;> simp [next, he, signed_eq hn hlt]
  rw [deliver_cons, if_pos hfits, hstep]

end End

theorem deliver_exponent_end {v f m : Int} (hm : 0 ≤ m) (hlt : m < 2 ^ 31) (minus : Bool)
    {ch : UInt8} (hch : EndsNumber ch) :
    deliver ⟨.exponent, v, f, m, signOf minus⟩ [ch] =
      some (.power v (if minus then -m else m) f) := by
  have hint : int (-m) = -m := int_eq (by omega) (by omega)
  have hfits : fits ⟨.exponent, v, f, m, signOf minus⟩ ch := by
    cases minus with
    | false => simp [fits, hch.1, signOf]
    | true =>
      simp [fits, hch.1, signOf, inInt]
      omega
  have hstep : next ⟨.exponent, v, f, m, signOf minus⟩ ch = none := by
    simp [next, hch.1]
  rw [deliver_cons, if_pos hfits, hstep]
  cases minus with
  | false => simp [result, signOf]
  | true => simp [result, signOf, hint]

theorem deliver_exponent_digits {v f m x : Int} (hx : 0 ≤ x) (hlt : x < 2 ^ 31) (minus : Bool)
    {ds : List UInt8} (hds : ∀ d ∈ ds, isdigit d) (hm : appendDigits x ds = m) {ch : UInt8}
    (hch : EndsNumber ch) :
    deliver ⟨.exponent, v, f, x, signOf minus⟩ (ds ++ [ch]) =
      if m < 2 ^ 31 then some (.power v (if minus then -m else m) f) else none := by
  have hpos : 0 ≤ m := hm ▸ hx.trans (le_appendDigits hds hx)
  rw [deliver_exponent hds [ch] hx hlt, hm]
  refine if_ctx_congr Iff.rfl (fun hlt => ?_) fun _ => rfl
  exact deliver_exponent_end hpos hlt minus hch

/-- The sign of the number is overwritten by the sign of the exponent. -/
theorem deliver_exp (x : Exponent) {v f : Int} {sign : Sign} {ch : UInt8} (hch : EndsNumber ch) :
    deliver ⟨.exp, v, f, 0, sign⟩ (x.sign.toList ++ x.first :: x.rest ++ [ch]) =
      if x.magnitude < 2 ^ 31 then some (.power v x.value f) else none := by
  have hfits : ∀ c, fits ⟨.exp, v, f, 0, sign⟩ c = true := fun c => rfl
  obtain ⟨hfirst, hrest⟩ := List.forall_mem_cons.mp x.isDigits
  have hdigit := digit_range hfirst
  cases hsign : x.sign with
  | none =>
    have hvalue : x.value = if false then -x.magnitude else x.magnitude := by
      simp [Exponent.value, hsign]
    have hstep : next ⟨.exp, v, f, 0, sign⟩ x.first =
        some ⟨.exponent, v, f, digit x.first, signOf false⟩ := by
      by_cases hrange : chr '1' ≤ x.first ∧ x.first ≤ chr '9'
      · simp [next, hrange, signOf]
      · rw [eq_zero_of_isdigit hfirst hrange]
        rfl
    rw [Option.toList_none, List.nil_append, List.cons_append, deliver_cons, if_pos (hfits _), hstep,
      hvalue]
    exact deliver_exponent_digits hdigit.1 (by omega) false hrest (ofDigits_cons _ _).symm hch
  | some c =>
    rcases x.isSign c (hsign ▸ rfl) with rfl | rfl
    · have hvalue : x.value = if false then -x.magnitude else x.magnitude := by
        rw [Exponent.value, hsign, if_neg (by decide), if_neg (by decide)]
      rw [Option.toList_some, List.singleton_append, List.cons_append, deliver_cons, if_pos (hfits _),
        hvalue]
      exact deliver_exponent_digits (le_refl 0) (by decide) false x.isDigits rfl hch
    · have hvalue : x.value = if true then -x.magnitude else x.magnitude := by
        rw [Exponent.value, hsign, if_pos rfl, if_pos rfl]
      rw [Option.toList_some, List.singleton_append, List.cons_append, deliver_cons, if_pos (hfits _),
        hvalue]
      exact deliver_exponent_digits (le_refl 0) (by decide) true x.isDigits rfl hch

end NumberParser

namespace NumberLiteral

open NumberParser

variable (l : NumberLiteral)

/-- The digits of the integer, as far as they are within `long`. -/
theorem read_int (rest : List UInt8) :
    read ((if l.minus then [chr '-'] else []) ++ (l.first :: l.rest) ++ rest) =
      if ofDigits (l.first :: l.rest) < 2 ^ 63 then
        deliver ⟨.decimal, ofDigits (l.first :: l.rest), 1, 0, signOf l.minus⟩ rest
      else none := by
  obtain ⟨hfirst, hrest⟩ := List.forall_mem_cons.mp l.isInt
  have hdigit := digit_range hfirst
  cases hminus : l.minus with
  | true =>
    rw [if_pos rfl, List.append_assoc, List.singleton_append]
    exact deliver_decimal l.isInt rest (le_refl 0) (by decide)
  | false =>
    have hstart : ofFirst l.first = ⟨.decimal, digit l.first, 1, 0, signOf false⟩ := by
      obtain ⟨-, -, -, hneg, hplus⟩ := digit_ne hfirst
      rw [ofFirst, if_neg hneg, if_neg hplus]
      rfl
    have hread : read (l.first :: (l.rest ++ rest)) =
        deliver (ofFirst l.first) (l.rest ++ rest) := rfl
    rw [if_neg Bool.false_ne_true, List.nil_append, List.cons_append, hread, hstart, ofDigits_cons]
    exact deliver_decimal hrest rest hdigit.1 (by omega)

/-- What is delivered from the state `k` on. -/
def scalarFrom (k : NType) (n f : Int) : Scalar :=
  match l.exp, k with
  | some x, _ => .power (if l.minus then -n else n) x.value f
  | none, .decimal => .long (if l.minus then -n else n)
  | none, _ => .quotient (if l.minus then -n else n) f

/-- From the end of the digits on. -/
theorem deliver_end {n f : Int} (hn : 0 ≤ n) (hlt : n < 2 ^ 63) {k : NType}
    (hk : k = .decimal ∨ k = .fraction) {ch : UInt8} (hch : EndsNumber ch) :
    deliver ⟨k, n, f, 0, signOf l.minus⟩ (l.exp.elim [] Exponent.text ++ [ch]) =
      if l.magnitude < 2 ^ 31 then some (l.scalarFrom k n f) else none := by
  cases hexp : l.exp with
  | none =>
    have hmagnitude : l.magnitude < 2 ^ 31 := by
      rw [magnitude, hexp]
      decide
    simp only [if_pos hmagnitude, scalarFrom, hexp, Option.elim_none, List.nil_append]
    rcases hk with rfl | rfl
    · exact deliver_decimal_end hn hlt l.minus hch
    · exact deliver_fraction_end hn hlt l.minus hch
  | some x =>
    have hmagnitude : l.magnitude = x.magnitude := by rw [magnitude, hexp, Option.elim_some]
    simp only [hmagnitude, scalarFrom, hexp, Option.elim_some, Exponent.text, List.cons_append]
    rw [deliver_e hn hlt l.minus k hk x.isExp]
    exact deliver_exp x hch

theorem pow_lt_iff (k : Nat) : (10 : Int) ^ k < 2 ^ 31 ↔ k ≤ 9 := by
  constructor
  · intro h
    by_contra hk
    have hle : (10 : Int) ^ 10 ≤ 10 ^ k := pow_le_pow_right₀ (by decide) (by omega)
    omega
  · intro h
    have hle : (10 : Int) ^ k ≤ 10 ^ 9 := pow_le_pow_right₀ (by decide) h
    omega

/-- The digits of the fraction, as far as nothing overflows. -/
theorem deliver_frac {n : Int} (hn : 0 ≤ n) (hfrac : l.frac ≠ []) {ch : UInt8}
    (hch : EndsNumber ch) :
    deliver ⟨.decimal, n, 1, 0, signOf l.minus⟩
        (chr '.' :: (l.frac ++ (l.exp.elim [] Exponent.text ++ [ch]))) =
      if appendDigits n l.frac + 48 < 2 ^ 63 ∧ l.frac.length ≤ 9 ∧ l.magnitude < 2 ^ 31 then
        some (l.scalarFrom .fraction (appendDigits n l.frac) (10 ^ l.frac.length))
      else none := by
  have hdot : deliver ⟨.decimal, n, 1, 0, signOf l.minus⟩
      (chr '.' :: (l.frac ++ (l.exp.elim [] Exponent.text ++ [ch]))) =
        deliver ⟨.fraction, n, 1, 0, signOf l.minus⟩
          (l.frac ++ (l.exp.elim [] Exponent.text ++ [ch])) := rfl
  have hle := le_appendDigits l.isFrac hn
  have hcond : (l.frac = [] ∨ (appendDigits n l.frac + 48 < 2 ^ 63 ∧
      1 * 10 ^ l.frac.length < (2 : Int) ^ 31)) ↔
        appendDigits n l.frac + 48 < 2 ^ 63 ∧ l.frac.length ≤ 9 := by
    rw [or_iff_right hfrac, one_mul, pow_lt_iff]
  rw [hdot, deliver_fraction l.isFrac _ hn (le_refl 1) (by decide)]
  by_cases hfits : appendDigits n l.frac + 48 < 2 ^ 63 ∧ l.frac.length ≤ 9
  · rw [if_pos (hcond.mpr hfits), one_mul,
      l.deliver_end (hn.trans hle) (by omega) (Or.inr rfl) hch]
    refine if_congr ?_ rfl rfl
    rw [and_iff_right hfits.1, and_iff_right hfits.2]
  · rw [if_neg (mt hcond.mp hfits), if_neg fun h => hfits ⟨h.1, h.2.1⟩]

/-- A literal is delivered where nothing overflows, and only there. -/
theorem read_text {ch : UInt8} (hch : EndsNumber ch) :
    read (l.text ++ [ch]) =
      if l.InLong ∧ l.frac.length ≤ 9 ∧ l.magnitude < 2 ^ 31 then some l.scalar else none := by
  have hpos := ofDigits_nonneg l.isInt
  have hdecimal : l.decimal = appendDigits (ofDigits (l.first :: l.rest)) l.frac :=
    ofDigits_append _ _
  have hle : ofDigits (l.first :: l.rest) ≤ l.decimal := hdecimal ▸ le_appendDigits l.isFrac hpos
  rw [text, List.append_assoc, List.append_assoc, read_int]
  by_cases hfrac : l.frac = []
  · have heq : ofDigits (l.first :: l.rest) = l.decimal := by
      rw [hdecimal, hfrac]
      rfl
    have hscalar : l.scalarFrom .decimal l.decimal 1 = l.scalar := by
      cases hexp : l.exp <;> simp [scalarFrom, scalar, hexp, hfrac, signed]
    have hlong : l.InLong ↔ l.decimal < 2 ^ 63 := by simp [InLong, hfrac]
    have hlength : l.frac.length ≤ 9 := by simp [hfrac]
    rw [if_pos hfrac, List.nil_append, heq]
    by_cases hlt : l.decimal < 2 ^ 63
    · rw [if_pos hlt, l.deliver_end (heq ▸ hpos) hlt (Or.inl rfl) hch, hscalar]
      refine if_congr ?_ rfl rfl
      rw [and_iff_right (hlong.mpr hlt), and_iff_right hlength]
    · rw [if_neg hlt, if_neg fun h => hlt (hlong.mp h.1)]
  · have hscalar : l.scalarFrom .fraction l.decimal (10 ^ l.frac.length) = l.scalar := by
      cases hexp : l.exp <;> simp [scalarFrom, scalar, hexp, hfrac, signed]
    have hlong : l.InLong ↔ l.decimal + 48 < 2 ^ 63 := by simp [InLong, hfrac]
    by_cases hlt : ofDigits (l.first :: l.rest) < 2 ^ 63
    · rw [if_pos hlt, if_neg hfrac, List.cons_append, l.deliver_frac hpos hfrac hch, ← hdecimal,
        hscalar]
      exact if_congr (and_congr_left' hlong.symm) rfl rfl
    · have hnot : ¬ l.InLong := by
        rw [hlong]
        omega
      rw [if_neg hlt, if_neg fun h => hnot h.1]

theorem appendDigits_dropWhile (ds : List UInt8) :
    appendDigits 0 (ds.dropWhile (· = chr '0')) = appendDigits 0 ds := by
  induction ds with
  | nil => rfl
  | cons d ds ih =>
    by_cases hzero : d = chr '0'
    · subst hzero
      rw [List.dropWhile_cons_of_pos (by decide), ih]
      rfl
    · rw [List.dropWhile_cons_of_neg (by simpa using hzero)]

theorem inLong_of_significant (h : l.significant ≤ 18) : l.InLong := by
  have hdigits : ∀ d ∈ (l.first :: l.rest ++ l.frac).dropWhile (· = chr '0'), isdigit d := by
    intro d hd
    rcases List.mem_append.mp ((List.dropWhile_sublist _).subset hd) with hd | hd
    · exact l.isInt d hd
    · exact l.isFrac d hd
  have hlt := appendDigits_lt hdigits 0
  have hpow : (10 : Int) ^ l.significant ≤ 10 ^ 18 := pow_le_pow_right₀ (by decide) h
  rw [appendDigits_dropWhile, zero_add, one_mul] at hlt
  have hdecimal : l.decimal < 10 ^ 18 := hlt.trans_le hpow
  have hchar : (if l.frac = [] then 0 else 48 : Int) ≤ 48 := by split_ifs <;> decide
  rw [InLong]
  omega

/-- The value is delivered, and nothing overflows. -/
def ReadExactly (ch : UInt8) : Prop :=
  ∃ s, read (l.text ++ [ch]) = some s ∧ s.rational = some l.value

theorem readExactly_iff {ch : UInt8} (hch : EndsNumber ch) :
    l.ReadExactly ch ↔ l.InLong ∧ l.frac.length ≤ 9 ∧ l.magnitude < 2 ^ 31 := by
  rw [ReadExactly, l.read_text hch]
  constructor
  · rintro ⟨s, hs, -⟩
    by_contra hnot
    rw [if_neg hnot] at hs
    exact absurd hs (Option.some_ne_none s).symm
  · intro h
    exact ⟨l.scalar, if_pos h, l.rational_scalar⟩

theorem magnitude_lt_iff (h : inInt l.exponent) :
    l.magnitude < 2 ^ 31 ↔ l.exponent ≠ -2 ^ 31 := by
  simp only [inInt, decide_eq_true_eq] at h
  cases hexp : l.exp with
  | none => simp [magnitude, exponent, hexp]
  | some x =>
    have hpos : 0 ≤ x.magnitude := ofDigits_nonneg x.isDigits
    simp only [magnitude, exponent, hexp, Option.elim_some, Exponent.value] at h ⊢
    split_ifs at h ⊢ <;> omega

/-- A number is read exactly when it has no more than nine fraction digits, its exponent is not the
least `int`, and its digits are within `long`, as 18 of them always are. -/
theorem number_readExactly_iff {ch : UInt8} (hch : EndsNumber ch) :
    (l.ReadExactly ch ↔ l.InLong ∧ l.frac.length ≤ 9 ∧ l.magnitude < 2 ^ 31) ∧
      (l.significant ≤ 18 → inInt l.exponent →
        (l.ReadExactly ch ↔ l.frac.length ≤ 9 ∧ l.exponent ≠ -2 ^ 31)) := by
  refine ⟨l.readExactly_iff hch, fun hsignificant hexponent => ?_⟩
  rw [l.readExactly_iff hch, and_iff_right (l.inLong_of_significant hsignificant),
    l.magnitude_lt_iff hexponent]

theorem isdigit_of_all {ds : List UInt8} (h : ds.all isdigit) : ∀ d ∈ ds, isdigit d :=
  List.all_eq_true.mp h

theorem endsNumber_comma : EndsNumber (chr ',') :=
  ⟨by decide, by decide, by decide, by decide⟩

/-- `-12.5`. -/
def small : NumberLiteral where
  minus := true
  first := chr '1'
  rest := [chr '2']
  frac := [chr '5']
  exp := none
  isInt := isdigit_of_all (by decide)
  leading := fun h => absurd h (by decide)
  isFrac := isdigit_of_all (by decide)

theorem number_readExactly_of_small :
    (small.ReadExactly (chr ',') ↔
        small.InLong ∧ small.frac.length ≤ 9 ∧ small.magnitude < 2 ^ 31) ∧
      (small.significant ≤ 18 → inInt small.exponent →
        (small.ReadExactly (chr ',') ↔ small.frac.length ≤ 9 ∧ small.exponent ≠ -2 ^ 31)) :=
  small.number_readExactly_iff endsNumber_comma

/-- `0.0000000001`. -/
def tenDigits : NumberLiteral where
  minus := false
  first := chr '0'
  rest := []
  frac := octets "0000000001"
  exp := none
  isInt := isdigit_of_all (by decide)
  leading := fun _ => rfl
  isFrac := isdigit_of_all (by decide)

/-- `fraction_` overflows at the tenth digit. -/
theorem not_readExactly_tenDigits :
    tenDigits.significant ≤ 18 ∧ inInt tenDigits.exponent ∧ ¬ tenDigits.ReadExactly (chr ',') := by
  refine ⟨by decide, by decide, ?_⟩
  rw [tenDigits.readExactly_iff endsNumber_comma]
  exact fun h => absurd h.2.1 (by decide)

end NumberLiteral

end Json

end Acqua
