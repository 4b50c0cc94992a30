import Acqua.Library.Decimal
import Acqua.Library.Splits

/-! What scanners of the standard libraries take from the start of a text. -/

namespace Acqua

/-- `boost::algorithm::istarts_with`. -/
def istartsWith (text test : List UInt8) : Bool :=
  (test.map toupper).isPrefixOf (text.map toupper)

def literal (s : String) (text : List UInt8) : Option (List UInt8) :=
  if (octets s).isPrefixOf text then some (text.drop (octets s).length) else none

/-- `qi::uint_`. A number that is no `unsigned` is not matched. -/
def parseUint (text : List UInt8) : Option (Nat × List UInt8) :=
  let digits := text.takeWhile isdigit
  if digits ≠ [] ∧ decimalValue digits < 2 ^ 32 then
    some (decimalValue digits, text.dropWhile isdigit)
  else none

/-- `qi::int_`. A number that is no `int` is not matched. -/
def parseInt (text : List UInt8) : Option (Int × List UInt8) :=
  let neg := text.head? = some (chr '-')
  let digits := if neg ∨ text.head? = some (chr '+') then text.tail else text
  let n : Int := decimalValue (digits.takeWhile isdigit)
  let n := if neg then -n else n
  if digits.takeWhile isdigit ≠ [] ∧ -2 ^ 31 ≤ n ∧ n < 2 ^ 31 then
    some (n, digits.dropWhile isdigit)
  else none

/-- `std::atol` of the octets up to a NUL or to the end of the buffer. -/
def atol (text : List UInt8) : Int :=
  let text := text.dropWhile isspace
  let neg := text.head? = some (chr '-')
  let digits := if neg ∨ text.head? = some (chr '+') then text.tail else text
  let n : Int := decimalValue (digits.takeWhile isdigit)
  if neg then max (-n) (-2 ^ 63) else min n (2 ^ 63 - 1)

theorem literal_append (s : String) (text : List UInt8) :
    literal s (octets s ++ text) = some text := by
  have hpre : (octets s).isPrefixOf (octets s ++ text) :=
    List.isPrefixOf_iff_prefix.mpr (List.prefix_append _ _)
  rw [literal, if_pos hpre, List.drop_left]

theorem literal_suffix {s : String} {text rest : List UInt8} (h : literal s text = some rest) :
    rest <:+ text := by
  rw [literal] at h
  split at h
  · cases h
    exact List.drop_suffix _ _
  · cases h

variable {digits rest : List UInt8}

theorem takeWhile_digits (hdigits : ∀ ch ∈ digits, isdigit ch)
    (hrest : ∀ ch ∈ rest.head?, ¬ isdigit ch) : (digits ++ rest).takeWhile isdigit = digits := by
  rw [takeWhile_stop hrest, List.takeWhile_eq_self_iff.mpr hdigits]

theorem dropWhile_digits (hdigits : ∀ ch ∈ digits, isdigit ch)
    (hrest : ∀ ch ∈ rest.head?, ¬ isdigit ch) : (digits ++ rest).dropWhile isdigit = rest := by
  rw [dropWhile_stop hrest, List.dropWhile_eq_nil_iff.mpr hdigits, List.nil_append]

theorem parseUint_repr (n : Nat) (hrest : ∀ ch ∈ rest.head?, ¬ isdigit ch) :
    parseUint (octets (Nat.repr n) ++ rest) = if n < 2 ^ 32 then some (n, rest) else none := by
  rw [parseUint, takeWhile_digits (isdigit_repr n) hrest, dropWhile_digits (isdigit_repr n) hrest,
    decimalValue_repr]
  simp only [octets_repr_ne_nil, ne_eq, not_false_eq_true, true_and]

theorem parseInt_digits (hne : digits ≠ []) (hdigits : ∀ ch ∈ digits, isdigit ch)
    (hlt : decimalValue digits < 2 ^ 31) (hrest : ∀ ch ∈ rest.head?, ¬ isdigit ch) :
    parseInt (digits ++ rest) = some ((decimalValue digits : Int), rest) := by
  have hhead : ∀ sign : UInt8, ¬ isdigit sign → (digits ++ rest).head? ≠ some sign := by
    obtain ⟨d, ds, rfl⟩ := List.exists_cons_of_ne_nil hne
    exact fun sign hsign heq => hsign (Option.some.inj heq ▸ hdigits d List.mem_cons_self)
  have hminus := hhead (chr '-') (by decide)
  have hplus := hhead (chr '+') (by decide)
  rw [parseInt]
  simp only [hminus, hplus, or_self, if_false, takeWhile_digits hdigits hrest,
    dropWhile_digits hdigits hrest]
  exact if_pos ⟨hne, by omega, by omega⟩

theorem parseInt_repr {n : Nat} (hn : n < 2 ^ 31) (hrest : ∀ ch ∈ rest.head?, ¬ isdigit ch) :
    parseInt (octets (Nat.repr n) ++ rest) = some ((n : Int), rest) := by
  rw [parseInt_digits (octets_repr_ne_nil n) (isdigit_repr n) (by rwa [decimalValue_repr]) hrest,
    decimalValue_repr]

theorem isdigit_facts : ∀ ch : UInt8, isdigit ch → ¬ isspace ch ∧ ch ≠ chr '-' ∧ ch ≠ chr '+' :=
  octet_forall (by decide +kernel)

theorem atol_digits (hne : digits ≠ []) (hdigits : ∀ ch ∈ digits, isdigit ch)
    (hlt : decimalValue digits < 2 ^ 63) (hrest : ∀ ch ∈ rest.head?, ¬ isdigit ch) :
    atol (digits ++ rest) = decimalValue digits := by
  have htake := takeWhile_digits hdigits hrest
  obtain ⟨d, ds, rfl⟩ := List.exists_cons_of_ne_nil hne
  obtain ⟨hspace, hminus, hplus⟩ := isdigit_facts d (hdigits d List.mem_cons_self)
  have hhead : ∀ c, d ≠ c → (d :: ds ++ rest).head? ≠ some c :=
    fun c hc heq => hc (Option.some.inj heq)
  rw [atol, List.cons_append, List.dropWhile_cons_of_neg hspace, ← List.cons_append]
  simp only [hhead _ hminus, hhead _ hplus, or_self, if_false, htake]
  omega

theorem atol_repr {n : Nat} (hn : n < 2 ^ 63) (hrest : ∀ ch ∈ rest.head?, ¬ isdigit ch) :
    atol (octets (Nat.repr n) ++ rest) = n := by
  rw [atol_digits (octets_repr_ne_nil n) (isdigit_repr n) (by rwa [decimalValue_repr]) hrest,
    decimalValue_repr]

/-- A length that is read into a `std::size_t`. -/
theorem atol_size {n : Nat} (hn : n < 2 ^ 63) (hrest : ∀ ch ∈ rest.head?, ¬ isdigit ch) :
    (atol (octets (Nat.repr n) ++ rest) % 2 ^ 64).toNat = n := by
  rw [atol_repr hn hrest]
  omega

end Acqua
