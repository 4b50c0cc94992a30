import Acqua.Ctype

/-! Hexadecimal numbers in octets. -/

namespace Acqua

def hexadecimalDigit (ch : UInt8) : Nat :=
  if isdigit ch then ch.toNat - 48 else (toupper ch).toNat - 55

def hexadecimalValue (digits : List UInt8) : Nat :=
  digits.foldl (fun n ch => 16 * n + hexadecimalDigit ch) 0

/-- The upper-case digit of a number below 16. -/
def upperHex (n : Nat) : UInt8 := (if n < 10 then chr '0' else chr 'A' - 10) + UInt8.ofNat n

/-- `%02X` of an octet. -/
def hexPair (byte : UInt8) : List UInt8 := [upperHex (byte.toNat / 16), upperHex (byte.toNat % 16)]

theorem isxdigit_upperHex {n : Nat} (hn : n < 16) : isxdigit (upperHex n) := by
  have hall : ∀ n < 16, isxdigit (upperHex n) := by decide
  exact hall n hn

theorem hexadecimalDigit_upperHex {n : Nat} (hn : n < 16) : hexadecimalDigit (upperHex n) = n := by
  have hall : ∀ n < 16, hexadecimalDigit (upperHex n) = n := by decide
  exact hall n hn

theorem nibbles_lt_sixteen (byte : UInt8) : byte.toNat / 16 < 16 ∧ byte.toNat % 16 < 16 := by
  have := byte.toNat_lt
  omega

theorem isxdigit_hexPair (byte : UInt8) : ∀ ch ∈ hexPair byte, isxdigit ch := by
  obtain ⟨hhigh, hlow⟩ := nibbles_lt_sixteen byte
  intro ch hch
  obtain rfl | rfl : ch = upperHex (byte.toNat / 16) ∨ ch = upperHex (byte.toNat % 16) := by
    simpa [hexPair] using hch
  · exact isxdigit_upperHex hhigh
  · exact isxdigit_upperHex hlow

theorem hexadecimalValue_hexPair (byte : UInt8) :
    hexadecimalValue (hexPair byte) = byte.toNat := by
  obtain ⟨hhigh, hlow⟩ := nibbles_lt_sixteen byte
  simp only [hexadecimalValue, hexPair, List.foldl_cons, List.foldl_nil,
    hexadecimalDigit_upperHex hhigh, hexadecimalDigit_upperHex hlow]
  omega

end Acqua
