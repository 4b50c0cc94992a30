import Mathlib

/-! The octets that a `char` holds, and the character classes of the classic locale. -/

namespace Acqua

def chr (c : Char) : UInt8 := c.toUInt8

def octets (s : String) : List UInt8 := s.toList.map chr

/-- The integral promotion of a `char`, which is signed. -/
def promote (ch : UInt8) : BitVec 32 := ch.toBitVec.signExtend 32

/-- The narrowing conversion of an `int` to `char`. -/
def narrow (i : BitVec 32) : UInt8 := UInt8.ofBitVec (i.setWidth 8)

def isdigit (ch : UInt8) : Bool := chr '0' ≤ ch ∧ ch ≤ chr '9'

def isupper (ch : UInt8) : Bool := chr 'A' ≤ ch ∧ ch ≤ chr 'Z'

def islower (ch : UInt8) : Bool := chr 'a' ≤ ch ∧ ch ≤ chr 'z'

def isalnum (ch : UInt8) : Bool := isdigit ch ∨ isupper ch ∨ islower ch

def isxdigit (ch : UInt8) : Bool :=
  isdigit ch ∨ (chr 'a' ≤ ch ∧ ch ≤ chr 'f') ∨ (chr 'A' ≤ ch ∧ ch ≤ chr 'F')

def isprint (ch : UInt8) : Bool := chr ' ' ≤ ch ∧ ch ≤ chr '~'

def isgraph (ch : UInt8) : Bool := chr ' ' < ch ∧ ch ≤ chr '~'

def isspace (ch : UInt8) : Bool := ch = chr ' ' ∨ (chr '\t' ≤ ch ∧ ch ≤ chr '\r')

def tolower (ch : UInt8) : UInt8 := if isupper ch then ch + 32 else ch

def toupper (ch : UInt8) : UInt8 := if islower ch then ch - 32 else ch

theorem toNat_chr {c : Char} (h : c.toNat < 256) : (chr c).toNat = c.toNat := by
  simp only [chr, Char.toUInt8, UInt32.toNat_toUInt8]
  exact Nat.mod_eq_of_lt h

theorem ofInt_toNat (ch : UInt8) : UInt8.ofInt ch.toNat = ch := by
  have hmod : ((ch.toNat : Int) % 256).toNat = ch.toNat := by
    have := ch.toNat_lt
    omega
  rw [UInt8.ofInt]
  simpa using congrArg UInt8.ofNat hmod

theorem octet_forall {P : UInt8 → Prop} (h : ∀ n, n < 256 → P (UInt8.ofNat n)) (b : UInt8) :
    P b := by
  have hb := h b.toNat b.toNat_lt
  rwa [UInt8.ofNat_toNat] at hb

theorem nibble_forall {P : UInt8 → Prop} (h : ∀ n < 16, P (UInt8.ofNat n)) (ch : UInt8) :
    P (ch >>> 4 &&& 0xf) ∧ P (ch &&& 0xf) := by
  have hnibble : ∀ x : UInt8, P (x &&& 0xf) := by
    intro x
    have hand : x.toNat &&& 15 = x.toNat % 16 := Nat.and_two_pow_sub_one_eq_mod x.toNat 4
    have hlt : (x &&& 0xf).toNat < 16 := by
      rw [UInt8.toNat_and]
      exact hand ▸ Nat.mod_lt _ (by decide)
    have hx := h _ hlt
    rwa [UInt8.ofNat_toNat] at hx
  exact ⟨hnibble _, hnibble _⟩

end Acqua
