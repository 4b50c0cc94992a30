import Acqua.Ctype

/-! `newline_category.hpp`. -/

namespace Acqua

inductive Newline
  | none
  | cr
  | ln
  | crln
  deriving DecidableEq, Repr

/-- The characters that a line break writes. -/
def Newline.chars : Newline → List UInt8
  | .none => []
  | .cr => [chr '\r']
  | .ln => [chr '\n']
  | .crln => [chr '\r', chr '\n']

/-- `std::numeric_limits<std::size_t>::max()`. -/
def sizeMax : Nat := 2 ^ 64 - 1

/-- The base class that breaks lines: `max_` and `cnt_` are `std::size_t`. -/
structure NewlineBase where
  nl : Newline
  max : Nat
  cnt : Nat

namespace NewlineBase

def make (nl : Newline) (max : Nat) : NewlineBase :=
  ⟨nl, if nl = .none then sizeMax else max, 0⟩

def putLn (b : NewlineBase) : NewlineBase × List UInt8 := ({ b with cnt := 0 }, b.nl.chars)

def putNobreak (b : NewlineBase) (ch : UInt8) : NewlineBase × List UInt8 :=
  ({ b with cnt := (b.cnt + 1) % 2 ^ 64 }, [ch])

/-- `lineBreak` is the `line_break` of the derived class. -/
def put (lineBreak : NewlineBase → NewlineBase × List UInt8) (b : NewlineBase) (ch : UInt8) :
    NewlineBase × List UInt8 :=
  let r := if b.max ≤ b.cnt then lineBreak b else (b, [])
  let r' := r.1.putNobreak ch
  (r'.1, r.2 ++ r'.2)

end NewlineBase

theorem mem_newline_chars {nl : Newline} {ch : UInt8} (h : ch ∈ nl.chars) :
    ch = chr '\r' ∨ ch = chr '\n' := by
  cases nl <;> simp [Newline.chars] at h <;> tauto

end Acqua
