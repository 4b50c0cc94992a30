import Acqua.Iostreams.Qprint

/-! `ascii_filter.hpp`: the encoder, and both halves of the decoder. Sinks never fail. -/

namespace Acqua

namespace AsciiEncoder

/-- `line_break`. -/
def lineBreak (b : NewlineBase) : NewlineBase × List UInt8 :=
  let r := b.putLn
  (r.1, chr ' ' :: r.2)

def put (b : NewlineBase) (ch : UInt8) : NewlineBase × List UInt8 :=
  if ch = chr '\r' then (b, [])
  else if ch = chr '\n' then b.putLn
  else b.put lineBreak ch

def encode (nl : Newline) (size : Nat) (text : List UInt8) : List UInt8 :=
  (pushAll put (NewlineBase.make nl size) text).2

end AsciiEncoder

/-- `prior` is 0 when there is none. -/
structure AsciiDecoder where
  prior : UInt8

namespace AsciiDecoder

def init : AsciiDecoder := ⟨0⟩

def put (d : AsciiDecoder) (ch : UInt8) : AsciiDecoder × List UInt8 :=
  if d.prior = chr ' ' ∧ ch = chr '\r' then (⟨chr '\r'⟩, [])
  else if d.prior = chr '\r' ∧ ch = chr '\n' then (⟨0⟩, [])
  else if ch = chr ' ' ∨ ch = chr '\t' then (⟨chr ' '⟩, [ch])
  else (d, [ch])

theorem pushAll_put {d : AsciiDecoder} (hd : d.prior ≠ chr '\r') {text : List UInt8}
    (htext : chr '\r' ∉ text) : (pushAll put d text).2 = text := by
  induction text generalizing d with
  | nil => rfl
  | cons ch text ih =>
    have hch : ch ≠ chr '\r' := fun h => htext (by simp [h])
    have hrest : chr '\r' ∉ text := fun h => htext (List.mem_cons_of_mem _ h)
    rw [pushAll_cons, put, if_neg fun h => hch h.2, if_neg fun h => hd h.1]
    by_cases hblank : ch = chr ' ' ∨ ch = chr '\t'
    · have hspace : (⟨chr ' '⟩ : AsciiDecoder).prior ≠ chr '\r' := by decide
      rw [if_pos hblank, ih hspace hrest]
      rfl
    · rw [if_neg hblank, ih hd hrest]
      rfl

section Get

open QprintDecoder (eof sourceGet)

def isblank (ch : UInt8) : Bool := ch = chr ' ' ∨ ch = chr '\t'

/-- `ch`, `prior_` and the source after a test for one character of a line break. -/
def skip (c : UInt8) (r : Int × Int × List UInt8) : Int × Int × List UInt8 :=
  let (ch, prior, src) := r
  if ch = c.toNat then
    let (ch, src) := sourceGet src
    (ch, 0, src)
  else (ch, prior, src)

/-- A result that is the end of the file or a character. -/
def result (ch : Int) : Option UInt8 := if ch = eof then none else some (UInt8.ofInt ch)

/-- What is done with the first character. `prior_` is an `int`, which may hold the end of the
file. -/
def getFrom (ch : Int) (src : List UInt8) : (Int × Option UInt8) × List UInt8 :=
  if ch = (chr ' ').toNat ∨ ch = (chr '\t').toNat then
    let prior := ch
    let (ch, src) := sourceGet src
    let (ch, prior, src) := skip (chr '\n') (skip (chr '\r') (ch, prior, src))
    if prior ≠ 0 then ((ch, result prior), src) else ((prior, result ch), src)
  else if ch = (chr '\r').toNat then
    let (ch, src) := sourceGet src
    if ch ≠ (chr '\n').toNat then ((ch, result (chr '\n').toNat), src) else ((0, result ch), src)
  else ((0, result ch), src)

/-- The pull half. -/
def get (prior : Int) (src : List UInt8) : (Int × Option UInt8) × List UInt8 :=
  if prior ≠ 0 then getFrom prior src
  else
    let (ch, src) := sourceGet src
    getFrom ch src

end Get

end AsciiDecoder

end Acqua
