import Acqua.Iostreams.Newline
import Acqua.Library.PushFilter

/-! `qprint_filter.hpp`: the push encoder with `close`, the pull half of the decoder reading
from a sequence of characters, and its push half. Sinks never fail. -/

namespace Acqua

/-- `prior` is the `char` that waits, and 0 when none does. -/
structure QprintEncoder where
  base : NewlineBase
  prior : UInt8

namespace QprintEncoder

def make (nl : Newline) (size : Nat) : QprintEncoder := ⟨.make nl size, 0⟩

def lineBreak (b : NewlineBase) : NewlineBase × List UInt8 :=
  let r := b.putLn
  (r.1, chr '=' :: r.2)

/-- A hexadecimal digit, in upper case. -/
def hexDigit (n : UInt8) : UInt8 := if n < 10 then n + chr '0' else n + chr 'A' - 10

def escape (b : NewlineBase) (hex : UInt8) : NewlineBase × List UInt8 :=
  let upper := hex >>> 4 &&& 0xf
  let lower := hex &&& 0xf
  let r := b.put lineBreak (chr '=')
  let r' := r.1.putNobreak (hexDigit upper)
  let r'' := r'.1.putNobreak (hexDigit lower)
  (r''.1, r.2 ++ r'.2 ++ r''.2)

/-- The characters that are always escaped; `char` is signed. -/
def mustEscape (ch : UInt8) : Bool :=
  ch = chr '=' ∨ (promote ch).toInt < 33 ∨ 126 < (promote ch).toInt

def put (e : QprintEncoder) (ch : UInt8) : QprintEncoder × List UInt8 :=
  let r :=
    if e.prior ≠ 0 then
      if ch = chr '\r' ∨ ch = chr '\n' then escape e.base e.prior
      else e.base.put lineBreak e.prior
    else (e.base, [])
  if ch = chr '\r' then (⟨r.1, 0⟩, r.2)
  else if ch = chr '\n' then (⟨r.1, 0⟩, r.2 ++ [ch])
  else if ch = chr ' ' ∨ ch = chr '\t' then (⟨r.1, ch⟩, r.2)
  else
    let r' := if mustEscape ch then escape r.1 ch else r.1.put lineBreak ch
    (⟨r'.1, 0⟩, r.2 ++ r'.2)

def close (e : QprintEncoder) : QprintEncoder × List UInt8 :=
  if e.prior ≠ 0 then ({ e with prior := 0 }, [e.prior]) else (e, [])

/-- Everything written for an input that is then closed. -/
def encode (e : QprintEncoder) (bytes : List UInt8) : List UInt8 :=
  let r := pushAll put e bytes
  r.2 ++ r.1.close.2

end QprintEncoder

namespace QprintDecoder

def eof : Int := -1

/-- `boost::iostreams::get` on a sequence of characters. -/
def sourceGet : List UInt8 → Int × List UInt8
  | [] => (eof, [])
  | ch :: src => (ch.toNat, src)

def unescape (upper lower : Int) : Int :=
  let hex :=
    if '0'.toNat ≤ upper ∧ upper ≤ '9'.toNat then upper - '0'.toNat
    else if 'a'.toNat ≤ upper ∧ upper ≤ 'f'.toNat then upper - 'a'.toNat
    else if 'A'.toNat ≤ upper ∧ upper ≤ 'F'.toNat then upper - 'A'.toNat
    else -1
  if hex < 0 then -1
  else
    let hex := 16 * hex
    if '0'.toNat ≤ lower ∧ lower ≤ '9'.toNat then hex + (lower - '0'.toNat)
    else if 'a'.toNat ≤ lower ∧ lower ≤ 'a'.toNat then hex + (lower - 'a'.toNat)
    else if 'A'.toNat ≤ lower ∧ lower ≤ 'A'.toNat then hex + (lower - 'A'.toNat)
    else -1

def get (src : List UInt8) : Int × List UInt8 :=
  let (ch, src) := sourceGet src
  if ch = '='.toNat then
    let (ch, src) := sourceGet src
    if ch = eof then (ch, src)
    else if ch = '\r'.toNat ∨ ch = '\n'.toNat then
      let (ch, src) := sourceGet src
      if ch = '\n'.toNat then sourceGet src else (ch, src)
    else
      let prior := ch
      let (ch, src) := sourceGet src
      if ch = eof then (ch, src) else (unescape prior ch, src)
  else (ch, src)

/-- Calls `get` until it returns the end of the file. -/
def readAll : Nat → List UInt8 → List UInt8
  | 0, _ => []
  | fuel + 1, src =>
    let (ch, src) := get src
    if ch = eof then [] else UInt8.ofInt ch :: readAll fuel src

/-- Each call of `get` takes a character or returns the end of the file, so these calls are
enough. -/
def read (src : List UInt8) : List UInt8 := readAll (src.length + 1) src

end QprintDecoder

/-- The members of the push half of the decoder. -/
structure QprintDecoder where
  tmp₀ : UInt8
  tmp₁ : UInt8

namespace QprintDecoder

def init : QprintDecoder := ⟨0, 0⟩

/-- `none` stands for the result `false`. -/
def put (d : QprintDecoder) (ch : UInt8) : QprintDecoder × Option (List UInt8) :=
  if d.tmp₁ ≠ 0 then
    let hex := unescape (promote d.tmp₁).toInt (promote ch).toInt
    (⟨0, 0⟩, if hex < 0 then none else some [UInt8.ofInt hex])
  else if d.tmp₀ ≠ 0 then ({ d with tmp₁ := ch }, some [])
  else if ch = chr '=' then ({ d with tmp₀ := chr '=' }, some [])
  else (d, some [ch])

end QprintDecoder

end Acqua
