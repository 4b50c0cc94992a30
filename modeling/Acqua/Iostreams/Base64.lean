import Acqua.Iostreams.Newline
import Acqua.Library.PushFilter

/-! `base64_filter.hpp`: the traits, the push half of the encoder with `close`, and the
push half of the decoder. `int` arithmetic is on 32 bits, and sinks never fail. -/

namespace Acqua

/-- A traits class: 64 different characters, none of which the decoder skips. -/
structure Base64Traits where
  tbl : List UInt8
  padding : Bool
  length_tbl : tbl.length = 64
  nodup_tbl : tbl.Nodup
  cr_notMem : chr '\r' ∉ tbl
  ln_notMem : chr '\n' ∉ tbl
  pad_notMem : chr '=' ∉ tbl

def base64Traits : Base64Traits where
  tbl := octets "ABCDEFGHIJKLMNOPQRSTUVWXYZabcdefghijklmnopqrstuvwxyz0123456789+/"
  padding := true
  length_tbl := by decide
  nodup_tbl := by decide
  cr_notMem := by decide
  ln_notMem := by decide
  pad_notMem := by decide

def base64UrlTraits : Base64Traits where
  tbl := octets "ABCDEFGHIJKLMNOPQRSTUVWXYZabcdefghijklmnopqrstuvwxyz0123456789-_"
  padding := false
  length_tbl := by decide
  nodup_tbl := by decide
  cr_notMem := by decide
  ln_notMem := by decide
  pad_notMem := by decide

def npos : Nat := 64

namespace Base64Traits

/-- The table is a C string, so position 64 holds its terminator. -/
def enc (T : Base64Traits) (ch : BitVec 32) : UInt8 := T.tbl.getD (min ch.toNat npos) 0

def dec (T : Base64Traits) (ch : UInt8) : Nat := T.tbl.idxOf ch

end Base64Traits

structure Base64Encoder where
  nl : Newline
  max : Nat
  cnt : Nat
  prior : BitVec 32

/-- The constructor. A size below four leaves `max_` without a value; `uninit` stands for
what the member happens to hold. -/
def Base64Encoder.make (nl : Newline) (size uninit : Nat) : Base64Encoder :=
  if size < 4 then ⟨nl, uninit, 0, 0⟩
  else
    let size :=
      match nl with
      | .none => sizeMax
      | .crln => size - 2
      | .cr => size - 1
      | .ln => size - 1
    ⟨nl, size - size % 4, 0, 0⟩

namespace Base64Encoder

variable (T : Base64Traits)

def putBreak (e : Base64Encoder) : Base64Encoder × List UInt8 := ({ e with cnt := 0 }, e.nl.chars)

def put (e : Base64Encoder) (ch : UInt8) : Base64Encoder × List UInt8 :=
  let c := promote ch
  match e.cnt % 4 with
  | 0 =>
    let r := if e.max ≤ e.cnt then e.putBreak else (e, [])
    ({ r.1 with cnt := r.1.cnt + 1, prior := c }, r.2 ++ [T.enc ((c &&& 0xFC) >>> 2)])
  | 1 =>
    ({ e with cnt := e.cnt + 1, prior := c },
      [T.enc ((e.prior &&& 0x03) <<< 4 ||| (c &&& 0xF0) >>> 4)])
  | 2 =>
    ({ e with cnt := e.cnt + 2, prior := c },
      [T.enc ((e.prior &&& 0x0F) <<< 2 ||| (c &&& 0xC0) >>> 6), T.enc (c &&& 0x3F)])
  | _ => ({ e with cnt := e.cnt + 1, prior := c }, [])

/-- `close(dev, std::ios_base::out)`. -/
def close (e : Base64Encoder) : Base64Encoder × List UInt8 :=
  if 0 < e.cnt then
    let rest :=
      match e.cnt % 4 with
      | 1 => T.enc ((e.prior &&& 0x03) <<< 4) :: if T.padding then [chr '=', chr '='] else []
      | 2 => T.enc ((e.prior &&& 0x0F) <<< 2) :: if T.padding then [chr '='] else []
      | _ => []
    let r := e.putBreak
    (r.1, rest ++ r.2)
  else (e, [])

/-- Everything written for an input that is then closed. -/
def encode (e : Base64Encoder) (bytes : List UInt8) : List UInt8 :=
  let r := pushAll (put T) e bytes
  r.2 ++ (r.1.close T).2

end Base64Encoder

structure Base64Decoder where
  cnt : Nat
  prior : BitVec 32

namespace Base64Decoder

variable (T : Base64Traits)

def init : Base64Decoder := ⟨0, 0⟩

/-- What the `switch` writes. -/
def joined (d : Base64Decoder) (c : BitVec 32) : List UInt8 :=
  match d.cnt % 4 with
  | 1 => [narrow ((d.prior &&& 0x3F) <<< 2 ||| (c &&& 0x30) >>> 4)]
  | 2 => [narrow ((d.prior &&& 0x0F) <<< 4 ||| (c &&& 0x3C) >>> 2)]
  | 3 => [narrow ((d.prior &&& 0x0F) <<< 6 ||| (c &&& 0x3F))]
  | _ => []

def put (d : Base64Decoder) (ch : UInt8) : Base64Decoder × List UInt8 :=
  let c := promote (UInt8.ofNat (T.dec ch))
  if ch = chr '\r' ∨ ch = chr '\n' ∨ ch = chr '=' ∨ c.toInt < 0 ∨ npos ≤ c.toNat then (d, [])
  else ({ cnt := d.cnt + 1, prior := c }, d.joined c)

def decode (chars : List UInt8) : List UInt8 := (pushAll (put T) init chars).2

end Base64Decoder

example : Base64Encoder.encode base64Traits (.make .none sizeMax 0) (octets "hello world") =
    octets "aGVsbG8gd29ybGQ=" := by decide

end Acqua
