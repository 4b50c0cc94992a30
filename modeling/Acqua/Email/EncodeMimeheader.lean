import Acqua.Email.Locale
import Acqua.Iostreams.Base64
import Acqua.Iostreams.Qprint

/-! `encode_mimeheader.ipp` over `char`. What is written is returned; there is nothing to
return when a member throws, and when `*b++` leaves the string. -/

namespace Acqua

namespace Email

/-- `max_`. -/
def lineMax : Int := 78

def crlf : List UInt8 := [chr '\r', chr '\n']

def isName (str : List UInt8) : Bool :=
  !str.isEmpty && str.all fun ch => isalnum ch || ch = chr '-'

def isAscii (str : List UInt8) : Bool := str.all isprint

/-- The first word of a string, which may be empty, and the spaces and words after it: what
`find_if` cuts off in turn. Only the last word may be empty, too. -/
def segments : List UInt8 → List UInt8 × List (List UInt8 × List UInt8)
  | [] => ([], [])
  | ch :: str =>
    let r := segments str
    if isspace ch then
      match r with
      | ([], (gap, word) :: rest) => ([], (ch :: gap, word) :: rest)
      | (word, rest) => ([], ([ch], word) :: rest)
    else (ch :: r.1, r.2)

/-- The loop of `plain_encode`: `word` is what stands between `a` and `b`. The result is the
new `cnt_` with what is written. -/
def plainLoop : Int → List UInt8 → List (List UInt8 × List UInt8) → Int × List UInt8
  | cnt, word, [] => (cnt + word.length, word)
  | cnt, word, (gap, []) :: _ => (cnt + (word ++ gap).length, word ++ gap)
  | cnt, word, (gap, next) :: rest =>
    if cnt + (word ++ gap ++ next).length < lineMax then
      let r := plainLoop (cnt + (word ++ gap).length) next rest
      (r.1, word ++ gap ++ r.2)
    else
      let r := plainLoop (cnt + gap.length) next rest
      (r.1, word ++ crlf ++ gap ++ r.2)

def plainEncode (cnt : Int) (str : List UInt8) : Int × List UInt8 :=
  plainLoop cnt (segments str).1 (segments str).2

section Encode

variable (L : Locale) (charset : List UInt8)

/-- The loop that `rfc2047_encode` and `rfc2231_encode` share: `a` to `b` is `pending`, with
`need` more octets of a character to come. The result is the pieces that were cut off and the
rest that is left. -/
def chunks : List UInt8 → Nat → List UInt8 → Option (List (List UInt8) × List UInt8)
  | pending, need, [] => if need = 0 then some ([], pending) else none
  | pending, need, ch :: str =>
    let need := if need = 0 then (L.trailLength ch).toNat else need - 1
    if need = 0 ∧ lineMax / 2 < (pending ++ [ch]).length then
      (chunks [] 0 str).map fun r => ((pending ++ [ch]) :: r.1, r.2)
    else chunks (pending ++ [ch]) need str

def base64Encode (str : List UInt8) : Option (List UInt8) :=
  (L.fromUtf charset str).map
    (Base64Encoder.encode base64Traits (.make .none sizeMax 0))

def encodedWord (str : List UInt8) : Option (List UInt8) :=
  (base64Encode L charset str).map fun s => octets "=?" ++ charset ++ octets "?B?" ++ s ++ octets "?="

/-- What is written after the loop of `rfc2047_encode`. -/
def lastWord (rest : List UInt8) : Option (List UInt8) :=
  if rest = [] then some [] else encodedWord L charset rest

def rfc2047Encode (str : List UInt8) : Option (List UInt8) := do
  let r ← chunks L [] 0 str
  let words ← r.1.mapM (encodedWord L charset)
  let last ← lastWord L charset r.2
  some (words.flatMap (fun word => word ++ crlf ++ [chr '\t']) ++ last)

def percentChar (ch : UInt8) : List UInt8 :=
  if isgraph ch then [ch]
  else [chr '%', QprintEncoder.hexDigit (ch >>> 4 &&& 0xf), QprintEncoder.hexDigit (ch &&& 0xf)]

/-- What is written, which is also what `cnt_` grows by. -/
def percentEncode (str : List UInt8) : Option (List UInt8) :=
  (L.fromUtf charset str).map fun encoded => encoded.flatMap percentChar

/-- The pieces that were cut off, from the index `idx` on. -/
def rfc2231Pieces (key : List UInt8) :
    Nat → Int → List (List UInt8) → Option (Nat × Int × List UInt8)
  | idx, cnt, [] => some (idx, cnt, [])
  | idx, cnt, piece :: rest => do
    let idx := idx + 1
    let s ← percentEncode L charset piece
    let (idx', cnt', out) ← rfc2231Pieces key idx (cnt + s.length) rest
    some (idx', cnt', key ++ [chr '*'] ++ octets (Nat.repr idx) ++ octets "*=" ++
      (if idx = 1 then [chr '\''] ++ charset ++ octets "''" else []) ++ s ++ crlf ++
      [chr '\t'] ++ out)

def rfc2231Encode (cnt : Int) (key val : List UInt8) : Option (Int × List UInt8) := do
  let r ← chunks L [] 0 val
  let (idx, cnt, out) ← rfc2231Pieces L charset key 0 cnt r.1
  if r.2 = [] then some (cnt, out)
  else
    let s ← percentEncode L charset r.2
    some (cnt + s.length, out ++ key ++
      (if idx = 0 then [] else [chr '*'] ++ octets (Nat.repr idx)) ++ octets "*=" ++ s)

/-- `operator()(key, val)`. -/
def encodeField (key val : List UInt8) : Option (Int × List UInt8) :=
  if isName key then
    let name := key ++ octets ": "
    let cnt : Int := key.length + 2
    match val with
    | [] => some (cnt, name)
    | front :: rest =>
      if isAscii val ∧ ¬ isspace front ∧ ¬ isspace ((front :: rest).getLast (by simp)) then
        let r := plainEncode cnt val
        some (r.1, name ++ r.2)
      else (rfc2047Encode L charset val).map fun out => (cnt, name ++ out)
  else none

def encodeParam (cnt : Int) (key val : List UInt8) : Option (Int × List UInt8) :=
  if val = [] then some (cnt + key.length, key)
  else if isAscii val then
    let r := plainEncode cnt val
    some (r.1 + (key.length + 3), key ++ octets "=\"" ++ r.2 ++ [chr '"'])
  else rfc2231Encode L charset cnt key val

/-- `operator()(params)`. -/
def encodeParams : Int → List (List UInt8 × List UInt8) → Option (List UInt8)
  | _, [] => some []
  | cnt, (key, val) :: rest =>
    if isName key then do
      let fits := cnt - 2 < lineMax
      let sep := if fits then octets "; " else [chr ';'] ++ crlf ++ [chr '\t']
      let (cnt, out) ← encodeParam L charset (if fits then cnt + 2 else 1) key val
      let out' ← encodeParams cnt rest
      some (sep ++ out ++ out')
    else none

def encodeMimeheader (key val : List UInt8) (params : List (List UInt8 × List UInt8)) :
    Option (List UInt8) := do
  let (cnt, out) ← encodeField L charset key val
  let out' ← encodeParams L charset cnt params
  some (out ++ out')

end Encode

end Email

end Acqua
