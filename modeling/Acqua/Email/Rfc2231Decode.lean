import Acqua.Email.HeaderParser

/-! The parameters of `decode_mimeheader.ipp`: `rfc2231_decode` over `char`. -/

namespace Acqua

namespace Email

/-- What ends the decoding of a parameter: an exception, or reading past the end of its value. -/
inductive Fault
  | throws
  | overrun
  deriving DecidableEq

/-- What the grammar matches. -/
structure Param where
  key : List UInt8
  idx : Option (Option Int)
  val : List UInt8
  deriving DecidableEq

def isKeyChar (ch : UInt8) : Bool := ch ≠ chr '*' ∧ ch ≠ chr '='

/-- `-('*' >> -(qi::int_ >> '*'))`. -/
def matchIdx : List UInt8 → Option (Option Int) × List UInt8
  | [] => (none, [])
  | ch :: str =>
    if ch = chr '*' then
      match parseInt str with
      | some (n, ch :: rest) => if ch = chr '*' then (some (some n), rest) else (some none, str)
      | _ => (some none, str)
    else (none, ch :: str)

/-- `+(qi::char_ - qi::space)`, behind what `val` holds already. -/
def matchPlain (val str : List UInt8) : Option (List UInt8 × List UInt8) :=
  let word := str.takeWhile fun ch => !isspace ch
  if word = [] then none else some (val ++ word, str.dropWhile fun ch => !isspace ch)

/-- The value. When there is no second quote, what was read in search of it stays in `val`. -/
def matchVal : List UInt8 → Option (List UInt8 × List UInt8)
  | [] => none
  | ch :: str =>
    if ch = chr '"' then
      match str.dropWhile (· ≠ chr '"') with
      | _ :: rest => some (str.takeWhile (· ≠ chr '"'), rest)
      | [] => matchPlain str (ch :: str)
    else matchPlain [] (ch :: str)

/-- `qi::parse`, with what is left of the string. -/
def matchParam (str : List UInt8) : Option (Param × List UInt8) :=
  let key := str.takeWhile isKeyChar
  let r := matchIdx (str.dropWhile isKeyChar)
  if key = [] then none
  else
    match r.2 with
    | [] => none
    | ch :: rest =>
      if ch = chr '=' then (matchVal rest).map fun v => (⟨key, r.1, v.1⟩, v.2) else none

def hexValue (ch : UInt8) : Nat :=
  if isdigit ch then ch.toNat - 48 else (toupper ch).toNat - 55

/-- The `char` that `std::strtol` of two characters is cast to. -/
def strtol (a b : UInt8) : UInt8 :=
  let str := [a, b].dropWhile isspace
  let neg := str.head? = some (chr '-')
  let digits := if neg ∨ str.head? = some (chr '+') then str.tail else str
  let n := UInt8.ofNat ((digits.takeWhile isxdigit).foldl (fun n ch => 16 * n + hexValue ch) 0)
  if neg then -n else n

/-- Nothing comes of a `%` that leads past the end. -/
def percentDecode : List UInt8 → Option (List UInt8)
  | [] => some []
  | [ch] => if ch = chr '%' then none else some [ch]
  | [ch, a] => if ch = chr '%' then none else (percentDecode [a]).map (ch :: ·)
  | ch :: a :: b :: str =>
    if ch = chr '%' then (percentDecode str).map (strtol a b :: ·)
    else (percentDecode (a :: b :: str)).map (ch :: ·)

/-- The charset, and the value without it. -/
def rfc2231ParseCharset (val : List UInt8) : List UInt8 × List UInt8 :=
  let a := (val.dropWhile (· ≠ chr '\'')).tail
  let b := (a.dropWhile (· ≠ chr '\'')).tail
  let c := b.dropWhile (· ≠ chr '\'')
  if c = [] then (octets "US-ASCII", val) else (a.takeWhile (· ≠ chr '\''), c.tail)

/-- Applies `f` to what `operator[]` of the parameters refers to. -/
def updateParam (f : List UInt8 → List UInt8) (key : List UInt8) :
    List (List UInt8 × List UInt8) → List (List UInt8 × List UInt8)
  | [] => [(key, f [])]
  | (key', val) :: rest =>
    if iequals key' key then (key', f val) :: rest else (key', val) :: updateParam f key rest

/-- The variables of `rfc2231_decode`. -/
structure ParamDecoder where
  oldkey : List UInt8
  encoded : List UInt8
  charset : List UInt8
  params : List (List UInt8 × List UInt8)

namespace ParamDecoder

def init (params : List (List UInt8 × List UInt8)) : ParamDecoder := ⟨[], [], [], params⟩

variable (L : Locale)

def writeOld (d : ParamDecoder) : Except Fault ParamDecoder :=
  if d.oldkey = [] then .ok d
  else
    match L.toUtf d.encoded d.charset with
    | none => .error .throws
    | some str =>
      .ok { d with
        encoded := []
        charset := []
        params := updateParam (fun _ => str) d.oldkey d.params }

def writePlain (d : ParamDecoder) (key val : List UInt8) : Except Fault ParamDecoder :=
  match rfc2047Decode L val with
  | none => .error .throws
  | some str => .ok { d with params := updateParam (· ++ str) key d.params }

def writeEncoded (d : ParamDecoder) (val : List UInt8) : Except Fault ParamDecoder :=
  match percentDecode val with
  | none => .error .overrun
  | some str => .ok { d with encoded := d.encoded ++ str }

/-- What the loop does with a match. -/
def store (d : ParamDecoder) (p : Param) : Except Fault ParamDecoder :=
  if p.idx = none then do
    let d ← d.writeOld L
    d.writePlain L p.key p.val
  else if d.oldkey = p.key then d.writeEncoded p.val
  else do
    let d ← d.writeOld L
    let r := if d.charset = [] then rfc2231ParseCharset p.val else (d.charset, p.val)
    { d with oldkey := p.key, charset := r.1 }.writeEncoded r.2

/-- The loop of `rfc2231_decode`, which goes round `fuel` times at most. -/
def loop : Nat → List UInt8 → ParamDecoder → Option (Except Fault ParamDecoder)
  | 0, _, _ => none
  | _ + 1, [], d => some (.ok d)
  | fuel + 1, ch :: str, d =>
    if isspace ch ∨ ch = chr ';' then loop fuel str d
    else
      match matchParam (ch :: str) with
      -- `beg` stays where it is
      | none => loop fuel (ch :: str) d
      | some (p, rest) =>
        match d.store L p with
        | .error fault => some (.error fault)
        | .ok d => loop fuel rest d

end ParamDecoder

section Decode

variable (L : Locale)

def rfc2231Decode (fuel : Nat) (str : List UInt8) (params : List (List UInt8 × List UInt8)) :
    Option (Except Fault (List (List UInt8 × List UInt8))) :=
  (ParamDecoder.loop L fuel str (.init params)).map fun r => do
    let d ← r
    let d ← d.writeOld L
    return d.params

def isParamsStart (ch : UInt8) : Bool := ch = chr ';' ∨ ch = chr ' ' ∨ ch = chr '\t'

/-- `decode_mimeheader` with the parameters of a disposition. There is nothing to return when it
does not return: a loop that ends takes a character each time. -/
def decodeMimeheader (str : List UInt8) (disp : Disposition) : Option Disposition := do
  let out ← rfc2047Decode L (str.takeWhile fun ch => !isParamsStart ch)
  match str.dropWhile fun ch => !isParamsStart ch with
  | [] => some { disp with str := disp.str ++ out }
  | _ :: rest =>
    match rfc2231Decode L (rest.length + 1) rest disp.params with
    | some (.ok params) => some ⟨disp.str ++ out, params⟩
    | _ => none

end Decode

end Email

end Acqua
