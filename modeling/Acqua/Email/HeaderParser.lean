import Acqua.Email.DecodeMimeheader
import Acqua.Library.Scanning

/-! `headers.hpp` and the `header_parser` of `email_parser.ipp`. There is nothing to return when
a member throws. -/

namespace Acqua

namespace Email

structure Disposition where
  str : List UInt8
  params : List (List UInt8 × List UInt8)
  deriving DecidableEq

/-- The `sequenced_multimap` of `basic_headers`. -/
abbrev Headers := List (List UInt8 × Disposition)

def iequals (lhs rhs : List UInt8) : Bool := lhs.map toupper = rhs.map toupper

namespace Headers

def find (headers : Headers) (name : List UInt8) : Option Disposition :=
  (List.find? (fun elem => iequals elem.1 name) headers).map Prod.snd

/-- Applies `f` to what `operator[]` refers to. A name that is not found is put at the end,
whatever the hint is. -/
def update (f : Disposition → Option Disposition) (name : List UInt8) :
    Headers → Option Headers
  | [] => (f ⟨[], []⟩).map fun disp => [(name, disp)]
  | (key, disp) :: rest =>
    if iequals key name then (f disp).map fun disp => (key, disp) :: rest
    else (update f name rest).map fun rest => (key, disp) :: rest

end Headers

/-- The members `name_` and `params_`. -/
structure HeaderParser where
  name : List UInt8
  params : List UInt8

/-- The parser after a line, whether `to_payload` was called, and the returned value. -/
structure LineResult where
  parser : HeaderParser
  headers : Headers
  payload : Bool
  taken : Bool

namespace HeaderParser

def init : HeaderParser := ⟨[], []⟩

-- `decodeParams` is `decode_mimeheader` with the parameters of the disposition.
variable (L : Locale) (decodeParams : List UInt8 → Disposition → Option Disposition)

def append (p : HeaderParser) (headers : Headers) : Option Headers :=
  if p.name ≠ [] ∧ p.params ≠ [] then
    headers.update (fun disp =>
      if istartsWith p.name (octets "Content-") then decodeParams p.params disp
      else (rfc2047Decode L p.params).map fun s => { disp with str := disp.str ++ s }) p.name
  else some headers

/-- The end of `operator()`: `it` points to the first character of `rest`. -/
def unfold (p : HeaderParser) (rest : List UInt8) : HeaderParser :=
  { p with params := (if p.params = [] then [] else p.params ++ [chr ' ']) ++
      rest.tail.dropWhile isspace }

/-- `operator()`. -/
def line (p : HeaderParser) (headers : Headers) (line : List UInt8) : Option LineResult :=
  match line with
  | [] => (p.append L decodeParams headers).map fun headers => ⟨p, headers, true, true⟩
  | front :: rest =>
    if line = [chr '.'] then
      (p.append L decodeParams headers).map fun headers => ⟨p, headers, true, false⟩
    else if ¬ isspace front then
      if chr ':' ∉ line then some ⟨p, headers, true, false⟩
      else
        (p.append L decodeParams headers).map fun headers =>
          ⟨unfold ⟨line.takeWhile (· ≠ chr ':'), []⟩ (line.dropWhile (· ≠ chr ':')), headers,
            false, true⟩
    else some ⟨p.unfold (front :: rest), headers, false, true⟩

/-- The headers once `to_payload` is called, or the lines are over. -/
def parse (p : HeaderParser) (headers : Headers) : List (List UInt8) → Option Headers
  | [] => some headers
  | l :: lines => do
    let r ← p.line L decodeParams headers l
    if r.payload then some r.headers else parse r.parser r.headers lines

end HeaderParser

end Email

end Acqua
