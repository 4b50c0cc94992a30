import Acqua.Ctype

/-! `json_parser.ipp` over `char`, with an adapter that records what it is told. The values
that the parser hands on are kept as they are computed on integers; `utf` is what the library
appends to a string for one `char16_t`. -/

namespace Acqua

namespace Json

/-- `diverges` marks a loop that was given up; no run ends so. -/
inductive Fault
  | syntaxError
  | diverges

inductive Scalar
  | null
  | bool (b : Bool)
  | long (n : Int)
  | quotient (decimal fraction : Int)
  | power (decimal exponent fraction : Int)
  | str (s : List UInt8)

inductive Key
  | index (i : Nat)
  | name (s : List UInt8)

/-- What one adapter was told: the calls of `data`, and those of `add_child` with what the
new adapters were told in turn. -/
inductive Record
  | mk (data : List Scalar) (children : List (Key × Record))

namespace Record

def data : Record → List Scalar
  | mk data _ => data

def children : Record → List (Key × Record)
  | mk _ children => children

def empty : Record := mk [] []

def addData (r : Record) (s : Scalar) : Record := mk (r.data ++ [s]) r.children

def addChild (r : Record) (k : Key) : Record := mk r.data (r.children ++ [(k, empty)])

/-- The newest child is the one that a parser below writes to. -/
def last (r : Record) : Record :=
  match r.children.getLast? with
  | some (_, c) => c
  | none => empty

def setLast (r : Record) (c : Record) : Record :=
  match r.children.getLast? with
  | some (k, _) => mk r.data (r.children.dropLast ++ [(k, c)])
  | none => r

@[simp]
theorem last_mk (data : List Scalar) (cs : List (Key × Record)) (k : Key) (c : Record) :
    (mk data (cs ++ [(k, c)])).last = c := by
  simp [last, children]

@[simp]
theorem setLast_mk (data : List Scalar) (cs : List (Key × Record)) (k : Key)
    (c c' : Record) :
    (mk data (cs ++ [(k, c)])).setLast c' = .mk data (cs ++ [(k, c')]) := by
  simp [setLast, children, Record.data]

@[simp]
theorem addChild_mk (data : List Scalar) (cs : List (Key × Record)) (k : Key) :
    (mk data cs).addChild k = .mk data (cs ++ [(k, .empty)]) := rfl

@[simp]
theorem addData_empty (s : Scalar) : empty.addData s = .mk [s] [] := rfl

end Record

inductive Literal
  | lNull
  | lTrue
  | lFalse

inductive Sign
  | plus
  | minus

def isSpace (ch : UInt8) : Bool :=
  ch = chr ' ' ∨ ch = chr '\t' ∨ ch = chr '\r' ∨ ch = chr '\n'

def digit (ch : UInt8) : Int := ch.toNat - '0'.toNat

def hexDigit (ch : UInt8) : Nat :=
  if isdigit ch then ch.toNat - '0'.toNat
  else if chr 'a' ≤ ch then ch.toNat - 'a'.toNat + 10
  else ch.toNat - 'A'.toNat + 10

/-- `strtol` to the base 16, on hexadecimal digits only. -/
def strtol (digits : List UInt8) : Nat := digits.foldl (fun n ch => 16 * n + hexDigit ch) 0

/-- A value of type `long`, on which the arithmetic wraps around as on the machine. -/
def long (n : Int) : Int := n.bmod (2 ^ 64)

/-- A value of type `int`, likewise. -/
def int (n : Int) : Int := n.bmod (2 ^ 32)

/-- `lit` is the position that `lit_` points to. -/
structure LiteralParser where
  l : Literal
  lit : Nat

namespace LiteralParser

def cStr : Literal → List UInt8
  | .lNull => octets "null"
  | .lTrue => octets "true"
  | .lFalse => octets "false"

def scalar : Literal → Scalar
  | .lNull => .null
  | .lTrue => .bool true
  | .lFalse => .bool false

/-- `*++lit_`; the string ends with a NUL. -/
def following (p : LiteralParser) : UInt8 := (cStr p.l).getD (p.lit + 1) 0

def next (p : LiteralParser) (ch : UInt8) : Option LiteralParser :=
  if p.following = 0 then none
  else if tolower ch = p.following then some { p with lit := p.lit + 1 }
  else none

def result (p : LiteralParser) : Option Scalar :=
  if p.following = 0 then some (scalar p.l) else none

end LiteralParser

inductive NType
  | decimal
  | fraction
  | exp
  | exponent

structure NumberParser where
  n : NType
  decimal : Int
  fraction : Int
  exponent : Int
  sign : Sign

namespace NumberParser

def make (decimal : Int) (sign : Sign) : NumberParser := ⟨.decimal, decimal, 1, 0, sign⟩

def signed (p : NumberParser) : Int :=
  match p.sign with
  | .plus => p.decimal
  | .minus => long (p.decimal * -1)

/-- The calls that return `true`. -/
def next (p : NumberParser) (ch : UInt8) : Option NumberParser :=
  match p.n with
  | .decimal =>
    if ch = chr 'e' ∨ ch = chr 'E' then some { p with decimal := p.signed, n := .exp }
    else if ch = chr '.' then some { p with n := .fraction }
    else if isdigit ch then some { p with decimal := long (p.decimal * 10 + digit ch) }
    else none
  | .fraction =>
    if ch = chr 'e' ∨ ch = chr 'E' then some { p with decimal := p.signed, n := .exp }
    else if isdigit ch then
      some { p with
        decimal := long (p.decimal * 10 + digit ch), fraction := int (p.fraction * 10) }
    else none
  | .exp =>
    if chr '1' ≤ ch ∧ ch ≤ chr '9' then
      some { p with exponent := digit ch, n := .exponent, sign := .plus }
    else if ch = chr '+' ∨ ch = chr '0' then some { p with n := .exponent, sign := .plus }
    else if ch = chr '-' then some { p with n := .exponent, sign := .minus }
    else none
  | .exponent =>
    if isdigit ch then some { p with exponent := int (p.exponent * 10 + digit ch) } else none

/-- What is delivered at the first character that does not belong to the number. -/
def result (p : NumberParser) : Option Scalar :=
  match p.n with
  | .decimal => some (.long p.signed)
  | .fraction => some (.quotient p.signed p.fraction)
  | .exp => none
  | .exponent =>
    match p.sign with
    | .plus => some (.power p.decimal p.exponent p.fraction)
    | .minus => some (.power p.decimal (int (p.exponent * -1)) p.fraction)

end NumberParser

/-- `hex` is `hex_` up to its end. -/
structure StringParser where
  escape : Bool
  hex : List UInt8
  str : List UInt8

namespace StringParser

def init : StringParser := ⟨false, [], []⟩

def escaped (ch : UInt8) : Option UInt8 :=
  if ch = chr '"' ∨ ch = chr '\\' ∨ ch = chr '/' then some ch
  else if ch = chr 'b' then some 0x08
  else if ch = chr 'f' then some 0x0C
  else if ch = chr 'n' then some 0x0A
  else if ch = chr 'r' then some 0x0D
  else if ch = chr 't' then some 0x09
  else none

/-- Whether the character is the quotation mark that completes the string. -/
def closes (p : StringParser) (ch : UInt8) : Bool := !p.escape && ch = chr '"'

def next (utf : Nat → List UInt8) (p : StringParser) (ch : UInt8) : Option StringParser :=
  if p.escape then
    if p.hex = [] then
      if ch = chr 'u' ∨ ch = chr 'U' then some { p with hex := [ch] }
      else (escaped ch).map fun c => { p with escape := false, str := p.str ++ [c] }
    else if isxdigit ch then
      let hex := p.hex ++ [ch]
      if hex.length < 5 then some { p with hex := hex }
      else some ⟨false, hex, p.str ++ utf (strtol hex.tail)⟩
    else none
  else if ch = chr '"' then none
  else if ch = chr '\\' then some { p with escape := true, hex := [] }
  else if isprint ch then some { p with str := p.str ++ [ch] }
  else none

end StringParser

/-- The parser of a key. -/
structure StringImpl where
  parser : StringParser
  inProgress : Bool

/-- The alternatives of the variant. Only `complete` ends the progress, and it leaves an
`any_parser` behind. -/
inductive ParserImpl
  | any (inProgress : Bool)
  | lit (p : LiteralParser)
  | num (p : NumberParser)
  | str (p : StringParser)
  | arr (data : Option ParserImpl) (index : Nat)
  | obj (key : Option StringImpl) (val : Option ParserImpl) (first : Bool)

def ParserImpl.inProgress : ParserImpl → Bool
  | .any inProgress => inProgress
  | _ => true

/-- What a call of `parse_1` returns and leaves behind. -/
abbrev Outcome := Except Fault (Bool × ParserImpl × Record)

def anyParser (ch : UInt8) : Except Fault ParserImpl :=
  if ch = 0 ∨ isSpace ch then .ok (.any true)
  else if ch = chr 'n' ∨ ch = chr 'N' then .ok (.lit ⟨.lNull, 0⟩)
  else if ch = chr 't' ∨ ch = chr 'T' then .ok (.lit ⟨.lTrue, 0⟩)
  else if ch = chr 'f' ∨ ch = chr 'F' then .ok (.lit ⟨.lFalse, 0⟩)
  else if ch = chr '"' then .ok (.str .init)
  else if ch = chr '[' then .ok (.arr none 0)
  else if ch = chr '{' then .ok (.obj none none true)
  else if ch = chr '-' then .ok (.num (.make 0 .minus))
  else if ch = chr '+' then .ok (.num (.make 0 .plus))
  else if isdigit ch then .ok (.num (.make (digit ch) .plus))
  else .error .syntaxError

/-- `complete(t)`, and the result `b` of the call. -/
def completeWith (b : Bool) (r : Record) (s : Scalar) : Outcome := .ok (b, .any false, r.addData s)

/-- A scanner that goes on, delivers what it has and hands the character back, or throws. -/
def scan {σ : Type} (wrap : σ → ParserImpl) (next : Option σ) (result : Option Scalar)
    (r : Record) : Outcome :=
  match next, result with
  | some p, _ => .ok (true, wrap p, r)
  | none, some s => completeWith false r s
  | none, none => .error .syntaxError

/-- The end of `operator()` of arrays and objects. -/
def skip (p : ParserImpl) (r : Record) (ch : UInt8) : Outcome :=
  if isSpace ch then .ok (true, p, r) else .error .syntaxError

section Parser

variable (utf : Nat → List UInt8)

def parse1 : ParserImpl → Record → UInt8 → Outcome
  | .any _, r, ch => (anyParser ch).map fun p => (true, p, r)
  | .lit p, r, ch => scan .lit (p.next ch) p.result r
  | .num p, r, ch => scan .num (p.next ch) p.result r
  | .str p, r, ch =>
    if p.closes ch then completeWith true r (.str p.str)
    else scan .str (p.next utf ch) none r
  | .arr none index, r, ch =>
    if ch = chr ']' then .ok (true, .any false, r)
    else
      -- the new child is an `any_parser`, and takes the character at once
      (anyParser ch).map fun p => (true, .arr (some p) (index + 1), r.addChild (.index index))
  | .arr (some data) index, r, ch =>
    if data.inProgress then
      (parse1 data r.last ch).map fun (b, data, child) =>
        (b, .arr (some data) index, r.setLast child)
    else if ch = chr ']' then .ok (true, .any false, r)
    else if ch = chr ',' then
      .ok (true, .arr (some (.any true)) (index + 1), r.addChild (.index index))
    else skip (.arr (some data) index) r ch
  | .obj key (some val) first, r, ch =>
    if val.inProgress then
      (parse1 val r.last ch).map fun (b, val, child) =>
        (b, .obj key (some val) first, r.setLast child)
    else if ch = chr '}' then .ok (true, .any false, r)
    else if ch = chr ',' then .ok (true, .obj none none first, r)
    else skip (.obj key (some val) first) r ch
  | .obj none none first, r, ch =>
    if first ∧ ch = chr '}' then .ok (true, .any false, r)
    else if ch = chr '"' then .ok (true, .obj (some ⟨.init, true⟩) none false, r)
    else skip (.obj none none first) r ch
  | .obj (some key) none first, r, ch =>
    if key.inProgress then
      if key.parser.closes ch then .ok (true, .obj (some ⟨key.parser, false⟩) none first, r)
      else scan (fun p => .obj (some ⟨p, true⟩) none first) (key.parser.next utf ch) none r
    else if ch = chr ':' then
      .ok (true, .obj (some key) (some (.any true)) first, r.addChild (.name key.parser.str))
    else skip (.obj (some key) none first) r ch

/-- `while (in_progress && !parse_1(ch));`, for at most `fuel` rounds. -/
def feed : Nat → ParserImpl → Record → UInt8 → Outcome
  | 0, _, _, _ => .error .diverges
  | fuel + 1, p, r, ch =>
    match parse1 utf p r ch with
    | .error e => .error e
    | .ok (b, p, r) => if b ∨ ¬ p.inProgress then .ok (b, p, r) else feed fuel p r ch

/-- The loop of `write`, which ends when the parser does; two rounds are enough for each
character. -/
def writeLoop : ParserImpl → Record → List UInt8 → Except Fault (ParserImpl × Record × Nat)
  | p, r, [] => .ok (p, r, 0)
  | p, r, ch :: s =>
    if p.inProgress then
      match feed utf 2 p r ch with
      | .error e => .error e
      | .ok (_, p, r) => (writeLoop p r s).map fun (p, r, i) => (p, r, i + 1)
    else .ok (p, r, 0)

/-- The number of characters that were taken, or -1. -/
def write (p : ParserImpl) (r : Record) (s : List UInt8) :
    Except Fault (ParserImpl × Record × Int) :=
  if p.inProgress then (writeLoop utf p r s).map fun (p, r, i) => (p, r, (i : Int))
  else .ok (p, r, -1)

end Parser

end Json

end Acqua
