import Acqua.Json.Grammar

/-! JSON values and their renderings. A rendering is the value together with the choices that
a writer has: the blanks between the tokens, the escapes in the strings, the zeros before an
integer. -/

namespace Acqua

namespace Json

inductive JsonValue
  | null
  | bool (b : Bool)
  | int (n : Int)
  | str (s : List UInt8)
  | arr (vs : List JsonValue)
  | obj (ms : List (List UInt8 × JsonValue))

mutual

/-- What an adapter should be told about a value. -/
def JsonValue.record : JsonValue → Record
  | .null => .mk [.null] []
  | .bool b => .mk [.bool b] []
  | .int n => .mk [.long n] []
  | .str s => .mk [.str s] []
  | .arr vs => .mk [] (elementRecords 0 vs)
  | .obj ms => .mk [] (memberRecords ms)

def elementRecords : Nat → List JsonValue → List (Key × Record)
  | _, [] => []
  | i, v :: vs => (.index i, v.record) :: elementRecords (i + 1) vs

def memberRecords : List (List UInt8 × JsonValue) → List (Key × Record)
  | [] => []
  | (k, v) :: ms => (.name k, v.record) :: memberRecords ms

end

/-- Some blanks. -/
abbrev Gap := { txt : List UInt8 // Blanks txt }

/-- The ways to write a character between quotation marks. -/
inductive CharText : UInt8 → List UInt8 → Prop
  | plain {ch : UInt8} (hprint : isprint ch) (hquote : ch ≠ chr '"') (hescape : ch ≠ chr '\\') :
    CharText ch [ch]
  | short {c ch : UInt8} (hescaped : StringParser.escaped c = some ch) : CharText ch [chr '\\', c]
  | unicode {u : UInt8} {ds : List UInt8} (hu : u = chr 'u' ∨ u = chr 'U') (hlen : ds.length = 4)
    (hds : ∀ d ∈ ds, isxdigit d) (hascii : strtol ds < 128) :
    CharText (UInt8.ofNat (strtol ds)) (chr '\\' :: u :: ds)

/-- A printable character as it is written. -/
structure CharLayout where
  ch : UInt8
  text : List UInt8
  isText : CharText ch text
  isPrint : isprint ch

abbrev StringLayout := List CharLayout

namespace StringLayout

def value (s : StringLayout) : List UInt8 := s.map CharLayout.ch

def body (s : StringLayout) : List UInt8 := s.flatMap CharLayout.text

def text (s : StringLayout) : List UInt8 := chr '"' :: body s ++ [chr '"']

end StringLayout

def ofDigits (digits : List UInt8) : Int := digits.foldl (fun n ch => n * 10 + digit ch) 0

/-- An integer that fits in `long`, as it is written. -/
structure IntLayout where
  negative : Bool
  first : UInt8
  rest : List UInt8
  areDigits : ∀ ch ∈ first :: rest, isdigit ch
  fits : -2 ^ 63 ≤ (if negative then -ofDigits (first :: rest) else ofDigits (first :: rest)) ∧
    (if negative then -ofDigits (first :: rest) else ofDigits (first :: rest)) < 2 ^ 63

namespace IntLayout

def value (i : IntLayout) : Int :=
  if i.negative then -ofDigits (i.first :: i.rest) else ofDigits (i.first :: i.rest)

def text (i : IntLayout) : List UInt8 :=
  if i.negative then chr '-' :: i.first :: i.rest else i.first :: i.rest

end IntLayout

mutual

inductive Layout
  | literal (l : Literal)
  | integer (i : IntLayout)
  | string (s : StringLayout)
  | emptyArray (gap : Gap)
  | array (items : Items)
  | emptyObject (gap : Gap)
  | object (members : MemberItems)

/-- The elements of an array, with the gaps around them. -/
inductive Items
  | one (pre : Gap) (v : Layout) (post : Gap)
  | snoc (init : Items) (pre : Gap) (v : Layout) (post : Gap)

inductive MemberItems
  | one (pre : Gap) (key : StringLayout) (mid : Gap) (pre' : Gap) (v : Layout) (post : Gap)
  | snoc (init : MemberItems) (pre : Gap) (key : StringLayout) (mid : Gap) (pre' : Gap)
    (v : Layout) (post : Gap)

end

def literalValue : Literal → JsonValue
  | .lNull => .null
  | .lTrue => .bool true
  | .lFalse => .bool false

mutual

def Layout.value : Layout → JsonValue
  | .literal l => literalValue l
  | .integer i => .int i.value
  | .string s => .str s.value
  | .emptyArray _ => .arr []
  | .array items => .arr items.values
  | .emptyObject _ => .obj []
  | .object members => .obj members.values

def Items.values : Items → List JsonValue
  | .one _ v _ => [v.value]
  | .snoc init _ v _ => init.values ++ [v.value]

def MemberItems.values : MemberItems → List (List UInt8 × JsonValue)
  | .one _ key _ _ v _ => [(key.value, v.value)]
  | .snoc init _ key _ _ v _ => init.values ++ [(key.value, v.value)]

end

mutual

def Layout.text : Layout → List UInt8
  | .literal l => LiteralParser.cStr l
  | .integer i => i.text
  | .string s => s.text
  | .emptyArray gap => chr '[' :: (gap.val ++ [chr ']'])
  | .array items => chr '[' :: (items.text ++ [chr ']'])
  | .emptyObject gap => chr '{' :: (gap.val ++ [chr '}'])
  | .object members => chr '{' :: (members.text ++ [chr '}'])

def Items.text : Items → List UInt8
  | .one pre v post => pre.val ++ v.text ++ post.val
  | .snoc init pre v post => init.text ++ chr ',' :: (pre.val ++ v.text ++ post.val)

def MemberItems.text : MemberItems → List UInt8
  | .one pre key mid pre' v post =>
    pre.val ++ key.text ++ mid.val ++ chr ':' :: (pre'.val ++ v.text ++ post.val)
  | .snoc init pre key mid pre' v post =>
    init.text ++ chr ',' ::
      (pre.val ++ key.text ++ mid.val ++ chr ':' :: (pre'.val ++ v.text ++ post.val))

end

mutual

/-- No empty array has blanks between its brackets. -/
def Layout.tight : Layout → Prop
  | .literal _ => True
  | .integer _ => True
  | .string _ => True
  | .emptyArray gap => gap.val = []
  | .array items => items.tight
  | .emptyObject _ => True
  | .object members => members.tight

def Items.tight : Items → Prop
  | .one _ v _ => v.tight
  | .snoc init _ v _ => init.tight ∧ v.tight

def MemberItems.tight : MemberItems → Prop
  | .one _ _ _ _ v _ => v.tight
  | .snoc init _ _ _ _ v _ => init.tight ∧ v.tight

end

/-- Whether the value has no closing token of its own. -/
def Layout.bare : Layout → Bool
  | .literal _ => true
  | .integer _ => true
  | _ => false

/-- A whole text. -/
structure Document where
  pre : Gap
  root : Layout
  post : Gap

def Document.text (d : Document) : List UInt8 := d.pre.val ++ d.root.text ++ d.post.val

def Document.value (d : Document) : JsonValue := d.root.value

end Json

end Acqua
