import Acqua.Json.Parser

/-! The texts of JSON values as the parser takes them, each with what the adapter is told
about it. -/

namespace Acqua

namespace Json

def Blanks (txt : List UInt8) : Prop := ∀ ch ∈ txt, isSpace ch

/-- The characters that `any_parser` skips. -/
def Skipped (txt : List UInt8) : Prop := ∀ ch ∈ txt, ch = 0 ∨ isSpace ch

def LiteralText (l : Literal) (tok : List UInt8) : Prop := tok.map tolower = LiteralParser.cStr l

/-- A number is what its scanner takes from a state in which it starts to one in which it can
deliver a value. -/
def NumberText (tok : List UInt8) (s : Scalar) : Prop :=
  ∃ ch rest start p, tok = ch :: rest ∧ anyParser ch = .ok (.num start) ∧
    rest.foldlM NumberParser.next start = some p ∧ p.result = some s

section Grammar

variable (utf : Nat → List UInt8)

/-- What stands between the quotation marks of a string is what its scanner takes; it does
not end within an escape. -/
def StringText (tok s : List UInt8) : Prop :=
  ∃ body p, tok = chr '"' :: body ++ [chr '"'] ∧
    body.foldlM (StringParser.next utf) .init = some p ∧ p.escape = false ∧ p.str = s

inductive ScalarText : List UInt8 → Scalar → Prop
  | literal (l : Literal) {tok : List UInt8} (htok : LiteralText l tok) :
    ScalarText tok (LiteralParser.scalar l)
  | number {tok : List UInt8} {s : Scalar} (htok : NumberText tok s) : ScalarText tok s
  | string {tok s : List UInt8} (htok : StringText utf tok s) : ScalarText tok (.str s)

mutual

inductive Value : List UInt8 → Record → Prop
  | scalar {ws tok : List UInt8} {s : Scalar} (hws : Skipped ws) (htok : ScalarText utf tok s) :
    Value (ws ++ tok) (.mk [s] [])
  | emptyArray {ws : List UInt8} (hws : Skipped ws) :
    Value (ws ++ [chr '[', chr ']']) (.mk [] [])
  | array {ws txt w : List UInt8} {cs : List (Key × Record)} (hws : Skipped ws)
    (htxt : Elements txt cs) (hw : Blanks w) :
    Value (ws ++ chr '[' :: (txt ++ w ++ [chr ']'])) (.mk [] cs)
  | emptyObject {ws w : List UInt8} (hws : Skipped ws) (hw : Blanks w) :
    Value (ws ++ chr '{' :: (w ++ [chr '}'])) (.mk [] [])
  | object {ws w txt w' : List UInt8} {cs : List (Key × Record)} (hws : Skipped ws)
    (hw : Blanks w) (htxt : Members txt cs) (hw' : Blanks w') :
    Value (ws ++ chr '{' :: (w ++ txt ++ w' ++ [chr '}'])) (.mk [] cs)

inductive Elements : List UInt8 → List (Key × Record) → Prop
  | one {txt : List UInt8} {r : Record} (htxt : Value txt r) : Elements txt [(.index 0, r)]
  | snoc {init w txt : List UInt8} {cs : List (Key × Record)} {r : Record}
    (hinit : Elements init cs) (hw : Blanks w) (htxt : Value txt r) :
    Elements (init ++ w ++ chr ',' :: txt) (cs ++ [(.index cs.length, r)])

inductive Members : List UInt8 → List (Key × Record) → Prop
  | one {txt key : List UInt8} {r : Record} (htxt : Member txt key r) :
    Members txt [(.name key, r)]
  | snoc {init w w' txt key : List UInt8} {cs : List (Key × Record)} {r : Record}
    (hinit : Members init cs) (hw : Blanks w) (hw' : Blanks w') (htxt : Member txt key r) :
    Members (init ++ w ++ chr ',' :: (w' ++ txt)) (cs ++ [(.name key, r)])

inductive Member : List UInt8 → List UInt8 → Record → Prop
  | mk {tok key w txt : List UInt8} {r : Record} (htok : StringText utf tok key)
    (hw : Blanks w) (htxt : Value txt r) : Member (tok ++ w ++ chr ':' :: txt) key r

end

end Grammar

end Json

end Acqua
