import Acqua.Email.EncodeMimeheader
import Acqua.Iostreams.QprintPush

/-! `decode_mimeheader.ipp` over `char`: the search for encoded words and `rfc2047_decode`.
There is nothing to return when a conversion throws. -/

namespace Acqua

namespace Email

/-- The groups of a match. -/
structure EncodedWord where
  charset : List UInt8
  enc : UInt8
  text : List UInt8
  deriving DecidableEq

def isCharsetChar (ch : UInt8) : Bool :=
  isalnum ch || ch = chr '_' || ch = chr '=' || ch = chr '-'

def isTextChar (ch : UInt8) : Bool :=
  isalnum ch || ch = chr '+' || ch = chr '_' || ch = chr '/' || ch = chr '-'

namespace EncodedWord

def chars (w : EncodedWord) : List UInt8 :=
  octets "=?" ++ w.charset ++ [chr '?', w.enc, chr '?'] ++ w.text ++ octets "?="

/-- What the groups of `regex` accept. -/
structure Accepted (w : EncodedWord) : Prop where
  charset_ne_nil : w.charset ≠ []
  charset_chars : ∀ ch ∈ w.charset, isCharsetChar ch
  enc_mem : w.enc ∈ octets "BbQq"
  text_eq : ∃ body pad, w.text = body ++ pad ∧ (∀ ch ∈ body, isTextChar ch) ∧
    ∀ ch ∈ pad, ch = chr '='

/-- What the filter of the word writes for its text. The stream is closed behind the text, and
flushed once more as it closes. -/
def decoded (w : EncodedWord) : List UInt8 :=
  if w.enc = chr 'B' ∨ w.enc = chr 'b' then Base64Decoder.decode base64Traits w.text
  else QprintDecoder.written (.flushed 1) w.text

end EncodedWord

/-- The word that matches at the beginning of a string. A run of the pattern ends at a `?`, so
there is only one way to match it. -/
def wordAt (str : List UInt8) : Option EncodedWord :=
  let charset := (str.drop 2).takeWhile isCharsetChar
  let rest := str.drop (charset.length + 5)
  let pad := (rest.dropWhile isTextChar).takeWhile (· = chr '=')
  let w := ⟨charset, str.getD (charset.length + 3) 0, rest.takeWhile isTextChar ++ pad⟩
  if charset ≠ [] ∧ w.enc ∈ octets "BbQq" ∧ w.chars <+: str then some w else none

/-- The next match with what stands before and after it. -/
def findWord : List UInt8 → Option (List UInt8 × EncodedWord × List UInt8)
  | [] => none
  | ch :: str =>
    match wordAt (ch :: str) with
    | some w => some ([], w, (ch :: str).drop w.chars.length)
    | none => (findWord str).map fun r => (ch :: r.1, r.2)

/-- The matches of `regex_iterator`, each with what stands between it and the one before, and
what stands after the last one. Every match takes a character, so as many rounds as there are
characters are enough. -/
def findWords : Nat → List UInt8 → List (List UInt8 × EncodedWord) × List UInt8
  | 0, str => ([], str)
  | fuel + 1, str =>
    match findWord str with
    | none => ([], str)
    | some (gap, w, rest) =>
      let r := findWords fuel rest
      ((gap, w) :: r.1, r.2)

section Decode

variable (L : Locale)

/-- The loop of `rfc2047_decode`, with `encoded` and `charset` still to be written. -/
def decodeWords : List UInt8 → List UInt8 → List (List UInt8 × EncodedWord) → List UInt8 →
    Option (List UInt8)
  | encoded, charset, [], last => (L.toUtf encoded charset).map fun out => out ++ last
  | encoded, charset, (gap, w) :: rest, last =>
    if gap.all isspace then decodeWords (encoded ++ w.decoded) w.charset rest last
    else do
      let out ← L.toUtf encoded charset
      let out' ← decodeWords w.decoded w.charset rest last
      some (out ++ gap ++ out')

def rfc2047Decode (str : List UInt8) : Option (List UInt8) :=
  let r := findWords str.length str
  decodeWords L [] [] r.1 r.2

end Decode

end Email

end Acqua
