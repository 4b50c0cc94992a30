import Acqua.Email.EmailParser
import Acqua.Email.Message
import Acqua.Email.Rfc2231Decode
import Acqua.Iostreams.AsciiFilter
import Acqua.Iostreams.OstreamCodecvt
import Acqua.Iostreams.QprintPush

/-! `payload_parser` and `parser_impl` of `email_parser.ipp` over `char`. There is nothing to
return when a member throws. -/

namespace Acqua

namespace Email

/-- `out_`, with everything that was written to it. There is no charset when it does not
convert. -/
structure PayloadOutput where
  enc : Encoding
  charset : Option (List UInt8)
  text : List UInt8

namespace PayloadOutput

variable (L : Locale) (S : Buffering UInt8)

/-- What the filter before the converter lets through. Only `qprint_decoder` refuses characters. -/
def filtered (out : PayloadOutput) : List UInt8 :=
  match out.enc with
  | .ascii =>
    if out.charset = none then out.text else (pushAll AsciiDecoder.put .init out.text).2
  | .qprint => QprintDecoder.written S out.text
  | .base64 => Base64Decoder.decode base64Traits out.text

/-- What is in the payload buffer once `out_` is deleted. -/
def content (out : PayloadOutput) : List UInt8 :=
  match out.charset with
  | none => out.filtered S
  | some charset => OstreamLocaleCodecvt.content (fun str => L.toUtf str charset) (out.filtered S)

end PayloadOutput

/-- The two alternatives of the variant with the message they belong to. `absent` is the null
pointer, and `complete` a parser that is not in progress: no line is handed to it. -/
inductive ParserImpl
  | absent
  | header (parser : HeaderParser) (boundary : Option (List UInt8)) (email : Message)
  | payload (childBoundary parentBoundary : Option (List UInt8)) (out : PayloadOutput)
    (email : Message) (subpart : ParserImpl)
  | complete (email : Message)

namespace ParserImpl

def inProgress : ParserImpl → Bool
  | header .. => true
  | payload .. => true
  | _ => false

def init (boundary : Option (List UInt8)) : ParserImpl := .header .init boundary ⟨[], [], []⟩

variable (L : Locale) (S : Buffering UInt8)

/-- The message of a parser, if there is one, once the parser is deleted. -/
def finished : ParserImpl → List Message
  | absent => []
  | header _ _ email => [email]
  | payload _ _ out email subpart =>
    [{ email with payload := out.content L S, subparts := email.subparts ++ subpart.finished }]
  | complete email => [email]

def toPayload (email : Message) (boundary : Option (List UInt8)) : ParserImpl :=
  let params := getEncodingParams email.headers
  .payload params.boundary boundary
    ⟨params.enc, if params.textMode then some params.charset else none, []⟩ email .absent

def isChildMultipartBegin (childBoundary : Option (List UInt8)) (line : List UInt8) : Bool :=
  childBoundary.elim false fun boundary => line = octets "--" ++ boundary

def isParentMultipartEnd (parentBoundary : Option (List UInt8)) (line : List UInt8) : Bool :=
  parentBoundary.elim false fun boundary => line = octets "--" ++ boundary ++ octets "--"

/-- `payload_parser::operator()`, where `parsed` is what `parse_line` makes of the subpart. -/
def payloadLine (line : List UInt8) (childBoundary parentBoundary : Option (List UInt8))
    (out : PayloadOutput) (email : Message) (subpart : ParserImpl)
    (parsed : Option ParserImpl) : Option ParserImpl :=
  let email' := { email with
    payload := out.content L S
    subparts := email.subparts ++ subpart.finished L S }
  if line = [chr '.'] then some (.complete email')
  else if isChildMultipartBegin childBoundary line then some (.complete email')
  else if isParentMultipartEnd parentBoundary line then
    some (.payload childBoundary parentBoundary out
      { email with subparts := email.subparts ++ subpart.finished L S } (init childBoundary))
  else if subpart.inProgress then
    parsed.map (.payload childBoundary parentBoundary out email ·)
  else
    some (.payload childBoundary parentBoundary { out with text := out.text ++ line } email
      subpart)

/-- `parse_line`: a line that the header parser does not take goes to the payload parser, which
takes every line. -/
def parseLine (line : List UInt8) : ParserImpl → Option ParserImpl
  | absent => some .absent
  | header parser boundary email =>
    (parser.line L (decodeMimeheader L) email.headers line).bind fun r =>
      let email := { email with headers := r.headers }
      if r.payload then
        if r.taken then some (toPayload email boundary)
        else
          match toPayload email boundary with
          | payload childBoundary parentBoundary out email subpart =>
            payloadLine L S line childBoundary parentBoundary out email subpart none
          | p => some p
      else some (.header r.parser boundary email)
  | payload childBoundary parentBoundary out email subpart =>
    payloadLine L S line childBoundary parentBoundary out email subpart (parseLine line subpart)
  | complete email => some (.complete email)

/-- The parser of an email. -/
def lines : LineParser ParserImpl := ⟨parseLine L S, inProgress⟩

end ParserImpl

end Email

end Acqua
