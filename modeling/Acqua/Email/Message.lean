import Acqua.Email.HeaderParser

/-! `message.hpp` and `detail/encoding.hpp`. -/

namespace Acqua

namespace Email

/-- `payload` is what is to be read from the payload buffer. -/
structure Message where
  headers : Headers
  payload : List UInt8
  subparts : List Message

inductive Encoding
  | ascii
  | qprint
  | base64
  deriving DecidableEq

structure EncodingParams where
  charset : List UInt8
  boundary : Option (List UInt8)
  enc : Encoding
  textMode : Bool
  isFormatFlowed : Bool
  isDeleteSpace : Bool
  deriving DecidableEq

def Disposition.find (disp : Disposition) (name : List UInt8) : Option (List UInt8) :=
  (List.find? (fun elem => iequals elem.1 name) disp.params).map Prod.snd

def EncodingParams.init : EncodingParams :=
  ⟨octets "US-ASCII", none, .ascii, false, false, false⟩

/-- The part of `get_encoding_params` that is about `Content-Type`. -/
def EncodingParams.ofContentType (contenttype : Disposition) : EncodingParams :=
  let params := { EncodingParams.init with boundary := contenttype.find (octets "boundary") }
  if istartsWith contenttype.str (octets "text/") then
    { params with
      textMode := true
      charset := (contenttype.find (octets "charset")).getD params.charset
      isFormatFlowed := (contenttype.find (octets "format")).elim false
        fun format => iequals format (octets "flowed")
      isDeleteSpace := (contenttype.find (octets "delsp")).elim false
        fun delsp => iequals delsp (octets "yes") }
  else params

def getEncodingParams (h : Headers) : EncodingParams :=
  let params := (h.find (octets "Content-Type")).elim .init .ofContentType
  match h.find (octets "Content-Transfer-Encoding") with
  | none => params
  | some enc =>
    if iequals enc.str (octets "quoted-printable") then
      { params with enc := .qprint, textMode := true }
    else params

end Email

end Acqua
