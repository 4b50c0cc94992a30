import Acqua.Email.HeaderParser
import Acqua.Library.FlatMultimap
import Acqua.Library.Scanning
import Acqua.Webclient.ChunkedReader
import Acqua.Webclient.HeaderFields

/-! `client_socket.hpp`: how a response is read, from its first octet on. -/

namespace Acqua

namespace Webclient

open Asio

/-- The `flat_multimap` of `client_result_base.hpp`. -/
abbrev Header := List (List UInt8 × List UInt8)

namespace Header

def insertFields (header : Header) (fields : List (List UInt8 × List UInt8)) : Header :=
  FlatMultimap.insertAll (fun lhs rhs : List UInt8 => lhs < rhs) header fields

def find (header : Header) (name : String) : Option (List UInt8) :=
  (List.find? (fun elem => elem.1 = octets name) header).map Prod.snd

end Header

/-- The members of a `client_result_base`, of which the status code has no value at first, and
`is_keep_alive_` of the socket. -/
structure ClientResult where
  statusCode : Option Int
  header : Header
  buffer : List UInt8
  isKeepAlive : Bool
  deriving DecidableEq

namespace ClientResult

/-- A result that was just made. -/
def new : ClientResult := ⟨none, [], [], false⟩

end ClientResult

/-- What the reading of a response ends in. The connection may be closed before the first octet.
`buffer_copy` goes through a decompressor when the content is encoded. -/
inductive ResponseEnd
  | closed
  | callback (result : ClientResult)
  | error (result : ClientResult)
  | onMove (location : List UInt8) (result : ClientResult)
  | decompress (result : ClientResult)
  deriving DecidableEq

/-- `async_read_some` with a buffer of one octet. -/
def readOne : List (List UInt8) → Option (UInt8 × List (List UInt8))
  | [] => none
  | [] :: reads => readOne reads
  | (ch :: read) :: reads => some (ch, read :: reads)

/-- `omit[ "HTTP/" >> int_ >> '.' >> int_ >> +space ] >> int_`. -/
def parseStatusLine (text : List UInt8) : Option Int := do
  let text ← literal "HTTP/" text
  let (_, text) ← parseInt text
  let text ← literal "." text
  let (_, text) ← parseInt text
  if text.head?.any isspace then
    let (code, _) ← parseInt (text.dropWhile isspace)
    some code
  else none

/-- `on_read_sized_content` behind `async_read_until` with a size. -/
def readSized (size : Nat) (result : ClientResult) (buffer : List UInt8)
    (reads : List (List UInt8)) : ResponseEnd :=
  match readUntilSize size 0 buffer reads with
  | none => .error result
  | some (size, buffer, _) => .callback { result with buffer := (bufferCopy buffer size).1 }

/-- `on_read_header` from the search for `Connection` on. Without a length, all that is read is read
up to an error. -/
def readContent (result : ClientResult) (buffer : List UInt8) (reads : List (List UInt8)) :
    Option ResponseEnd :=
  let find := result.header.find
  let result := { result with
    isKeepAlive := (find "Connection").any (Email.iequals · (octets "keep-alive")) }
  if (find "Content-Encoding").any fun s =>
      Email.iequals s (octets "gzip") || Email.iequals s (octets "zlib") then
    some (.decompress result)
  else if (find "Transfer-Encoding").any (Email.iequals · (octets "chunked")) then
    (readChunked buffer reads).map fun
      | .callback content => .callback { result with buffer := content }
      | .error content => .error { result with buffer := content }
  else
    match find "Content-Length" with
    | some length => some (readSized (atol length % 2 ^ 64).toNat result buffer reads)
    | none => some (.error result)

/-- The fields are added to the header. -/
def onReadHeader (size : Nat) (result : ClientResult) (buffer : List UInt8)
    (reads : List (List UInt8)) : Option ResponseEnd :=
  let parsed := parseHeader (buffer.take size)
  let result := { result with header := result.header.insertFields parsed.1 }
  if parsed.2.isNone then some (.error { result with buffer := buffer })
  else
    match result.header.find "Location" with
    | some location => some (.onMove location { result with buffer := buffer.drop size })
    | none => readContent result (buffer.drop size) reads

def onReadLine (size : Nat) (result : ClientResult) (buffer : List UInt8)
    (reads : List (List UInt8)) : Option ResponseEnd :=
  match parseStatusLine buffer with
  | none => some (.error { result with buffer := buffer })
  | some statusCode =>
    let result := { result with statusCode := some statusCode }
    match readDelimited (crlf ++ crlf) (buffer.drop size) reads with
    | none => some (.error { result with buffer := buffer.drop size ++ reads.flatten })
    | some (size, buffer, reads) => onReadHeader size result buffer reads

/-- `async_read`, where the buffer of the result is empty. -/
def readResponse (result : ClientResult) (reads : List (List UInt8)) : Option ResponseEnd :=
  match readOne reads with
  | none => some .closed
  | some (ch, reads) =>
    match readUntil [ch] reads with
    | none => some (.error { result with buffer := ch :: reads.flatten })
    | some (size, buffer, reads) => onReadLine size result buffer reads

end Webclient

end Acqua
