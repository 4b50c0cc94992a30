import Acqua.Webclient.RequestUrl
import Acqua.Webclient.Response

/-! `on_move` of `client_socket.hpp`, with `wget.hpp` and `wpost.hpp`: what follows a request. -/

namespace Acqua

namespace Webclient

open Asio (crlf)

/-- `sym`. -/
inductive Method
  | get
  | post
  deriving DecidableEq

/-- `detail::get`. -/
def getReq : Req := ⟨octets "GET", octets "\r\n"⟩

/-- `detail::non_encoded_post` of a buffer. -/
def nonEncodedPost (buf : List UInt8) : Req where
  method := octets "POST"
  content := octets "Content-Type: application/x-www-form-urlencoded\r\nContent-Length: " ++
    octets (Nat.repr buf.length) ++ octets "\r\n\r\n" ++ buf

/-- What `non_encoded_uri` writes for a header. -/
def writeFields (header : Header) : List UInt8 :=
  header.flatMap fun e => e.1 ++ octets ": " ++ e.2 ++ octets "\r\n"

section Parse

def parseMethod (text : List UInt8) : Option (Method × List UInt8) :=
  match literal "GET" text with
  | some rest => some (.get, rest)
  | none => (literal "POST" text).map fun rest => (.post, rest)

/-- All of the request line behind the method. -/
def parseTarget (text : List UInt8) : Option (List UInt8) :=
  let text := text.dropWhile isspace
  if text.takeWhile (fun ch => !isspace ch) = [] then none
  else do
    let text ← literal "HTTP/" ((text.dropWhile fun ch => !isspace ch).dropWhile isspace)
    let (_, text) ← parseInt text
    let text ← literal "." text
    let (_, text) ← parseInt text
    literal "\r\n" text

/-- `req`, and where `beg` stands. -/
def parseRequestLine (text : List UInt8) : Option Method × List UInt8 :=
  match parseMethod text with
  | none => (none, text)
  | some (method, rest) => (some method, (parseTarget rest).getD text)

/-- `"Host:" >> omit[ *space ] >> *(char_ - '\r') >> "\r\n"`. -/
def parseHost (text : List UInt8) : Option (List UInt8 × List UInt8) := do
  let text ← literal "Host:" text
  let text := text.dropWhile isspace
  let rest ← literal "\r\n" (text.dropWhile (· ≠ chr '\r'))
  some (text.takeWhile (· ≠ chr '\r'), rest)

end Parse

/-- `port_name` of the endpoint that `serv` was resolved to. -/
def portName (sent : Request) : List UInt8 :=
  if decimalValue sent.serv = decimalValue sent.scheme.service then []
  else octets ":" ++ octets (Nat.repr (decimalValue sent.serv))

/-- What `on_move` does. Without a method it goes on with a socket that is null. -/
inductive Moved
  | error
  | noMethod
  | connect (header : Header) (request : Except Connected Request)

/-- `on_move` from the address on. -/
def moveTo (context keepAlive : Bool) (method : Option Method) (url beg : List UInt8) : Moved :=
  let parsed := parseHeader beg
  let header := Header.insertFields [] parsed.1
  let uri : Uri := ⟨url, [], some (writeFields header)⟩
  match method with
  | none => .noMethod
  | some .get => .connect header (doConnect context keepAlive getReq uri)
  | some .post =>
    .connect header (doConnect context keepAlive (nonEncodedPost (parsed.2.getD beg)) uri)

def onMove (context keepAlive : Bool) (sent : Request) (statusCode : Option Int)
    (loc : List UInt8) : Moved :=
  let line := parseRequestLine sent.written
  let method := if statusCode = some 303 then some .get else line.1
  if loc = [] ∨ loc.head? = some (chr '/') then
    match parseHost line.2 with
    | none => .error
    | some (host, beg) =>
      moveTo context keepAlive method (sent.scheme.text ++ host ++ portName sent ++ loc) beg
  else moveTo context keepAlive method loc ((line.2.dropWhile (· ≠ chr '\n')).drop 1)

/-- How a request ends. -/
inductive ExchangeEnd
  | response (e : ResponseEnd)
  | noHost (result : ClientResult)
  | noMethod
  | notConnected (e : Connected)

/-- The requests that are sent, each on a connection of its own with what is read from it, and how
the last one ends, unless it is without an answer. -/
def exchange (context keepAlive : Bool) (sent : Request) (result : ClientResult) :
    List (List (List UInt8)) → List Request × Option ExchangeEnd
  | [] => ([sent], none)
  | reads :: connections =>
    match readResponse result reads with
    | some (.onMove location moved) =>
      match onMove context keepAlive sent moved.statusCode location with
      | .error => ([sent], some (.noHost moved))
      | .noMethod => ([sent], some .noMethod)
      | .connect _ (.error e) => ([sent], some (.notConnected e))
      | .connect header (.ok request) =>
        let next := exchange context keepAlive request { moved with header := header, buffer := [] }
          connections
        (sent :: next.1, next.2)
    | e => ([sent], e.map .response)

end Webclient

end Acqua
