import Acqua.Asio.ReadUntil
import Acqua.Iostreams.Base64
import Acqua.Library.Scanning

/-! `smtp/client.ipp`. An operation is what it sends and how it goes on with what the receive
functions return. Everything that is sent is written. -/

namespace Acqua

namespace Asio

namespace Smtp

/-- The members of `client::impl` that decide what an operation does. -/
structure Flags where
  isOpen : Bool
  enableTls : Bool
  enableAuthPlain : Bool
  enableAuthLogin : Bool
  enableAuthCramMd5 : Bool
  plaintextPassword : Bool
  starttls : Bool
  deriving DecidableEq

/-- The constructor, where `flags` is a `client_flags`. -/
def Flags.make (flags : Nat) : Flags :=
  ⟨false, false, false, false, false, flags &&& 2 = 0, flags &&& 1 = 0⟩

inductive Receive
  | code
  | message
  | ehlo
  deriving DecidableEq

/-- What a receive function leaves behind: the code, the texts that it looks at or hands out,
and whether there is an error in the yield context or it was thrown. -/
structure Received where
  code : Nat
  texts : List (List UInt8)
  error : Bool
  thrown : Bool

inductive Result
  | code (n : Nat)
  | thrown
  deriving DecidableEq

def Received.result (r : Received) : Result := if r.thrown then .thrown else .code r.code

/-- `connect` is a new connection, where what has come in on the old one is lost. `exchange`
sends, and receives in a way that the channel allows or does not. `handshake` has the flags
beside it that are set when it starts. -/
inductive Prog
  | done (r : Result) (f : Flags)
  | connect (next : Prog)
  | exchange (send : List UInt8) (readable : Bool) (how : Receive) (next : Received → Prog)
  | handshake (f : Flags) (next : Bool → Prog)

/-- `inbound` has come in and is not read yet, `server` is what comes in for each of the things
sent from now on, and `tls` tells whether the server completes a handshake. -/
structure Wire where
  recvbuf : List UInt8
  inbound : List (List UInt8)
  server : List (List (List UInt8))
  tls : Bool
  deriving DecidableEq

section Receive

variable (throws : Bool)

def parseResponseCode (data : List UInt8) (size : Nat) : Nat × Bool :=
  match data with
  | a :: b :: c :: _ =>
    if size ≥ 6 ∧ isdigit a ∧ isdigit b ∧ isdigit c then
      let res := ((a.toNat - 48) * 10 + (b.toNat - 48)) * 10 + (c.toNat - 48)
      (res, res ≥ 400)
    else (0, true)
  | _ => (0, true)

/-- `data+4` and `size-6`. -/
def textOf (data : List UInt8) (size : Nat) : List UInt8 := (data.drop 4).take (size - 6)

/-- A line is read and its code parsed; it stays in the buffer when that throws. -/
def receiveLine (w : Wire) : Option (Nat × Bool × List UInt8 × List UInt8 × Wire) :=
  match readUntil w.recvbuf w.inbound with
  | none => none
  | some (size, data, inbound) =>
    let (res, error) := parseResponseCode data size
    let rest := if throws && error then data else data.drop size
    some (res, error, data, textOf data size, { w with recvbuf := rest, inbound := inbound })

def receiveCode (w : Wire) : Option (Received × Wire) :=
  (receiveLine throws w).map fun (res, error, _, _, w) => (⟨res, [], error, throws && error⟩, w)

def receiveMessage (w : Wire) : Option (Received × Wire) :=
  (receiveLine throws w).map fun (res, error, _, text, w) =>
    (⟨res, if error then [] else [text], error, throws && error⟩, w)

/-- The loop of `receive_ehlo`; every round takes a line off. -/
def receiveEhloLoop : Nat → List (List UInt8) → Wire → Option (Received × Wire)
  | 0, _, _ => none
  | fuel + 1, texts, w =>
    match receiveLine throws w with
    | none => none
    | some (res, error, data, text, w) =>
      if throws && error then some (⟨res, texts, error, true⟩, w)
      else
        let texts := if res ≠ 0 then texts ++ [text] else texts
        if res > 0 ∧ data[3]? = some (chr '-') then receiveEhloLoop fuel texts w
        else some (⟨res, texts, error, false⟩, w)

def receiveEhlo (w : Wire) : Option (Received × Wire) :=
  receiveEhloLoop throws (w.recvbuf.length + w.inbound.flatten.length + 1) [] w

def receive (how : Receive) (w : Wire) : Option (Received × Wire) :=
  match how with
  | .code => receiveCode throws w
  | .message => receiveMessage throws w
  | .ehlo => receiveEhlo throws w

/-- The server's answer to what was sent comes in. -/
def Wire.answer (w : Wire) : Wire :=
  { w with inbound := w.inbound ++ w.server.headD [], server := w.server.tail }

/-- A receive function returns 0 when the read fails. -/
def exchange (readable : Bool) (how : Receive) (w : Wire) : Option (Received × Wire) :=
  if readable then receive throws how w.answer
  else some (⟨0, [], true, throws⟩, { w with server := w.server.tail })

/-- Anything that has come in before it breaks the handshake. -/
def Wire.handshake (w : Wire) : Bool × Wire :=
  (w.tls && w.inbound.flatten.isEmpty, { w with inbound := [] })

/-- What was sent with the code that came back, and how it ended, nothing while it waits. -/
structure Outcome where
  log : List (List UInt8 × Nat)
  ended : Option (Result × Flags × Wire)

def Prog.run (throws : Bool) : Prog → Wire → Outcome
  | .done r f, w => ⟨[], some (r, f, w)⟩
  | .connect next, w => Prog.run throws next { w with inbound := [] }
  | .exchange send readable how next, w =>
    match Smtp.exchange throws readable how w with
    | none => ⟨[], none⟩
    | some (r, w) =>
      let o := Prog.run throws (next r) w
      if r.thrown then o else { o with log := (send, r.code) :: o.log }
  | .handshake _ next, w => Prog.run throws (next w.handshake.1) w.handshake.2

theorem run_exchange {throws readable : Bool} {how : Receive} {w v : Wire} {r : Received}
    (h : exchange throws readable how w = some (r, v)) (hr : r.thrown = false) (send : List UInt8)
    (next : Received → Prog) :
    (Prog.exchange send readable how next).run throws w =
      { (next r).run throws v with log := (send, r.code) :: ((next r).run throws v).log } := by
  simp only [Prog.run, h, hr, Bool.false_eq_true, if_false]

end Receive

def ifindFirst (str sub : List UInt8) : Bool := str.tails.any fun s => istartsWith s sub

/-- What a text of `receive_ehlo` enables. -/
def Flags.note (f : Flags) (text : List UInt8) : Flags :=
  if istartsWith text (octets "AUTH") then
    { f with
      enableAuthPlain := f.enableAuthPlain || ifindFirst text (octets "PLAIN")
      enableAuthLogin := f.enableAuthLogin || ifindFirst text (octets "LOGIN")
      enableAuthCramMd5 := f.enableAuthCramMd5 || ifindFirst text (octets "CRAM-MD5") }
  else f

def Flags.noteAll (f : Flags) (texts : List (List UInt8)) : Flags := texts.foldl Flags.note f

/-- `use_starttls`. -/
def Flags.useStarttls (f : Flags) (texts : List (List UInt8)) : Bool :=
  !f.enableTls && f.starttls && texts.any fun text => istartsWith text (octets "STARTTLS")

/-- `ip::host_name()`, and the hexadecimal text of the HMAC-MD5 of a challenge. -/
structure Config where
  hostName : List UInt8
  hmacMd5 : List UInt8 → List UInt8 → List UInt8

section Operations

variable (cfg : Config) (throws : Bool) (f : Flags)

def fail : Prog := .done (if throws then .thrown else .code 0) f

/-- A command, of which the code is returned. -/
def simple (send : List UInt8) : Prog :=
  if f.isOpen then .exchange send true .code fun r => .done r.result f else fail throws f

/-- With TLS on, a new connection is read through the old session. -/
def connect (connected : Bool) : Prog :=
  if connected then
    .connect (.exchange [] (!f.enableTls) .code fun r =>
      .done r.result { f with isOpen := !f.enableTls })
  else fail throws { f with isOpen := false }

def hello (verb hostname : List UInt8) : List UInt8 :=
  verb ++ (if hostname.isEmpty then cfg.hostName else hostname) ++ octets "\r\n"

def helo (hostname : List UInt8) : Prog := simple throws f (hello cfg (octets "HELO ") hostname)

def secondEhlo (sendbuf : List UInt8) : Prog :=
  .exchange sendbuf true .ehlo fun r => .done r.result (f.noteAll r.texts)

/-- `start_tls`, and what `ehlo` does after it. -/
def startTls (sendbuf : List UInt8) : Prog :=
  .exchange (octets "STARTTLS\r\n") true .code fun r =>
    if r.thrown ∨ r.code = 0 then .done r.result f
    else .handshake f fun ok =>
      if ok then
        let f := { f with enableTls := true }
        if r.code ≥ 400 then .done (.code r.code) f else secondEhlo f sendbuf
      else fail throws f

def ehlo (hostname : List UInt8) : Prog :=
  let sendbuf := hello cfg (octets "EHLO ") hostname
  if f.isOpen then
    .exchange sendbuf true .ehlo fun r =>
      if r.thrown ∨ f.useStarttls r.texts = false then .done r.result (f.noteAll r.texts)
      else startTls throws (f.noteAll r.texts) sendbuf
  else fail throws f

def base64 (s : List UInt8) : List UInt8 :=
  (Base64Encoder.make .none sizeMax 0).encode base64Traits s

def authPlain (user pass : List UInt8) : Prog :=
  simple throws f
    (octets "AUTH PLAIN " ++ base64 (user ++ 0 :: user ++ 0 :: pass) ++ octets "\r\n")

def loginPlain (user pass : List UInt8) (res : Nat) : Prog :=
  if f.plaintextPassword ∧ (f.enableAuthLogin ∨ f.enableAuthPlain) then authPlain throws f user pass
  else .done (.code res) f

/-- `login` after `auth_cram_md5`. -/
def afterCramMd5 (user pass : List UInt8) (r : Received) : Prog :=
  if r.thrown then .done .thrown f
  else if r.code = 0 ∨ r.error = false then .done (.code r.code) f
  else loginPlain throws f user pass r.code

def cramMd5Response (user pass : List UInt8) (buf : List UInt8) : List UInt8 :=
  base64 (user ++ chr ' ' :: cfg.hmacMd5 pass (Base64Decoder.decode base64Traits buf)) ++
    octets "\r\n"

def login (user pass : List UInt8) : Prog :=
  if f.enableAuthCramMd5 then
    if f.isOpen then
      .exchange (octets "AUTH CRAM-MD5\r\n") true .message fun r =>
        if r.thrown ∨ r.code = 0 ∨ r.code ≥ 400 then afterCramMd5 throws f user pass r
        else
          .exchange (cramMd5Response cfg user pass r.texts.flatten) true .code fun r =>
            afterCramMd5 throws f user pass r
    else fail throws f
  else loginPlain throws f user pass 0

def mail (address : List UInt8) : Prog :=
  simple throws f (octets "MAIL FROM: <" ++ address ++ octets ">\r\n")

def rcpt (address : List UInt8) : Prog :=
  simple throws f (octets "RCPT TO: <" ++ address ++ octets ">\r\n")

/-- `content` is what `is` holds, down to its last line. -/
def data (content : List UInt8) : Prog :=
  if f.isOpen then
    .exchange (octets "DATA\r\n") true .code fun r =>
      if r.thrown ∨ r.code ≠ 354 then .done r.result f
      else .exchange content true .code fun r => .done r.result f
  else fail throws f

def quit : Prog :=
  if f.isOpen then
    .exchange (octets "QUIT\r\n") true .code fun r =>
      .done r.result (if r.thrown ∨ r.code = 0 then f else { f with isOpen := false })
  else fail throws f

end Operations

inductive Op
  | connect (connected : Bool)
  | helo (hostname : List UInt8)
  | ehlo (hostname : List UInt8)
  | login (user pass : List UInt8)
  | mail (address : List UInt8)
  | rcpt (address : List UInt8)
  | data (content : List UInt8)
  | quit

def Op.prog (cfg : Config) (throws : Bool) (f : Flags) : Op → Prog
  | .connect connected => Smtp.connect throws f connected
  | .helo hostname => Smtp.helo cfg throws f hostname
  | .ehlo hostname => Smtp.ehlo cfg throws f hostname
  | .login user pass => Smtp.login cfg throws f user pass
  | .mail address => Smtp.mail throws f address
  | .rcpt address => Smtp.rcpt throws f address
  | .data content => Smtp.data throws f content
  | .quit => Smtp.quit throws f

/-- The operations in turn, each with its log and what it returned. An operation that waits is
the last one. -/
def session (cfg : Config) (throws : Bool) : List Op → Flags → Wire → List Outcome
  | [], _, _ => []
  | op :: ops, f, w =>
    let o := Prog.run throws (op.prog cfg throws f) w
    match o.ended with
    | none => [o]
    | some (_, f, w) => o :: session cfg throws ops f w

end Smtp

end Asio

end Acqua
