import Mathlib

/-! `client_socket.hpp` and `client_socket_base.hpp`: what decides when the request is handed to
the stream. A handler runs to its end before the next one starts. -/

namespace Acqua

namespace Webclient

/-- What asio has to complete. Everything that is read after the first character of a response
is one operation. -/
inductive Op
  | connect1
  | connect2
  | handshake
  | write
  | read1
  | read
  deriving DecidableEq

/-- `published` stands for a `result_` that is not null, and `endpoints` counts what is left of
the iterator of the resolver. The last three members are about the current connection, but for
`early`, which counts the writes to a stream whose handshake was not reported. -/
structure ClientSocket where
  secure : Bool
  isReady : Bool
  published : Bool
  retry : Int
  endpoints : Nat
  pending : List Op
  established : Bool
  writes : Nat
  early : Nat
  deriving DecidableEq

namespace ClientSocket

def asyncWrite (s : ClientSocket) : ClientSocket :=
  if s.published ∧ s.isReady then
    { s with
      isReady := false
      pending := .write :: s.pending
      writes := s.writes + 1
      early := if s.established then s.early else s.early + 1 }
  else s

def start (s : ClientSocket) : ClientSocket :=
  if s.published then s else { s with published := true }.asyncWrite

/-- `on_error`, and the end of a response. -/
def callback (s : ClientSocket) : ClientSocket := { s with published := false }

def close (s : ClientSocket) : ClientSocket := { s with established := false, writes := 0 }

def asyncHandshake (s : ClientSocket) : ClientSocket :=
  if s.secure then { s with pending := .handshake :: s.pending }
  else { s with established := true }.asyncWrite

/-- `reuse` tells whether the client has a connection to the endpoint that is kept alive. Such a
connection is reported to `on_connect1`. -/
def asyncConnect2 (reuse : Bool) (s : ClientSocket) : ClientSocket :=
  if s.endpoints = 0 then { s with isReady := true }.callback
  else { s with pending := (if reuse then .connect1 else .connect2) :: s.pending }

def asyncReconnect (s : ClientSocket) : ClientSocket :=
  { s with pending := .connect1 :: s.pending }

def onConnect1 (error : Bool) (s : ClientSocket) : ClientSocket :=
  if error then { s with isReady := true }.callback
  else { s with isReady := true }.asyncHandshake

def onConnect2 (error closeError reuse : Bool) (s : ClientSocket) : ClientSocket :=
  if error then
    let s := if closeError then s.close.callback else s.close
    { s with endpoints := s.endpoints - 1 }.asyncConnect2 reuse
  else { s with isReady := true }.asyncHandshake

def onHandshake (error : Bool) (s : ClientSocket) : ClientSocket :=
  if error then { s with isReady := true }.callback
  else { s with isReady := true, established := true }.asyncWrite

/-- What `on_write` and `on_read_1` do about an error. -/
def retryOrFail (s : ClientSocket) : ClientSocket :=
  if 0 < s.retry then { s with retry := s.retry - 1 }.close.asyncReconnect
  else { s with retry := s.retry - 1 }.callback

def onWrite (error : Bool) (s : ClientSocket) : ClientSocket :=
  if error then s.retryOrFail else { s with pending := .read1 :: s.pending }

def onRead1 (error : Bool) (s : ClientSocket) : ClientSocket :=
  if error then s.retryOrFail else { s with pending := .read :: s.pending }

inductive Event
  | start
  | complete (op : Op) (error closeError reuse : Bool)

def handle (error closeError reuse : Bool) (s : ClientSocket) : Op → ClientSocket
  | .connect1 => s.onConnect1 error
  | .connect2 => s.onConnect2 error closeError reuse
  | .handshake => s.onHandshake error
  | .write => s.onWrite error
  | .read1 => s.onRead1 error
  | .read => s.callback

/-- Only an operation that was started can complete. -/
def step (s : ClientSocket) : Event → Option ClientSocket
  | .start => some s.start
  | .complete op error closeError reuse =>
    if op ∈ s.pending then
      some ({ s with pending := s.pending.erase op }.handle error closeError reuse op)
    else none

/-- A socket that was made for the endpoints of a resolver. -/
def connecting (secure : Bool) (retry : Int) (endpoints : Nat) (reuse : Bool) : ClientSocket :=
  asyncConnect2 reuse ⟨secure, false, false, retry, endpoints, [], false, 0, 0⟩

/-- The steps that are taken with `P`. -/
def StepWhere (P : ClientSocket → Event → Prop) (s s' : ClientSocket) : Prop :=
  ∃ e, P s e ∧ step s e = some s'

abbrev ReachableWhere (P : ClientSocket → Event → Prop) := Relation.ReflTransGen (StepWhere P)

abbrev Reachable := ReachableWhere fun _ _ => True

end ClientSocket

end Webclient

end Acqua
