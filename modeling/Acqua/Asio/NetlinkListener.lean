import Acqua.Ctype
import Acqua.Library.BigEndian
import Acqua.Library.RecordLoop

/-! `netlink/netlink_listener.hpp` and the three classes that it dispatches to, on a host that is
little-endian. A pointer into the buffer is the list of what stands from it to the end of the
buffer, and a read outside of the buffer has no result. -/

namespace Acqua

namespace Asio

namespace Netlink

/-- The tags that `Derived::category` is derived from. -/
structure Category where
  link : Bool
  stats : Bool
  ifaddrV4 : Bool
  ifaddrV6 : Bool
  neighborV4 : Bool
  neighborV6 : Bool

/-- The calls of functions of the derived class. -/
inductive Call where
  | onLink (ifname addr : List UInt8) (type flags : Nat)
  | onStats (ifname : List UInt8) (txPackets txBytes rxPackets rxBytes type flags : Nat)
  | onIfaddr (addr label : List UInt8) (prefixlen flags : Nat)
  | onNeighbor (inAddr llAddr : List UInt8) (state : Nat)
  deriving DecidableEq

def nlmsgError : Nat := 2
def nlmsgDone : Nat := 3
def rtmNewlink : Nat := 16
def rtmNewaddr : Nat := 20
def rtmNewneigh : Nat := 28

def afUnspec : Nat := 0
def afInet : Nat := 2
def afInet6 : Nat := 10

def iflaAddress : Nat := 1
def iflaIfname : Nat := 3
def iflaStats : Nat := 7
def ifaAddress : Nat := 1
def ifaLabel : Nat := 3
def ndaDst : Nat := 1
def ndaLladdr : Nat := 2

/-- A field of this many octets. -/
def uint (width : Nat) (mem : List UInt8) : Option Nat :=
  if width ≤ mem.length then some (littleValue (mem.take width)) else none

/-- `from_voidptr` of an address class. -/
def fromVoidptr (size : Nat) (mem : List UInt8) : Option (List UInt8) :=
  if size ≤ mem.length then some (mem.take size) else none

/-- A `std::string` from a `char const *`. -/
def cstring (mem : List UInt8) : Option (List UInt8) :=
  if 0 ∈ mem then some (mem.takeWhile (· ≠ 0)) else none

/-- `RTM_PAYLOAD`, which takes off a `struct rtmsg` of 12 octets whatever the message begins
with. -/
def rtmPayload (nlmsgLen : Nat) : Nat := wrapSub nlmsgLen 28

section Attributes

variable {σ : Type}

/-- The loop with `RTA_OK` and `RTA_NEXT`, where `onAttribute` is what the `switch` does. -/
def attributes (onAttribute : Nat → List UInt8 → σ → Option σ) (rta : List UInt8) (len : Nat)
    (s : σ) : Option σ :=
  recordLoop 4 (uint 2)
    (fun rta s => (uint 2 (rta.drop 2)).bind fun type => (onAttribute type (rta.drop 4) s).map some)
    (rta.length + 1) rta len s

end Attributes

section Link

structure LinkFields where
  ifname : List UInt8
  addr : List UInt8
  stats : Option (List UInt8)

def linkAttribute (type : Nat) (data : List UInt8) (s : LinkFields) : Option LinkFields :=
  if type = iflaIfname then (cstring data).map fun ifname => { s with ifname := ifname }
  else if type = iflaAddress then (fromVoidptr 6 data).map fun addr => { s with addr := addr }
  else if type = iflaStats then some { s with stats := some data }
  else some s

/-- `dispatch_link_stats` with a pointer to a `struct rtnl_link_stats`. -/
def dispatchLinkStats (ifname stats : List UInt8) (type flags : Nat) : Option (List Call) := do
  let txPackets ← uint 4 (stats.drop 4)
  let txBytes ← uint 4 (stats.drop 12)
  let rxPackets ← uint 4 stats
  let rxBytes ← uint 4 (stats.drop 8)
  return [Call.onStats ifname txPackets txBytes rxPackets rxBytes type flags]

def linkCalls (c : Category) (type flags : Nat) (s : LinkFields) : Option (List Call) := do
  let changed := if c.link then [Call.onLink s.ifname s.addr type flags] else []
  let stats ←
    match c.stats, s.stats with
    | true, some stats => dispatchLinkStats s.ifname stats type flags
    | _, _ => some []
  return changed ++ stats

/-- `dispatch_link_unspec`. -/
def dispatchLinkUnspec (c : Category) (ifi : List UInt8) (len : Nat) : Option (List Call) := do
  let type ← uint 2 (ifi.drop 2)
  let flags ← uint 4 (ifi.drop 8)
  let s ← attributes linkAttribute (ifi.drop 16) len ⟨[], List.replicate 6 0, none⟩
  linkCalls c type flags s

def dispatchLink (c : Category) (nlmsg : List UInt8) (type : Nat) : Option (List Call) :=
  if (c.link || c.stats) ∧ type = rtmNewlink then do
    let len ← uint 4 nlmsg
    let family ← uint 1 (nlmsg.drop 16)
    if family = afUnspec then dispatchLinkUnspec c (nlmsg.drop 16) (rtmPayload len) else some []
  else some []

end Link

section Ifaddr

structure IfaddrFields where
  addr : List UInt8
  label : List UInt8

def ifaddrAttribute (size type : Nat) (data : List UInt8) (s : IfaddrFields) :
    Option IfaddrFields :=
  if type = ifaAddress then (fromVoidptr size data).map fun addr => { s with addr := addr }
  else if type = ifaLabel then (cstring data).map fun label => { s with label := label }
  else some s

/-- The two functions differ in the class of the address, of which `size` is the size. -/
def dispatchIfaddrAs (size : Nat) (ifa : List UInt8) (len : Nat) : Option (List Call) := do
  let prefixlen ← uint 1 (ifa.drop 1)
  let flags ← uint 1 (ifa.drop 2)
  let s ← attributes (ifaddrAttribute size) (ifa.drop 8) len ⟨List.replicate size 0, []⟩
  return [Call.onIfaddr s.addr s.label prefixlen flags]

def dispatchIfaddrV4 : List UInt8 → Nat → Option (List Call) := dispatchIfaddrAs 4

def dispatchIfaddrV6 : List UInt8 → Nat → Option (List Call) := dispatchIfaddrAs 16

def dispatchIfaddr (c : Category) (nlmsg : List UInt8) (type : Nat) : Option (List Call) :=
  if (c.ifaddrV4 || c.ifaddrV6) ∧ type = rtmNewaddr then do
    let len ← uint 4 nlmsg
    let family ← uint 1 (nlmsg.drop 16)
    if family = afInet ∧ c.ifaddrV4 then dispatchIfaddrV4 (nlmsg.drop 16) (rtmPayload len)
    else if family = afInet6 ∧ c.ifaddrV6 then dispatchIfaddrV6 (nlmsg.drop 16) (rtmPayload len)
    else some []
  else some []

end Ifaddr

section Neighbor

structure NeighborFields where
  inAddr : List UInt8
  llAddr : List UInt8

def neighborAttribute (size type : Nat) (data : List UInt8) (s : NeighborFields) :
    Option NeighborFields :=
  if type = ndaDst then (fromVoidptr size data).map fun addr => { s with inAddr := addr }
  else if type = ndaLladdr then (fromVoidptr 6 data).map fun addr => { s with llAddr := addr }
  else some s

def dispatchNeighborAs (size : Nat) (ndm : List UInt8) (len : Nat) : Option (List Call) := do
  let state ← uint 2 (ndm.drop 8)
  let s ← attributes (neighborAttribute size) (ndm.drop 12) len
    ⟨List.replicate size 0, List.replicate 6 0⟩
  return [Call.onNeighbor s.inAddr s.llAddr state]

def dispatchNeighborV4 : List UInt8 → Nat → Option (List Call) := dispatchNeighborAs 4

def dispatchNeighborV6 : List UInt8 → Nat → Option (List Call) := dispatchNeighborAs 16

def dispatchNeighbor (c : Category) (nlmsg : List UInt8) (type : Nat) : Option (List Call) :=
  if (c.neighborV4 || c.neighborV6) ∧ type = rtmNewneigh then do
    let len ← uint 4 nlmsg
    let family ← uint 1 (nlmsg.drop 16)
    if family = afInet ∧ c.neighborV4 then dispatchNeighborV4 (nlmsg.drop 16) (rtmPayload len)
    else if family = afInet6 ∧ c.neighborV6 then dispatchNeighborV6 (nlmsg.drop 16) (rtmPayload len)
    else some []
  else some []

end Neighbor

/-- The three calls in the body of the loop. -/
def dispatchMessage (c : Category) (nlmsg : List UInt8) (type : Nat) : Option (List Call) := do
  let link ← dispatchLink c nlmsg type
  let ifaddr ← dispatchIfaddr c nlmsg type
  let neighbor ← dispatchNeighbor c nlmsg type
  return link ++ (ifaddr ++ neighbor)

/-- The body of the loop of `dispatch`, after the calls so far. -/
def dispatchNext (c : Category) (nlmsg : List UInt8) (calls : List Call) :
    Option (Option (List Call)) := do
  let type ← uint 2 (nlmsg.drop 4)
  if type = nlmsgDone ∨ type = nlmsgError then some none
  else (dispatchMessage c nlmsg type).map fun more => some (calls ++ more)

/-- `dispatch` on a datagram of `size` octets at the start of the buffer. -/
def dispatch (c : Category) (buffer : List UInt8) (size : Nat) : Option (List Call) :=
  recordLoop 16 (uint 4) (dispatchNext c) (buffer.length + 1) buffer size []

end Netlink

end Asio

end Acqua
