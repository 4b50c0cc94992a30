import Mathlib

/-! Packet headers laid over a captured buffer: `header_base`, `ipv4_header`,
`ipv6_header` and the classes without code of their own. A header is a class and the
offset at which the cast puts it, so reading a field reads the buffer. Field offsets and
sizes are those of the C structures on Linux. -/

namespace Acqua

/-- Memory addressed from the start of a captured packet. Only the first `size` octets
belong to the capture, the others are whatever lies behind it. -/
structure Buffer where
  size : Nat
  byte : Nat → UInt8

inductive Hdr
  | ethernetHeader
  | ethernetArp
  | ipv4Header
  | ipv6Header
  | icmpEcho
  | icmpv6Echo
  | icmpv6Neighbor
  | tcpHeader
  | udpHeader
  deriving DecidableEq, Repr

def Hdr.sizeof : Hdr → Nat
  | .ethernetHeader => 14
  | .ethernetArp => 28
  | .ipv4Header => 20
  | .ipv6Header => 40
  | .icmpEcho => 8
  | .icmpv6Echo => 8
  | .icmpv6Neighbor => 8
  | .tcpHeader => 20
  | .udpHeader => 8

def Buffer.ntohs (mem : Buffer) (o : Nat) : Nat :=
  (mem.byte o).toNat * 256 + (mem.byte (o + 1)).toNat

def ipHl (mem : Buffer) (o : Nat) : Nat := (mem.byte o).toNat % 16

def ipLen (mem : Buffer) (o : Nat) : Nat := mem.ntohs (o + 2)

def ip6Plen (mem : Buffer) (o : Nat) : Nat := mem.ntohs (o + 4)

def Hdr.headerSize (h : Hdr) (mem : Buffer) (o : Nat) : Nat :=
  match h with
  | .ipv4Header => ipHl mem o * 4
  | .icmpv6Neighbor => Hdr.sizeof .icmpv6Neighbor + 16
  | h => h.sizeof

def ipv4ShrinkIntoEnd (mem : Buffer) (o : Nat) (it : Int) : Int :=
  let size := it - o
  let len := size - ipLen mem o
  if 0 < len ∧ len < size then it - len else it

def ipv6ShrinkIntoEnd (mem : Buffer) (o : Nat) (it : Int) : Int :=
  let size := it - o
  let len := size - ((ip6Plen mem o + Hdr.sizeof .ipv6Header : Nat) : Int)
  if len < size then it - len else it

def Hdr.shrinkIntoEnd (h : Hdr) (mem : Buffer) (o : Nat) (it : Int) : Int :=
  match h with
  | .ipv4Header => ipv4ShrinkIntoEnd mem o it
  | .ipv6Header => ipv6ShrinkIntoEnd mem o it
  | _ => it

def Hdr.announced (h : Hdr) (mem : Buffer) (o : Nat) : Option Nat :=
  match h with
  | .ipv4Header => some (ipLen mem o)
  | .ipv6Header => some (ip6Plen mem o + Hdr.sizeof .ipv6Header)
  | _ => none

theorem ipv4ShrinkIntoEnd_eq (mem : Buffer) (o : Nat) (it : Int) :
    ipv4ShrinkIntoEnd mem o it =
      if 0 < ipLen mem o ∧ (o : Int) + ipLen mem o < it then (o : Int) + ipLen mem o else it := by
  unfold ipv4ShrinkIntoEnd
  dsimp only
  split <;> split <;> omega

/-- The IPv6 guard lets every length through, so `end` lands on the announced length
even where the capture is shorter. -/
theorem ipv6ShrinkIntoEnd_eq (mem : Buffer) (o : Nat) (it : Int) :
    ipv6ShrinkIntoEnd mem o it = (o : Int) + (ip6Plen mem o + 40 : Nat) := by
  unfold ipv6ShrinkIntoEnd
  dsimp only [Hdr.sizeof]
  split <;> omega

/-- `end` neither moves forward nor passes the start of the header, and stays where it is
when the length field exceeds the captured octets. -/
def Shrinks (h : Hdr) (mem : Buffer) (o : Nat) (it : Int) : Prop :=
  h.shrinkIntoEnd mem o it ≤ it ∧ (o : Int) ≤ h.shrinkIntoEnd mem o it ∧
    ∀ n, h.announced mem o = some n → it < (o : Int) + n → h.shrinkIntoEnd mem o it = it

theorem shrinks_ipv4 {mem : Buffer} {o : Nat} {it : Int} (ho : (o : Int) ≤ it) :
    Shrinks .ipv4Header mem o it := by
  have he : Hdr.shrinkIntoEnd .ipv4Header mem o it = _ := ipv4ShrinkIntoEnd_eq mem o it
  refine ⟨?_, ?_, ?_⟩
  · rw [he]; split <;> omega
  · rw [he]; split <;> omega
  · intro n hn hlt
    simp only [Hdr.announced, Option.some.injEq] at hn
    subst hn
    rw [he, if_neg (by omega)]

theorem shrinks_ipv6_iff {mem : Buffer} {o : Nat} {it : Int} :
    Shrinks .ipv6Header mem o it ↔ (o : Int) + (ip6Plen mem o + 40 : Nat) ≤ it := by
  have he : Hdr.shrinkIntoEnd .ipv6Header mem o it = _ := ipv6ShrinkIntoEnd_eq mem o it
  constructor
  · rintro ⟨hle, -, -⟩
    rwa [he] at hle
  · intro hle
    refine ⟨he ▸ hle, he ▸ by omega, ?_⟩
    intro n hn hlt
    simp only [Hdr.announced, Hdr.sizeof, Option.some.injEq] at hn
    omega

/-- IPv4 always shrinks; IPv6 does exactly when the announced payload was captured. -/
theorem shrinkIntoEnd_shrinks_iff {h : Hdr} {mem : Buffer} {o : Nat} {it : Int}
    (hip : h = .ipv4Header ∨ h = .ipv6Header) (ho : (o : Int) ≤ it) :
    Shrinks h mem o it ↔
      (h = .ipv6Header → ((ip6Plen mem o + 40 : Nat) : Int) ≤ it - o) := by
  rcases hip with rfl | rfl
  · exact iff_of_true (shrinks_ipv4 ho) (by simp)
  · rw [shrinks_ipv6_iff]
    simp only [forall_const]
    omega

theorem shrinkIntoEnd_shrinks_iff_at_empty_payload :
    Shrinks .ipv6Header ⟨64, fun _ => 0⟩ 8 60 ↔
      (Hdr.ipv6Header = .ipv6Header → ((ip6Plen ⟨64, fun _ => 0⟩ 8 + 40 : Nat) : Int) ≤ 60 - (8 : Nat)) :=
  shrinkIntoEnd_shrinks_iff (.inr rfl) (by decide)

/-- An IPv6 header announcing 256 octets of payload in a capture of 41 octets. -/
theorem ipv6_shrinkIntoEnd_grows :
    ¬ Shrinks .ipv6Header ⟨41, fun i => if i = 4 then 1 else 0⟩ 0 41 := by
  rw [shrinks_ipv6_iff]
  decide

end Acqua
