import Acqua.Ctype
import Acqua.Network.Checksum

/-! The datagram that `send_ping` of `basic_pinger.hpp` builds, with `generate` of `pinger_v4.hpp`
or `pinger_v6.hpp`. A position is counted from the beginning of `sendbuf`, also behind its end. -/

namespace Acqua

inductive PingerBase
  | v4
  | v6
  deriving DecidableEq

structure Sendbuf where
  byte : Nat → UInt8
  writes : List Nat

namespace Sendbuf

/-- The `std::array` is of 1500 characters. -/
def size : Nat := 1500

def put (s : Sendbuf) (it : Nat) (ch : UInt8) : Sendbuf :=
  ⟨Function.update s.byte it ch, s.writes ++ [it]⟩

/-- A `std::uint16_t` in network byte order. -/
def put16 (s : Sendbuf) (it n : Nat) : Sendbuf :=
  (s.put it (UInt8.ofNat (n / 256 % 256))).put (it + 1) (UInt8.ofNat (n % 256))

def range (s : Sendbuf) (beg stop : Nat) : List UInt8 :=
  (List.range' beg (stop - beg)).map s.byte

/-- `compute_checksum(end)`, which writes the field twice. -/
def computeChecksum (s : Sendbuf) (beg stop : Nat) : Sendbuf :=
  let octets := icmpHeader.computeChecksum (s.range beg stop)
  let field := beg + icmpHeader.offset
  ⟨fun it => if beg ≤ it ∧ it < stop then octets.getD (it - beg) 0 else s.byte it,
    s.writes ++ [field, field + 1, field, field + 1]⟩

end Sendbuf

namespace PingerBase

def echoRequestMessage : PingerBase → UInt8
  | v4 => 8
  | v6 => 128

/-- `sizeof(icmp_echo)` and `sizeof(icmpv6_echo)`. -/
def headerSize : PingerBase → Nat
  | v4 => 8
  | v6 => 8

/-- The `end` that the header would narrow is a parameter passed by value. -/
def generate (base : PingerBase) (s : Sendbuf) (beg stop : Nat) : Option Sendbuf :=
  if stop - beg < base.headerSize then none
  else some ((s.put beg base.echoRequestMessage).put (beg + 1) 0)

end PingerBase

def pingData : List UInt8 :=
  octets "0123456789abcdefghijklmnopqrstuvwxyzABCDEFGHIJKLMNOPQRSTUVWXYZ"

/-- The loop that appends the payload, from the `i`-th of the characters on. -/
def appendPayload : Nat → Nat → Sendbuf → Nat → Sendbuf × Nat
  | 0, _, s, stop => (s, stop)
  | left + 1, i, s, stop =>
    appendPayload left (i + 1) (s.put stop (pingData.getD (i % pingData.length) 0)) (stop + 1)

/-- The buffer as it is when `send_to` is called, and what it is called with. -/
def sendPing (base : PingerBase) (id seq : BitVec 16) (sendbuf : Nat → UInt8) :
    Option (Sendbuf × List UInt8) :=
  let beg := 0
  let stop := Sendbuf.size
  (base.generate ⟨sendbuf, []⟩ beg stop).map fun echo =>
    let echo := echo.put16 (beg + 4) id.toNat
    let echo := echo.put16 (beg + 6) seq.toNat
    let r := appendPayload 16 0 echo stop
    let echo := r.1.computeChecksum beg r.2
    (echo, echo.range beg r.2)

/-- An echo header with some checksum and the first characters of the payload. -/
def echoRequest (base : PingerBase) (id seq : BitVec 16) (checksum : List UInt8) : List UInt8 :=
  [base.echoRequestMessage, 0] ++ checksum ++
    [UInt8.ofNat (id.toNat / 256 % 256), UInt8.ofNat (id.toNat % 256),
      UInt8.ofNat (seq.toNat / 256 % 256), UInt8.ofNat (seq.toNat % 256)] ++ pingData.take 16

/-- Nothing outside `sendbuf` is written, and a request is sent whose checksum is right. -/
structure SendsRequest (base : PingerBase) (id seq : BitVec 16) (s : Sendbuf)
    (datagram : List UInt8) : Prop where
  inside : ∀ it ∈ s.writes, it < Sendbuf.size
  request : ∃ checksum, checksum.length = 2 ∧ datagram = echoRequest base id seq checksum
  checksum : icmpHeader.checkChecksum datagram

theorem appendPayload_eq (left i : Nat) (s : Sendbuf) (stop : Nat) :
    (appendPayload left i s stop).1.writes = s.writes ++ List.range' stop left ∧
      (appendPayload left i s stop).2 = stop + left := by
  induction left generalizing i s stop with
  | zero => simp [appendPayload]
  | succ left ih =>
    obtain ⟨hwrites, hstop⟩ :=
      ih (i + 1) (s.put stop (pingData.getD (i % pingData.length) 0)) (stop + 1)
    rw [appendPayload, hwrites, hstop]
    simp only [Sendbuf.put, List.range'_succ, List.append_assoc, List.singleton_append, true_and]
    omega

theorem Sendbuf.length_range (s : Sendbuf) (beg stop : Nat) :
    (s.range beg stop).length = stop - beg := by
  rw [range, List.length_map, List.length_range']

theorem length_computeChecksum (octets : List UInt8) :
    (icmpHeader.computeChecksum octets).length = octets.length := by
  simp only [Checkable.computeChecksum, Checkable.checksum, length_store16]

/-- Octets that were written over a range are read back from it. -/
theorem map_range_overwritten {octets : List UInt8} {beg stop : Nat}
    (hlength : octets.length = stop - beg) (byte : Nat → UInt8) :
    ((List.range' beg (stop - beg)).map fun it =>
      if beg ≤ it ∧ it < stop then octets.getD (it - beg) 0 else byte it) = octets := by
  refine List.ext_getElem (by simp [hlength]) fun i hi hi' => ?_
  have hin : beg ≤ beg + 1 * i ∧ beg + 1 * i < stop := by omega
  rw [List.getElem_map, List.getElem_range', if_pos hin, List.getD_eq_getElem?_getD,
    show beg + 1 * i - beg = i by omega, List.getElem?_eq_getElem hi', Option.getD_some]

theorem Sendbuf.range_computeChecksum (s : Sendbuf) (beg stop : Nat) :
    (s.computeChecksum beg stop).range beg stop =
      icmpHeader.computeChecksum (s.range beg stop) :=
  map_range_overwritten ((length_computeChecksum _).trans (s.length_range beg stop)) s.byte

/-- The payload goes behind the buffer, and the whole of it is sent with the payload. The checksum
is of all that is sent. -/
theorem sendPing_spec (base : PingerBase) (id seq : BitVec 16) (sendbuf : Nat → UInt8) :
    ∃ s datagram, sendPing base id seq sendbuf = some (s, datagram) ∧
      (∀ it, Sendbuf.size ≤ it → it < Sendbuf.size + 16 → it ∈ s.writes) ∧
      datagram.length = Sendbuf.size + 16 ∧ icmpHeader.checkChecksum datagram := by
  have hgenerate : base.generate ⟨sendbuf, []⟩ 0 Sendbuf.size =
      some (((⟨sendbuf, []⟩ : Sendbuf).put 0 base.echoRequestMessage).put 1 0) := by
    cases base <;> rfl
  set echo := (((((⟨sendbuf, []⟩ : Sendbuf).put 0 base.echoRequestMessage).put 1 0).put16 (0 + 4)
    id.toNat).put16 (0 + 6) seq.toNat) with hecho
  obtain ⟨hwrites, hstop⟩ := appendPayload_eq 16 0 echo Sendbuf.size
  set r := appendPayload 16 0 echo Sendbuf.size with hr
  refine ⟨r.1.computeChecksum 0 r.2, (r.1.computeChecksum 0 r.2).range 0 r.2, ?_, ?_, ?_, ?_⟩
  · simp only [sendPing, hgenerate, Option.map_some, ← hecho, ← hr]
  · intro it hlow hhigh
    refine List.mem_append_left _ ?_
    rw [hwrites]
    exact List.mem_append_right _ (List.mem_range'_1.mpr ⟨hlow, hhigh⟩)
  · rw [Sendbuf.length_range, hstop, Nat.sub_zero]
  · rw [Sendbuf.range_computeChecksum]
    refine checkChecksum_computeChecksum (i := 1) rfl (fun _ => rfl) ?_
    have hall : (icmpHeader.covered (r.1.range 0 r.2)).length = r.2 - 0 := r.1.length_range 0 r.2
    rw [hall, hstop]
    decide

/-- A request is sent, and never as it should be. -/
theorem request_never_right (base : PingerBase) (id seq : BitVec 16) (sendbuf : Nat → UInt8) :
    ∃ s datagram, sendPing base id seq sendbuf = some (s, datagram) ∧
      ¬ SendsRequest base id seq s datagram := by
  obtain ⟨s, datagram, hsend, hwrites, -, -⟩ := sendPing_spec base id seq sendbuf
  refine ⟨s, datagram, hsend, fun hright => ?_⟩
  have hout := hwrites Sendbuf.size (Nat.le_refl _) (Nat.lt_add_of_pos_right (by decide))
  exact absurd (hright.inside _ hout) (Nat.lt_irrefl _)

/-- The first request of a pinger is sent with what the buffer held before. -/
theorem not_request_of_first :
    (∃ s datagram, sendPing .v4 1 0 (fun _ => 0xcc) = some (s, datagram) ∧
      Sendbuf.size ∈ s.writes ∧ datagram.length = 1516) ∧
    ¬ ∀ (base : PingerBase) (id seq : BitVec 16) (sendbuf : Nat → UInt8), ∃ s datagram,
      sendPing base id seq sendbuf = some (s, datagram) ∧ SendsRequest base id seq s datagram := by
  obtain ⟨s, datagram, hsend, hwrites, hlength, -⟩ := sendPing_spec .v4 1 0 (fun _ => 0xcc)
  have hout := hwrites Sendbuf.size (Nat.le_refl _) (Nat.lt_add_of_pos_right (by decide))
  refine ⟨⟨s, datagram, hsend, hout, hlength⟩, fun hall => ?_⟩
  obtain ⟨s', datagram', hsend', hright⟩ := hall .v4 1 0 (fun _ => 0xcc)
  obtain ⟨rfl, rfl⟩ := Prod.mk.inj (Option.some.inj (hsend.symm.trans hsend'))
  exact absurd (hright.inside _ hout) (Nat.lt_irrefl _)

end Acqua
