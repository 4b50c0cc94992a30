import Acqua.Network.Checksum

/-! `pseudo_checksum_method` of `checkable.hpp`, and the pseudo headers of `ipv4_header.ipp` and
`ipv6_header.ipp`. -/

namespace Acqua

abbrev Address (n : Nat) := { bytes : List UInt8 // bytes.length = n }

inductive IpHeader
  | ipv4 (source destinate : Address 4) (protocol : UInt8)
  | ipv6 (source destinate : Address 16) (protocol : UInt8)

/-- What `checksum` of an address adds: its words as they are in memory. -/
def addressSum : List UInt8 → Nat
  | a :: b :: bytes => load16 a b + addressSum bytes
  | _ => 0

def htonl (n : Nat) : Nat := ntohs (n % 2 ^ 16) * 2 ^ 16 + ntohs (n / 2 ^ 16 % 2 ^ 16)

namespace IpHeader

/-- `sum_` of a `pseudo_header`. -/
def pseudoHeader (hdr : IpHeader) (size : Nat) : Nat :=
  match hdr with
  | ipv4 source destinate protocol =>
    addressSum source + addressSum destinate + ntohs (size % 2 ^ 16) + protocol.toNat <<< 8
  | ipv6 source destinate protocol =>
    let len := htonl (size % 2 ^ 32)
    addressSum source + addressSum destinate + len % 2 ^ 16 + len / 2 ^ 16 +
      (protocol.toNat <<< 8) % 2 ^ 16

/-- `pseudo_header::checksum`, which assigns. -/
def checksum (hdr : IpHeader) (size _sum : Nat) : Nat := hdr.pseudoHeader size

/-- The pseudo header as it would stand on the wire. -/
def pseudoOctets (hdr : IpHeader) (size : Nat) : List UInt8 :=
  match hdr with
  | ipv4 source destinate protocol =>
    source ++ (destinate ++ [0, protocol, UInt8.ofNat (size / 256), UInt8.ofNat size])
  | ipv6 source destinate protocol =>
    source ++ (destinate ++ [UInt8.ofNat (size / 2 ^ 24), UInt8.ofNat (size / 2 ^ 16),
      UInt8.ofNat (size / 256), UInt8.ofNat size, 0, 0, 0, protocol])

end IpHeader

inductive Transport
  | tcp
  | udp

namespace Transport

def sizeof : Transport → Nat
  | tcp => 20
  | udp => 8

/-- The place of the checksum among the words of the header. -/
def checksumWord : Transport → Nat
  | tcp => 8
  | udp => 3

def checkable (T : Transport) : Checkable := ⟨2 * T.checksumWord, fun octets => octets⟩

/-- Octets that contain the header. -/
abbrev Segment (T : Transport) := { octets : List UInt8 // T.sizeof ≤ octets.length }

variable {T : Transport}

def zeroed (segment : Segment T) : List UInt8 := T.checkable.checksum segment 0

def computeChecksum (hdr : IpHeader) (segment : Segment T) : List UInt8 :=
  let octets := zeroed segment
  let sum := totalChecksum octets
  let sum := hdr.checksum octets.length sum
  T.checkable.checksum octets (2 ^ 64 - 1 - foldSum (foldSum sum))

/-- The checksum that is stored, as it stands on the wire. -/
def stored (hdr : IpHeader) (segment : Segment T) : Nat :=
  wordAt (computeChecksum hdr segment) T.checksumWord

/-- The complement of the one's complement sum of the pseudo header and the segment. -/
def rightChecksum (hdr : IpHeader) (segment : Segment T) : Nat :=
  2 ^ 16 - 1 - onesSum 16 (words (hdr.pseudoOctets segment.1.length ++ zeroed segment))

end Transport

theorem words_append {xs : List UInt8} (hxs : xs.length % 2 = 0) (ys : List UInt8) :
    words (xs ++ ys) = words xs ++ words ys := by
  induction xs using words.induct with
  | case1 => rfl
  | case2 a => simp at hxs
  | case3 a b xs ih =>
    have hparity : xs.length % 2 = 0 := by
      simp only [List.length_cons] at hxs
      omega
    rw [List.cons_append, List.cons_append, words, words, ih hparity, List.cons_append]

theorem addressSum_eq {bytes : List UInt8} (hbytes : bytes.length % 2 = 0) :
    addressSum bytes = ((words bytes).map ntohs).sum := by
  induction bytes using words.induct with
  | case1 => rfl
  | case2 a => simp at hbytes
  | case3 a b bytes ih =>
    have hparity : bytes.length % 2 = 0 := by
      simp only [List.length_cons] at hbytes
      omega
    rw [addressSum, words, List.map_cons, List.sum_cons, ih hparity,
      ntohs_word a.toNat_lt b.toNat_lt, load16, Nat.add_comm a.toNat]

theorem words_low (n : Nat) (octets : List UInt8) :
    words (UInt8.ofNat (n / 256) :: UInt8.ofNat n :: octets) = n % 2 ^ 16 :: words octets := by
  have hword : 256 * (UInt8.ofNat (n / 256)).toNat + (UInt8.ofNat n).toNat = n % 2 ^ 16 := by
    rw [UInt8.toNat_ofNat', UInt8.toNat_ofNat']
    omega
  rw [words, hword]

theorem words_octet (ch : UInt8) (octets : List UInt8) :
    words (0 :: ch :: octets) = ch.toNat :: words octets := by
  rw [words, UInt8.toNat_zero, Nat.mul_zero, Nat.zero_add]

theorem ntohs_octet (ch : UInt8) : ntohs ch.toNat = ch.toNat <<< 8 := by
  have hch := ntohs_word (a := 0) (by decide) ch.toNat_lt
  rw [Nat.mul_zero, Nat.zero_add, Nat.add_zero] at hch
  rw [hch, Nat.shiftLeft_eq]
  omega

theorem htonl_words (n : Nat) :
    htonl (n % 2 ^ 32) % 2 ^ 16 = ntohs (n / 2 ^ 16 % 2 ^ 16) ∧
      htonl (n % 2 ^ 32) / 2 ^ 16 = ntohs (n % 2 ^ 16) := by
  have hhigh : n % 2 ^ 32 / 2 ^ 16 % 2 ^ 16 = n / 2 ^ 16 % 2 ^ 16 := by omega
  have hlow : n % 2 ^ 32 % 2 ^ 16 = n % 2 ^ 16 := by omega
  have hlt := ntohs_lt (n / 2 ^ 16 % 2 ^ 16)
  rw [htonl, hhigh, hlow]
  exact ⟨by omega, by omega⟩

/-- The source adds up the words of the pseudo header as they would be in memory. -/
theorem pseudoHeader_eq (hdr : IpHeader) (size : Nat) :
    hdr.pseudoHeader size = ((words (hdr.pseudoOctets size)).map ntohs).sum := by
  cases hdr with
  | ipv4 source destinate protocol =>
    rw [IpHeader.pseudoHeader, IpHeader.pseudoOctets, words_append (by rw [source.2]),
      words_append (by rw [destinate.2]), words_octet, words_low,
      addressSum_eq (by rw [source.2]), addressSum_eq (by rw [destinate.2])]
    simp only [words, List.map_append, List.map_cons, List.map_nil, List.sum_append, List.sum_cons,
      List.sum_nil, ntohs_octet]
    omega
  | ipv6 source destinate protocol =>
    have hdiv : size / 2 ^ 24 = size / 2 ^ 16 / 256 := by omega
    have hprotocol : protocol.toNat <<< 8 % 2 ^ 16 = protocol.toNat <<< 8 := by
      rw [Nat.shiftLeft_eq]
      have hlt := protocol.toNat_lt
      omega
    have hzero : ntohs (0 : UInt8).toNat = 0 := rfl
    obtain ⟨hhigh, hlow⟩ := htonl_words size
    rw [IpHeader.pseudoHeader, IpHeader.pseudoOctets, words_append (by rw [source.2]),
      words_append (by rw [destinate.2]), hdiv, words_low, words_low, words_octet, words_octet,
      addressSum_eq (by rw [source.2]), addressSum_eq (by rw [destinate.2])]
    rw [hhigh, hlow, hprotocol]
    simp only [words, List.map_append, List.map_cons, List.map_nil, List.sum_append, List.sum_cons,
      List.sum_nil, ntohs_octet, hzero]
    omega

theorem ntohs_modEq {n : Nat} (hn : n < 2 ^ 16) : ntohs n ≡ 256 * n [MOD 2 ^ 16 - 1] := by
  obtain ⟨a, ha, b, hb, rfl⟩ := exists_word hn
  rw [ntohs_word ha hb]
  have hsplit : 256 * (256 * a + b) = 256 * b + a + (2 ^ 16 - 1) * a := by omega
  rw [hsplit]
  exact (Nat.ModEq.symm (by simp [Nat.ModEq]))

theorem ntohs_eq_zero {n : Nat} (hn : n < 2 ^ 16) : ntohs n = 0 ↔ n = 0 := by
  obtain ⟨a, ha, b, hb, rfl⟩ := exists_word hn
  rw [ntohs_word ha hb]
  omega

theorem sum_map_ntohs {ws : List Nat} (hws : ∀ x ∈ ws, x < 2 ^ 16) :
    (ws.map ntohs).sum ≡ 256 * ws.sum [MOD 2 ^ 16 - 1] ∧
      ((ws.map ntohs).sum = 0 ↔ ws.sum = 0) := by
  induction ws with
  | nil => exact ⟨rfl, Iff.rfl⟩
  | cons x ws ih =>
    obtain ⟨hmod, hzero⟩ := ih fun y hy => hws y (List.mem_cons_of_mem _ hy)
    have hx := hws x (by simp)
    rw [List.map_cons, List.sum_cons, List.sum_cons, Nat.mul_add, Nat.add_eq_zero_iff,
      Nat.add_eq_zero_iff, ntohs_eq_zero hx, hzero]
    exact ⟨(ntohs_modEq hx).add hmod, Iff.rfl⟩

theorem length_words_le (octets : List UInt8) : (words octets).length ≤ octets.length := by
  induction octets using words.induct with
  | case1 => exact le_rfl
  | case2 a => exact le_rfl
  | case3 a b octets ih =>
    rw [words, List.length_cons, List.length_cons, List.length_cons]
    omega

theorem sum_map_ntohs_le (ws : List Nat) : (ws.map ntohs).sum ≤ ws.length * (2 ^ 16 - 1) := by
  induction ws with
  | nil => exact le_rfl
  | cons x ws ih =>
    have hx := ntohs_lt x
    rw [List.map_cons, List.sum_cons, List.length_cons, Nat.succ_mul]
    omega

/-- Two folds are enough, and a sum of words in memory is the sum of the wire in memory. -/
theorem ntohs_foldSum_foldSum {ws : List Nat} (hws : ∀ x ∈ ws, x < 2 ^ 16)
    (hlength : ws.length < 2 ^ 16) :
    foldSum (foldSum (ws.map ntohs).sum) < 2 ^ 16 ∧
      ntohs (foldSum (foldSum (ws.map ntohs).sum)) = onesSum 16 ws := by
  obtain ⟨hmod, hzero⟩ := sum_map_ntohs hws
  set n := (ws.map ntohs).sum with hn
  have hle : n ≤ ws.length * (2 ^ 16 - 1) := sum_map_ntohs_le ws
  have hcarry : n / 2 ^ 16 ≤ 2 ^ 16 - 1 := by omega
  have hfirst := endAround_le (w := 16) n
  have hlt : endAround 16 (endAround 16 n) < 2 ^ 16 := endAround_lt (by omega)
  rw [foldSum_eq, foldSum_eq]
  refine ⟨hlt, ((onesSum_eq_iff hws (ntohs_lt _)).mpr ⟨?_, ?_⟩).symm⟩
  · have hswap : 256 * (256 * ws.sum) ≡ ws.sum [MOD 2 ^ 16 - 1] := by
      have hsplit : 256 * (256 * ws.sum) = ws.sum + (2 ^ 16 - 1) * ws.sum := by omega
      rw [hsplit]
      simp [Nat.ModEq]
    have hfold : endAround 16 (endAround 16 n) ≡ n [MOD 2 ^ 16 - 1] :=
      (endAround_modEq _).trans (endAround_modEq _)
    calc ws.sum ≡ 256 * (256 * ws.sum) [MOD 2 ^ 16 - 1] := hswap.symm
      _ ≡ 256 * n [MOD 2 ^ 16 - 1] := (hmod.mul_left 256).symm
      _ ≡ 256 * endAround 16 (endAround 16 n) [MOD 2 ^ 16 - 1] := (hfold.mul_left 256).symm
      _ ≡ ntohs (endAround 16 (endAround 16 n)) [MOD 2 ^ 16 - 1] := (ntohs_modEq hlt).symm
  · rw [ntohs_eq_zero hlt, endAround_eq_zero, endAround_eq_zero, hzero]

theorem length_pseudoOctets (hdr : IpHeader) (size : Nat) :
    (hdr.pseudoOctets size).length % 2 = 0 ∧ (hdr.pseudoOctets size).length < 2 ^ 16 := by
  cases hdr with
  | ipv4 source destinate protocol =>
    simp [IpHeader.pseudoOctets, source.2, destinate.2]
  | ipv6 source destinate protocol =>
    simp [IpHeader.pseudoOctets, source.2, destinate.2]

namespace Transport

variable {T : Transport}

theorem checksumWord_lt (segment : Segment T) : 2 * T.checksumWord + 1 < segment.1.length := by
  refine Nat.lt_of_lt_of_le ?_ segment.2
  cases T <;> decide

theorem length_zeroed (segment : Segment T) : (zeroed segment).length = segment.1.length :=
  length_store16 _ _ _

theorem stored_eq (hdr : IpHeader) (segment : Segment T) :
    stored hdr segment =
      2 ^ 16 - 1 - onesSum 16 (words (hdr.pseudoOctets segment.1.length)) := by
  obtain ⟨-, hlength⟩ := length_pseudoOctets hdr segment.1.length
  obtain ⟨hlt, hones⟩ := ntohs_foldSum_foldSum (words_lt (hdr.pseudoOctets segment.1.length))
    ((length_words_le _).trans_lt hlength)
  rw [← pseudoHeader_eq] at hlt hones
  set s := foldSum (foldSum (hdr.pseudoHeader segment.1.length)) with hs
  have hcompute : computeChecksum hdr segment =
      store16 segment (2 * T.checksumWord) ((2 ^ 64 - 1 - s) % 2 ^ 16) := by
    rw [hs, ← length_zeroed segment]
    exact store16_store16 _ _ _ _
  have hstored : (2 ^ 64 - 1 - s) % 2 ^ 16 = 2 ^ 16 - 1 - s := by omega
  rw [stored, hcompute, wordAt_store16 (checksumWord_lt segment), if_pos rfl, hstored,
    ntohs_sub hlt, hones]

/-- The right checksum is stored exactly when the segment adds nothing to the sum; segments of one
length are given the same. -/
theorem stored_eq_rightChecksum_iff (hdr : IpHeader) (segment : Segment T) :
    (stored hdr segment = rightChecksum hdr segment ↔
      (words (zeroed segment)).sum ≡ 0 [MOD 2 ^ 16 - 1] ∧
        ((words (hdr.pseudoOctets segment.1.length)).sum = 0 → (words (zeroed segment)).sum = 0)) ∧
    ∀ segment' : Segment T, segment'.1.length = segment.1.length →
      stored hdr segment' = stored hdr segment := by
  constructor
  · obtain ⟨heven, -⟩ := length_pseudoOctets hdr segment.1.length
    set pseudo := hdr.pseudoOctets segment.1.length with hpseudo
    have hlt := onesSum_lt (words_lt pseudo)
    have hlt' := onesSum_lt (words_lt (pseudo ++ zeroed segment))
    have hmod := onesSum_modEq (words_lt pseudo)
    have hcomplement : stored hdr segment = rightChecksum hdr segment ↔
        onesSum 16 (words (pseudo ++ zeroed segment)) = onesSum 16 (words pseudo) := by
      rw [stored_eq, rightChecksum, ← hpseudo]
      omega
    rw [hcomplement, onesSum_eq_iff (words_lt _) hlt, words_append heven, List.sum_append,
      onesSum_eq_zero (words_lt pseudo)]
    refine and_congr ⟨fun h => ?_, fun h => ?_⟩ (by omega)
    · exact Nat.ModEq.add_left_cancel' _ (h.trans hmod)
    · exact (h.add_left _).trans hmod.symm
  · intro segment' hlength
    rw [stored_eq, stored_eq, hlength]

/-- A datagram with nothing but a source port. -/
theorem not_rightChecksum_of_port :
    ¬ ∀ (T : Transport) (hdr : IpHeader) (segment : Segment T),
      stored hdr segment = rightChecksum hdr segment := by
  intro h
  have hport := h udp (.ipv4 ⟨[0, 0, 0, 0], rfl⟩ ⟨[0, 0, 0, 0], rfl⟩ 17)
    ⟨[0, 1, 0, 0, 0, 0, 0, 0], by decide⟩
  exact absurd hport (by decide)

end Transport

end Acqua
