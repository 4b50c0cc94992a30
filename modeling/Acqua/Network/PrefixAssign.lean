import Acqua.Library.Bits
import Acqua.Network.Prefix

/-! What `assign` keeps of an address, and `netmask`. -/

namespace Acqua

/-- The first `masklen` bits of some octets, and zeros after them. -/
def keepBits : List UInt8 → Nat → List UInt8
  | [], _ => []
  | ch :: rest, masklen =>
    if 8 ≤ masklen then ch :: keepBits rest (masklen - 8)
    else (ch &&& maskOctet masklen) :: List.replicate rest.length 0

theorem testBit_maskOctet : ∀ masklen < 8, ∀ i < 8,
    (maskOctet masklen).toNat.testBit (7 - i) = decide (i < masklen) := by
  decide

theorem octetBits_mask (ch : UInt8) {masklen : Nat} (h : masklen < 8) :
    octetBits (ch &&& maskOctet masklen) =
      (octetBits ch).take masklen ++ List.replicate (8 - masklen) false := by
  refine List.ext_getElem (by simp; omega) fun i hi hi' => ?_
  have hlt : i < 8 := by rwa [length_octetBits] at hi
  have hmask := testBit_maskOctet masklen h i hlt
  rw [List.getElem_append]
  split_ifs with hkept
  · have hbit : i < masklen := by
      rw [List.length_take, length_octetBits] at hkept
      omega
    simp [octetBits, hmask, hbit]
  · have hbit : ¬ i < masklen := by
      rw [List.length_take, length_octetBits] at hkept
      omega
    simp [octetBits, hmask, hbit]

theorem bits_keepBits {bytes : List UInt8} {masklen : Nat} (h : masklen ≤ 8 * bytes.length) :
    bits (keepBits bytes masklen) =
      (bits bytes).take masklen ++ List.replicate (8 * bytes.length - masklen) false := by
  induction bytes generalizing masklen with
  | nil =>
    obtain rfl : masklen = 0 := by simpa using h
    rfl
  | cons ch rest ih =>
    rw [List.length_cons] at h
    have htake : (octetBits ch ++ bits rest).take masklen =
        (octetBits ch).take masklen ++ (bits rest).take (masklen - 8) := by
      rw [List.take_append, length_octetBits]
    rw [keepBits, bits_cons, htake, List.length_cons]
    split_ifs with hle
    · have hall : (octetBits ch).take masklen = octetBits ch :=
        List.take_of_length_le (by rwa [length_octetBits])
      have hrest : 8 * (rest.length + 1) - masklen = 8 * rest.length - (masklen - 8) := by omega
      rw [bits_cons, ih (by omega), hall, hrest, List.append_assoc]
    · have hnone : masklen - 8 = 0 := by omega
      have hrest : 8 * (rest.length + 1) - masklen = 8 - masklen + 8 * rest.length := by omega
      rw [bits_cons, octetBits_mask ch (by omega), bits_replicate_zero, hnone, List.take_zero,
        List.append_nil, List.append_assoc, List.replicate_append_replicate, hrest]

section Loops

variable {n : Nat}

theorem NetworkAddress.load_of_lt (a : NetworkAddress n) {it : Nat} (h : it < n) :
    ∃ ch, a.load it = some ch ∧ a.bytes.drop it = ch :: a.bytes.drop (it + 1) := by
  have hlt : it < a.bytes.length := by rwa [a.size]
  exact ⟨a.bytes[it], List.getElem?_eq_getElem hlt, List.drop_eq_getElem_cons hlt⟩

theorem NetworkAddress.load_of_ge (a : NetworkAddress n) {it : Nat} (h : n ≤ it) :
    a.load it = none :=
  List.getElem?_eq_none (by rw [a.size]; exact h)

theorem assignLoop_of_ge (address out : NetworkAddress n) {it masklen : Nat}
    (h : n ≤ it + masklen / 8) : assignLoop address out it masklen = none := by
  induction masklen using Nat.strong_induction_on generalizing out it with
  | _ masklen ih =>
    rw [assignLoop]
    rcases Nat.lt_or_ge it n with hlt | hge
    · have hle : 8 ≤ masklen := by omega
      obtain ⟨ch, hload, -⟩ := address.load_of_lt hlt
      rw [if_pos hle, hload, Option.bind_some, NetworkAddress.store, if_pos hlt, Option.bind_some]
      exact ih (masklen - 8) (by omega) _ (by omega)
    · rw [address.load_of_ge hge, Option.bind_none, Option.bind_none, ite_self]

theorem set_zeros {bytes : List UInt8} {it : Nat} (hlen : bytes.length = n) (hlt : it < n)
    (hzero : bytes.drop it = List.replicate (n - it) 0) (ch : UInt8) :
    bytes.set it ch = bytes.take it ++ ch :: List.replicate (n - (it + 1)) 0 := by
  have hrest : bytes.drop (it + 1) = List.replicate (n - (it + 1)) 0 := by
    rw [← List.drop_drop, hzero, List.drop_replicate, Nat.sub_sub]
  rw [List.set_eq_take_append_cons_drop, if_pos (by omega), hrest]

theorem assignLoop_spec (address out : NetworkAddress n) {it masklen : Nat}
    (h : it + masklen / 8 < n) (hzero : out.bytes.drop it = List.replicate (n - it) 0) :
    ∃ r, assignLoop address out it masklen = some r ∧
      r.bytes = out.bytes.take it ++ keepBits (address.bytes.drop it) masklen := by
  induction masklen using Nat.strong_induction_on generalizing out it with
  | _ masklen ih =>
    have hlt : it < n := by omega
    have hset := set_zeros out.size hlt hzero
    have hlen : (out.bytes.take it).length = it := by
      rw [List.length_take, out.size]
      omega
    obtain ⟨ch, hload, hdrop⟩ := address.load_of_lt hlt
    rw [assignLoop, hdrop, keepBits, hload]
    split_ifs with hle
    · rw [Option.bind_some, NetworkAddress.store, if_pos hlt, Option.bind_some]
      have hnext : (out.bytes.set it ch).drop (it + 1) = List.replicate (n - (it + 1)) 0 := by
        rw [hset, List.drop_append, hlen, List.drop_of_length_le (by omega), List.nil_append,
          Nat.add_sub_cancel_left, List.drop_one, List.tail_cons]
      obtain ⟨r, hr, hbytes⟩ := ih (masklen - 8) (by omega) ⟨_, _⟩
        (show it + 1 + _ < n by omega) hnext
      refine ⟨r, hr, hbytes.trans ?_⟩
      dsimp only
      rw [hset, List.take_append, hlen, List.take_of_length_le (by omega),
        Nat.add_sub_cancel_left, List.append_assoc]
      rfl
    · have hrest : (address.bytes.drop (it + 1)).length = n - (it + 1) := by
        rw [List.length_drop, address.size]
      refine ⟨_, by rw [Option.bind_some, NetworkAddress.store, if_pos hlt], ?_⟩
      dsimp only
      rw [hset, hrest]

def allOnes (n : Nat) : NetworkAddress n := ⟨List.replicate n 0xFF, List.length_replicate⟩

theorem load_allOnes {it : Nat} (h : it < n) : (allOnes n).load it = some 0xFF := by
  simp [allOnes, NetworkAddress.load, h]

theorem NetworkAddress.store_of_ge (a : NetworkAddress n) {it : Nat} (h : n ≤ it) (ch : UInt8) :
    a.store it ch = none := if_neg h.not_gt

theorem netmaskLoop_eq (masklen len : Nat) (out : NetworkAddress n) (it : Nat) :
    netmaskLoop masklen len out it = assignLoop (allOnes n) out it (8 * len + masklen % 8) := by
  induction len generalizing out it with
  | zero =>
    have hmask : 0xFF &&& maskOctet (masklen % 8) = maskOctet (masklen % 8) := UInt8.neg_one_and
    rw [netmaskLoop, assignLoop, if_neg (by omega), mul_zero, zero_add]
    rcases Nat.lt_or_ge it n with hlt | hge
    · rw [load_allOnes hlt, Option.bind_some, hmask]
    · rw [NetworkAddress.load_of_ge _ hge, out.store_of_ge hge, Option.bind_none]
  | succ len ih =>
    have hrest : 8 * (len + 1) + masklen % 8 - 8 = 8 * len + masklen % 8 := by omega
    rw [netmaskLoop, assignLoop, if_pos (by omega), hrest]
    rcases Nat.lt_or_ge it n with hlt | hge
    · rw [load_allOnes hlt, Option.bind_some, funext fun out => ih out (it + 1)]
    · rw [NetworkAddress.load_of_ge _ hge, out.store_of_ge hge, Option.bind_none, Option.bind_none]

end Loops

theorem Family.maxMasklen_eq (T : Family) : T.maxMasklen = 8 * T.size := by
  cases T <;> rfl

namespace PrefixAddress

variable {T : Family}

/-- The first bits of the address are kept, and the netmask has as many ones. -/
def Builds (address : NetworkAddress T.size) (masklen : Nat) : Prop :=
  ∃ p, assign address masklen = some p ∧ p.masklen = min masklen T.maxMasklen ∧
    bits p.address.bytes = (bits address.bytes).take p.masklen ++
      List.replicate (T.maxMasklen - p.masklen) false ∧
    ∃ mask, p.netmask = some mask ∧ bits mask.bytes = onesThenZeros p.masklen T.maxMasklen

theorem netmask_eq (p : PrefixAddress T) : p.netmask =
    assignLoop (allOnes T.size) NetworkAddress.any 0 p.masklen := by
  rw [netmask, netmaskLoop_eq, Nat.div_add_mod]

theorem assignLoop_any (address : NetworkAddress T.size) {masklen : Nat}
    (h : masklen < T.maxMasklen) :
    ∃ r, assignLoop address NetworkAddress.any 0 masklen = some r ∧
      bits r.bytes = (bits address.bytes).take masklen ++
        List.replicate (T.maxMasklen - masklen) false := by
  rw [T.maxMasklen_eq] at h ⊢
  have hlt : 0 + masklen / 8 < T.size := by omega
  obtain ⟨r, hr, hbytes⟩ := assignLoop_spec address NetworkAddress.any hlt rfl
  refine ⟨r, hr, ?_⟩
  rw [hbytes, List.take_zero, List.nil_append, List.drop_zero, bits_keepBits
    (by rw [address.size]; exact h.le), address.size]

theorem builds_iff (address : NetworkAddress T.size) (masklen : Nat) :
    Builds address masklen ↔ masklen < T.maxMasklen := by
  constructor
  · rintro ⟨p, hp, -⟩
    by_contra hge
    obtain ⟨r, hr, -⟩ := Option.map_eq_some_iff.mp hp
    have hmin : min masklen T.maxMasklen = 8 * T.size := by
      rw [min_eq_right (not_lt.mp hge), T.maxMasklen_eq]
    rw [hmin, assignLoop_of_ge _ _ (by omega)] at hr
    cases hr
  · intro h
    obtain ⟨r, hr, hbits⟩ := assignLoop_any address h
    have hmin : min masklen T.maxMasklen = masklen := min_eq_left h.le
    obtain ⟨mask, hmask, hones⟩ := assignLoop_any (T := T) (allOnes T.size) h
    refine ⟨⟨masklen, r, h.le⟩, ?_, hmin.symm, hbits, mask, ?_, ?_⟩
    · rw [assign]
      simp only [hmin, hr, Option.map_some]
    · rw [netmask_eq, hmask]
    · rw [hones, allOnes, bits_replicate_ones, ← T.maxMasklen_eq, List.take_replicate, min_eq_left h.le,
        onesThenZeros]

end PrefixAddress

/-- 192.168.100.2. -/
def someHost : NetworkAddress Family.internet4.size := ⟨[192, 168, 100, 2], rfl⟩

/-- The octet after the address is read and written. -/
theorem not_builds_full :
    PrefixAddress.assign (T := .internet4) someHost 32 = none ∧
      ¬ PrefixAddress.Builds (T := .internet4) someHost 32 := by
  have hnone : PrefixAddress.assign (T := .internet4) someHost 32 = none := by
    rw [PrefixAddress.assign, Option.map_eq_none_iff]
    exact assignLoop_of_ge _ _ (by decide)
  refine ⟨hnone, ?_⟩
  rintro ⟨p, hp, -⟩
  rw [hnone] at hp
  cases hp

end Acqua
