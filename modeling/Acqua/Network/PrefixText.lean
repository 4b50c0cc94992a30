import Acqua.Network.Internet4Address

/-! The text of a prefix. -/

namespace Acqua

section Text

-- `inet_ntop` of `AF_INET6`.
variable (inetNtop : List UInt8 → List UInt8)

/-- `to_string` of `address_impl`. -/
def Family.addressText : (T : Family) → NetworkAddress T.size → List UInt8
  | internet4, a => Internet4Address.toString a
  | internet6, a => inetNtop a.bytes

namespace PrefixAddress

/-- `'0' + masklen_ / place % 10`. -/
def digit (masklen place : Nat) : UInt8 := chr '0' + UInt8.ofNat (masklen / place % 10)

/-- Where a digit is `'0'`, the next one is written over it. -/
def masklenText (masklen : Nat) : List UInt8 :=
  (if digit masklen 100 ≠ chr '0' then [digit masklen 100] else []) ++
    (if digit masklen 10 ≠ chr '0' then [digit masklen 10] else []) ++ [digit masklen 1]

/-- `to_string`. -/
def toString {T : Family} (p : PrefixAddress T) : List UInt8 :=
  T.addressText inetNtop p.address ++ chr '/' :: masklenText p.masklen

/-- `p` and `q` are printed apart, with their mask lengths behind the last slash. -/
structure PrintedApart {T : Family} (p q : PrefixAddress T) : Prop where
  ne : p.toString inetNtop ≠ q.toString inetNtop
  left : (p.toString inetNtop).rtakeWhile (· ≠ chr '/') = octets (Nat.repr p.masklen)
  right : (q.toString inetNtop).rtakeWhile (· ≠ chr '/') = octets (Nat.repr q.masklen)

end PrefixAddress

end Text

theorem Family.maxMasklen_le (T : Family) : T.maxMasklen ≤ 128 := by cases T <;> decide

namespace PrefixAddress

/-- The number that is printed for a mask length: the tens of 100 to 109 are lost. -/
def printed (masklen : Nat) : Nat :=
  if masklen ∈ Finset.Ico 100 110 then masklen - 90 else masklen

theorem printed_eq_iff (masklen : Nat) :
    printed masklen = masklen ↔ masklen ∉ Finset.Ico 100 110 := by
  rw [printed]
  split_ifs with h
  · have := Finset.mem_Ico.mp h
    simp only [h, not_true, iff_false]
    omega
  · simp only [h, not_false_iff]

theorem masklenText_eq {masklen : Nat} (h : masklen ≤ 128) :
    masklenText masklen = octets (Nat.repr (printed masklen)) := by
  have hall : ∀ m < 129, masklenText m = (Nat.toDigits 10 (printed m)).map chr := by decide
  rw [octets_repr]
  exact hall masklen (Nat.lt_succ_of_le h)

variable {T : Family} {inetNtop : List UInt8 → List UInt8}

theorem toString_eq (p : PrefixAddress T) : p.toString inetNtop =
    T.addressText inetNtop p.address ++ chr '/' :: octets (Nat.repr (printed p.masklen)) := by
  rw [toString, masklenText_eq (p.masklen_le.trans T.maxMasklen_le)]

theorem slash_not_mem_repr (n : Nat) : chr '/' ∉ octets (Nat.repr n) := fun h =>
  absurd (isdigit_repr n _ h) (by decide)

theorem rtakeWhile_toString (p : PrefixAddress T) :
    (p.toString inetNtop).rtakeWhile (· ≠ chr '/') = octets (Nat.repr (printed p.masklen)) := by
  have hdigits : ∀ ch ∈ (octets (Nat.repr (printed p.masklen))).reverse,
      decide (ch ≠ chr '/') = true := by
    intro ch hch
    rw [decide_eq_true_iff]
    rintro rfl
    exact slash_not_mem_repr _ (List.mem_reverse.mp hch)
  rw [toString_eq, List.rtakeWhile, List.reverse_append, List.reverse_cons, List.append_assoc,
    List.takeWhile_append_of_pos hdigits, List.singleton_append,
    List.takeWhile_cons_of_neg (by simp), List.append_nil, List.reverse_reverse]

/-- Where a mask length is printed as it is, it stands behind the last slash, and nowhere else. -/
theorem rtakeWhile_toString_iff (p : PrefixAddress T) :
    (p.toString inetNtop).rtakeWhile (· ≠ chr '/') = octets (Nat.repr p.masklen) ↔
      p.masklen ∉ Finset.Ico 100 110 := by
  rw [rtakeWhile_toString, ← printed_eq_iff]
  exact ⟨octets_repr_inj, congrArg fun n => octets (Nat.repr n)⟩

theorem addressText_injective (hntop : Set.InjOn inetNtop {bytes | bytes.length = 16}) :
    Function.Injective (T.addressText inetNtop) := by
  intro a b h
  cases T with
  | internet4 => exact Internet4Address.toString_injective h
  | internet6 => exact NetworkAddress.ext (hntop a.size b.size h)

theorem toString_inj (hntop : Set.InjOn inetNtop {bytes | bytes.length = 16})
    {p q : PrefixAddress T} (h : p.toString inetNtop = q.toString inetNtop) :
    p.address = q.address ∧ printed p.masklen = printed q.masklen := by
  have hmask : printed p.masklen = printed q.masklen := by
    apply octets_repr_inj
    calc octets (Nat.repr (printed p.masklen))
        = (p.toString inetNtop).rtakeWhile (· ≠ chr '/') := (rtakeWhile_toString p).symm
      _ = (q.toString inetNtop).rtakeWhile (· ≠ chr '/') := by rw [h]
      _ = octets (Nat.repr (printed q.masklen)) := rtakeWhile_toString q
  rw [toString_eq, toString_eq, hmask] at h
  exact ⟨addressText_injective hntop (List.append_cancel_right h), hmask⟩

/-- Prefixes are printed apart as soon as neither mask length is one of 100 to 109. -/
theorem printedApart_iff (hntop : Set.InjOn inetNtop {bytes | bytes.length = 16})
    {p q : PrefixAddress T} (hne : p ≠ q) : PrintedApart inetNtop p q ↔
      p.masklen ∉ Finset.Ico 100 110 ∧ q.masklen ∉ Finset.Ico 100 110 := by
  constructor
  · intro h
    exact ⟨(rtakeWhile_toString_iff p).mp h.left, (rtakeWhile_toString_iff q).mp h.right⟩
  · rintro ⟨hp, hq⟩
    refine ⟨fun htext => hne ?_, (rtakeWhile_toString_iff p).mpr hp,
      (rtakeWhile_toString_iff q).mpr hq⟩
    obtain ⟨haddress, hmask⟩ := toString_inj hntop htext
    rw [(printed_eq_iff _).mpr hp, (printed_eq_iff _).mpr hq] at hmask
    exact PrefixAddress.ext hmask haddress

end PrefixAddress

section Witness

/-- The two hexadecimal digits of an octet. -/
def hexOctet (ch : UInt8) : List UInt8 :=
  [ch >>> 4, ch &&& 0xF].map fun n => if n < 10 then n + chr '0' else n + chr 'a' - 10

/-- `inet_ntop` of an address whose groups all have four digits. -/
def fourDigits : List UInt8 → List UInt8
  | high :: low :: rest =>
    hexOctet high ++ hexOctet low ++ (if rest = [] then [] else chr ':' :: fourDigits rest)
  | _ => []

def unhexOctet (digits : List UInt8) : UInt8 :=
  digits.foldl (fun n ch => 16 * n + if ch < chr 'a' then ch - chr '0' else ch + 10 - chr 'a') 0

theorem unhexOctet_hexOctet (ch : UInt8) : unhexOctet (hexOctet ch) = ch :=
  octet_forall (P := fun ch => unhexOctet (hexOctet ch) = ch) (by decide +kernel) ch

theorem hexOctet_injective : Function.Injective hexOctet :=
  Function.LeftInverse.injective unhexOctet_hexOctet

theorem fourDigits_inj {k : Nat} {a b : List UInt8} (ha : a.length = 2 * k) (hb : b.length = 2 * k)
    (h : fourDigits a = fourDigits b) : a = b := by
  induction k generalizing a b with
  | zero => rw [List.length_eq_zero_iff.mp ha, List.length_eq_zero_iff.mp hb]
  | succ k ih =>
    obtain ⟨high, a, rfl⟩ := List.exists_cons_of_length_eq_add_one ha
    obtain ⟨low, a, rfl⟩ := List.exists_cons_of_length_eq_add_one (Nat.succ_injective ha)
    obtain ⟨high', b, rfl⟩ := List.exists_cons_of_length_eq_add_one hb
    obtain ⟨low', b, rfl⟩ := List.exists_cons_of_length_eq_add_one (Nat.succ_injective hb)
    have hlength : a.length = 2 * k := Nat.succ_injective (Nat.succ_injective ha)
    have hlength' : b.length = 2 * k := Nat.succ_injective (Nat.succ_injective hb)
    rw [fourDigits, fourDigits, List.append_assoc, List.append_assoc] at h
    obtain ⟨hhigh, h⟩ := List.append_inj h rfl
    obtain ⟨hlow, h⟩ := List.append_inj h rfl
    rw [hexOctet_injective hhigh, hexOctet_injective hlow]
    suffices hrest : a = b by rw [hrest]
    split_ifs at h with hnil hnil' hnil'
    · rw [hnil, hnil']
    · exact ih hlength hlength' (List.cons.inj h).2

theorem fourDigits_injOn : Set.InjOn fourDigits {bytes | bytes.length = 16} :=
  fun _ ha _ hb h => fourDigits_inj (k := 8) ha hb h

/-- `2000::`. -/
def globalUnicast : NetworkAddress 16 := ⟨0x20 :: List.replicate 15 0, rfl⟩

/-- `inet_ntop` of `2000::` and of the addresses whose groups all have four digits. -/
def inetNtop (bytes : List UInt8) : List UInt8 :=
  if bytes = globalUnicast.bytes then octets "2000::" else fourDigits bytes

theorem length_fourDigits_gt {bytes : List UInt8} (h : bytes.length = 16) :
    (octets "2000::").length < (fourDigits bytes).length := by
  match bytes, h with
  | a :: b :: c :: d :: rest, _ =>
    have hshort : (octets "2000::").length = 6 := rfl
    rw [hshort]
    simp [fourDigits, hexOctet]

theorem inetNtop_injOn : Set.InjOn inetNtop {bytes | bytes.length = 16} := by
  intro a ha b hb h
  unfold inetNtop at h
  split_ifs at h with huni huni' huni'
  · rw [huni, huni']
  · exact absurd (congrArg List.length h) (length_fourDigits_gt hb).ne
  · exact absurd (congrArg List.length h) (length_fourDigits_gt ha).ne'
  · exact fourDigits_injOn ha hb h

/-- `2000::` has no bit behind its third. -/
def prefixOf (masklen : Nat) (h : 3 ≤ masklen ∧ masklen ≤ 128) : PrefixAddress Family.internet6 :=
  ⟨masklen, globalUnicast, h.2⟩

theorem assign_globalUnicast {masklen : Nat} (h : masklen ∈ [15, 48, 64, 105])
    (hle : 3 ≤ masklen ∧ masklen ≤ 128) :
    PrefixAddress.assign (T := .internet6) globalUnicast masklen = some (prefixOf masklen hle) := by
  have hloop : assignLoop globalUnicast NetworkAddress.any 0 masklen = some globalUnicast := by
    simp only [List.mem_cons, List.not_mem_nil, or_false] at h
    rcases h with rfl | rfl | rfl | rfl <;>
      simp [assignLoop, NetworkAddress.load, NetworkAddress.store, globalUnicast,
        NetworkAddress.any, maskOctet]
  have hmin : min masklen Family.internet6.maxMasklen = masklen := Nat.min_eq_left hle.2
  unfold PrefixAddress.assign
  rw [Option.map_eq_some_iff]
  exact ⟨globalUnicast, by rw [hmin]; exact hloop, PrefixAddress.ext hmin rfl⟩

theorem printedApart_iff_of_64_48 :
    (prefixOf 64 (by decide)).PrintedApart inetNtop (prefixOf 48 (by decide)) ↔
      64 ∉ Finset.Ico 100 110 ∧ 48 ∉ Finset.Ico 100 110 :=
  PrefixAddress.printedApart_iff inetNtop_injOn fun h =>
    absurd (congrArg PrefixAddress.masklen h) (by decide)

/-- `2000::/15` and `2000::/105`, as `assign` makes them, are both printed as `2000::/15`. -/
theorem not_printedApart_15_105 :
    ¬ ∀ inetNtop, Set.InjOn inetNtop {bytes | bytes.length = 16} →
      ∀ (a b : NetworkAddress Family.internet6.size) (m n : Nat)
        (p q : PrefixAddress Family.internet6),
        PrefixAddress.assign a m = some p → PrefixAddress.assign b n = some q → p ≠ q →
          p.PrintedApart inetNtop q := by
  intro h
  have hleft := @assign_globalUnicast 15 (by decide) (by decide)
  have hright := @assign_globalUnicast 105 (by decide) (by decide)
  have hapart := h inetNtop inetNtop_injOn globalUnicast globalUnicast 15 105 _ _ hleft hright
    fun heq => absurd (congrArg PrefixAddress.masklen heq) (by decide)
  exact hapart.ne (by decide)

end Witness

end Acqua
