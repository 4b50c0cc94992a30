import Acqua.Library.OnesComplement

/-! `checkable.hpp` on a little-endian machine: `total_checksum`, and the checksums of IPv4 headers
and of ICMP messages. -/

namespace Acqua

/-- `ntohs`, and `htons`. -/
def ntohs (n : Nat) : Nat := n % 256 * 256 + n / 256 % 256

/-- A `std::uint16_t` in memory. -/
def load16 (a b : UInt8) : Nat := a.toNat + 256 * b.toNat

def store16 (octets : List UInt8) (o n : Nat) : List UInt8 :=
  (octets.set o (UInt8.ofNat (n % 256))).set (o + 1) (UInt8.ofNat (n / 256 % 256))

/-- `(sum & 0xffff) + (sum >> 16)`. -/
def foldSum (sum : Nat) : Nat := (sum &&& 0xffff) + (sum >>> 16)

/-- The loop of `total_checksum`. -/
def addWords : Nat → List UInt8 → Nat
  | sum, a :: b :: octets => addWords (foldSum (sum + ntohs (load16 a b))) octets
  | sum, _ => sum

def totalChecksum (octets : List UInt8) : Nat :=
  let sum := if octets.length % 2 = 0 then 0 else ntohs (octets.getLast?.getD 0).toNat
  ntohs (addWords sum octets % 2 ^ 16)

/-- The words of a packet as they stand on the wire, an odd octet at the end before a zero. -/
def words : List UInt8 → List Nat
  | [] => []
  | [a] => [256 * a.toNat]
  | a :: b :: octets => (256 * a.toNat + b.toNat) :: words octets

theorem foldSum_eq (sum : Nat) : foldSum sum = endAround 16 sum := by
  have hand : sum &&& 0xffff = sum % 2 ^ 16 := Nat.and_two_pow_sub_one_eq_mod sum 16
  rw [foldSum, hand, Nat.shiftRight_eq_div_pow, endAround]

theorem ntohs_word {a b : Nat} (ha : a < 256) (hb : b < 256) :
    ntohs (256 * a + b) = 256 * b + a := by
  have hmod : (256 * a + b) % 256 = b := by omega
  have hdiv : (256 * a + b) / 256 = a := by omega
  rw [ntohs, hmod, hdiv, Nat.mod_eq_of_lt ha, Nat.mul_comm]

theorem exists_word {n : Nat} (hn : n < 2 ^ 16) : ∃ a < 256, ∃ b < 256, n = 256 * a + b :=
  ⟨n / 256, by omega, n % 256, by omega, by omega⟩

theorem ntohs_load16 (a b : UInt8) : ntohs (load16 a b) = 256 * a.toNat + b.toNat := by
  rw [load16, Nat.add_comm, ntohs_word b.toNat_lt a.toNat_lt]

theorem ntohs_lt (n : Nat) : ntohs n < 2 ^ 16 := by
  rw [ntohs]
  omega

theorem ntohs_ntohs {n : Nat} (hn : n < 2 ^ 16) : ntohs (ntohs n) = n := by
  obtain ⟨a, ha, b, hb, rfl⟩ := exists_word hn
  rw [ntohs_word ha hb, ntohs_word hb ha]

theorem ntohs_sub {n : Nat} (hn : n < 2 ^ 16) : ntohs (2 ^ 16 - 1 - n) = 2 ^ 16 - 1 - ntohs n := by
  obtain ⟨a, ha, b, hb, rfl⟩ := exists_word hn
  have hsub : 2 ^ 16 - 1 - (256 * a + b) = 256 * (255 - a) + (255 - b) := by omega
  rw [hsub, ntohs_word (by omega) (by omega), ntohs_word ha hb]
  omega

theorem words_lt (octets : List UInt8) : ∀ x ∈ words octets, x < 2 ^ 16 := by
  induction octets using words.induct with
  | case1 => simp [words]
  | case2 a =>
    have ha := a.toNat_lt
    simp only [words, List.mem_singleton, forall_eq]
    omega
  | case3 a b octets ih =>
    have ha := a.toNat_lt
    have hb := b.toNat_lt
    simp only [words, List.mem_cons, forall_eq_or_imp]
    exact ⟨by omega, ih⟩

theorem addWords_eq (sum : Nat) (octets : List UInt8) :
    addWords sum octets =
      (words (octets.take (octets.length / 2 * 2))).foldl (fun s x => endAround 16 (s + x)) sum := by
  induction sum, octets using addWords.induct with
  | case1 sum a b octets ih =>
    have htake : (a :: b :: octets).take ((a :: b :: octets).length / 2 * 2) =
        a :: b :: octets.take (octets.length / 2 * 2) := by
      have hlength : (a :: b :: octets).length / 2 * 2 = octets.length / 2 * 2 + 1 + 1 := by
        simp only [List.length_cons]
        omega
      rw [hlength, List.take_succ_cons, List.take_succ_cons]
    rw [addWords, ih, htake, words, List.foldl_cons, foldSum_eq, ntohs_load16]
  | case2 octets sum h =>
    match octets with
    | [] => rfl
    | [a] => simp [addWords, words]
    | a :: b :: octets => exact absurd rfl (h a b octets)

theorem sum_words_eq (octets : List UInt8) : (words octets).sum =
    (if octets.length % 2 = 0 then 0 else ntohs (octets.getLast?.getD 0).toNat) +
      (words (octets.take (octets.length / 2 * 2))).sum := by
  induction octets using words.induct with
  | case1 => rfl
  | case2 a =>
    have hlast := ntohs_word (a := 0) (by decide) a.toNat_lt
    rw [Nat.mul_zero, Nat.zero_add, Nat.add_zero] at hlast
    simp [words, hlast]
  | case3 a b octets ih =>
    have hparity : (a :: b :: octets).length % 2 = octets.length % 2 := by
      simp only [List.length_cons]
      omega
    have hlength : (a :: b :: octets).length / 2 * 2 = octets.length / 2 * 2 + 1 + 1 := by
      simp only [List.length_cons]
      omega
    rw [hparity, hlength, List.take_succ_cons, List.take_succ_cons, words, words, List.sum_cons,
      List.sum_cons, ih]
    by_cases heven : octets.length % 2 = 0
    · rw [if_pos heven, if_pos heven]
      omega
    · have hne : octets ≠ [] := by
        rintro rfl
        exact heven rfl
      obtain ⟨c, rest, rfl⟩ := List.exists_cons_of_ne_nil hne
      rw [if_neg heven, if_neg heven, List.getLast?_cons_cons, List.getLast?_cons_cons]
      omega

theorem addWords_lt {sum : Nat} (hsum : sum < 2 ^ 16) (octets : List UInt8) :
    addWords sum octets < 2 ^ 16 := by
  rw [addWords_eq]
  exact (foldl_endAround (words_lt _) hsum).1

/-- What the loop starts from. -/
theorem oddOctet_lt (octets : List UInt8) :
    (if octets.length % 2 = 0 then 0 else ntohs (octets.getLast?.getD 0).toNat) < 2 ^ 16 := by
  split_ifs
  · decide
  · exact ntohs_lt _

theorem totalChecksum_eq (octets : List UInt8) :
    totalChecksum octets = ntohs (onesSum 16 (words octets)) := by
  set init := if octets.length % 2 = 0 then 0 else ntohs (octets.getLast?.getD 0).toNat with hinit
  have hlt : init < 2 ^ 16 := oddOctet_lt octets
  have htotal : totalChecksum octets = ntohs (addWords init octets % 2 ^ 16) := rfl
  obtain ⟨-, hmod, hzero⟩ := foldl_endAround (words_lt (octets.take (octets.length / 2 * 2))) hlt
  rw [← addWords_eq, hinit, ← sum_words_eq, ← hinit] at hmod hzero
  have hsum := addWords_lt hlt octets
  have hones : onesSum 16 (words octets) = addWords init octets :=
    (onesSum_eq_iff (words_lt octets) hsum).mpr ⟨hmod.symm, hzero.symm⟩
  rw [htotal, hones, Nat.mod_eq_of_lt hsum]

/-- The sum of the words with end-around carry. The running sum is of 16 bits behind every word, so
that the cast of the last one keeps it. -/
theorem totalChecksum_rfc1071 (octets : List UInt8) :
    totalChecksum octets = ntohs (onesSum 16 (words octets)) ∧
      ∀ k, addWords (if octets.length % 2 = 0 then 0 else ntohs (octets.getLast?.getD 0).toNat)
        (octets.take k) < 2 ^ 16 :=
  ⟨totalChecksum_eq octets, fun k => addWords_lt (oddOctet_lt octets) (octets.take k)⟩

/-- The word at a place of a packet. -/
def wordAt (octets : List UInt8) (i : Nat) : Nat :=
  256 * (octets.getD (2 * i) 0).toNat + (octets.getD (2 * i + 1) 0).toNat

theorem wordAt_lt (octets : List UInt8) (i : Nat) : wordAt octets i < 2 ^ 16 := by
  have ha := (octets.getD (2 * i) 0).toNat_lt
  have hb := (octets.getD (2 * i + 1) 0).toNat_lt
  rw [wordAt]
  omega

theorem sum_words_eq_sum_wordAt (octets : List UInt8) :
    (words octets).sum = ∑ k ∈ Finset.range ((octets.length + 1) / 2), wordAt octets k := by
  induction octets using words.induct with
  | case1 => rfl
  | case2 a => simp [words, wordAt]
  | case3 a b octets ih =>
    have hlength : ((a :: b :: octets).length + 1) / 2 = (octets.length + 1) / 2 + 1 := by
      simp only [List.length_cons]
      omega
    have hnext : ∀ k, wordAt (a :: b :: octets) (k + 1) = wordAt octets k := fun _ => rfl
    rw [words, List.sum_cons, ih, hlength, Finset.sum_range_succ', Finset.sum_congr rfl
      fun k _ => hnext k]
    exact Nat.add_comm _ _

theorem sum_words_of_agree {p q : List UInt8} {i : Nat} (hlength : p.length = q.length)
    (hi : 2 * i < p.length) (h : ∀ k, k ≠ i → wordAt p k = wordAt q k) :
    (words p).sum + wordAt q i = (words q).sum + wordAt p i := by
  have hmem : i ∈ Finset.range ((p.length + 1) / 2) := Finset.mem_range.mpr (by omega)
  have hrest : ∑ k ∈ (Finset.range ((p.length + 1) / 2)).erase i, wordAt p k =
      ∑ k ∈ (Finset.range ((p.length + 1) / 2)).erase i, wordAt q k :=
    Finset.sum_congr rfl fun k hk => h k (Finset.ne_of_mem_erase hk)
  rw [sum_words_eq_sum_wordAt, sum_words_eq_sum_wordAt, ← hlength, ← Finset.add_sum_erase _ _ hmem,
    ← Finset.add_sum_erase _ (fun k => wordAt q k) hmem, hrest]
  omega

@[simp]
theorem length_store16 (octets : List UInt8) (o n : Nat) :
    (store16 octets o n).length = octets.length := by
  rw [store16, List.length_set, List.length_set]

theorem store16_store16 (octets : List UInt8) (o m n : Nat) :
    store16 (store16 octets o m) o n = store16 octets o n := by
  have hcomm := List.set_comm (l := octets.set o (UInt8.ofNat (m % 256)))
    (UInt8.ofNat (m / 256 % 256)) (UInt8.ofNat (n % 256)) (by omega : o + 1 ≠ o)
  rw [store16, store16, store16, hcomm, List.set_set, List.set_set]

theorem take_store16 (octets : List UInt8) (o n k : Nat) :
    (store16 octets o n).take k = store16 (octets.take k) o n := by
  rw [store16, store16, List.take_set, List.take_set]

theorem wordAt_store16 {octets : List UInt8} {i : Nat} (hi : 2 * i + 1 < octets.length) (n k : Nat) :
    wordAt (store16 octets (2 * i) n) k = if k = i then ntohs n else wordAt octets k := by
  by_cases hk : k = i
  · subst hk
    rw [if_pos rfl, wordAt, store16, List.getD_eq_getElem?_getD, List.getD_eq_getElem?_getD,
      List.getElem?_set_ne (by omega), List.getElem?_set_self (by omega),
      List.getElem?_set_self (by rw [List.length_set]; omega), Option.getD_some, Option.getD_some,
      UInt8.toNat_ofNat', UInt8.toNat_ofNat', ntohs]
    omega
  · rw [if_neg hk, wordAt, store16, List.getD_eq_getElem?_getD, List.getD_eq_getElem?_getD,
      List.getElem?_set_ne (by omega), List.getElem?_set_ne (by omega),
      List.getElem?_set_ne (by omega), List.getElem?_set_ne (by omega), wordAt,
      List.getD_eq_getElem?_getD, List.getD_eq_getElem?_getD]

/-- A `checkable` class: where its checksum is, and the octets that it covers. -/
structure Checkable where
  offset : Nat
  covered : List UInt8 → List UInt8

/-- What `check_checksum` compares and `compute_checksum` stores the complement of. -/
def folded (octets : List UInt8) : Nat := foldSum (foldSum (totalChecksum octets))

namespace Checkable

/-- `checksum(sum)`. -/
def checksum (C : Checkable) (octets : List UInt8) (sum : Nat) : List UInt8 :=
  store16 octets C.offset (sum % 2 ^ 16)

def checkChecksum (C : Checkable) (octets : List UInt8) : Bool :=
  folded (C.covered octets) = 0xffff

/-- `~sum` is taken of a `std::size_t`. -/
def computeChecksum (C : Checkable) (octets : List UInt8) : List UInt8 :=
  let octets := C.checksum octets 0
  C.checksum octets (2 ^ 64 - 1 - folded (C.covered octets))

end Checkable

def ipHeaderSize (octets : List UInt8) : Nat := (octets.getD 0 0).toNat % 16 * 4

def ipv4Header : Checkable := ⟨10, fun octets => octets.take (ipHeaderSize octets)⟩

def icmpHeader : Checkable := ⟨2, fun octets => octets⟩

theorem folded_eq (octets : List UInt8) : folded octets = ntohs (onesSum 16 (words octets)) := by
  have hlt : totalChecksum octets < 2 ^ 16 := ntohs_lt _
  rw [folded, foldSum_eq, foldSum_eq, endAround_of_lt hlt, endAround_of_lt hlt, totalChecksum_eq]

/-- The check succeeds on the packets whose words sum to a positive multiple of 65535. -/
theorem folded_eq_iff (octets : List UInt8) :
    folded octets = 0xffff ↔
      (words octets).sum ≡ 2 ^ 16 - 1 [MOD 2 ^ 16 - 1] ∧ (words octets).sum ≠ 0 := by
  have hlt := onesSum_lt (words_lt octets)
  have hall : ntohs (2 ^ 16 - 1) = 2 ^ 16 - 1 := by decide
  have hiff : folded octets = 0xffff ↔ onesSum 16 (words octets) = 2 ^ 16 - 1 := by
    rw [folded_eq]
    constructor
    · intro h
      rw [← ntohs_ntohs hlt, h]
      exact hall
    · intro h
      rw [h]
      exact hall
  rw [hiff, onesSum_eq_iff (words_lt octets) (by decide)]
  simp

theorem folded_store16 {octets : List UInt8} {i : Nat} (hi : 2 * i + 1 < octets.length) :
    folded (store16 octets (2 * i)
      ((2 ^ 64 - 1 - folded (store16 octets (2 * i) 0)) % 2 ^ 16)) = 0xffff := by
  set zeroed := store16 octets (2 * i) 0 with hzeroed
  set t := onesSum 16 (words zeroed) with ht
  have hlt : t < 2 ^ 16 := onesSum_lt (words_lt zeroed)
  have hfolded : folded zeroed = ntohs t := folded_eq zeroed
  have hntohs := ntohs_lt t
  have hstored : (2 ^ 64 - 1 - folded zeroed) % 2 ^ 16 = 2 ^ 16 - 1 - ntohs t := by omega
  have hfield : ntohs (2 ^ 16 - 1 - ntohs t) = 2 ^ 16 - 1 - t := by
    rw [ntohs_sub (ntohs_lt t), ntohs_ntohs hlt]
  have hsum := sum_words_of_agree (p := store16 octets (2 * i) (2 ^ 16 - 1 - ntohs t))
    (q := zeroed) (i := i) (by simp [hzeroed]) (by simp; omega) (by
      intro k hk
      rw [hzeroed, wordAt_store16 hi, wordAt_store16 hi, if_neg hk, if_neg hk])
  rw [hzeroed, wordAt_store16 hi, wordAt_store16 hi, if_pos rfl, if_pos rfl, hfield,
    ← hzeroed] at hsum
  have hzero : ntohs 0 = 0 := rfl
  rw [hzero, Nat.add_zero] at hsum
  rw [hstored, folded_eq_iff, hsum]
  constructor
  · have hmod : (words zeroed).sum + (2 ^ 16 - 1 - t) ≡ t + (2 ^ 16 - 1 - t) [MOD 2 ^ 16 - 1] :=
      (onesSum_modEq (words_lt zeroed)).symm.add_right _
    have heq : t + (2 ^ 16 - 1 - t) = 2 ^ 16 - 1 := by omega
    rwa [heq] at hmod
  · intro h
    have hnil : (words zeroed).sum = 0 := by omega
    have htzero : t = 0 := (onesSum_eq_zero (words_lt zeroed)).mpr hnil
    omega

/-- Packets of one length that differ only inside one word. -/
def DifferAt (p q : List UInt8) (i : Nat) : Prop :=
  p.length = q.length ∧ ∀ j, j / 2 ≠ i → p[j]? = q[j]?

/-- Words that a one's complement sum does not tell apart. -/
def SameWord (x y : Nat) : Prop := x = y ∨ x = 0 ∧ y = 0xffff ∨ x = 0xffff ∧ y = 0

theorem sameWord_of_modEq {x y : Nat} (hx : x < 2 ^ 16) (hy : y < 2 ^ 16)
    (h : x ≡ y [MOD 2 ^ 16 - 1]) : SameWord x y := by
  have hall : 2 ^ 16 - 1 ≡ 0 [MOD 2 ^ 16 - 1] := Nat.mod_self _
  by_cases hxzero : x = 0
  · by_cases hyzero : y = 0
    · exact Or.inl (hxzero.trans hyzero.symm)
    · rw [hxzero] at h
      refine Or.inr (Or.inl ⟨hxzero, ?_⟩)
      exact eq_of_modEq_pred hy (by decide) (h.symm.trans hall.symm) (by simp [hyzero])
  · by_cases hyzero : y = 0
    · rw [hyzero] at h
      refine Or.inr (Or.inr ⟨?_, hyzero⟩)
      exact eq_of_modEq_pred hx (by decide) (h.trans hall.symm) (by simp [hxzero])
    · exact Or.inl (eq_of_modEq_pred hx hy h (by simp [hxzero, hyzero]))

theorem DifferAt.wordAt_eq {p q : List UInt8} {i k : Nat} (h : DifferAt p q i) (hk : k ≠ i) :
    wordAt p k = wordAt q k := by
  rw [wordAt, wordAt, List.getD_eq_getElem?_getD, List.getD_eq_getElem?_getD,
    h.2 (2 * k) (by omega), h.2 (2 * k + 1) (by omega), ← List.getD_eq_getElem?_getD,
    ← List.getD_eq_getElem?_getD]

theorem DifferAt.take {p q : List UInt8} {i : Nat} (h : DifferAt p q i) (n : Nat) :
    DifferAt (p.take n) (q.take n) i := by
  refine ⟨by rw [List.length_take, List.length_take, h.1], fun j hj => ?_⟩
  rw [List.getElem?_take, List.getElem?_take, h.2 j hj]

theorem sameWord_of_folded {p q : List UInt8} {i : Nat} (h : DifferAt p q i)
    (hi : 2 * i < p.length) (hp : folded p = 0xffff) (hq : folded q = 0xffff) :
    SameWord (wordAt p i) (wordAt q i) := by
  have hsum := sum_words_of_agree h.1 hi fun k hk => h.wordAt_eq hk
  have hmod : (words p).sum ≡ (words q).sum [MOD 2 ^ 16 - 1] :=
    ((folded_eq_iff p).mp hp).1.trans ((folded_eq_iff q).mp hq).1.symm
  refine sameWord_of_modEq (wordAt_lt p i) (wordAt_lt q i) ?_
  refine Nat.ModEq.add_left_cancel hmod.symm ?_
  rw [← hsum]

theorem wordAt_take {octets : List UInt8} {n i : Nat} (hi : 2 * i + 1 < n) :
    wordAt (octets.take n) i = wordAt octets i := by
  simp only [wordAt, List.getD_eq_getElem?_getD, List.getElem?_take, if_pos hi,
    if_pos (by omega : 2 * i < n)]

theorem ipHeaderSize_checksum (octets : List UInt8) (sum : Nat) :
    ipHeaderSize (ipv4Header.checksum octets sum) = ipHeaderSize octets := by
  rw [ipHeaderSize, ipHeaderSize, Checkable.checksum, store16, List.getD_eq_getElem?_getD,
    List.getElem?_set_ne (by decide), List.getElem?_set_ne (by decide),
    ← List.getD_eq_getElem?_getD]

/-- A checksum that is computed over octets with its own field among them is found correct. -/
theorem checkChecksum_computeChecksum {C : Checkable} {octets : List UInt8} {i : Nat}
    (hoffset : C.offset = 2 * i)
    (hcovered : ∀ sum, C.covered (C.checksum octets sum) =
      store16 (C.covered octets) C.offset (sum % 2 ^ 16))
    (hfield : 2 * i + 1 < (C.covered octets).length) :
    C.checkChecksum (C.computeChecksum octets) := by
  have hcompute : C.computeChecksum octets =
      C.checksum octets (2 ^ 64 - 1 - folded (C.covered (C.checksum octets 0))) :=
    store16_store16 _ _ _ _
  rw [Checkable.checkChecksum, decide_eq_true_eq, hcompute, hcovered, hcovered, hoffset]
  exact folded_store16 hfield

/-- Computed checksums are found correct where the octets covered contain the field, and two correct
packets with one different word among these octets differ there as 0 and 0xffff. -/
theorem checksum_consistent :
    (∀ octets, 12 ≤ ipHeaderSize octets → ipHeaderSize octets ≤ octets.length →
      ipv4Header.checkChecksum (ipv4Header.computeChecksum octets)) ∧
    (∀ octets : List UInt8, 8 ≤ octets.length →
      icmpHeader.checkChecksum (icmpHeader.computeChecksum octets)) ∧
    (∀ p q i, DifferAt p q i → ipHeaderSize p = ipHeaderSize q → ipHeaderSize p ≤ p.length →
      2 * i < ipHeaderSize p → ipv4Header.checkChecksum p → ipv4Header.checkChecksum q →
      SameWord (wordAt p i) (wordAt q i)) ∧
    ∀ p q i, DifferAt p q i → 2 * i < p.length → icmpHeader.checkChecksum p →
      icmpHeader.checkChecksum q → SameWord (wordAt p i) (wordAt q i) := by
  refine ⟨fun octets hcovered hlength => ?_, fun octets hlength => ?_,
    fun p q i h hsize hlength hi hp hq => ?_, fun p q i h hi hp hq => ?_⟩
  · refine checkChecksum_computeChecksum (i := 5) rfl (fun sum => ?_) ?_
    · have hsize := ipHeaderSize_checksum octets sum
      exact (congrArg (List.take · _) hsize).trans (take_store16 _ _ _ _)
    · have htake : (ipv4Header.covered octets).length = min (ipHeaderSize octets) octets.length :=
        List.length_take
      omega
  · exact checkChecksum_computeChecksum (i := 1) rfl (fun _ => rfl)
      (by have hall : icmpHeader.covered octets = octets := rfl
          rw [hall]
          omega)
  · rw [Checkable.checkChecksum, decide_eq_true_eq] at hp hq
    have htake := h.take (ipHeaderSize p)
    have hword : 2 * i + 1 < ipHeaderSize p := by
      rw [ipHeaderSize] at hi ⊢
      omega
    have hq' : folded (q.take (ipHeaderSize p)) = 0xffff := by
      rw [hsize]
      exact hq
    have hsame := sameWord_of_folded htake (by rw [List.length_take]; omega) hp hq'
    rwa [wordAt_take hword, wordAt_take hword] at hsame
  · rw [Checkable.checkChecksum, decide_eq_true_eq] at hp hq
    exact sameWord_of_folded h hi hp hq

theorem differAt_append {pre : List UInt8} {i : Nat} (hpre : pre.length = 2 * i) (a b c d : UInt8)
    (post : List UInt8) : DifferAt (pre ++ a :: b :: post) (pre ++ c :: d :: post) i := by
  refine ⟨by simp, fun j hj => ?_⟩
  rcases Nat.lt_or_ge j pre.length with hlt | hge
  · rw [List.getElem?_append_left hlt, List.getElem?_append_left hlt]
  · obtain ⟨k, hk⟩ : ∃ k, j - pre.length = k + 1 + 1 := ⟨j - pre.length - 2, by omega⟩
    rw [List.getElem?_append_right hge, List.getElem?_append_right hge, hk]
    rfl

theorem checksum_consistent_of_words :
    ipv4Header.checkChecksum (ipv4Header.computeChecksum (0x45 :: List.replicate 19 0)) ∧
    icmpHeader.checkChecksum (icmpHeader.computeChecksum [8, 0, 0, 0, 0, 0, 0, 0, 1]) ∧
    SameWord (wordAt ([0x45, 0, 0, 0] ++ 0 :: 0 :: [0, 0, 0, 0, 0xba, 0xff, 0, 0, 0, 0, 0, 0, 0, 0]) 2)
      (wordAt ([0x45, 0, 0, 0] ++ 0xff :: 0xff :: [0, 0, 0, 0, 0xba, 0xff, 0, 0, 0, 0, 0, 0, 0, 0]) 2) ∧
    SameWord (wordAt ([8, 0, 0xf7, 0xff] ++ 0 :: 0 :: [0, 0]) 2)
      (wordAt ([8, 0, 0xf7, 0xff] ++ 0xff :: 0xff :: [0, 0]) 2) :=
  ⟨checksum_consistent.1 _ (by decide) (by decide), checksum_consistent.2.1 _ (by decide),
    checksum_consistent.2.2.1 _ _ 2 (differAt_append rfl _ _ _ _ _) (by decide) (by decide)
      (by decide) (by decide) (by decide),
    checksum_consistent.2.2.2 _ _ 2 (differAt_append rfl _ _ _ _ _) (by decide)
      (by decide) (by decide)⟩

/-- Without a header length the field is not covered, and a payload never is. -/
theorem not_checksum_consistent_of_payload :
    ¬ (∀ octets : List UInt8, 20 ≤ octets.length → ipHeaderSize octets ≤ octets.length →
      ipv4Header.checkChecksum (ipv4Header.computeChecksum octets)) ∧
    ¬ ∀ p q i, DifferAt p q i → ipv4Header.checkChecksum p → ipv4Header.checkChecksum q →
      SameWord (wordAt p i) (wordAt q i) := by
  constructor
  · intro h
    have hcheck := h (0x40 :: List.replicate 19 0) (by decide) (by decide)
    exact absurd hcheck (by decide)
  · intro h
    have hsame := h
      ([0x45, 0, 0, 0, 0, 0, 0, 0, 0, 0, 0xba, 0xff, 0, 0, 0, 0, 0, 0, 0, 0] ++ 0 :: 1 :: [])
      ([0x45, 0, 0, 0, 0, 0, 0, 0, 0, 0, 0xba, 0xff, 0, 0, 0, 0, 0, 0, 0, 0] ++ 0 :: 2 :: []) 10
      (differAt_append rfl _ _ _ _ _) (by decide) (by decide)
    revert hsame
    simp [SameWord, wordAt]

end Acqua
