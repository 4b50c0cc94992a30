import Acqua.Email.EncodedWords
import Acqua.Email.Rfc2231Termination
import Acqua.Library.Decimal

/-! How the grammar of `rfc2231_decode` reads what `encode_mimeheader` writes for a parameter. -/

namespace Acqua

namespace Email

section Name

variable {key : List UInt8}

theorem isName_ne_nil (hkey : isName key) : key ≠ [] := by
  rintro rfl
  exact absurd hkey (by decide)

theorem isName_char (hkey : isName key) {ch : UInt8} (hch : ch ∈ key) :
    isalnum ch ∨ ch = chr '-' := by
  simp only [isName, Bool.and_eq_true, List.all_eq_true, Bool.or_eq_true,
    decide_eq_true_eq] at hkey
  exact hkey.2 ch hch

theorem isKeyChar_of_isName (hkey : isName key) : ∀ ch ∈ key, isKeyChar ch := by
  intro ch hch
  have hname : ∀ ch : UInt8, isalnum ch ∨ ch = chr '-' → isKeyChar ch :=
    octet_forall (P := fun ch => isalnum ch ∨ ch = chr '-' → isKeyChar ch) (by decide +kernel)
  exact hname ch (isName_char hkey hch)

theorem not_skip_of_isName (hkey : isName key) : ∀ ch ∈ key, ¬ (isspace ch ∨ ch = chr ';') := by
  intro ch hch
  have hname : ∀ ch : UInt8, isalnum ch ∨ ch = chr '-' → ¬ (isspace ch ∨ ch = chr ';') :=
    octet_forall (P := fun ch => isalnum ch ∨ ch = chr '-' → ¬ (isspace ch ∨ ch = chr ';'))
      (by decide +kernel)
  exact hname ch (isName_char hkey hch)

theorem matchParam_name (hkey : isName key) {ch : UInt8} (hch : ¬ isKeyChar ch)
    {tail rest : List UInt8} {idx : Option (Option Int)}
    (hidx : matchIdx (ch :: tail) = (idx, chr '=' :: rest)) :
    matchParam (key ++ ch :: tail) = (matchVal rest).map fun v => (⟨key, idx, v.1⟩, v.2) := by
  have hchars := isKeyChar_of_isName hkey
  unfold matchParam
  rw [takeWhile_run hchars (by simpa using hch), dropWhile_run hchars (by simpa using hch), hidx]
  dsimp only
  rw [if_neg (isName_ne_nil hkey), if_pos rfl]

end Name

section Match

variable {val rest : List UInt8}

theorem matchIdx_star (rest : List UInt8) :
    matchIdx (octets "*=" ++ rest) = (some none, chr '=' :: rest) := by
  have hint : parseInt (chr '=' :: rest) = none := by
    have hminus : (chr '=' :: rest).head? ≠ some (chr '-') := by simp; decide
    have hplus : (chr '=' :: rest).head? ≠ some (chr '+') := by simp; decide
    unfold parseInt
    simp only [hminus, hplus, or_self, if_false]
    rw [List.takeWhile_cons_of_neg (by decide), if_neg fun h => h.1 rfl]
  have htext : octets "*=" ++ rest = chr '*' :: chr '=' :: rest := rfl
  rw [htext, matchIdx, if_pos rfl, hint]

theorem matchIdx_number {n : Nat} (hn : n < 2 ^ 31) (rest : List UInt8) :
    matchIdx (chr '*' :: (octets (Nat.repr n) ++ octets "*=" ++ rest)) =
      (some (some (n : Int)), chr '=' :: rest) := by
  have hint : parseInt (octets (Nat.repr n) ++ chr '*' :: chr '=' :: rest) =
      some ((n : Int), chr '*' :: chr '=' :: rest) := by
    refine parseInt_repr hn fun ch hch => ?_
    obtain rfl : chr '*' = ch := Option.some.inj hch
    decide
  have htext : octets (Nat.repr n) ++ octets "*=" ++ rest =
      octets (Nat.repr n) ++ chr '*' :: chr '=' :: rest := by
    rw [List.append_assoc]
    rfl
  rw [matchIdx, if_pos rfl, htext, hint]
  simp

theorem matchVal_quoted (hval : chr '"' ∉ val) (rest : List UInt8) :
    matchVal (chr '"' :: (val ++ chr '"' :: rest)) = some (val, rest) := by
  have hrun : ∀ ch ∈ val, decide (ch ≠ chr '"') = true := by
    intro ch hch
    rw [decide_eq_true_eq]
    rintro rfl
    exact hval hch
  rw [matchVal, if_pos rfl, dropWhile_run hrun (by simp), takeWhile_run hrun (by simp)]

theorem matchVal_word (hne : val ≠ []) (hval : ∀ ch ∈ val, ¬ isspace ch)
    (hquote : val.head? ≠ some (chr '"')) (hrest : ∀ ch ∈ rest.head?, isspace ch) :
    matchVal (val ++ rest) = some (val, rest) := by
  have hplain : matchPlain [] (val ++ rest) = some (val, rest) := by
    have hrun : ∀ ch ∈ val, (!isspace ch) = true := by simpa using hval
    unfold matchPlain
    cases rest with
    | nil =>
      rw [List.append_nil, List.takeWhile_eq_self_iff.mpr hrun, List.dropWhile_eq_nil_iff.mpr hrun]
      exact if_neg hne
    | cons c rest =>
      have hc : ¬ (!isspace c) = true := by simpa using hrest c rfl
      rw [takeWhile_run hrun hc, dropWhile_run hrun hc]
      exact if_neg hne
  cases val with
  | nil => exact absurd rfl hne
  | cons ch val =>
    rw [List.cons_append, matchVal, if_neg fun h => hquote (by rw [h]; rfl)]
    exact hplain

end Match

section Percent

theorem percentDecode_cons {ch : UInt8} (hch : ch ≠ chr '%') (str : List UInt8) :
    percentDecode (ch :: str) = (percentDecode str).map (ch :: ·) := by
  match str with
  | [] => simp [percentDecode, hch]
  | [a] => simp only [percentDecode, hch, if_false]
  | a :: b :: str => simp only [percentDecode, hch, if_false]

theorem isxdigit_hexDigit {n : UInt8} (hn : n < 16) :
    isxdigit (QprintEncoder.hexDigit n) ∧ hexValue (QprintEncoder.hexDigit n) = n.toNat := by
  have h : ∀ n < 16, isxdigit (QprintEncoder.hexDigit (UInt8.ofNat n)) ∧
      hexValue (QprintEncoder.hexDigit (UInt8.ofNat n)) = (UInt8.ofNat n).toNat := by decide
  have hnat := h n.toNat (UInt8.lt_iff_toNat_lt.mp hn)
  rwa [UInt8.ofNat_toNat] at hnat

theorem not_space_of_isxdigit {ch : UInt8} (h : isxdigit ch) :
    ¬ isspace ch ∧ ch ≠ chr '-' ∧ ch ≠ chr '+' := by
  have hall : ∀ ch : UInt8, isxdigit ch → ¬ isspace ch ∧ ch ≠ chr '-' ∧ ch ≠ chr '+' :=
    octet_forall (P := fun ch => isxdigit ch → ¬ isspace ch ∧ ch ≠ chr '-' ∧ ch ≠ chr '+')
      (by decide +kernel)
  exact hall ch h

theorem strtol_of_isxdigit {a b : UInt8} (ha : isxdigit a) (hb : isxdigit b) :
    strtol a b = UInt8.ofNat (16 * hexValue a + hexValue b) := by
  obtain ⟨hspace, hminus, hplus⟩ := not_space_of_isxdigit ha
  simp [strtol, hspace, hminus, hplus, ha, hb]

theorem nibbles_lt (ch : UInt8) : (ch >>> 4 &&& 0xf) < 16 ∧ (ch &&& 0xf) < 16 :=
  nibble_forall (P := fun n => n < 16) (by decide) ch

theorem strtol_hex (ch : UInt8) :
    strtol (QprintEncoder.hexDigit (ch >>> 4 &&& 0xf)) (QprintEncoder.hexDigit (ch &&& 0xf)) =
      ch := by
  have hsum : ∀ ch : UInt8,
      UInt8.ofNat (16 * (ch >>> 4 &&& 0xf).toNat + (ch &&& 0xf).toNat) = ch :=
    octet_forall (P := fun ch =>
      UInt8.ofNat (16 * (ch >>> 4 &&& 0xf).toNat + (ch &&& 0xf).toNat) = ch) (by decide +kernel)
  obtain ⟨ha, hvalue⟩ := isxdigit_hexDigit (nibbles_lt ch).1
  obtain ⟨hb, hvalue'⟩ := isxdigit_hexDigit (nibbles_lt ch).2
  rw [strtol_of_isxdigit ha hb, hvalue, hvalue', hsum]

theorem percentDecode_percentChar {ch : UInt8} (hch : ch ≠ chr '%') (str : List UInt8) :
    percentDecode (percentChar ch ++ str) = (percentDecode str).map (ch :: ·) := by
  unfold percentChar
  split_ifs with hgraph
  · exact percentDecode_cons hch str
  · simp only [List.cons_append, List.nil_append, percentDecode, if_true, strtol_hex]

theorem percentDecode_text {str : List UInt8} (hstr : chr '%' ∉ str) :
    percentDecode (str.flatMap percentChar) = some str := by
  induction str with
  | nil => rfl
  | cons ch str ih =>
    rw [List.flatMap_cons, percentDecode_percentChar (fun h => hstr (by simp [h])),
      ih fun h => hstr (by simp [h]), Option.map_some]

theorem not_isspace_percentChar (ch : UInt8) : ∀ c ∈ percentChar ch, ¬ isspace c := by
  have hspace : ∀ ch : UInt8, isgraph ch → ¬ isspace ch :=
    octet_forall (P := fun ch => isgraph ch → ¬ isspace ch) (by decide +kernel)
  obtain ⟨hupper, hlower⟩ := nibbles_lt ch
  intro c hc
  unfold percentChar at hc
  split_ifs at hc with hgraph
  · rw [List.mem_singleton.mp hc]
    exact hspace ch hgraph
  · simp only [List.mem_cons, List.not_mem_nil, or_false] at hc
    rcases hc with rfl | rfl | rfl
    · decide
    · exact (not_space_of_isxdigit (isxdigit_hexDigit hupper).1).1
    · exact (not_space_of_isxdigit (isxdigit_hexDigit hlower).1).1

end Percent

end Email

end Acqua
