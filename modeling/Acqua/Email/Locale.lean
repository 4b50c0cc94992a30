import Acqua.Ctype

/-! What the headers use of `boost::locale`, and what is documented of it. -/

namespace Acqua

namespace Email

/-- `fromUtf` takes the charset and then the text, `toUtf` the text and then the charset. A
conversion that throws has no result. -/
structure Locale where
  trailLength : UInt8 → Int
  fromUtf : List UInt8 → List UInt8 → Option (List UInt8)
  toUtf : List UInt8 → List UInt8 → Option (List UInt8)

def utf8 (cs : List Char) : List UInt8 := cs.flatMap String.utf8EncodeChar

theorem utf8_append (cs ds : List Char) : utf8 (cs ++ ds) = utf8 cs ++ utf8 ds :=
  List.flatMap_append

theorem utf8_flatten (css : List (List Char)) : utf8 css.flatten = css.flatMap utf8 := by
  induction css with
  | nil => rfl
  | cons cs css ih => rw [List.flatten_cons, utf8_append, ih, List.flatMap_cons]

/-- `utf_traits` counts the octets after the first one of a character, a text in UTF-8 is
converted to itself, the text that is not there has no charset, and an octet never becomes more
than one printable character. -/
structure Locale.Documented (L : Locale) : Prop where
  trailLength_utf8 : ∀ c : Char, ∃ lead trail,
    String.utf8EncodeChar c = lead :: trail ∧ L.trailLength lead = trail.length
  fromUtf_utf8 : ∀ cs, L.fromUtf (octets "UTF-8") (utf8 cs) = some (utf8 cs)
  toUtf_utf8 : ∀ cs, L.toUtf (utf8 cs) (octets "UTF-8") = some (utf8 cs)
  toUtf_nil : L.toUtf [] [] = some []
  length_toUtf_le : ∀ str charset out, L.toUtf str charset = some out →
    (∀ ch ∈ out, isprint ch) → out.length ≤ str.length

/-- `utf_traits<char>::trail_length`. -/
def trailLength (ch : UInt8) : Int :=
  if ch < 128 then 0
  else if ch < 194 then -1
  else if ch < 224 then 1
  else if ch < 240 then 2
  else if ch ≤ 244 then 3
  else -1

/-- Conversions of texts in UTF-8. -/
def utf8Locale : Locale := ⟨trailLength, fun _ => some, fun str _ => some str⟩

theorem trailLength_ofNat {n : Nat} (h : n < 256) : trailLength (UInt8.ofNat n) =
    if n < 128 then 0 else if n < 194 then -1 else if n < 224 then 1 else if n < 240 then 2
    else if n ≤ 244 then 3 else -1 := by
  have hn : (UInt8.ofNat n).toNat = n := by simpa using h
  simp only [trailLength, UInt8.lt_iff_toNat_lt, UInt8.le_iff_toNat_le, hn]
  rfl

theorem trailLength_utf8 (c : Char) : ∃ lead trail,
    String.utf8EncodeChar c = lead :: trail ∧ trailLength lead = trail.length := by
  have hvalid : c.val.toNat < 0x110000 := by
    have h := c.valid
    simp only [UInt32.isValidChar, Nat.isValidChar] at h
    omega
  unfold String.utf8EncodeChar
  simp only
  split_ifs with hone htwo hthree
  · refine ⟨_, _, rfl, ?_⟩
    rw [trailLength_ofNat (by omega), if_pos (by omega)]
    rfl
  · refine ⟨_, _, rfl, ?_⟩
    rw [trailLength_ofNat (by omega), if_neg (by omega), if_neg (by omega), if_pos (by omega)]
    rfl
  · refine ⟨_, _, rfl, ?_⟩
    rw [trailLength_ofNat (by omega), if_neg (by omega), if_neg (by omega), if_neg (by omega),
      if_pos (by omega)]
    rfl
  · refine ⟨_, _, rfl, ?_⟩
    rw [trailLength_ofNat (by omega), if_neg (by omega), if_neg (by omega), if_neg (by omega),
      if_neg (by omega), if_pos (by omega)]
    rfl

theorem utf8Locale_documented : utf8Locale.Documented where
  trailLength_utf8 := trailLength_utf8
  fromUtf_utf8 _ := rfl
  toUtf_utf8 _ := rfl
  toUtf_nil := rfl
  length_toUtf_le _ _ _ h _ := (congrArg List.length (Option.some.inj h)).ge

end Email

end Acqua
