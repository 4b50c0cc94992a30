import Acqua.Iostreams.Base64Lines

/-! The standard encoding of octets in base64, without line breaks. -/

namespace Acqua

namespace Base64

variable (T : Base64Traits)

def text : List UInt8 → List UInt8
  | [] => []
  | [a] => T.enc (sextet₁ a) :: T.enc (sextet₂ a 0) ::
      if T.padding then [chr '=', chr '='] else []
  | [a, b] => T.enc (sextet₁ a) :: T.enc (sextet₂ a b) :: T.enc (sextet₃ b 0) ::
      if T.padding then [chr '='] else []
  | a :: b :: c :: bytes =>
    [T.enc (sextet₁ a), T.enc (sextet₂ a b), T.enc (sextet₃ b c), T.enc (sextet₄ c)] ++ text bytes

theorem length_lt_text : ∀ bytes : List UInt8, bytes ≠ [] → bytes.length < (text T bytes).length
  | [], h => absurd rfl h
  | [_], _ => by simp [text]
  | [_, _], _ => by simp [text]
  | a :: b :: c :: bytes, _ => by
    by_cases hnil : bytes = []
    · subst hnil
      simp [text]
    · have hrest := length_lt_text bytes hnil
      simp only [text, List.length_append, List.length_cons, List.length_nil]
      omega

theorem isChar_text : ∀ bytes : List UInt8, ∀ ch ∈ text T bytes, T.IsChar ch
  | [] => by simp [text]
  | [a] => by
    have hpad : ∀ ch ∈ (if T.padding then [chr '=', chr '='] else []), T.IsChar ch := by
      split_ifs
      · simp [Base64Traits.IsChar]
      · simp
    rw [text, List.forall_mem_cons, List.forall_mem_cons]
    exact ⟨isChar_enc T (sextet₁_lt a), isChar_enc T (sextet₂_lt a 0), hpad⟩
  | [a, b] => by
    have hpad : ∀ ch ∈ (if T.padding then [chr '='] else []), T.IsChar ch := by
      split_ifs
      · simp [Base64Traits.IsChar]
      · simp
    rw [text, List.forall_mem_cons, List.forall_mem_cons, List.forall_mem_cons]
    exact ⟨isChar_enc T (sextet₁_lt a), isChar_enc T (sextet₂_lt a b),
      isChar_enc T (sextet₃_lt b 0), hpad⟩
  | a :: b :: c :: bytes => by
    rw [text]
    exact List.forall_mem_append.mpr ⟨isChar_group T a b c, isChar_text bytes⟩

/-- It is what the encoder writes without line breaks. -/
theorem encode_eq_text {m : Nat} (hm : m % 4 = 0) (hpos : 0 < m) :
    ∀ (bytes : List UInt8) (c : Nat) (q : BitVec 32), c % 4 = 0 → c < m →
      Base64Encoder.encode T ⟨.none, m, c, q⟩ bytes = text T bytes
  | [], c, q, hc, _ => by
    by_cases hc' : 0 < c
    · exact encode_close T q hc hc'
    · obtain rfl : c = 0 := by omega
      rfl
  | [a], c, q, hc, hlt => by
    rw [encode_cons, put_within T a q hc hlt, encode_nil,
      close_second T _ a (by dsimp only; omega) rfl]
    simp [text, Newline.chars]
  | [a, b], c, q, hc, hlt => by
    rw [encode_cons, put_within T a q hc hlt, encode_cons,
      put_second T _ a b (by dsimp only; omega) rfl, encode_nil,
      close_third T _ b (by dsimp only; omega) rfl]
    simp [text, Newline.chars]
  | x :: y :: z :: bytes, c, q, hc, hlt => by
    rw [encode_group T q hc hlt, text]
    congr 1
    by_cases hnext : c + 4 < m
    · exact encode_eq_text hm hpos bytes (c + 4) (promote z) (by omega) hnext
    · have hfull : c + 4 = m := by omega
      rw [hfull]
      cases bytes with
      | nil => rw [encode_close T _ hm hpos]; rfl
      | cons ch bytes =>
        rw [encode_full T ch _ hm hpos]
        exact encode_eq_text hm hpos (ch :: bytes) 0 (promote z) rfl hpos

end Base64

end Acqua
