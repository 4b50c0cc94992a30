import Acqua.Email.ParamMatching

/-! `percent_decode` with every character that it looks at. -/

namespace Acqua

namespace Email

/-- `*it`, where `it` is what is left of the string: the end is no character. -/
def deref : List UInt8 → Except Fault UInt8
  | [] => .error .overrun
  | ch :: _ => .ok ch

/-- The check after `++it`, and what is stored in `hex`. -/
def hexChar (it : List UInt8) : Except Fault UInt8 := do
  if it = [] then
    let ch ← deref it
    if isxdigit ch then throw .throws
  deref it

/-- The loop of `percent_decode`. -/
def percentDecodeLoop : List UInt8 → Except Fault (List UInt8)
  | [] => .ok []
  | ch :: it =>
    if ch = chr '%' then do
      let a ← hexChar it
      let b ← hexChar it.tail
      let out ← percentDecodeLoop it.tail.tail
      return strtol a b :: out
    else do
      let out ← percentDecodeLoop it
      return ch :: out
termination_by str => str.length
decreasing_by
  all_goals simp only [List.length_tail, List.length_cons]; omega

/-- What a string with the escapes that are allowed is made of. -/
inductive PercentToken
  | plain (ch : UInt8) (h : ch ≠ chr '%')
  | escape (a b : UInt8) (ha : isxdigit a) (hb : isxdigit b)

namespace PercentToken

def text : PercentToken → List UInt8
  | plain ch _ => [ch]
  | escape a b _ _ => [chr '%', a, b]

def value : PercentToken → UInt8
  | plain ch _ => ch
  | escape a b _ _ => UInt8.ofNat (16 * hexValue a + hexValue b)

end PercentToken

/-- Some `%` is not followed by two hexadecimal digits. -/
def BadEscape (str : List UInt8) : Prop :=
  ∃ pre post, str = pre ++ chr '%' :: post ∧
    ∀ a b rest, post = a :: b :: rest → ¬ (isxdigit a ∧ isxdigit b)

structure DecodesStrictly (str : List UInt8) : Prop where
  safe : percentDecodeLoop str ≠ .error .overrun
  throws_iff : percentDecodeLoop str = .error .throws ↔ BadEscape str
  decoded : ∀ tokens : List PercentToken, str = tokens.flatMap PercentToken.text →
    percentDecodeLoop str = .ok (tokens.map PercentToken.value)

section Loop

variable {ch a b : UInt8} {str : List UInt8}

theorem hexChar_cons (ch : UInt8) (it : List UInt8) : hexChar (ch :: it) = .ok ch := rfl

theorem percentDecodeLoop_nil : percentDecodeLoop [] = .ok [] := by rw [percentDecodeLoop]

theorem percentDecodeLoop_plain (hch : ch ≠ chr '%') (it : List UInt8) :
    percentDecodeLoop (ch :: it) = (percentDecodeLoop it).map (ch :: ·) := by
  rw [percentDecodeLoop, if_neg hch]
  cases percentDecodeLoop it <;> rfl

theorem percentDecodeLoop_escape (a b : UInt8) (it : List UInt8) :
    percentDecodeLoop (chr '%' :: a :: b :: it) =
      (percentDecodeLoop it).map (strtol a b :: ·) := by
  rw [percentDecodeLoop, if_pos rfl, hexChar_cons, List.tail_cons, hexChar_cons, List.tail_cons]
  change (percentDecodeLoop it >>= fun out => pure (strtol a b :: out)) = _
  cases percentDecodeLoop it <;> rfl

theorem percentDecodeLoop_overrun {it : List UInt8} (hit : it.length < 2) :
    percentDecodeLoop (chr '%' :: it) = .error .overrun := by
  rw [percentDecodeLoop, if_pos rfl]
  rcases it with _ | ⟨a, _ | ⟨b, it⟩⟩
  · rfl
  · rfl
  · simp at hit

/-- The check is only made at the end, where there is no character to look at. -/
theorem percentDecodeLoop_eq (str : List UInt8) :
    percentDecodeLoop str = (percentDecode str).elim (.error .overrun) .ok := by
  have hplain : ∀ {ch : UInt8} {it : List UInt8}, ch ≠ chr '%' →
      percentDecodeLoop it = (percentDecode it).elim (.error .overrun) .ok →
        percentDecodeLoop (ch :: it) =
          (percentDecode (ch :: it)).elim (.error .overrun) .ok := by
    intro ch it hch ih
    rw [percentDecodeLoop_plain hch, percentDecode_cons hch, ih]
    cases percentDecode it <;> rfl
  induction str using percentDecode.induct with
  | case1 => exact percentDecodeLoop_nil
  | case2 => exact percentDecodeLoop_overrun (by simp)
  | case3 ch hch => exact hplain hch percentDecodeLoop_nil
  | case4 a => exact percentDecodeLoop_overrun (by simp)
  | case5 ch a hch ih => exact hplain hch ih
  | case6 a b str ih =>
    rw [percentDecodeLoop_escape, ih, percentDecode, if_pos rfl]
    cases percentDecode str <;> rfl
  | case7 ch a b str hch ih => exact hplain hch ih

theorem percentDecodeLoop_ne_throws (str : List UInt8) :
    percentDecodeLoop str ≠ .error .throws := by
  rw [percentDecodeLoop_eq]
  cases percentDecode str <;> simp

end Loop

section Strict

variable {str : List UInt8}

theorem percentDecodeLoop_tokens (tokens : List PercentToken) :
    percentDecodeLoop (tokens.flatMap PercentToken.text) =
      .ok (tokens.map PercentToken.value) := by
  induction tokens with
  | nil => exact percentDecodeLoop_nil
  | cons token tokens ih =>
    rw [List.flatMap_cons]
    cases token with
    | plain ch h =>
      rw [PercentToken.text, List.singleton_append, percentDecodeLoop_plain h, ih]
      rfl
    | escape a b ha hb =>
      change percentDecodeLoop (chr '%' :: a :: b :: tokens.flatMap PercentToken.text) = _
      rw [percentDecodeLoop_escape, ih, strtol_of_isxdigit ha hb]
      rfl

theorem BadEscape.cons (h : BadEscape str) (ch : UInt8) : BadEscape (ch :: str) := by
  obtain ⟨pre, post, rfl, hpost⟩ := h
  exact ⟨ch :: pre, post, rfl, hpost⟩

/-- A string without a bad escape is made of allowed ones. -/
theorem exists_tokens (h : ¬ BadEscape str) :
    ∃ tokens : List PercentToken, str = tokens.flatMap PercentToken.text := by
  induction hlength : str.length using Nat.strong_induction_on generalizing str with
  | _ n ih =>
    cases str with
    | nil => exact ⟨[], rfl⟩
    | cons ch it =>
      have hlt : it.length < n := by
        rw [← hlength]
        exact Nat.lt_succ_self _
      have hit : ¬ BadEscape it := fun hbad => h (hbad.cons ch)
      by_cases hch : ch = chr '%'
      · subst hch
        have hdigits : ∃ a b rest, it = a :: b :: rest ∧ isxdigit a ∧ isxdigit b := by
          by_contra hnone
          exact h ⟨[], it, rfl, fun a b rest heq hhex => hnone ⟨a, b, rest, heq, hhex⟩⟩
        obtain ⟨a, b, rest, rfl, ha, hb⟩ := hdigits
        have hrest : ¬ BadEscape rest := fun hbad => hit ((hbad.cons b).cons a)
        obtain ⟨tokens, rfl⟩ := ih rest.length (by simp at hlt; omega) hrest rfl
        exact ⟨.escape a b ha hb :: tokens, rfl⟩
      · obtain ⟨tokens, rfl⟩ := ih it.length hlt hit rfl
        exact ⟨.plain ch hch :: tokens, rfl⟩

/-- A bad escape is never thrown for. -/
theorem decodesStrictly_iff (str : List UInt8) : DecodesStrictly str ↔ ¬ BadEscape str := by
  constructor
  · exact fun h hbad => percentDecodeLoop_ne_throws str (h.throws_iff.mpr hbad)
  · intro h
    obtain ⟨tokens, rfl⟩ := exists_tokens h
    have hloop := percentDecodeLoop_tokens tokens
    refine ⟨by rw [hloop]; simp, iff_of_false (percentDecodeLoop_ne_throws _) h, ?_⟩
    intro tokens' heq
    rw [heq, percentDecodeLoop_tokens]

theorem not_decodesStrictly_of_percent : ¬ DecodesStrictly [chr '%'] :=
  fun h => h.safe (percentDecodeLoop_overrun (by simp))

end Strict

end Email

end Acqua
