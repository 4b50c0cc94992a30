import Acqua.Email.DecodeMimeheader
import Acqua.Library.Splits

/-! What the search for encoded words finds, and what decoding can do to the length of a text. -/

namespace Acqua

namespace Email

namespace EncodedWord

theorem chars_eq (w : EncodedWord) (t : List UInt8) :
    w.chars ++ t = chr '=' :: chr '?' :: (w.charset ++ chr '?' :: w.enc :: chr '?' ::
      (w.text ++ chr '?' :: chr '=' :: t)) := by
  have hopen : octets "=?" = [chr '=', chr '?'] := rfl
  have hclose : octets "?=" = [chr '?', chr '='] := rfl
  simp [chars, hopen, hclose]

theorem length_chars (w : EncodedWord) :
    w.chars.length = w.charset.length + w.text.length + 7 := by
  have h := congrArg List.length (w.chars_eq [])
  simp only [List.append_nil, List.length_cons, List.length_append, List.length_nil] at h
  omega

theorem length_pushAll_le {σ : Type} {put : σ → UInt8 → σ × List UInt8}
    (hput : ∀ s ch, (put s ch).2.length ≤ 1) (s : σ) (chars : List UInt8) :
    (pushAll put s chars).2.length ≤ chars.length := by
  induction chars generalizing s with
  | nil => simp
  | cons ch chars ih =>
    have hfirst := hput s ch
    have hrest := ih (put s ch).1
    rw [pushAll_cons, List.length_append, List.length_cons]
    omega

theorem length_base64_put (d : Base64Decoder) (ch : UInt8) :
    (d.put base64Traits ch).2.length ≤ 1 := by
  unfold Base64Decoder.put Base64Decoder.joined
  simp only
  split_ifs
  · simp
  · split <;> simp

theorem length_qprint_put (d : QprintDecoder) (ch : UInt8) :
    ∀ out ∈ (d.put ch).2, out.length ≤ 1 := by
  intro out hout
  unfold QprintDecoder.put at hout
  simp only at hout
  split_ifs at hout <;> cases hout <;> simp

theorem length_decoded_le (w : EncodedWord) : w.decoded.length ≤ w.text.length := by
  unfold decoded
  split_ifs
  · exact length_pushAll_le length_base64_put _ _
  · exact length_writeAll_le length_qprint_put _ _ _

end EncodedWord

theorem wordAt_chars {w : EncodedWord} (hw : w.Accepted) (t : List UInt8) :
    wordAt (w.chars ++ t) = some w := by
  obtain ⟨body, pad, htext, hbody, hpad⟩ := hw.text_eq
  have hcharset : ((w.chars ++ t).drop 2).takeWhile isCharsetChar = w.charset := by
    rw [w.chars_eq t]
    exact takeWhile_run hw.charset_chars (by decide)
  have henc : (w.chars ++ t).getD (w.charset.length + 3) 0 = w.enc := by
    rw [w.chars_eq t]
    simp
  have hrest : (w.chars ++ t).drop (w.charset.length + 5) =
      w.text ++ chr '?' :: chr '=' :: t := by
    rw [w.chars_eq t]
    simp
  have hbodyRun : (w.text ++ chr '?' :: chr '=' :: t).takeWhile isTextChar = body ∧
      ((w.text ++ chr '?' :: chr '=' :: t).dropWhile isTextChar).takeWhile (· = chr '=') = pad := by
    rw [htext, List.append_assoc]
    cases pad with
    | nil =>
      rw [List.nil_append, takeWhile_run hbody (by decide), dropWhile_run hbody (by decide)]
      exact ⟨rfl, List.takeWhile_cons_of_neg (by decide)⟩
    | cons c pad =>
      obtain rfl := hpad c (by simp)
      rw [List.cons_append, takeWhile_run hbody (by decide), dropWhile_run hbody (by decide)]
      have hrun : ∀ c ∈ chr '=' :: pad, (decide (c = chr '=') : Bool) := by simpa using hpad
      exact ⟨rfl, takeWhile_run hrun (by decide)⟩
  have hword : (⟨w.charset, w.enc, body ++ pad⟩ : EncodedWord) = w := by rw [← htext]
  unfold wordAt
  simp only [hcharset, henc, hrest, hbodyRun.1, hbodyRun.2, hword]
  exact if_pos ⟨hw.charset_ne_nil, hw.enc_mem, List.prefix_append _ _⟩

theorem wordAt_spec {str : List UInt8} {w : EncodedWord} (h : wordAt str = some w) :
    w.Accepted ∧ w.chars <+: str := by
  unfold wordAt at h
  simp only at h
  split_ifs at h with hword
  obtain rfl := Option.some.inj h
  refine ⟨⟨hword.1, fun ch hch => List.mem_takeWhile_imp hch, hword.2.1, ?_⟩, hword.2.2⟩
  exact ⟨_, _, rfl, fun ch hch => List.mem_takeWhile_imp hch,
    fun ch hch => by simpa using List.mem_takeWhile_imp hch⟩

theorem wordAt_eq_some_iff {str : List UInt8} {w : EncodedWord} :
    wordAt str = some w ↔ w.Accepted ∧ w.chars <+: str := by
  refine ⟨wordAt_spec, fun ⟨hw, t, ht⟩ => ?_⟩
  rw [← ht]
  exact wordAt_chars hw t

theorem wordAt_eq_none_of_head {ch : UInt8} (hch : ch ≠ chr '=') (str : List UInt8) :
    wordAt (ch :: str) = none := by
  refine Option.eq_none_iff_forall_ne_some.mpr fun w hw => ?_
  obtain ⟨-, t, ht⟩ := wordAt_spec hw
  rw [w.chars_eq t, List.cons.injEq] at ht
  exact hch ht.1.symm

theorem wordAt_nil : wordAt [] = none := rfl

section Find

theorem findWord_eq_some {str gap rest : List UInt8} {w : EncodedWord}
    (h : findWord str = some (gap, w, rest)) : str = gap ++ (w.chars ++ rest) := by
  induction str generalizing gap with
  | nil => simp [findWord] at h
  | cons ch str ih =>
    unfold findWord at h
    cases hword : wordAt (ch :: str) with
    | some w' =>
      simp only [hword, Option.some.injEq, Prod.mk.injEq] at h
      obtain ⟨rfl, rfl, rfl⟩ := h
      obtain ⟨t, ht⟩ := (wordAt_spec hword).2
      rw [List.nil_append, ← ht, List.drop_left]
    | none =>
      simp only [hword, Option.map_eq_some_iff, Prod.mk.injEq] at h
      obtain ⟨⟨gap', w', rest'⟩, hfind, rfl, rfl, rfl⟩ := h
      rw [ih hfind, List.cons_append]

theorem findWord_eq_none_iff_suffix {str : List UInt8} :
    findWord str = none ↔ ∀ s, s <:+ str → wordAt s = none := by
  induction str with
  | nil =>
    refine ⟨fun _ s hs => ?_, fun _ => rfl⟩
    rw [List.suffix_nil.mp hs]
    exact wordAt_nil
  | cons ch str ih =>
    unfold findWord
    constructor
    · intro h s hs
      cases hword : wordAt (ch :: str) with
      | some w => simp [hword] at h
      | none =>
        rw [hword] at h
        rcases List.suffix_cons_iff.mp hs with rfl | hs
        · exact hword
        · exact ih.mp (Option.map_eq_none_iff.mp h) s hs
    · intro h
      rw [h _ List.suffix_rfl]
      exact Option.map_eq_none_iff.mpr (ih.mpr fun s hs => h s (hs.trans (List.suffix_cons ch str)))

theorem findWord_eq_none_iff {str : List UInt8} :
    findWord str = none ↔ ∀ w : EncodedWord, w.Accepted → ¬ w.chars <:+: str := by
  rw [findWord_eq_none_iff_suffix]
  constructor
  · intro h w hw hfound
    obtain ⟨s, hstart, hsuffix⟩ := List.infix_iff_prefix_suffix.mp hfound
    have hword := wordAt_eq_some_iff.mpr ⟨hw, hstart⟩
    rw [h s hsuffix] at hword
    exact absurd hword (by simp)
  · intro h s hs
    refine Option.eq_none_iff_forall_ne_some.mpr fun w hword => ?_
    obtain ⟨hw, hstart⟩ := wordAt_eq_some_iff.mp hword
    exact h w hw (hstart.isInfix.trans hs.isInfix)

/-- Where no word begins the search goes on. -/
theorem findWord_append {gap t : List UInt8}
    (hgap : ∀ s, s <:+ gap → s ≠ [] → wordAt (s ++ t) = none) :
    findWord (gap ++ t) = (findWord t).map fun r => (gap ++ r.1, r.2) := by
  induction gap with
  | nil => simp
  | cons ch gap ih =>
    have hword : wordAt (ch :: (gap ++ t)) = none :=
      hgap (ch :: gap) List.suffix_rfl (List.cons_ne_nil _ _)
    rw [List.cons_append, findWord, hword,
      ih fun s hs hne => hgap s (hs.trans (List.suffix_cons ch gap)) hne]
    simp [Function.comp_def]

theorem wordAt_eq_none_of_notMem {s : List UInt8} (hs : chr '=' ∉ s) (hne : s ≠ [])
    (t : List UInt8) : wordAt (s ++ t) = none := by
  cases s with
  | nil => exact absurd rfl hne
  | cons ch s =>
    rw [List.mem_cons, not_or] at hs
    exact wordAt_eq_none_of_head (Ne.symm hs.1) (s ++ t)

theorem findWord_of_notMem {str : List UInt8} (h : chr '=' ∉ str) : findWord str = none := by
  have hgap : ∀ s, s <:+ str → s ≠ [] → wordAt (s ++ []) = none := fun s hs hne =>
    wordAt_eq_none_of_notMem (fun hmem => h (hs.subset hmem)) hne []
  have hstr := findWord_append hgap
  rwa [List.append_nil] at hstr

theorem findWord_chars {w : EncodedWord} (hw : w.Accepted) (rest : List UInt8) :
    findWord (w.chars ++ rest) = some ([], w, rest) := by
  have hword := wordAt_chars hw rest
  have hdrop : (w.chars ++ rest).drop w.chars.length = rest := List.drop_left
  rw [w.chars_eq rest] at hword hdrop ⊢
  rw [findWord, hword]
  exact congrArg (fun rest => some (([] : List UInt8), w, rest)) hdrop

theorem findWord_gap {gap : List UInt8} (hgap : chr '=' ∉ gap) {w : EncodedWord}
    (hw : w.Accepted) (rest : List UInt8) :
    findWord (gap ++ (w.chars ++ rest)) = some (gap, w, rest) := by
  rw [findWord_append fun s hs hne =>
    wordAt_eq_none_of_notMem (fun hmem => hgap (hs.subset hmem)) hne _, findWord_chars hw]
  simp

/-- The text that words and gaps were cut out of. -/
def wordText (words : List (List UInt8 × EncodedWord)) : List UInt8 :=
  words.flatMap fun word => word.1 ++ word.2.chars

theorem wordText_cons (gap : List UInt8) (w : EncodedWord)
    (words : List (List UInt8 × EncodedWord)) :
    wordText ((gap, w) :: words) = gap ++ (w.chars ++ wordText words) := by
  simp [wordText]

theorem findWords_text (fuel : Nat) (str : List UInt8) :
    wordText (findWords fuel str).1 ++ (findWords fuel str).2 = str := by
  induction fuel generalizing str with
  | zero => rfl
  | succ fuel ih =>
    unfold findWords
    cases hfind : findWord str with
    | none => rfl
    | some found =>
      obtain ⟨gap, w, rest⟩ := found
      simp only [wordText_cons, List.append_assoc]
      rw [ih rest, findWord_eq_some hfind]

theorem findWords_of_words {words : List (List UInt8 × EncodedWord)} {last : List UInt8}
    (hwords : ∀ word ∈ words, chr '=' ∉ word.1 ∧ word.2.Accepted) (hlast : chr '=' ∉ last)
    {fuel : Nat} (hfuel : words.length ≤ fuel) :
    findWords fuel (wordText words ++ last) = (words, last) := by
  induction words generalizing fuel with
  | nil =>
    cases fuel with
    | zero => rfl
    | succ fuel =>
      simp only [wordText, List.flatMap_nil, List.nil_append, findWords]
      rw [findWord_of_notMem hlast]
  | cons word words ih =>
    obtain ⟨gap, w⟩ := word
    obtain ⟨hgap, hw⟩ := hwords _ List.mem_cons_self
    cases fuel with
    | zero => simp at hfuel
    | succ fuel =>
      have hrest := ih (fun word hword => hwords word (List.mem_cons_of_mem _ hword))
        (Nat.succ_le_succ_iff.mp hfuel)
      rw [wordText_cons, List.append_assoc, List.append_assoc, findWords, findWord_gap hgap hw]
      simp only [hrest]

theorem length_le_wordText (words : List (List UInt8 × EncodedWord)) :
    words.length ≤ (wordText words).length := by
  induction words with
  | nil => simp
  | cons word words ih =>
    have hlength := word.2.length_chars
    rw [wordText_cons, List.length_append, List.length_append, List.length_cons]
    omega

end Find

section Decode

variable {L : Locale}

/-- Blanks between words are dropped, and what stands in the words is converted at once. -/
theorem decodeWords_of_blank {words : List (List UInt8 × EncodedWord)} {charset : List UInt8}
    (hwords : ∀ word ∈ words, word.1.all isspace ∧ word.2.charset = charset)
    (encoded last : List UInt8) :
    decodeWords L encoded charset words last =
      (L.toUtf (encoded ++ words.flatMap fun word => word.2.decoded) charset).map
        fun out => out ++ last := by
  induction words generalizing encoded with
  | nil => simp [decodeWords]
  | cons word words ih =>
    obtain ⟨gap, w⟩ := word
    obtain ⟨hgap, hcharset⟩ := hwords _ List.mem_cons_self
    rw [decodeWords, if_pos hgap, hcharset,
      ih (fun word hword => hwords word (List.mem_cons_of_mem _ hword))]
    simp

theorem rfc2047Decode_of_words {words : List (List UInt8 × EncodedWord)} (hne : words ≠ [])
    {charset last : List UInt8} (hlast : chr '=' ∉ last)
    (hwords : ∀ word ∈ words, chr '=' ∉ word.1 ∧ word.2.Accepted)
    (hblank : ∀ word ∈ words, word.1.all isspace ∧ word.2.charset = charset) :
    rfc2047Decode L (wordText words ++ last) =
      (L.toUtf (words.flatMap fun word => word.2.decoded) charset).map fun out => out ++ last := by
  have hfuel : words.length ≤ (wordText words ++ last).length := by
    have hlength := length_le_wordText words
    rw [List.length_append]
    omega
  rw [rfc2047Decode, findWords_of_words hwords hlast hfuel]
  cases words with
  | nil => exact absurd rfl hne
  | cons word words =>
    obtain ⟨gap, w⟩ := word
    obtain ⟨hgap, hcharset⟩ := hblank _ List.mem_cons_self
    have hgap : gap.all isspace := hgap
    have hcharset : w.charset = charset := hcharset
    simp only [decodeWords, hgap, if_true, hcharset, List.nil_append, List.flatMap_cons]
    exact decodeWords_of_blank (fun word hword => hblank word (List.mem_cons_of_mem _ hword)) _ _

theorem rfc2047Decode_of_no_word (hL : L.Documented) {str : List UInt8}
    (h : findWord str = none) : rfc2047Decode L str = some str := by
  have hwords : ∀ fuel, findWords fuel str = ([], str) := by
    intro fuel
    cases fuel with
    | zero => rfl
    | succ fuel => simp only [findWords, h]
  simp [rfc2047Decode, hwords, decodeWords, hL.toUtf_nil]

theorem length_decodeWords_le (hL : L.Documented) {words : List (List UInt8 × EncodedWord)}
    {encoded charset last out : List UInt8}
    (h : decodeWords L encoded charset words last = some out) (hprint : ∀ ch ∈ out, isprint ch) :
    out.length + 7 * words.length ≤ encoded.length + (wordText words).length + last.length := by
  induction words generalizing encoded charset out with
  | nil =>
    obtain ⟨s, hs, rfl⟩ := Option.map_eq_some_iff.mp h
    have hlength := hL.length_toUtf_le _ _ _ hs fun ch hch => hprint ch (by simp [hch])
    simp only [List.length_append, wordText, List.flatMap_nil, List.length_nil]
    omega
  | cons word words ih =>
    obtain ⟨gap, w⟩ := word
    have hdecoded := w.length_decoded_le
    have hchars := w.length_chars
    have htext : (wordText ((gap, w) :: words)).length =
        gap.length + (w.chars.length + (wordText words).length) := by
      rw [wordText_cons, List.length_append, List.length_append]
    rw [List.length_cons]
    unfold decodeWords at h
    by_cases hgap : gap.all isspace
    · rw [if_pos hgap] at h
      have hrest := ih h hprint
      rw [List.length_append] at hrest
      omega
    · simp only [hgap, if_false, Option.bind_eq_bind, Option.bind_eq_some_iff, Option.some.injEq,
        Bool.false_eq_true] at h
      obtain ⟨s, hs, out', hout', rfl⟩ := h
      have hfirst := hL.length_toUtf_le _ _ _ hs fun ch hch => hprint ch (by simp [hch])
      have hrest := ih hout' fun ch hch => hprint ch (by simp [hch])
      simp only [List.length_append]
      omega

/-- A printable result is not longer than the text, and shorter when there is a word in it. -/
theorem length_rfc2047Decode (hL : L.Documented) {str out : List UInt8}
    (h : rfc2047Decode L str = some out) (hprint : ∀ ch ∈ out, isprint ch) :
    out.length ≤ str.length ∧ (findWord str ≠ none → out.length < str.length) := by
  have hlength := length_decodeWords_le hL h hprint
  have htext := congrArg List.length (findWords_text str.length str)
  rw [List.length_append] at htext
  rw [List.length_nil] at hlength
  refine ⟨by omega, fun hfind => ?_⟩
  have hwords : (findWords str.length str).1 ≠ [] := by
    obtain ⟨found, hfound⟩ := Option.ne_none_iff_exists'.mp hfind
    cases str with
    | nil => exact absurd rfl hfind
    | cons ch str =>
      rw [List.length_cons, findWords, hfound]
      simp
  have hpos := List.length_pos_of_ne_nil hwords
  omega

end Decode

end Email

end Acqua
