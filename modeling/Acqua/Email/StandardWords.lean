import Acqua.Email.EncodedWords

/-! The encoded words of a text, and which of them the pattern of `decode_mimeheader.ipp` finds. -/

namespace Acqua

namespace Email

/-- A character of the charset or of the text of an encoded word. -/
def isWordChar (ch : UInt8) : Bool := isgraph ch && ch ≠ chr '?'

/-- `=?charset?B or Q?text?=`. -/
structure EncodedWord.IsWord (w : EncodedWord) : Prop where
  charset_ne_nil : w.charset ≠ []
  charset_chars : ∀ ch ∈ w.charset, isWordChar ch
  enc_mem : w.enc ∈ octets "BbQq"
  text_chars : ∀ ch ∈ w.text, isWordChar ch

/-- No encoded word begins here. -/
def NoWord (s : List UInt8) : Prop := ∀ w : EncodedWord, w.IsWord → ¬ w.chars <+: s

/-- The encoded words of a text from its beginning on, each with what stands between it and the one
before, and what stands after the last one. -/
inductive Splits : List UInt8 → List (List UInt8 × EncodedWord) → List UInt8 → Prop
  | last {str : List UInt8} (h : ∀ s, s <:+ str → NoWord s) : Splits str [] str
  | word {gap rest last : List UInt8} {w : EncodedWord} {words : List (List UInt8 × EncodedWord)}
    (hw : w.IsWord) (hgap : ∀ s, s <:+ gap → s ≠ [] → NoWord (s ++ (w.chars ++ rest)))
    (h : Splits rest words last) : Splits (gap ++ (w.chars ++ rest)) ((gap, w) :: words) last

namespace EncodedWord

section Unique

variable {w w' : EncodedWord} {s : List UInt8}

theorem isWord_of_accepted (hw : w.Accepted) : w.IsWord := by
  have hcharset : ∀ ch : UInt8, isCharsetChar ch → isWordChar ch := octet_forall (by decide +kernel)
  have htext : ∀ ch : UInt8, isTextChar ch → isWordChar ch := octet_forall (by decide +kernel)
  obtain ⟨body, pad, heq, hbody, hpad⟩ := hw.text_eq
  refine ⟨hw.charset_ne_nil, fun ch hch => hcharset ch (hw.charset_chars ch hch), hw.enc_mem, ?_⟩
  rw [heq]
  refine List.forall_mem_append.mpr ⟨fun ch hch => htext ch (hbody ch hch), fun ch hch => ?_⟩
  rw [hpad ch hch]
  decide

theorem notMem_question {run : List UInt8} (h : ∀ ch ∈ run, isWordChar ch) : chr '?' ∉ run :=
  fun hmem => absurd (h _ hmem) (by decide)

theorem IsWord.enc_ne (hw : w.IsWord) : w.enc ≠ chr '?' := by
  intro heq
  have hmem := hw.enc_mem
  rw [heq] at hmem
  exact absurd hmem (by decide)

theorem run_unique {run run' t t' : List UInt8} (hrun : chr '?' ∉ run) (hrun' : chr '?' ∉ run')
    (h : run ++ chr '?' :: t = run' ++ chr '?' :: t') : run = run' ∧ t = t' := by
  have htake : ∀ {r u : List UInt8}, chr '?' ∉ r →
      (r ++ chr '?' :: u).takeWhile (· ≠ chr '?') = r := by
    intro r u hr
    refine takeWhile_run (fun ch hch => ?_) (by simp)
    have hne : ch ≠ chr '?' := fun heq => hr (heq ▸ hch)
    simpa using hne
  have heq : run = run' := by rw [← htake hrun (u := t), h, htake hrun']
  subst heq
  exact ⟨rfl, (List.cons.inj (List.append_cancel_left h)).2⟩

/-- There is only one encoded word that begins a text. -/
theorem IsWord.eq_of_pre (hw : w.IsWord) (hw' : w'.IsWord) (h : w.chars <+: s)
    (h' : w'.chars <+: s) : w = w' := by
  obtain ⟨t, ht⟩ := h
  obtain ⟨t', ht'⟩ := h'
  have heq := ht.trans ht'.symm
  rw [chars_eq, chars_eq, List.cons.injEq, List.cons.injEq] at heq
  obtain ⟨hcharset, hbehind⟩ := run_unique (notMem_question hw.charset_chars)
    (notMem_question hw'.charset_chars) heq.2.2
  rw [List.cons.injEq, List.cons.injEq] at hbehind
  obtain ⟨htext, -⟩ := run_unique (notMem_question hw.text_chars) (notMem_question hw'.text_chars)
    hbehind.2.2
  obtain ⟨charset, enc, text⟩ := w
  simp_all

theorem IsWord.count_chars (hw : w.IsWord) : w.chars.count (chr '?') = 4 := by
  have hcharset := List.count_eq_zero.mpr (notMem_question hw.charset_chars)
  have htext := List.count_eq_zero.mpr (notMem_question hw.text_chars)
  have hopen : chr '=' ≠ chr '?' := by decide
  have hchars := w.chars_eq []
  rw [List.append_nil] at hchars
  rw [hchars]
  simp [List.count_append, hcharset, htext, hw.enc_ne, hopen]

/-- No encoded word begins inside another one. -/
theorem IsWord.eq_of_suffix (hw : w.IsWord) (hw' : w'.IsWord) (hs : s <:+ w.chars)
    (h : w'.chars <+: s) : s = w.chars := by
  obtain ⟨pre, hpre⟩ := hs
  obtain ⟨t, ht⟩ := h
  have hcount := hw.count_chars
  rw [← hpre, ← ht, List.count_append, List.count_append, hw'.count_chars] at hcount
  have hzero : chr '?' ∉ pre := List.count_eq_zero.mp (by omega)
  have hchars := w.chars_eq []
  rw [List.append_nil, ← hpre, ← ht, chars_eq] at hchars
  rcases pre with _ | ⟨ch, _ | ⟨ch', pre⟩⟩
  · exact hpre
  · simp only [List.cons_append, List.nil_append, List.cons.injEq] at hchars
    exact absurd hchars.2.1 (by decide)
  · simp only [List.cons_append, List.cons.injEq] at hchars
    rw [hchars.2.1] at hzero
    exact absurd (by simp) hzero

end Unique

end EncodedWord

section NoWord

variable {s s' gap : List UInt8} {w : EncodedWord}

theorem NoWord.of_pre (h : NoWord s') (hs : s <+: s') : NoWord s :=
  fun w hw hword => h w hw (hword.trans hs)

/-- The pattern finds nothing but encoded words. -/
theorem NoWord.wordAt (h : NoWord s) : wordAt s = none := by
  refine Option.eq_none_iff_forall_ne_some.mpr fun w hw => ?_
  obtain ⟨haccepted, hprefix⟩ := wordAt_spec hw
  exact h w (EncodedWord.isWord_of_accepted haccepted) hprefix

theorem noWord_nil : NoWord [] := by
  intro w _ h
  have hlength := w.length_chars
  rw [List.prefix_nil.mp h] at hlength
  simp at hlength

theorem noWord_of_notMem (hs : chr '=' ∉ s) (hne : s ≠ []) (t : List UInt8) : NoWord (s ++ t) := by
  intro w _ hprefix
  obtain ⟨rest, hrest⟩ := hprefix
  cases s with
  | nil => exact hne rfl
  | cons ch s =>
    rw [w.chars_eq rest, List.cons_append, List.cons.injEq] at hrest
    exact hs (hrest.1 ▸ List.mem_cons_self)

/-- An encoded word that the pattern does not match is text to it. -/
theorem findWord_of_not_accepted (hw : w.IsWord) (haccepted : ¬ w.Accepted)
    (hgap : ∀ s, s <:+ gap → s ≠ [] → NoWord (s ++ w.chars)) : findWord (gap ++ w.chars) = none := by
  have hchars : findWord w.chars = none := by
    refine findWord_eq_none_iff_suffix.mpr fun s hs => ?_
    refine Option.eq_none_iff_forall_ne_some.mpr fun w' hw' => ?_
    obtain ⟨haccepted', hprefix⟩ := wordAt_spec hw'
    have hword' := EncodedWord.isWord_of_accepted haccepted'
    have hwhole := hw.eq_of_suffix hword' hs hprefix
    rw [hwhole] at hprefix
    rw [hw.eq_of_pre hword' List.prefix_rfl hprefix] at haccepted
    exact haccepted haccepted'
  rw [findWord_append fun s hs hne => (hgap s hs hne).wordAt, hchars]
  rfl

end NoWord

section Splits

variable {str last : List UInt8} {words : List (List UInt8 × EncodedWord)}

theorem exists_first (h : ¬ ∀ s, s <:+ str → NoWord s) :
    ∃ gap rest, ∃ w : EncodedWord, w.IsWord ∧ str = gap ++ (w.chars ++ rest) ∧
      ∀ s, s <:+ gap → s ≠ [] → NoWord (s ++ (w.chars ++ rest)) := by
  induction str with
  | nil =>
    refine absurd (fun s hs => ?_) h
    rw [List.suffix_nil.mp hs]
    exact noWord_nil
  | cons ch str ih =>
    by_cases hfirst : NoWord (ch :: str)
    · have hrest : ¬ ∀ s, s <:+ str → NoWord s := by
        intro hall
        refine h fun s hs => ?_
        rcases List.suffix_cons_iff.mp hs with rfl | hs
        · exact hfirst
        · exact hall s hs
      obtain ⟨gap, rest, w, hw, rfl, hgap⟩ := ih hrest
      refine ⟨ch :: gap, rest, w, hw, rfl, fun s hs hne => ?_⟩
      rcases List.suffix_cons_iff.mp hs with rfl | hs
      · exact hfirst
      · exact hgap s hs hne
    · simp only [NoWord, not_forall, not_not] at hfirst
      obtain ⟨w, hw, rest, hrest⟩ := hfirst
      refine ⟨[], rest, w, hw, hrest.symm, fun s hs hne => ?_⟩
      exact absurd (List.suffix_nil.mp hs) hne

/-- Every text is made of encoded words and of what stands between them. -/
theorem exists_splits (str : List UInt8) : ∃ words last, Splits str words last := by
  induction hlength : str.length using Nat.strong_induction_on generalizing str with
  | _ n ih =>
    by_cases h : ∀ s, s <:+ str → NoWord s
    · exact ⟨[], str, .last h⟩
    · obtain ⟨gap, rest, w, hw, rfl, hgap⟩ := exists_first h
      have hchars := w.length_chars
      have hlt : rest.length < n := by
        rw [← hlength, List.length_append, List.length_append]
        omega
      obtain ⟨words, last, hsplits⟩ := ih rest.length hlt rest rfl
      exact ⟨_, _, .word hw hgap hsplits⟩

theorem splits_of_notMem (hwords : ∀ word ∈ words, chr '=' ∉ word.1 ∧ word.2.IsWord)
    (hlast : chr '=' ∉ last) : Splits (wordText words ++ last) words last := by
  induction words with
  | nil =>
    refine .last fun s hs => ?_
    by_cases hne : s = []
    · rw [hne]
      exact noWord_nil
    · have hno := noWord_of_notMem (fun hmem => hlast (hs.subset hmem)) hne []
      rwa [List.append_nil] at hno
  | cons word words ih =>
    obtain ⟨⟨hgap, hw⟩, hrest⟩ := List.forall_mem_cons.mp hwords
    rw [wordText_cons, List.append_assoc, List.append_assoc]
    exact .word hw (fun s hs hne => noWord_of_notMem (fun hmem => hgap (hs.subset hmem)) hne _)
      (ih hrest)

theorem Splits.text (h : Splits str words last) : str = wordText words ++ last := by
  induction h with
  | last => rfl
  | word hw hgap h ih =>
    rw [wordText_cons, List.append_assoc, List.append_assoc, ← ih]

theorem Splits.last_noWord (h : Splits str words last) : ∀ s, s <:+ last → NoWord s := by
  induction h with
  | last h => exact h
  | word hw hgap h ih => exact ih

/-- A word of a text with what stands before and after it. -/
theorem Splits.gap {pre post : List (List UInt8 × EncodedWord)} {gap : List UInt8}
    {w : EncodedWord} (h : Splits str words last) (hwords : words = pre ++ (gap, w) :: post) :
    w.IsWord ∧ ∀ s, s <:+ gap → s ≠ [] → NoWord (s ++ w.chars) := by
  induction h generalizing pre with
  | last => simp at hwords
  | word hw hgap h ih =>
    cases pre with
    | nil =>
      simp only [List.nil_append, List.cons.injEq, Prod.mk.injEq] at hwords
      obtain ⟨⟨rfl, rfl⟩, -⟩ := hwords
      refine ⟨hw, fun s hs hne => (hgap s hs hne).of_pre ?_⟩
      exact (List.prefix_append_right_inj s).mpr (List.prefix_append _ _)
    | cons word pre =>
      rw [List.cons_append, List.cons.injEq] at hwords
      exact ih hwords.2

/-- The pattern finds the first words of a text as long as it matches them. -/
theorem Splits.findWords {pre : List (List UInt8 × EncodedWord)} {tail : List UInt8}
    (h : Splits str words last) (hpre : pre <+: words) (hstr : wordText pre ++ tail <+: str)
    (haccepted : ∀ word ∈ pre, word.2.Accepted) (htail : findWord tail = none) {fuel : Nat}
    (hfuel : pre.length ≤ fuel) : findWords fuel (wordText pre ++ tail) = (pre, tail) := by
  induction h generalizing pre fuel with
  | last =>
    obtain rfl := List.prefix_nil.mp hpre
    cases fuel with
    | zero => rfl
    | succ fuel => simp [Email.findWords, wordText, htail]
  | @word gap rest last w words hw hgap h ih =>
    cases pre with
    | nil =>
      cases fuel with
      | zero => rfl
      | succ fuel => simp [Email.findWords, wordText, htail]
    | cons word pre =>
      obtain ⟨rfl, hmore⟩ := List.cons_prefix_cons.mp hpre
      obtain ⟨hfound, hrest⟩ := List.forall_mem_cons.mp haccepted
      cases fuel with
      | zero => simp at hfuel
      | succ fuel =>
        rw [wordText_cons, List.append_assoc, List.append_assoc] at hstr ⊢
        have hbehind : wordText pre ++ tail <+: rest := by
          rwa [List.prefix_append_right_inj, List.prefix_append_right_inj] at hstr
        have hfirst : ∀ s, s <:+ gap → s ≠ [] →
            wordAt (s ++ (w.chars ++ (wordText pre ++ tail))) = none := by
          intro s hs hne
          refine ((hgap s hs hne).of_pre ?_).wordAt
          rwa [List.prefix_append_right_inj, List.prefix_append_right_inj]
        rw [Email.findWords, findWord_append hfirst, findWord_chars hfound]
        simp only [Option.map_some, List.append_nil,
          ih hmore hbehind hrest (Nat.succ_le_succ_iff.mp hfuel)]

end Splits

end Email

end Acqua
