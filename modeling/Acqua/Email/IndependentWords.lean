import Acqua.Email.HeaderBlock
import Acqua.Email.StandardWords

/-! Whether the encoded words of a text are decoded one by one. -/

namespace Acqua

namespace Email

/-- What a character that begins no escape stands for in the encoding `Q`. -/
def qChar (ch : UInt8) : UInt8 := if ch = chr '_' then chr ' ' else ch

/-- What a text stands for in the encoding `Q`. -/
def qText : List UInt8 → List UInt8
  | [] => []
  | ch :: upper :: lower :: text =>
    if ch = chr '=' ∧ isxdigit upper ∧ isxdigit lower then
      UInt8.ofNat (16 * hexValue upper + hexValue lower) :: qText text
    else qChar ch :: qText (upper :: lower :: text)
  | ch :: text => qChar ch :: qText text

namespace EncodedWord

/-- What the text of a word stands for in its encoding. -/
def data (w : EncodedWord) : List UInt8 :=
  if w.enc = chr 'B' ∨ w.enc = chr 'b' then Base64Decoder.decode base64Traits w.text
  else qText w.text

/-- A text in the encoding `Q` in which every character stands for itself. -/
def Plain (w : EncodedWord) : Prop :=
  w.enc ∈ octets "Qq" → chr '_' ∉ w.text ∧ chr '=' ∉ w.text

end EncodedWord

section Decoding

variable (L : Locale)

/-- Every word in its own charset, and all that is not blank between two words. -/
def independentFrom : List (List UInt8 × EncodedWord) → List UInt8 → Option (List UInt8)
  | [], last => some last
  | (gap, w) :: rest, last => do
    let out ← L.toUtf w.data w.charset
    let out' ← independentFrom rest last
    some ((if gap.all isspace then [] else gap) ++ out ++ out')

/-- What a text of these words is to be decoded to: blanks before the first word are not between
two words. -/
def independent : List (List UInt8 × EncodedWord) → List UInt8 → Option (List UInt8)
  | [], last => some last
  | (gap, w) :: rest, last => do
    let out ← L.toUtf w.data w.charset
    let out' ← independentFrom L rest last
    some (gap ++ out ++ out')

/-- The octets are whole characters of a charset that is known. -/
structure Locale.Takes (charset str out : List UInt8) : Prop where
  alone : L.toUtf str charset = some out
  before : ∀ rest, L.toUtf (str ++ rest) charset = (L.toUtf rest charset).map (out ++ ·)

/-- A conversion in which every word is made of whole characters. The letter case of a charset does
not matter. -/
structure Locale.Reads (words : List (List UInt8 × EncodedWord)) : Prop where
  nil : L.toUtf [] [] = some []
  iequals : ∀ str charset charset', iequals charset charset' →
    L.toUtf str charset = L.toUtf str charset'
  whole : ∀ word ∈ words, ∃ out, L.Takes word.2.charset word.2.data out

/-- What words with only blanks between them stand for, converted at once with the charset of any
of them, is what the words up to it are converted to one by one. `encoded` is what those before
stand for and `alone` what they are converted to; behind a conversion that throws nothing is
asked. -/
def Locale.Joins : List UInt8 → Option (List UInt8) → List (List UInt8 × EncodedWord) → Prop
  | _, _, [] => True
  | encoded, alone, (gap, w) :: rest =>
    if gap.all isspace then
      let more := alone.bind fun out => (L.toUtf w.data w.charset).map (out ++ ·)
      L.toUtf (encoded ++ w.data) w.charset = more ∧ Joins (encoded ++ w.data) more rest
    else alone.isSome → Joins w.data (L.toUtf w.data w.charset) rest

/-- The text, and the text up to any of its words, is decoded word by word. -/
def DecodesIndependently (words : List (List UInt8 × EncodedWord)) (last : List UInt8) : Prop :=
  rfc2047Decode L (wordText words ++ last) = independent L words last ∧
    ∀ pre, pre <+: words → rfc2047Decode L (wordText pre) = independent L pre []

end Decoding

/-- A word behind others, with only blanks between, is in their charset, unless they are empty.
`encoded` is what these stand for. -/
def OneCharset : List UInt8 → List UInt8 → List (List UInt8 × EncodedWord) → Prop
  | _, _, [] => True
  | encoded, charset, (gap, w) :: rest =>
    if gap.all isspace then
      (encoded = [] ∨ iequals charset w.charset) ∧ OneCharset (encoded ++ w.data) w.charset rest
    else OneCharset w.data w.charset rest

/-- Words that the pattern matches, in one charset where only blanks are between them, and no
blanks before the first one. -/
structure Decodable (words : List (List UInt8 × EncodedWord)) : Prop where
  accepted : ∀ word ∈ words, word.2.Accepted
  plain : ∀ word ∈ words, word.2.Plain
  begins : ∀ word ∈ words.head?, word.1.all isspace → word.1 = []
  oneCharset : OneCharset [] [] words

section Data

theorem qText_cons {ch : UInt8} (hch : ch ≠ chr '=') (text : List UInt8) :
    qText (ch :: text) = qChar ch :: qText text := by
  rcases text with _ | ⟨upper, _ | ⟨lower, text⟩⟩
  · rfl
  · rfl
  · rw [qText, if_neg fun h => hch h.1]

theorem qText_append {body : List UInt8} (hbody : chr '=' ∉ body) (pad : List UInt8) :
    qText (body ++ pad) = body.map qChar ++ qText pad := by
  induction body with
  | nil => rfl
  | cons ch body ih =>
    rw [List.mem_cons, not_or] at hbody
    rw [List.cons_append, qText_cons (Ne.symm hbody.1), ih hbody.2]
    rfl

theorem qText_pad {pad : List UInt8} (hpad : ∀ ch ∈ pad, ch = chr '=') : qText pad = pad := by
  induction pad with
  | nil => rfl
  | cons ch pad ih =>
    obtain ⟨rfl, hrest⟩ := List.forall_mem_cons.mp hpad
    have hdigit : isxdigit (chr '=') = false := by decide
    have hchar : qChar (chr '=') = chr '=' := by decide
    rcases pad with _ | ⟨upper, _ | ⟨lower, pad⟩⟩
    · rfl
    · obtain rfl := hrest upper (by simp)
      rfl
    · obtain rfl := hrest upper (by simp)
      rw [qText, if_neg (by simp [hdigit]), hchar, ih hrest]

/-- The states of the decoder between the characters `=` at the end of a text. -/
def PadState (d : QprintDecoder) : Prop :=
  d = .init ∨ d = ⟨chr '=', 0⟩ ∨ d = ⟨chr '=', chr '='⟩

/-- Nothing is written for the characters `=` at the end of a text. -/
theorem offer_pad {pad : List UInt8} (hpad : ∀ ch ∈ pad, ch = chr '=') {d : QprintDecoder}
    (hd : PadState d) : (offer QprintDecoder.put d pad).2.1 = [] ∧
      PadState (offer QprintDecoder.put d pad).1 := by
  induction pad generalizing d with
  | nil => exact ⟨rfl, hd⟩
  | cons ch pad ih =>
    obtain ⟨rfl, hrest⟩ := List.forall_mem_cons.mp hpad
    have hfirst : QprintDecoder.put .init (chr '=') = (⟨chr '=', 0⟩, some []) := rfl
    have hsecond : QprintDecoder.put ⟨chr '=', 0⟩ (chr '=') = (⟨chr '=', chr '='⟩, some []) := rfl
    have hthird : QprintDecoder.put ⟨chr '=', chr '='⟩ (chr '=') = (.init, none) := rfl
    rcases hd with rfl | rfl | rfl
    · rw [offer_cons hfirst]
      exact ih hrest (.inr (.inl rfl))
    · rw [offer_cons hsecond]
      exact ih hrest (.inr (.inr rfl))
    · rw [offer_refused hthird]
      exact ⟨rfl, .inl rfl⟩

theorem written_padded {body pad : List UInt8} (hbody : chr '=' ∉ body)
    (hpad : ∀ ch ∈ pad, ch = chr '=') :
    QprintDecoder.written (.flushed 1) (body ++ pad) = body := by
  obtain ⟨hnone, hstate⟩ := offer_pad hpad (.inl rfl)
  have hleft : ∀ ch ∈ (offer QprintDecoder.put .init pad).2.2, ch = chr '=' :=
    fun ch hch => hpad ch ((offer_left_suffix _ pad).subset hch)
  rw [QprintDecoder.written_flushed_one, QprintDecoder.offered, QprintDecoder.reoffered,
    offer_append, QprintDecoder.offer_unescaped hbody, if_pos rfl]
  simp only [hnone, (offer_pad hleft hstate).1, List.append_nil]

theorem qChar_eq_iff (ch : UInt8) : qChar ch = ch ↔ ch ≠ chr '_' := by
  by_cases hch : ch = chr '_'
  · subst hch
    decide
  · simp [qChar, hch]

theorem map_qChar_eq_iff {body pad : List UInt8} :
    body = body.map qChar ++ pad ↔ chr '_' ∉ body ∧ pad = [] := by
  have hfixed : body.map qChar = body ↔ chr '_' ∉ body := by
    rw [← List.map_id body, List.map_map, Function.comp_id, List.map_inj_left, List.map_id]
    simp only [id, qChar_eq_iff]
    exact ⟨fun h hmem => h _ hmem rfl, fun h ch hch heq => h (heq ▸ hch)⟩
  constructor
  · intro h
    have hlength := congrArg List.length h
    rw [List.length_append, List.length_map] at hlength
    obtain rfl : pad = [] := List.length_eq_zero_iff.mp (by omega)
    rw [List.append_nil] at h
    exact ⟨hfixed.mp h.symm, rfl⟩
  · rintro ⟨hbody, rfl⟩
    rw [hfixed.mpr hbody, List.append_nil]

/-- The pattern matches no escape, so the filter gives what the text stands for where every
character stands for itself. -/
theorem decoded_eq_data_iff {w : EncodedWord} (hw : w.Accepted) : w.decoded = w.data ↔ w.Plain := by
  by_cases henc : w.enc = chr 'B' ∨ w.enc = chr 'b'
  · rw [EncodedWord.decoded, EncodedWord.data, if_pos henc, if_pos henc]
    refine iff_of_true rfl fun hq => ?_
    rcases henc with henc | henc <;> exact absurd (henc ▸ hq) (by decide)
  · have hq : w.enc ∈ octets "Qq" := by
      have hletters : octets "BbQq" = [chr 'B', chr 'b'] ++ octets "Qq" := rfl
      have hmem := hw.enc_mem
      rw [hletters, List.mem_append, List.mem_pair] at hmem
      exact hmem.resolve_left henc
    obtain ⟨body, pad, htext, hbody, hpad⟩ := hw.text_eq
    have hnoPad : chr '=' ∉ body := fun hmem => absurd (hbody _ hmem) (by decide)
    have hdecoded : w.decoded = body := by
      rw [EncodedWord.decoded, if_neg henc, htext, written_padded hnoPad hpad]
    rw [hdecoded, EncodedWord.data, if_neg henc, EncodedWord.Plain, htext, qText_append hnoPad,
      qText_pad hpad, map_qChar_eq_iff]
    have hempty : pad = [] ↔ chr '=' ∉ pad := by
      refine ⟨fun h => by simp [h], fun h => List.eq_nil_iff_forall_not_mem.mpr fun ch hch => ?_⟩
      exact h (hpad ch hch ▸ hch)
    have hunderscore : chr '_' ∉ pad := fun hmem => absurd (hpad _ hmem) (by decide)
    simp [hq, hnoPad, hempty, hunderscore]

end Data

section Scan

variable {L : Locale} {str last : List UInt8} {words pre : List (List UInt8 × EncodedWord)}

theorem Splits.rfc2047Decode (h : Splits str words last) {tail : List UInt8} (hpre : pre <+: words)
    (hstr : wordText pre ++ tail <+: str) (haccepted : ∀ word ∈ pre, word.2.Accepted)
    (htail : findWord tail = none) :
    Email.rfc2047Decode L (wordText pre ++ tail) = decodeWords L [] [] pre tail := by
  have hfuel : pre.length ≤ (wordText pre ++ tail).length := by
    have hlength := length_le_wordText pre
    rw [List.length_append]
    omega
  rw [Email.rfc2047Decode, h.findWords hpre hstr haccepted htail hfuel]

theorem wordText_pre (hpre : pre <+: words) : wordText pre <+: wordText words := by
  obtain ⟨post, rfl⟩ := hpre
  rw [wordText, wordText, List.flatMap_append]
  exact List.prefix_append _ _

theorem Splits.rfc2047Decode_pre (h : Splits str words last) (hpre : pre <+: words)
    (haccepted : ∀ word ∈ pre, word.2.Accepted) :
    Email.rfc2047Decode L (wordText pre) = decodeWords L [] [] pre [] := by
  have hstr : wordText pre ++ [] <+: str := by
    rw [List.append_nil, h.text]
    exact (wordText_pre hpre).trans (List.prefix_append _ _)
  have hdecode := h.rfc2047Decode (L := L) hpre hstr haccepted rfl
  rwa [List.append_nil] at hdecode

theorem Splits.rfc2047Decode_text (h : Splits str words last)
    (haccepted : ∀ word ∈ words, word.2.Accepted) :
    Email.rfc2047Decode L (wordText words ++ last) = decodeWords L [] [] words last := by
  refine h.rfc2047Decode List.prefix_rfl ?_ haccepted ?_
  · rw [← h.text]
  · exact findWord_eq_none_iff_suffix.mpr fun s hs => (h.last_noWord s hs).wordAt

theorem decodeWords_last (encoded charset : List UInt8)
    (words : List (List UInt8 × EncodedWord)) (last : List UInt8) :
    decodeWords L encoded charset words last =
      (decodeWords L encoded charset words []).map (· ++ last) := by
  induction words generalizing encoded charset with
  | nil => simp [decodeWords]
  | cons word words ih =>
    obtain ⟨gap, w⟩ := word
    simp only [decodeWords]
    split_ifs
    · exact ih _ _
    · rw [ih]
      cases L.toUtf encoded charset with
      | none => rfl
      | some out =>
        cases decodeWords L w.decoded w.charset words [] with
        | none => rfl
        | some out' => simp

end Scan

section Sufficient

variable {L : Locale} {charset str out : List UInt8}

theorem Locale.Takes.nil (h : L.Takes charset [] out) : out = [] := by
  have htwice := h.before []
  rw [List.nil_append, h.alone] at htwice
  simpa using htwice

theorem Locale.Takes.append {str' out' : List UInt8} (h : L.Takes charset str out)
    (h' : L.Takes charset str' out') : L.Takes charset (str ++ str') (out ++ out') where
  alone := by rw [h.before, h'.alone, Option.map_some]
  before rest := by
    rw [List.append_assoc, h.before, h'.before, Option.map_map]
    simp [Function.comp_def]

/-- Words in one charset are converted at once to what they are converted to one by one. -/
theorem decodeWords_eq {words : List (List UInt8 × EncodedWord)} (hL : L.Reads words)
    (hstr : L.Takes charset str out) (hdecoded : ∀ word ∈ words, word.2.decoded = word.2.data)
    (hone : OneCharset str charset words) (last : List UInt8) :
    decodeWords L str charset words last = (independentFrom L words last).map (out ++ ·) := by
  induction words generalizing str charset out with
  | nil => simp [decodeWords, independentFrom, hstr.alone]
  | cons word words ih =>
    obtain ⟨gap, w⟩ := word
    obtain ⟨outWord, hword⟩ := hL.whole _ List.mem_cons_self
    obtain ⟨hdata, hdecoded⟩ := List.forall_mem_cons.mp hdecoded
    have hrest : L.Reads words :=
      ⟨hL.nil, hL.iequals, fun word hword => hL.whole word (List.mem_cons_of_mem _ hword)⟩
    have halone : L.toUtf w.data w.charset = some outWord := hword.alone
    have hdata : w.decoded = w.data := hdata
    simp only [decodeWords, independentFrom, OneCharset, hdata, halone, Option.bind_eq_bind,
      Option.bind_some] at hone ⊢
    split_ifs at hone ⊢
    · obtain ⟨hsame, hone⟩ := hone
      have hnext : L.Takes w.charset (str ++ w.data) (out ++ outWord) := by
        rcases hsame with rfl | hsame
        · rwa [hstr.nil]
        · have hcharset : ∀ s, L.toUtf s charset = L.toUtf s w.charset :=
            fun s => hL.iequals s _ _ hsame
          refine Locale.Takes.append ⟨?_, fun rest => ?_⟩ hword
          · rw [← hcharset, hstr.alone]
          · rw [← hcharset, ← hcharset, hstr.before]
      rw [ih hrest hnext hdecoded hone]
      cases independentFrom L words last <;> simp
    · rw [hstr.alone, Option.bind_some, ih hrest hword hdecoded hone]
      cases independentFrom L words last <;> simp

end Sufficient

section Necessary

variable {str last : List UInt8} {words : List (List UInt8 × EncodedWord)}
  (g : List UInt8 → UInt8 → List UInt8)

/-- A conversion of one octet after the other. -/
def octetwise : Locale where
  trailLength _ := 0
  fromUtf _ str := some str
  toUtf str charset := some (str.flatMap (g (charset.map toupper)))

theorem toUtf_octetwise (str charset : List UInt8) :
    (octetwise g).toUtf str charset = some (str.flatMap (g (charset.map toupper))) := rfl

theorem reads_octetwise (words : List (List UInt8 × EncodedWord)) : (octetwise g).Reads words where
  nil := rfl
  iequals str charset charset' h := by rw [toUtf_octetwise, toUtf_octetwise, iequals_iff.mp h]
  whole _ _ := ⟨_, rfl, fun rest => by simp [toUtf_octetwise]⟩

theorem independentFrom_octetwise (words : List (List UInt8 × EncodedWord)) (last : List UInt8) :
    ∃ out, independentFrom (octetwise g) words last = some out := by
  induction words with
  | nil => exact ⟨last, rfl⟩
  | cons word words ih =>
    obtain ⟨out, hout⟩ := ih
    simp [independentFrom, hout, toUtf_octetwise]

theorem decodeWords_octetwise (encoded charset : List UInt8)
    (words : List (List UInt8 × EncodedWord)) (last : List UInt8) :
    ∃ out, decodeWords (octetwise g) encoded charset words last = some out := by
  induction words generalizing encoded charset with
  | nil => exact ⟨_, rfl⟩
  | cons word words ih =>
    obtain ⟨gap, w⟩ := word
    rw [decodeWords]
    split_ifs
    · exact ih _ _
    · obtain ⟨out, hout⟩ := ih w.decoded w.charset
      simp [hout, toUtf_octetwise]

/-- A conversion that skips everything. -/
def silent : Locale := octetwise fun _ _ => []

theorem toUtf_silent (str charset : List UInt8) : silent.toUtf str charset = some [] := by
  simp [silent, toUtf_octetwise]

theorem independentFrom_silent (pre : List (List UInt8 × EncodedWord)) (gap : List UInt8)
    (w : EncodedWord) : ∃ kept : List UInt8, kept.length ≤ gap.length ∧
      independentFrom silent (pre ++ [(gap, w)]) [] =
        (independentFrom silent pre []).map (· ++ kept) := by
  induction pre with
  | nil =>
    refine ⟨if gap.all isspace then [] else gap, ?_, by simp [independentFrom, toUtf_silent]⟩
    split_ifs <;> simp
  | cons word pre ih =>
    obtain ⟨kept, hkept, hfrom⟩ := ih
    refine ⟨kept, hkept, ?_⟩
    rw [List.cons_append, independentFrom, independentFrom, hfrom]
    cases independentFrom silent pre [] <;> simp [toUtf_silent]

/-- No more than what stands before a word is kept of it. -/
theorem independent_silent (pre : List (List UInt8 × EncodedWord)) (gap : List UInt8)
    (w : EncodedWord) : ∃ kept : List UInt8, kept.length ≤ gap.length ∧
      independent silent (pre ++ [(gap, w)]) [] =
        (independent silent pre []).map (· ++ kept) := by
  cases pre with
  | nil => exact ⟨gap, le_rfl, by simp [independent, independentFrom, toUtf_silent]⟩
  | cons word pre =>
    obtain ⟨kept, hkept, hfrom⟩ := independentFrom_silent pre gap w
    refine ⟨kept, hkept, ?_⟩
    rw [List.cons_append, independent, independent, hfrom]
    cases independentFrom silent pre [] <;> simp [toUtf_silent]

theorem exists_independent_silent (pre : List (List UInt8 × EncodedWord)) :
    ∃ out, independent silent pre [] = some out := by
  cases pre with
  | nil => exact ⟨[], rfl⟩
  | cons word pre =>
    obtain ⟨out, hout⟩ : ∃ out, independentFrom silent pre [] = some out :=
      independentFrom_octetwise _ pre []
    simp [independent, toUtf_silent, hout]

/-- A word that the pattern does not match comes back as it is. -/
theorem accepted_of_decodes (h : Splits str words last)
    (hdecodes : DecodesIndependently silent words last) : ∀ word ∈ words, word.2.Accepted := by
  have hpre : ∀ pre, pre <+: words → ∀ word ∈ pre, word.2.Accepted := by
    intro pre
    induction pre using List.reverseRecOn with
    | nil => simp
    | append_singleton pre word ih =>
      intro hword
      obtain ⟨gap, w⟩ := word
      obtain ⟨post, hpost⟩ := hword
      have hwords : words = pre ++ (gap, w) :: post := by rw [← hpost]; simp
      have hbefore : pre <+: words := ⟨(gap, w) :: post, hwords.symm⟩
      have haccepted := ih hbefore
      refine List.forall_mem_append.mpr ⟨haccepted, ?_⟩
      rw [List.forall_mem_singleton]
      by_contra hnot
      obtain ⟨hw, hgap⟩ := h.gap hwords
      have htext : wordText (pre ++ [(gap, w)]) = wordText pre ++ (gap ++ w.chars) := by
        simp [wordText]
      have hstr : wordText pre ++ (gap ++ w.chars) <+: str := by
        rw [← htext, h.text]
        exact (wordText_pre ⟨post, hpost⟩).trans (List.prefix_append _ _)
      have hcode : rfc2047Decode silent (wordText (pre ++ [(gap, w)])) =
          (rfc2047Decode silent (wordText pre)).map (· ++ (gap ++ w.chars)) := by
        rw [htext, h.rfc2047Decode hbefore hstr haccepted (findWord_of_not_accepted hw hnot hgap),
          decodeWords_last, h.rfc2047Decode_pre hbefore haccepted]
      obtain ⟨-, hprefixes⟩ := hdecodes
      obtain ⟨kept, hkept, hconcat⟩ := independent_silent pre gap w
      rw [hprefixes _ ⟨post, hpost⟩, hprefixes _ hbefore, hconcat] at hcode
      obtain ⟨out, hout⟩ := exists_independent_silent pre
      have hlength := w.length_chars
      have hsame := congrArg (Option.map List.length) hcode
      simp only [hout, Option.map_some, List.length_append, Option.some.injEq] at hsame
      omega
  exact hpre words List.prefix_rfl

theorem begins_of_decodes (h : Splits str words last)
    (hdecodes : DecodesIndependently silent words last)
    (haccepted : ∀ word ∈ words, word.2.Accepted) :
    ∀ word ∈ words.head?, word.1.all isspace → word.1 = [] := by
  intro word hword hblank
  obtain ⟨post, rfl⟩ : ∃ post, words = word :: post := by
    cases words with
    | nil => simp at hword
    | cons first post => exact ⟨post, by simpa using hword⟩
  obtain ⟨gap, w⟩ := word
  have hpre : [(gap, w)] <+: (gap, w) :: post := ⟨post, rfl⟩
  have hcode := hdecodes.2 _ hpre
  rw [h.rfc2047Decode_pre hpre fun word hword => haccepted word (hpre.subset hword)] at hcode
  have hblank : gap.all isspace := hblank
  simp only [decodeWords, hblank, if_true, toUtf_silent, independent, independentFrom] at hcode
  simpa using hcode.symm

/-- The words of one run are in one charset, and each is decoded as its encoding says. -/
theorem oneCharset_of_decodes {encoded charset : List UInt8}
    (h : ∀ g pre, pre <+: words → decodeWords (octetwise g) encoded charset pre [] =
      (independentFrom (octetwise g) pre []).map
        (encoded.flatMap (g (charset.map toupper)) ++ ·)) :
    (∀ word ∈ words, word.2.decoded = word.2.data) ∧ OneCharset encoded charset words := by
  induction words generalizing encoded charset with
  | nil => exact ⟨by simp, trivial⟩
  | cons word words ih =>
    obtain ⟨gap, w⟩ := word
    have hfirst : [(gap, w)] <+: (gap, w) :: words := ⟨words, rfl⟩
    have hmore : ∀ {pre : List (List UInt8 × EncodedWord)}, pre <+: words →
        (gap, w) :: pre <+: (gap, w) :: words := fun hpre => List.cons_prefix_cons.mpr ⟨rfl, hpre⟩
    by_cases hblank : gap.all isspace
    · have hstep : ∀ g : List UInt8 → UInt8 → List UInt8,
          (encoded ++ w.decoded).flatMap (g (w.charset.map toupper)) =
            encoded.flatMap (g (charset.map toupper)) ++
              w.data.flatMap (g (w.charset.map toupper)) := by
        intro g
        have hone := h g _ hfirst
        simpa [decodeWords, independentFrom, hblank, toUtf_octetwise] using hone
      have hdata : w.decoded = w.data := by simpa using hstep fun _ ch => [ch]
      have hsame : encoded = [] ∨ iequals charset w.charset := by
        by_contra hnot
        obtain ⟨hne, hcharset⟩ := not_or.mp hnot
        rw [iequals_iff] at hcharset
        have hlost := hstep fun charset' ch => if charset' = w.charset.map toupper then [] else [ch]
        have hnil : ∀ str : List UInt8, (str.flatMap fun _ => ([] : List UInt8)) = [] :=
          fun str => List.flatMap_eq_nil_iff.mpr fun _ _ => rfl
        simp only [hcharset, if_true, if_false, hnil, List.append_nil, List.flatMap_singleton'] at hlost
        exact hne hlost.symm
      have hrest := @ih (encoded ++ w.decoded) w.charset fun g pre hpre => by
        have hpre := h g _ (hmore hpre)
        obtain ⟨out, hout⟩ := independentFrom_octetwise g pre []
        simp only [decodeWords, independentFrom, hblank, if_true, toUtf_octetwise, hout] at hpre ⊢
        rw [hpre, hstep]
        simp
      rw [OneCharset, if_pos hblank, ← hdata]
      exact ⟨List.forall_mem_cons.mpr ⟨hdata, hrest.1⟩, hsame, hrest.2⟩
    · have hstep : ∀ g : List UInt8 → UInt8 → List UInt8,
          w.decoded.flatMap (g (w.charset.map toupper)) =
            w.data.flatMap (g (w.charset.map toupper)) := by
        intro g
        have hone := h g _ hfirst
        simpa [decodeWords, independentFrom, hblank, toUtf_octetwise] using hone
      have hdata : w.decoded = w.data := by simpa using hstep fun _ ch => [ch]
      have hrest := @ih w.decoded w.charset fun g pre hpre => by
        have hpre := h g _ (hmore hpre)
        obtain ⟨out, hout⟩ := independentFrom_octetwise g pre []
        obtain ⟨out', hout'⟩ := decodeWords_octetwise g w.decoded w.charset pre []
        simp [decodeWords, independentFrom, hblank, toUtf_octetwise, hout, hout'] at hpre ⊢
        rw [hpre, hdata]
      rw [OneCharset, if_neg hblank, ← hdata]
      exact ⟨List.forall_mem_cons.mpr ⟨hdata, hrest.1⟩, hrest.2⟩

end Necessary

section Independent

variable {str last : List UInt8} {words : List (List UInt8 × EncodedWord)}

theorem independent_eq_independentFrom {L : Locale}
    (hbegins : ∀ word ∈ words.head?, word.1.all isspace → word.1 = []) (last : List UInt8) :
    independent L words last = independentFrom L words last := by
  cases words with
  | nil => rfl
  | cons word words =>
    obtain ⟨gap, w⟩ := word
    have hkept : (if gap.all isspace then [] else gap) = gap := by
      split_ifs with hblank
      · exact (hbegins _ rfl hblank).symm
      · rfl
    rw [independent, independentFrom, hkept]

theorem OneCharset.of_pre {pre : List (List UInt8 × EncodedWord)} {encoded charset : List UInt8}
    (h : OneCharset encoded charset words) (hpre : pre <+: words) :
    OneCharset encoded charset pre := by
  induction words generalizing pre encoded charset with
  | nil =>
    obtain rfl := List.prefix_nil.mp hpre
    exact trivial
  | cons word words ih =>
    cases pre with
    | nil => exact trivial
    | cons word' pre =>
      obtain ⟨rfl, hmore⟩ := List.cons_prefix_cons.mp hpre
      rw [OneCharset] at h ⊢
      split_ifs at h ⊢
      · exact ⟨h.1, ih h.2 hmore⟩
      · exact ih h hmore

theorem head?_of_pre {α : Type*} {pre words : List α} (hpre : pre <+: words) {word : α}
    (hword : word ∈ pre.head?) : word ∈ words.head? := by
  obtain ⟨post, rfl⟩ := hpre
  cases pre with
  | nil => simp at hword
  | cons first pre => simpa using hword

theorem Decodable.of_pre {pre : List (List UInt8 × EncodedWord)} (h : Decodable words)
    (hpre : pre <+: words) : Decodable pre where
  accepted word hword := h.accepted word (hpre.subset hword)
  plain word hword := h.plain word (hpre.subset hword)
  begins word hword := h.begins word (head?_of_pre hpre hword)
  oneCharset := h.oneCharset.of_pre hpre

theorem Decodable.decodeWords_eq (h : Decodable words) {L : Locale} (hL : L.Reads words)
    (last : List UInt8) : decodeWords L [] [] words last = independent L words last := by
  have hdecoded : ∀ word ∈ words, word.2.decoded = word.2.data := fun word hword =>
    (decoded_eq_data_iff (h.accepted word hword)).mpr (h.plain word hword)
  have hempty : L.Takes [] [] [] := ⟨hL.nil, fun rest => by simp⟩
  rw [Email.decodeWords_eq hL hempty hdecoded h.oneCharset, independent_eq_independentFrom h.begins]
  simp

theorem Locale.Reads.of_pre {L : Locale} {pre : List (List UInt8 × EncodedWord)}
    (h : L.Reads words) (hpre : pre <+: words) : L.Reads pre :=
  ⟨h.nil, h.iequals, fun word hword => h.whole word (hpre.subset hword)⟩

theorem independentFrom_last (L : Locale) (words : List (List UInt8 × EncodedWord))
    (last : List UInt8) :
    independentFrom L words last = (independentFrom L words []).map (· ++ last) := by
  induction words with
  | nil => simp [independentFrom]
  | cons word words ih =>
    obtain ⟨gap, w⟩ := word
    rw [independentFrom, ih, independentFrom]
    cases L.toUtf w.data w.charset with
    | none => rfl
    | some out => cases independentFrom L words [] <;> simp

/-- What stands before a run has been converted to `out`. -/
theorem independentFrom_append {L : Locale} {gap : List UInt8} {w : EncodedWord}
    (words : List (List UInt8 × EncodedWord)) (alone : Option (List UInt8)) :
    (alone.bind fun out => (independentFrom L ((gap, w) :: words) []).map (out ++ ·)) =
      (alone.bind fun out => (L.toUtf w.data w.charset).map fun out' =>
        out ++ (if gap.all isspace then [] else gap) ++ out').bind fun out =>
          (independentFrom L words []).map (out ++ ·) := by
  cases alone with
  | none => rfl
  | some out =>
    rw [independentFrom]
    cases L.toUtf w.data w.charset with
    | none => rfl
    | some out' => cases independentFrom L words [] <;> simp

/-- From the state of the decoder on, the words are decoded one by one exactly when they can be
joined. -/
theorem decodeWords_eq_iff_joins {L : Locale} {encoded charset : List UInt8}
    {alone : Option (List UInt8)} (hdecoded : ∀ word ∈ words, word.2.decoded = word.2.data)
    (hstart : L.toUtf encoded charset = alone) :
    (∀ pre, pre <+: words → decodeWords L encoded charset pre [] =
      alone.bind fun out => (independentFrom L pre []).map (out ++ ·)) ↔
        L.Joins encoded alone words := by
  have hnil : decodeWords L encoded charset [] [] =
      alone.bind fun out => (independentFrom L [] []).map (out ++ ·) := by
    rw [decodeWords, hstart, independentFrom]
    cases alone <;> simp
  induction words generalizing encoded charset alone with
  | nil =>
    refine iff_of_true (fun pre hpre => ?_) trivial
    rw [List.prefix_nil.mp hpre, hnil]
  | cons word words ih =>
    obtain ⟨gap, w⟩ := word
    obtain ⟨hdata, hdecoded⟩ := List.forall_mem_cons.mp hdecoded
    have hdata : w.decoded = w.data := hdata
    have hprefixes : (∀ pre, pre <+: (gap, w) :: words → decodeWords L encoded charset pre [] =
        alone.bind fun out => (independentFrom L pre []).map (out ++ ·)) ↔
        ∀ pre, pre <+: words → decodeWords L encoded charset ((gap, w) :: pre) [] =
          alone.bind fun out => (independentFrom L ((gap, w) :: pre) []).map (out ++ ·) := by
      refine ⟨fun h pre hpre => h _ (List.cons_prefix_cons.mpr ⟨rfl, hpre⟩), fun h pre hpre => ?_⟩
      cases pre with
      | nil => exact hnil
      | cons word' pre =>
        obtain ⟨rfl, hmore⟩ := List.cons_prefix_cons.mp hpre
        exact h pre hmore
    rw [hprefixes, Locale.Joins]
    simp only [independentFrom_append]
    by_cases hblank : gap.all isspace
    · have hfirst : decodeWords L (encoded ++ w.data) w.charset [] [] =
          L.toUtf (encoded ++ w.data) w.charset := by simp [decodeWords]
      simp only [if_pos hblank, decodeWords, hdata, List.append_nil]
      constructor
      · intro h
        have hjoined : L.toUtf (encoded ++ w.data) w.charset =
            alone.bind fun out => (L.toUtf w.data w.charset).map (out ++ ·) := by
          rw [← hfirst, h [] List.nil_prefix, independentFrom]
          simp
        refine ⟨hjoined, (ih hdecoded hjoined ?_).mp h⟩
        exact h [] List.nil_prefix
      · rintro ⟨hjoined, hrest⟩
        refine (ih hdecoded hjoined ?_).mpr hrest
        rw [hfirst, hjoined, independentFrom]
        simp
    · have hfirst : decodeWords L w.data w.charset [] [] =
          (L.toUtf w.data w.charset).bind fun out =>
            (independentFrom L [] []).map (out ++ ·) := by
        rw [decodeWords, independentFrom]
        cases L.toUtf w.data w.charset <;> simp
      simp only [if_neg hblank, decodeWords, hdata, hstart]
      cases alone with
      | none => simp
      | some out =>
        simp only [Option.isSome_some, forall_true_left]
        refine Iff.trans (forall₂_congr fun pre _ => ?_) (ih hdecoded rfl hfirst)
        cases hdec : decodeWords L w.data w.charset pre [] <;>
          cases hone : L.toUtf w.data w.charset <;>
          cases hind : independentFrom L pre [] <;> simp

/-- The words of a text are decoded one by one, in every conversion that reads each of them as whole
characters, exactly when the text is decodable; in another conversion exactly when they can be
joined as well. -/
theorem decodesIndependently_iff (h : Splits str words last) :
    ((∀ L : Locale, L.Reads words → DecodesIndependently L words last) ↔ Decodable words) ∧
      ∀ L : Locale, L.toUtf [] [] = some [] → Decodable words →
        (DecodesIndependently L words last ↔ L.Joins [] (some []) words) := by
  refine ⟨⟨fun hdecodes => ?_, fun hwords L hL => ⟨?_, fun pre hpre => ?_⟩⟩,
    fun L hnil hwords => ?_⟩
  · have hsilent := hdecodes silent (reads_octetwise _ words)
    have haccepted := accepted_of_decodes h hsilent
    have hbegins := begins_of_decodes h hsilent haccepted
    have hone := @oneCharset_of_decodes words [] []
      fun g pre hpre => by
        have hcode := (hdecodes (octetwise g) (reads_octetwise g words)).2 pre hpre
        rw [h.rfc2047Decode_pre hpre fun word hword => haccepted word (hpre.subset hword),
          independent_eq_independentFrom fun word hword =>
            hbegins word (head?_of_pre hpre hword)] at hcode
        simp [hcode]
    exact ⟨haccepted, fun word hword =>
      (decoded_eq_data_iff (haccepted word hword)).mp (hone.1 word hword), hbegins, hone.2⟩
  · rw [h.rfc2047Decode_text hwords.accepted, hwords.decodeWords_eq hL]
  · rw [h.rfc2047Decode_pre hpre (hwords.of_pre hpre).accepted,
      (hwords.of_pre hpre).decodeWords_eq (hL.of_pre hpre)]
  · have hdecoded : ∀ word ∈ words, word.2.decoded = word.2.data := fun word hword =>
      (decoded_eq_data_iff (hwords.accepted word hword)).mpr (hwords.plain word hword)
    have hpre : ∀ pre, pre <+: words →
        (rfc2047Decode L (wordText pre) = independent L pre [] ↔
          decodeWords L [] [] pre [] =
            (some []).bind fun out => (independentFrom L pre []).map (out ++ ·)) := by
      intro pre hpre
      rw [h.rfc2047Decode_pre hpre (hwords.of_pre hpre).accepted,
        independent_eq_independentFrom (hwords.of_pre hpre).begins]
      simp
    rw [← decodeWords_eq_iff_joins hdecoded hnil, DecodesIndependently, forall₂_congr hpre]
    refine and_iff_right_of_imp fun hall => ?_
    rw [h.rfc2047Decode_text hwords.accepted, independent_eq_independentFrom hwords.begins,
      decodeWords_last, independentFrom_last, hall words List.prefix_rfl]
    simp

theorem isWord_iff {w : EncodedWord} : w.IsWord ↔ w.charset ≠ [] ∧
    (∀ ch ∈ w.charset, isWordChar ch) ∧ w.enc ∈ octets "BbQq" ∧ ∀ ch ∈ w.text, isWordChar ch :=
  ⟨fun ⟨h₁, h₂, h₃, h₄⟩ => ⟨h₁, h₂, h₃, h₄⟩, fun ⟨h₁, h₂, h₃, h₄⟩ => ⟨h₁, h₂, h₃, h₄⟩⟩

theorem decodesIndependently_iff_of_two :
    let words : List (List UInt8 × EncodedWord) :=
      [([], ⟨octets "utf-8", chr 'b', octets "aGVsbG8="⟩),
        ([chr ' '], ⟨octets "utf-8", chr 'b', octets "d29ybGQ="⟩)]
    ((∀ L : Locale, L.Reads words → DecodesIndependently L words []) ↔ Decodable words) ∧
      ∀ L : Locale, L.toUtf [] [] = some [] → Decodable words →
        (DecodesIndependently L words [] ↔ L.Joins [] (some []) words) :=
  decodesIndependently_iff (splits_of_notMem (by simp only [isWord_iff]; decide +kernel)
    (by decide))

/-- Two charsets: the first word is taken for a text in the charset of the second one. -/
theorem not_decodesIndependently_of_latin :
    let words : List (List UInt8 × EncodedWord) :=
      [([], ⟨octets "iso-8859-1", chr 'B', octets "6Q=="⟩),
        ([chr ' '], ⟨octets "utf-8", chr 'B', octets "YQ=="⟩)]
    Splits (octets "=?iso-8859-1?B?6Q==?= =?utf-8?B?YQ==?=") words [] ∧
      ∃ L : Locale, L.Reads words ∧ ¬ DecodesIndependently L words [] := by
  intro words
  have htext : octets "=?iso-8859-1?B?6Q==?= =?utf-8?B?YQ==?=" = wordText words ++ [] := by decide
  -- the octets from 128 on are those of U+0080 to U+00FF, or no UTF-8
  let latin : List UInt8 → UInt8 → List UInt8 := fun charset ch =>
    if ch < 128 then [ch]
    else if charset = octets "ISO-8859-1" then
      [(0xC0 : UInt8) ||| (ch >>> 6), (0x80 : UInt8) ||| (ch &&& 0x3F)]
    else []
  refine ⟨?_, octetwise latin, reads_octetwise latin words, fun hdecodes => ?_⟩
  · rw [htext]
    exact splits_of_notMem (by simp only [words, isWord_iff]; decide +kernel) (by decide)
  · have hcode := hdecodes.1
    rw [← htext] at hcode
    have hread : rfc2047Decode (octetwise latin)
        (octets "=?iso-8859-1?B?6Q==?= =?utf-8?B?YQ==?=") = some (octets "a") := by decide
    have hwanted : independent (octetwise latin) words [] = some (utf8 ['é', 'a']) := by decide
    rw [hread, hwanted] at hcode
    exact absurd hcode (by decide)

end Independent

end Email

end Acqua
