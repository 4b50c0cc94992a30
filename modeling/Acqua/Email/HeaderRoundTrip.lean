import Acqua.Email.Chunks
import Acqua.Email.EncodedWords
import Acqua.Email.FieldLines

/-! Which header values the parser gives back as they were encoded. -/

namespace Acqua

namespace Email

section Plain

/-- The lines of `plain_encode`: the first one, and for the others what they begin with. -/
def plainLines : Int → List UInt8 → List (List UInt8 × List UInt8) →
    List UInt8 × List (List UInt8 × List UInt8)
  | _, word, [] => (word, [])
  | _, word, (gap, []) :: _ => (word ++ gap, [])
  | cnt, word, (gap, next) :: rest =>
    if cnt + (word ++ gap ++ next).length < lineMax then
      let r := plainLines (cnt + (word ++ gap).length) next rest
      (word ++ gap ++ r.1, r.2)
    else
      let r := plainLines (cnt + gap.length) next rest
      (word, (gap, r.1) :: r.2)

/-- The runs of blanks at which a line of words reaches the limit. A fold does not start the
count again. -/
def foldedGaps : Int → List UInt8 → List (List UInt8 × List UInt8) → List (List UInt8)
  | _, _, [] => []
  | _, _, (_, []) :: _ => []
  | cnt, word, (gap, next) :: rest =>
    if cnt + (word ++ gap ++ next).length < lineMax then
      foldedGaps (cnt + (word ++ gap).length) next rest
    else gap :: foldedGaps (cnt + gap.length) next rest

theorem plainLoop_lines (segs : List (List UInt8 × List UInt8)) (cnt : Int) (word : List UInt8) :
    (plainLoop cnt word segs).2 =
      foldedText (plainLines cnt word segs).1 (plainLines cnt word segs).2 := by
  fun_induction plainLines cnt word segs with
  | case1 => simp [plainLoop, foldedText]
  | case2 => simp [plainLoop, foldedText]
  | case3 cnt word gap next rest hnext hfits r ih =>
    rw [plainLoop, if_pos hfits]
    · simp only [ih, foldedText, List.append_assoc]
      rfl
    · exact hnext
  | case4 cnt word gap next rest hnext hfits r ih =>
    rw [plainLoop, if_neg hfits]
    · simp only [ih, foldedText, List.append_assoc, List.flatMap_cons]
      rfl
    · exact hnext

theorem plainLines_gaps (segs : List (List UInt8 × List UInt8)) (cnt : Int) (word : List UInt8) :
    (plainLines cnt word segs).2.map Prod.fst = foldedGaps cnt word segs := by
  fun_induction plainLines cnt word segs with
  | case1 => rfl
  | case2 => rfl
  | case3 cnt word gap next rest hnext hfits r ih =>
    rw [foldedGaps, if_pos hfits]
    · exact ih
    · exact hnext
  | case4 cnt word gap next rest hnext hfits r ih =>
    rw [foldedGaps, if_neg hfits]
    · exact congrArg (List.cons gap) ih
    · exact hnext

theorem plainLines_joined {segs : List (List UInt8 × List UInt8)} (hsegs : Segmented segs)
    (cnt : Int) (word : List UInt8) :
    joined (plainLines cnt word segs).1 (plainLines cnt word segs).2 = joined word segs := by
  fun_induction plainLines cnt word segs with
  | case1 => rfl
  | case2 cnt word gap rest =>
    rw [hsegs.2.2.2.1 rfl]
    simp [joined]
  | case3 cnt word gap next rest hnext hfits r ih =>
    have hrest := ih hsegs.2.2.2.2
    rw [joined_cons, ← hrest]
    simp [joined, r]
  | case4 cnt word gap next rest hnext hfits r ih =>
    rw [joined_cons, joined_cons, ih hsegs.2.2.2.2]

theorem plainLines_head {word : List UInt8} (hword : word ≠ []) (cnt : Int)
    (segs : List (List UInt8 × List UInt8)) :
    (plainLines cnt word segs).1.head? = word.head? := by
  fun_cases plainLines cnt word segs with
  | case1 => rfl
  | case2 => rw [List.head?_append_of_ne_nil _ hword]
  | case3 => rw [List.append_assoc, List.head?_append_of_ne_nil _ hword]
  | case4 => rfl

theorem plainLines_continues {segs : List (List UInt8 × List UInt8)} (hsegs : Segmented segs)
    (cnt : Int) (word : List UInt8) :
    ∀ cont ∈ (plainLines cnt word segs).2, HeaderParser.Continues cont := by
  fun_induction plainLines cnt word segs with
  | case1 => simp
  | case2 => simp
  | case3 cnt word gap next rest hnext hfits r ih => exact ih hsegs.2.2.2.2
  | case4 cnt word gap next rest hnext hfits r ih =>
    obtain ⟨hgap, hspace, hword, -, hrest⟩ := hsegs
    intro cont hcont
    rcases List.mem_cons.mp hcont with rfl | hcont
    · refine ⟨hgap, hspace, fun ch hch => hword ch ?_⟩
      rw [plainLines_head hnext] at hch
      exact List.mem_of_mem_head? hch
    · exact ih hrest cont hcont

end Plain

section Words

variable {L : Locale}

/-- The word that stands for a piece of a text. -/
def wordOf (cs : List Char) : EncodedWord where
  charset := octets "UTF-8"
  enc := chr 'B'
  text := Base64Encoder.encode base64Traits (.make .none sizeMax 0) (utf8 cs)

theorem wordOf_accepted (cs : List Char) : (wordOf cs).Accepted where
  charset_ne_nil := show octets "UTF-8" ≠ [] by decide
  charset_chars := show ∀ ch ∈ octets "UTF-8", isCharsetChar ch by decide +kernel
  enc_mem := show chr 'B' ∈ octets "BbQq" by decide
  text_eq := by
    obtain ⟨body, pad, htext, hbody, hpad⟩ := Base64.encode_text base64Traits
      (.make .none sizeMax 0) (Base64.make_cnt _ _ _) rfl (utf8 cs)
    have halphabet : ∀ ch ∈ base64Traits.tbl, isTextChar ch := by decide +kernel
    exact ⟨body, pad, htext, fun ch hch => halphabet ch (hbody ch hch), hpad⟩

theorem wordOf_decoded (cs : List Char) : (wordOf cs).decoded = utf8 cs := by
  have henc : (wordOf cs).enc = chr 'B' := rfl
  rw [EncodedWord.decoded, if_pos (Or.inl henc)]
  exact Base64.decode_encode base64Traits _ (Base64.make_cnt _ _ _) _

theorem encodedWord_utf8 (hL : L.Documented) (cs : List Char) :
    encodedWord L (octets "UTF-8") (utf8 cs) = some (wordOf cs).chars := by
  simp only [encodedWord, base64Encode, hL.fromUtf_utf8, Option.map_some]
  rfl

theorem mapM_encodedWord (hL : L.Documented) (pieces : List (List Char)) :
    (pieces.map utf8).mapM (encodedWord L (octets "UTF-8")) =
      some (pieces.map fun cs => (wordOf cs).chars) := by
  induction pieces with
  | nil => rfl
  | cons cs pieces ih =>
    rw [List.map_cons, List.mapM_cons, encodedWord_utf8 hL, ih]
    rfl

theorem clean_wordOf (hL : L.Documented) (cs : List Char) : Clean (wordOf cs).chars :=
  clean_encodedWord (clean_octets "UTF-8") (encodedWord_utf8 hL cs)

/-- What follows the first word: the other words, and an empty line when nothing is left for
it. -/
def wordConts (cs : List (List Char)) (empty : Bool) : List (List UInt8 × List UInt8) :=
  (cs.map fun piece => ([chr '\t'], (wordOf piece).chars)) ++ if empty then [([chr '\t'], [])] else []

theorem foldedText_words (pieces : List (List Char)) (first last : List UInt8) :
    (first :: pieces.map fun cs => (wordOf cs).chars).flatMap
        (fun word => word ++ crlf ++ [chr '\t']) ++ last =
      foldedText first ((pieces.map fun piece => ([chr '\t'], (wordOf piece).chars)) ++
        [([chr '\t'], last)]) := by
  induction pieces generalizing first with
  | nil => simp [foldedText]
  | cons cs pieces ih =>
    rw [List.map_cons, List.flatMap_cons, List.append_assoc, ih]
    simp [foldedText]

theorem rfc2047Encode_utf8 (hL : L.Documented) {cs : List Char} (hcs : cs ≠ []) :
    ∃ first rest, first ++ rest.flatten = cs ∧ (∀ piece ∈ first :: rest, ShortPiece piece) ∧
      rfc2047Encode L (octets "UTF-8") (utf8 cs) = some (foldedText (wordOf first).chars
        (wordConts rest (charChunks [] cs).2.isEmpty)) := by
  have hchunks : chunks L [] 0 (utf8 cs) = some ((charChunks [] cs).1.map utf8,
      utf8 (charChunks [] cs).2) := chunks_utf8 hL [] cs
  have hflatten : (charChunks [] cs).1.flatten ++ (charChunks [] cs).2 = cs :=
    charChunks_flatten [] cs
  obtain ⟨hshort, hlength⟩ := @charChunks_short [] (by decide) cs
  simp only [rfc2047Encode, hchunks, Option.bind_eq_bind, Option.bind_some, mapM_encodedWord hL]
  generalize (charChunks [] cs).1 = pieces at hflatten hshort
  generalize (charChunks [] cs).2 = last at hflatten hlength
  have hlastShort := ShortPiece.of_length hlength
  cases pieces with
  | nil =>
    obtain rfl : last = cs := by simpa using hflatten
    refine ⟨last, [], by simp, by simpa using hlastShort, ?_⟩
    rw [lastWord, if_neg (utf8_ne_nil hcs), encodedWord_utf8 hL]
    simp [foldedText, wordConts, hcs]
  | cons first pieces =>
    by_cases hlast : last = []
    · refine ⟨first, pieces, by simpa [hlast] using hflatten, hshort, ?_⟩
      rw [lastWord, if_pos (by rw [hlast]; rfl), Option.bind_some, List.map_cons, foldedText_words]
      simp [wordConts, hlast]
    · refine ⟨first, pieces ++ [last], by simpa using hflatten, ?_, ?_⟩
      · rw [← List.cons_append]
        exact List.forall_mem_append.mpr ⟨hshort, by simpa using hlastShort⟩
      rw [lastWord, if_neg (utf8_ne_nil hlast), encodedWord_utf8 hL, Option.bind_some,
        List.map_cons, foldedText_words]
      simp [wordConts, hlast]

theorem wordConts_continues (rest : List (List Char)) (empty : Bool) :
    ∀ cont ∈ wordConts rest empty, HeaderParser.Continues cont := by
  have htab : ∀ ch ∈ [chr '\t'], isspace ch := by
    intro ch hch
    rw [List.mem_singleton.mp hch]
    rfl
  intro cont hcont
  rcases List.mem_append.mp hcont with hcont | hcont
  · obtain ⟨piece, -, rfl⟩ := List.mem_map.mp hcont
    refine ⟨by simp, htab, fun ch hch => ?_⟩
    rw [← List.append_nil (wordOf piece).chars, EncodedWord.chars_eq, List.head?_cons,
      Option.mem_def, Option.some.injEq] at hch
    rw [← hch]
    decide
  · cases empty with
    | false => simp at hcont
    | true =>
      obtain rfl : cont = ([chr '\t'], []) := by simpa using hcont
      exact ⟨by simp, htab, by simp⟩

theorem clean_wordConts (hL : L.Documented) (rest : List (List Char)) (empty : Bool) :
    ∀ cont ∈ wordConts rest empty, Clean (cont.1 ++ cont.2) := by
  have htab : Clean [chr '\t'] := by simp [Clean]; decide
  intro cont hcont
  rcases List.mem_append.mp hcont with hcont | hcont
  · obtain ⟨piece, -, rfl⟩ := List.mem_map.mp hcont
    exact htab.append (clean_wordOf hL piece)
  · cases empty with
    | false => simp at hcont
    | true =>
      obtain rfl : cont = ([chr '\t'], []) := by simpa using hcont
      exact htab

theorem rfc2047Decode_words (hL : L.Documented) (first : List Char) (rest : List (List Char))
    (empty : Bool) :
    rfc2047Decode L ((wordOf first).chars ++
        (wordConts rest empty).flatMap fun cont => chr ' ' :: cont.2) =
      some (utf8 (first ++ rest.flatten) ++ if empty then [chr ' '] else []) := by
  let words : List (List UInt8 × EncodedWord) :=
    ([], wordOf first) :: rest.map fun piece => ([chr ' '], wordOf piece)
  let last : List UInt8 := if empty then [chr ' '] else []
  have htext : (wordOf first).chars ++ (wordConts rest empty).flatMap (fun cont =>
      chr ' ' :: cont.2) = wordText words ++ last := by
    cases empty <;> simp [words, last, wordText, wordConts, List.flatMap_map]
  have hlast : chr '=' ∉ last := by
    cases empty <;> simp [last]
    decide
  have hwords : ∀ word ∈ words, chr '=' ∉ word.1 ∧ word.2.Accepted := by
    intro word hword
    rcases List.mem_cons.mp hword with rfl | hword
    · exact ⟨by simp, wordOf_accepted first⟩
    · obtain ⟨piece, -, rfl⟩ := List.mem_map.mp hword
      exact ⟨by simp; decide, wordOf_accepted piece⟩
  have hblank : ∀ word ∈ words, word.1.all isspace ∧ word.2.charset = octets "UTF-8" := by
    intro word hword
    rcases List.mem_cons.mp hword with rfl | hword
    · exact ⟨rfl, rfl⟩
    · obtain ⟨piece, -, rfl⟩ := List.mem_map.mp hword
      exact ⟨rfl, rfl⟩
  have hdecoded : words.flatMap (fun word => word.2.decoded) = utf8 (first ++ rest.flatten) := by
    simp [words, List.flatMap_map, wordOf_decoded, utf8_append, utf8_flatten]
  rw [htext, rfc2047Decode_of_words (List.cons_ne_nil _ _) hlast hwords hblank, hdecoded,
    hL.toUtf_utf8]
  rfl

end Words

section RoundTrip

variable {L : Locale} {decodeParams : List UInt8 → Disposition → Option Disposition}

/-- What is stored under a name when a text is cut into lines and the lines are parsed, with an
empty line after them. -/
def storedValue (L : Locale) (decodeParams : List UInt8 → Disposition → Option Disposition)
    (name text : List UInt8) : Option (List UInt8) :=
  (HeaderParser.init.parse L decodeParams [] (splitCrLf text ++ [[]])).bind fun headers =>
    (Headers.find headers name).map Disposition.str

/-- A value that `operator()` leaves to `plain_encode`. -/
def IsPlain (val : List UInt8) : Prop :=
  isAscii val ∧ (∀ ch ∈ val.head?, ¬ isspace ch) ∧ ∀ ch ∈ val.getLast?, ¬ isspace ch

/-- A plain value has a single blank wherever a line is broken, and no encoded word in it.
Another one is not cut at its very end. -/
def KeepsValue (name : List UInt8) (cs : List Char) : Prop :=
  (IsPlain (utf8 cs) →
    (∀ gap ∈ foldedGaps (name.length + 2) (segments (utf8 cs)).1 (segments (utf8 cs)).2,
      gap.length = 1) ∧
    ∀ w : EncodedWord, w.Accepted → ¬ w.chars <:+: utf8 cs) ∧
  (¬ IsPlain (utf8 cs) → ¬ Tiled cs)

theorem encodeMimeheader_plain {name val : List UInt8} (hname : isName name) (hne : val ≠ [])
    (hplain : IsPlain val) (charset : List UInt8) :
    encodeMimeheader L charset name val [] =
      some (name ++ octets ": " ++ (plainEncode (name.length + 2) val).2) := by
  obtain ⟨hascii, hfront, hback⟩ := hplain
  cases val with
  | nil => exact absurd rfl hne
  | cons front rest =>
    have hback' := hback _ (List.getLast?_eq_some_getLast (by simp))
    have hcond : isAscii (front :: rest) ∧ ¬ isspace front ∧
        ¬ isspace ((front :: rest).getLast (by simp)) := ⟨hascii, hfront front rfl, hback'⟩
    simp only [encodeMimeheader, encodeField, encodeParams, hname, if_true, if_pos hcond,
      Option.bind_eq_bind, Option.bind_some, List.append_nil]

theorem encodeMimeheader_encoded {name val : List UInt8} (hname : isName name) (hne : val ≠ [])
    (hplain : ¬ IsPlain val) (charset : List UInt8) :
    encodeMimeheader L charset name val [] =
      (rfc2047Encode L charset val).map fun out => name ++ octets ": " ++ out := by
  cases val with
  | nil => exact absurd rfl hne
  | cons front rest =>
    have hcond : ¬ (isAscii (front :: rest) ∧ ¬ isspace front ∧
        ¬ isspace ((front :: rest).getLast (by simp))) := by
      rintro ⟨hascii, hfront, hback⟩
      refine hplain ⟨hascii, fun ch hch => ?_, fun ch hch => ?_⟩
      · rw [← Option.mem_some_iff.mp hch]
        exact hfront
      · rw [List.getLast?_eq_some_getLast (by simp), Option.mem_some_iff] at hch
        rw [← hch]
        exact hback
    simp only [encodeMimeheader, encodeField, encodeParams, hname, if_true, if_neg hcond,
      Option.bind_eq_bind, Option.bind_map]
    cases rfc2047Encode L charset (front :: rest) <;> simp

/-- The lines of a value: the first one is not empty and begins with no blank, and each of the
others continues it. -/
structure FoldedValue (first : List UInt8) (conts : List (List UInt8 × List UInt8)) : Prop where
  ne_nil : first ≠ []
  head : ∀ ch ∈ first.head?, ¬ isspace ch
  continues : ∀ cont ∈ conts, HeaderParser.Continues cont
  clean : Clean first
  clean_conts : ∀ cont ∈ conts, Clean (cont.1 ++ cont.2)

/-- What the header parser makes of the lines of a value. -/
def blankFolds (first : List UInt8) (conts : List (List UInt8 × List UInt8)) : List UInt8 :=
  first ++ conts.flatMap fun cont => chr ' ' :: cont.2

theorem storedValue_field {name first : List UInt8} {conts : List (List UInt8 × List UInt8)}
    (hname : isName name) (hcontent : ¬ istartsWith name (octets "Content-"))
    (h : FoldedValue first conts) :
    storedValue L decodeParams name (name ++ octets ": " ++ foldedText first conts) =
      rfc2047Decode L (blankFolds first conts) := by
  have htext : name ++ octets ": " ++ foldedText first conts =
      foldedText (name ++ octets ": " ++ first) conts := by simp [foldedText]
  have hline : Clean (name ++ octets ": " ++ first) :=
    ((clean_of_isName hname).append (clean_octets ": ")).append h.clean
  have hequal : iequals name name := by simp [iequals]
  rw [htext, storedValue, splitCrLf_foldedText hline h.clean_conts,
    HeaderParser.parse_field hname hcontent h.ne_nil h.head h.continues, blankFolds]
  cases rfc2047Decode L (first ++ conts.flatMap fun cont => chr ' ' :: cont.2) with
  | none => rfl
  | some s => simp [Headers.find, hequal]

/-- A value that is written in words comes back with the blank that the empty line left. -/
theorem foldedValue_words (hL : L.Documented) {name : List UInt8} (hname : isName name)
    {cs : List Char} (hcs : cs ≠ []) (hplain : ¬ IsPlain (utf8 cs)) :
    ∃ first conts, encodeMimeheader L (octets "UTF-8") name (utf8 cs) [] =
        some (name ++ octets ": " ++ foldedText first conts) ∧ FoldedValue first conts ∧
      (rfc2047Decode L (blankFolds first conts) = some (utf8 cs) ↔ ¬ Tiled cs) := by
  obtain ⟨first, rest, hflatten, -, hencode⟩ := rfc2047Encode_utf8 hL hcs
  have hchars := (wordOf first).chars_eq []
  rw [List.append_nil] at hchars
  refine ⟨(wordOf first).chars, wordConts rest (charChunks [] cs).2.isEmpty, ?_, ?_, ?_⟩
  · rw [encodeMimeheader_encoded hname (utf8_ne_nil hcs) hplain, hencode]
    rfl
  · exact ⟨by simp [hchars], by simp [hchars]; decide, wordConts_continues _ _,
      clean_wordOf hL first, clean_wordConts hL _ _⟩
  · rw [blankFolds, rfc2047Decode_words hL, hflatten, ← charChunks_snd_eq_nil_iff]
    cases (charChunks [] cs).2 with
    | nil => simp
    | cons c cs => simp

/-- A fold gives back no more than was folded, and less when a run of blanks was. -/
theorem length_unfolded {first : List UInt8} {conts : List (List UInt8 × List UInt8)}
    (hconts : ∀ cont ∈ conts, cont.1 ≠ []) :
    (first ++ conts.flatMap fun cont => chr ' ' :: cont.2).length ≤ (joined first conts).length ∧
      ((joined first conts).length ≤ (first ++ conts.flatMap fun cont => chr ' ' :: cont.2).length →
        ∀ cont ∈ conts, cont.1.length = 1) := by
  induction conts with
  | nil => simp [joined]
  | cons cont conts ih =>
    obtain ⟨hle, hone⟩ := ih fun c hc => hconts c (List.mem_cons_of_mem _ hc)
    have hpos := List.length_pos_of_ne_nil (hconts cont List.mem_cons_self)
    simp only [joined, List.flatMap_cons, List.length_append, List.length_cons] at hle hone ⊢
    refine ⟨by omega, fun h c hc => ?_⟩
    rcases List.mem_cons.mp hc with rfl | hc
    · omega
    · exact hone (by omega) c hc

theorem unfolded_eq_joined {first : List UInt8} {conts : List (List UInt8 × List UInt8)}
    (hconts : ∀ cont ∈ conts, cont.1 = [chr ' ']) :
    first ++ conts.flatMap (fun cont => chr ' ' :: cont.2) = joined first conts := by
  rw [joined]
  congr 1
  refine List.flatMap_congr fun cont hcont => ?_
  rw [hconts cont hcont]
  rfl

theorem blank_of_length_one {gap : List UInt8} (hspace : ∀ ch ∈ gap, isspace ch)
    (hprint : ∀ ch ∈ gap, isprint ch) (hone : gap.length = 1) : gap = [chr ' '] := by
  obtain ⟨ch, rfl⟩ := List.length_eq_one_iff.mp hone
  have hblank : ch = chr ' ' :=
    octet_forall (P := fun ch => isspace ch → isprint ch → ch = chr ' ') (by decide +kernel) ch
      (hspace ch (by simp)) (hprint ch (by simp))
  rw [hblank]

theorem segments_fst_ne_nil {val : List UInt8} (hne : val ≠ [])
    (hhead : ∀ ch ∈ val.head?, ¬ isspace ch) : (segments val).1 ≠ [] := by
  intro hword
  obtain ⟨hjoin, -, hsegs⟩ := segments_spec val
  rw [hword] at hjoin
  cases hseg : (segments val).2 with
  | nil =>
    rw [hseg] at hjoin
    exact hne (by simpa [joined] using hjoin.symm)
  | cons seg segs =>
    rw [hseg] at hjoin hsegs
    obtain ⟨gap, next⟩ := seg
    obtain ⟨hgap, hspace, -⟩ := hsegs
    cases gap with
    | nil => exact hgap rfl
    | cons ch gap =>
      rw [joined_cons, List.nil_append, List.cons_append] at hjoin
      exact hhead ch (by rw [← hjoin]; rfl) (hspace ch List.mem_cons_self)

theorem foldedValue_plain (hL : L.Documented) {name : List UInt8} (hname : isName name)
    {val : List UInt8} (hne : val ≠ []) (hplain : IsPlain val) :
    ∃ first conts, encodeMimeheader L (octets "UTF-8") name val [] =
        some (name ++ octets ": " ++ foldedText first conts) ∧ FoldedValue first conts ∧
      (rfc2047Decode L (blankFolds first conts) = some val ↔
        (∀ gap ∈ foldedGaps (name.length + 2) (segments val).1 (segments val).2,
          gap.length = 1) ∧ findWord val = none) := by
  have hprint : ∀ ch ∈ val, isprint ch := List.all_eq_true.mp hplain.1
  have hword := segments_fst_ne_nil hne hplain.2.1
  obtain ⟨hjoin, -, hsegs⟩ := segments_spec val
  have hlines := plainLines_joined hsegs (name.length + 2) (segments val).1
  have hhead := plainLines_head hword (name.length + 2) (segments val).2
  have hconts := plainLines_continues hsegs (name.length + 2) (segments val).1
  have hgaps := plainLines_gaps (segments val).2 (name.length + 2) (segments val).1
  rw [encodeMimeheader_plain hname hne hplain, plainEncode, plainLoop_lines, ← hgaps]
  generalize (plainLines (name.length + 2) (segments val).1 (segments val).2).1 = first at *
  generalize (plainLines (name.length + 2) (segments val).1 (segments val).2).2 = conts at *
  have hval : joined first conts = val := hlines.trans hjoin
  have hsplit : (joined (segments val).1 (segments val).2).head? = (segments val).1.head? := by
    rw [joined, List.head?_append_of_ne_nil _ hword]
  have hvalHead : first.head? = val.head? :=
    hhead.trans (hsplit.symm.trans (congrArg List.head? hjoin))
  have hfirst : first ≠ [] := by
    rintro rfl
    exact hne (List.head?_eq_none_iff.mp hvalHead.symm)
  have hmem : ∀ cont ∈ conts, ∀ ch ∈ cont.1 ++ cont.2, isprint ch := by
    intro cont hcont ch hch
    refine hprint ch ?_
    rw [← hval, joined]
    exact List.mem_append_right _ (List.mem_flatMap.mpr ⟨cont, hcont, hch⟩)
  have hfolded : FoldedValue first conts :=
    ⟨hfirst, by rw [hvalHead]; exact hplain.2.1, hconts,
      clean_of_isprint fun ch hch => hprint ch (by rw [← hval]; exact List.mem_append_left _ hch),
      fun cont hcont => clean_of_isprint (hmem cont hcont)⟩
  refine ⟨first, conts, rfl, hfolded, ?_⟩
  have hkept : (∀ cont ∈ conts, cont.1.length = 1) → blankFolds first conts = val := by
    intro hone
    rw [← hval]
    exact unfolded_eq_joined fun cont hcont => blank_of_length_one (hconts cont hcont).blank
      (fun ch hch => hmem cont hcont ch (List.mem_append_left _ hch)) (hone cont hcont)
  constructor
  · intro h
    obtain ⟨hle, hlt⟩ := length_rfc2047Decode hL h hprint
    have hone := (length_unfolded fun cont hcont => (hconts cont hcont).ne_nil).2 (hval ▸ hle)
    refine ⟨by simpa using hone, ?_⟩
    rw [hkept hone] at hlt
    by_contra hfind
    exact absurd (hlt hfind) (lt_irrefl _)
  · rintro ⟨hone, hfind⟩
    rw [hkept (by simpa using hone)]
    exact rfc2047Decode_of_no_word hL hfind

end RoundTrip

/-- A value comes back from its lines as it was encoded exactly when `KeepsValue` holds of it. -/
theorem foldedValue_iff {L : Locale} (hL : L.Documented) {name : List UInt8} (hname : isName name)
    {cs : List Char} (hcs : cs ≠ []) :
    ∃ first conts, encodeMimeheader L (octets "UTF-8") name (utf8 cs) [] =
        some (name ++ octets ": " ++ foldedText first conts) ∧ FoldedValue first conts ∧
      (rfc2047Decode L (blankFolds first conts) = some (utf8 cs) ↔ KeepsValue name cs) := by
  by_cases hplain : IsPlain (utf8 cs)
  · obtain ⟨first, conts, hout, hfolded, hdecode⟩ :=
      foldedValue_plain hL hname (utf8_ne_nil hcs) hplain
    exact ⟨first, conts, hout, hfolded, by rw [hdecode, findWord_eq_none_iff, KeepsValue]; tauto⟩
  · obtain ⟨first, conts, hout, hfolded, hdecode⟩ := foldedValue_words hL hname hcs hplain
    exact ⟨first, conts, hout, hfolded, by rw [hdecode, KeepsValue]; tauto⟩

/-- A value is stored as it was encoded exactly when `KeepsValue` holds of it. -/
theorem header_value_round_trip_iff {L : Locale} (hL : L.Documented)
    (decodeParams : List UInt8 → Disposition → Option Disposition) {name : List UInt8}
    (hname : isName name) (hcontent : ¬ istartsWith name (octets "Content-")) {cs : List Char}
    (hcs : cs ≠ []) :
    ∃ out, encodeMimeheader L (octets "UTF-8") name (utf8 cs) [] = some out ∧
      (storedValue L decodeParams name out = some (utf8 cs) ↔ KeepsValue name cs) := by
  obtain ⟨first, conts, hout, hfolded, hdecode⟩ := foldedValue_iff hL hname hcs
  exact ⟨_, hout, by rw [storedValue_field hname hcontent hfolded, hdecode]⟩

theorem header_value_round_trip_iff_of_accent :
    ∃ out, encodeMimeheader utf8Locale (octets "UTF-8") (octets "Subject") (utf8 ['é']) [] =
        some out ∧
      (storedValue utf8Locale (fun _ => some) (octets "Subject") out = some (utf8 ['é']) ↔
        KeepsValue (octets "Subject") ['é']) :=
  header_value_round_trip_iff utf8Locale_documented _ (by decide) (by decide)
    (by decide)

/-- Fourteen characters of three octets are cut at the end of the value. -/
theorem header_value_gets_blank :
    ∃ out, encodeMimeheader utf8Locale (octets "UTF-8") (octets "Subject")
        (utf8 (List.replicate 14 'あ')) [] = some out ∧
      storedValue utf8Locale (fun _ => some) (octets "Subject") out =
        some (utf8 (List.replicate 14 'あ') ++ [chr ' ']) ∧
      utf8 (List.replicate 14 'あ') ++ [chr ' '] ≠ utf8 (List.replicate 14 'あ') :=
  ⟨_, rfl, by decide, by simp⟩

end Email

end Acqua
