import Acqua.Email.ParamSequence

/-! Which parameters are decoded to what they were encoded from. -/

namespace Acqua

namespace Email

/-- A text of US-ASCII is converted to itself. -/
def Locale.KeepsAscii (L : Locale) : Prop :=
  ∀ str, (∀ ch ∈ str, ch < 128) → L.toUtf str (octets "US-ASCII") = some str

theorem iequals_refl (name : List UInt8) : iequals name name := by
  simp [iequals]

section Charset

theorem rfc2231ParseCharset_charsetText (text : List UInt8) :
    rfc2231ParseCharset (charsetText ++ text) = (octets "UTF-8", text) := rfl

theorem count_dropWhile_tail {ch : UInt8} (str : List UInt8) :
    (str.dropWhile (· ≠ ch)).tail.count ch = str.count ch - 1 := by
  induction str with
  | nil => rfl
  | cons c str ih =>
    by_cases hc : c = ch
    · subst hc
      rw [List.dropWhile_cons_of_neg (by simp), List.tail_cons, List.count_cons_self]
      omega
    · rw [List.dropWhile_cons_of_pos (by simpa using hc), ih, List.count_cons_of_ne hc]

theorem rfc2231ParseCharset_of_count {val : List UInt8} (h : val.count (chr '\'') < 3) :
    rfc2231ParseCharset val = (octets "US-ASCII", val) := by
  have hnone : chr '\'' ∉
      ((((val.dropWhile (· ≠ chr '\'')).tail).dropWhile (· ≠ chr '\'')).tail) := by
    rw [← List.count_eq_zero, count_dropWhile_tail, count_dropWhile_tail]
    omega
  have hdrop : ((((val.dropWhile (· ≠ chr '\'')).tail).dropWhile (· ≠ chr '\'')).tail).dropWhile
      (· ≠ chr '\'') = [] := by
    refine List.dropWhile_eq_nil_iff.mpr fun ch hch => ?_
    rw [decide_eq_true_eq]
    rintro rfl
    exact hnone hch
  rw [rfc2231ParseCharset, if_pos hdrop]

theorem count_percentText (cs : List Char) :
    (percentText cs).count (chr '\'') = (utf8 cs).count (chr '\'') := by
  have hchar : ∀ ch : UInt8, (percentChar ch).count (chr '\'') = [ch].count (chr '\'') :=
    octet_forall (P := fun ch => (percentChar ch).count (chr '\'') = [ch].count (chr '\''))
      (by decide +kernel)
  unfold percentText
  induction utf8 cs with
  | nil => rfl
  | cons ch str ih =>
    rw [List.flatMap_cons, List.count_append, hchar, ih, ← List.count_append]
    rfl

end Charset

section Store

variable {L : Locale} {key : List UInt8} {params : List (List UInt8 × List UInt8)}

theorem updateParam_of_new (f : List UInt8 → List UInt8)
    (hnew : ∀ param ∈ params, ¬ iequals param.1 key) :
    updateParam f key params = params ++ [(key, f [])] := by
  induction params with
  | nil => rfl
  | cons param params ih =>
    rw [updateParam, if_neg (hnew param (by simp)), ih fun p hp => hnew p (by simp [hp])]
    rfl

namespace ParamDecoder

theorem storeAll_append {ps qs : List Param} {d d' : ParamDecoder}
    (h : storeAll L ps d = .ok d') : storeAll L (ps ++ qs) d = storeAll L qs d' := by
  induction ps generalizing d with
  | nil =>
    obtain rfl := Except.ok.inj h
    rfl
  | cons p ps ih =>
    rw [storeAll] at h
    rw [List.cons_append, storeAll]
    cases hp : d.store L p with
    | error fault =>
      rw [hp] at h
      exact absurd h (by simp)
    | ok next =>
      rw [hp] at h
      exact ih h

/-- The parameters that are there once the value that is still encoded is written. -/
structure Settled (L : Locale) (d : ParamDecoder) (params : List (List UInt8 × List UInt8)) :
    Prop where
  written : d.writeOld L = .ok ⟨d.oldkey, [], [], params⟩
  old : d.oldkey = [] ∨ ∃ param ∈ params, param.1 = d.oldkey

theorem settled_init (params : List (List UInt8 × List UInt8)) :
    (init params).Settled L params where
  written := rfl
  old := Or.inl rfl

theorem Settled.oldkey_ne {d : ParamDecoder} (hd : d.Settled L params) (hkey : key ≠ [])
    (hnew : ∀ param ∈ params, ¬ iequals param.1 key) : d.oldkey ≠ key := by
  rcases hd.old with hold | ⟨param, hparam, hold⟩
  · rw [hold]
    exact Ne.symm hkey
  · intro heq
    refine hnew param hparam ?_
    rw [hold, heq]
    exact iequals_refl key

theorem settled_encoded {val charset : List UInt8} (hval : L.toUtf val charset = some val)
    (hkey : key ≠ []) (hnew : ∀ param ∈ params, ¬ iequals param.1 key) :
    Settled L ⟨key, val, charset, params⟩ (params ++ [(key, val)]) where
  written := by
    rw [writeOld, if_neg hkey]
    dsimp only
    rw [hval]
    dsimp only
    rw [updateParam_of_new _ hnew]
  old := Or.inr ⟨(key, val), by simp, rfl⟩

theorem store_plain (hL : L.Documented) {val : List UInt8}
    (hword : ∀ w : EncodedWord, w.Accepted → ¬ w.chars <:+: val)
    (hnew : ∀ param ∈ params, ¬ iequals param.1 key) :
    (init params).store L ⟨key, none, val⟩ = .ok (init (params ++ [(key, val)])) := by
  have hdecode := rfc2047Decode_of_no_word hL (findWord_eq_none_iff.mpr hword)
  rw [store, if_pos rfl]
  change (init params).writePlain L key val = _
  rw [writePlain, hdecode]
  dsimp only
  rw [init, updateParam_of_new _ hnew]
  rfl

theorem store_continued {idx : Option Int} {cs : List Char} (hcs : chr '%' ∉ utf8 cs)
    (d : ParamDecoder) :
    d.store L ⟨d.oldkey, some idx, percentText cs⟩ =
      .ok { d with encoded := d.encoded ++ utf8 cs } := by
  rw [store, if_neg (by simp), if_pos rfl, writeEncoded, percentText, percentDecode_text hcs]

theorem store_first {idx : Option Int} {val charset : List UInt8} {cs : List Char}
    (hcharset : rfc2231ParseCharset val = (charset, percentText cs)) (hcs : chr '%' ∉ utf8 cs)
    {d : ParamDecoder} (hold : d.oldkey ≠ key) (hd : d.Settled L params) :
    d.store L ⟨key, some idx, val⟩ = .ok ⟨key, utf8 cs, charset, params⟩ := by
  rw [store, if_neg (by simp), if_neg hold, hd.written]
  change writeEncoded _ _ = _
  simp only [if_true, hcharset]
  rw [writeEncoded, percentText, percentDecode_text hcs]
  rfl

theorem storeAll_pieces {pieces : List (List Char)}
    (hpieces : ∀ piece ∈ pieces, chr '%' ∉ utf8 piece) {idx : Nat} (hidx : idx ≠ 0) (d : ParamDecoder) :
    storeAll L (piecesMatches d.oldkey idx pieces) d =
      .ok { d with encoded := d.encoded ++ utf8 pieces.flatten } := by
  induction pieces generalizing idx d with
  | nil => simp [piecesMatches, storeAll, utf8]
  | cons piece rest ih =>
    have hmatch : segmentMatch d.oldkey (idx + 1) piece =
        ⟨d.oldkey, some (some ((idx + 1 : Nat) : Int)), percentText piece⟩ := by
      rw [segmentMatch, if_neg (by omega)]
      rfl
    have hnext := ih (fun piece h => hpieces piece (by simp [h])) (Nat.succ_ne_zero idx)
      { d with encoded := d.encoded ++ utf8 piece }
    rw [piecesMatches, storeAll, hmatch, store_continued (hpieces piece (by simp))]
    dsimp only
    rw [hnext, List.flatten_cons, utf8_append, List.append_assoc]

theorem storeAll_last {rest : List Char} (hrest : chr '%' ∉ utf8 rest) {idx : Nat}
    (d : ParamDecoder) :
    storeAll L (lastMatches d.oldkey idx rest) d =
      .ok { d with encoded := d.encoded ++ utf8 rest } := by
  by_cases hnil : rest = []
  · subst hnil
    simp [lastMatches, storeAll, utf8]
  · rw [lastMatches, if_neg hnil, storeAll, store_continued hrest]
    rfl

theorem storeAll_encoded (hL : L.Documented) (hascii : L.KeepsAscii) (hkey : key ≠ [])
    (hnew : ∀ param ∈ params, ¬ iequals param.1 key) {cs : List Char} (hcs : cs ≠ [])
    (hkeeps : KeepsEncoded cs) {d : ParamDecoder} (hd : d.Settled L params) :
    ∃ d', storeAll L (piecesMatches key 0 (charChunks [] cs).1 ++
        lastMatches key (charChunks [] cs).1.length (charChunks [] cs).2) d = .ok d' ∧
      d'.Settled L (params ++ [(key, utf8 cs)]) := by
  have hflatten := charChunks_flatten [] cs
  have hshort := hkeeps.short
  have hpercent := hkeeps.percent
  have hold := hd.oldkey_ne hkey hnew
  generalize (charChunks [] cs).1 = pieces at *
  generalize (charChunks [] cs).2 = last at *
  rw [List.nil_append] at hflatten
  cases pieces with
  | nil =>
    obtain ⟨hsmall, -, hcount⟩ := hshort rfl
    obtain rfl : last = cs := by simpa using hflatten
    have hcharset := rfc2231ParseCharset_of_count
      (show (percentText last).count (chr '\'') < 3 by rwa [count_percentText])
    refine ⟨_, ?_, settled_encoded (hascii _ hsmall) hkey hnew⟩
    rw [piecesMatches, List.nil_append, lastMatches, if_neg hcs, storeAll,
      store_first hcharset hpercent hold hd]
    rfl
  | cons piece rest =>
    rw [← hflatten, utf8_append, utf8_flatten] at hpercent
    have hpieces : ∀ p ∈ piece :: rest, chr '%' ∉ utf8 p := fun p hp hmem =>
      hpercent (List.mem_append_left _ (List.mem_flatMap.mpr ⟨p, hp, hmem⟩))
    have hlast : chr '%' ∉ utf8 last := fun hmem => hpercent (List.mem_append_right _ hmem)
    refine ⟨_, ?_, settled_encoded (hL.toUtf_utf8 cs) hkey hnew⟩
    rw [piecesMatches, List.cons_append, storeAll, segmentMatch, if_pos rfl,
      store_first (rfc2231ParseCharset_charsetText _) (hpieces piece (by simp)) hold hd]
    dsimp only
    have hrest : ∀ p ∈ rest, chr '%' ∉ utf8 p := fun p hp =>
      hpieces p (List.mem_cons_of_mem _ hp)
    have hmiddle := storeAll_pieces (L := L) hrest (Nat.succ_ne_zero 0)
      ⟨key, utf8 piece, octets "UTF-8", params⟩
    have hend : storeAll L (lastMatches key (piece :: rest).length last)
        ⟨key, utf8 piece ++ utf8 rest.flatten, octets "UTF-8", params⟩ =
        .ok ⟨key, utf8 piece ++ utf8 rest.flatten ++ utf8 last, octets "UTF-8", params⟩ :=
      storeAll_last hlast ⟨key, utf8 piece ++ utf8 rest.flatten, octets "UTF-8", params⟩
    rw [storeAll_append hmiddle, hend, ← hflatten, utf8_append, List.flatten_cons, utf8_append]

theorem storeAll_params_encoded (hL : L.Documented) (hascii : L.KeepsAscii)
    {rest : List (List UInt8 × List Char)} (hnames : ∀ param ∈ rest, param.1 ≠ [])
    (hkeeps : KeepsParams rest) (hencoded : ∀ param ∈ rest, ¬ isAscii (utf8 param.2))
    (hdistinct : (params ++ utf8Params rest).Pairwise fun p q => ¬ iequals p.1 q.1)
    {d : ParamDecoder} (hd : d.Settled L params) :
    ∃ d', storeAll L (rest.flatMap fun param => paramMatches param.1 param.2) d = .ok d' ∧
      d'.Settled L (params ++ utf8Params rest) := by
  induction rest generalizing d params with
  | nil => exact ⟨d, rfl, by simpa [utf8Params] using hd⟩
  | cons param rest ih =>
    obtain ⟨key, cs⟩ := param
    obtain ⟨hcs, hrest, -, hkept⟩ := hkeeps
    have hnot : ¬ isAscii (utf8 cs) := hencoded (key, cs) (by simp)
    have hnew : ∀ param ∈ params, ¬ iequals param.1 key := fun param hparam =>
      (List.pairwise_append.mp hdistinct).2.2 param hparam (key, utf8 cs) (by simp [utf8Params])
    have hparams : params ++ utf8Params ((key, cs) :: rest) =
        (params ++ [(key, utf8 cs)]) ++ utf8Params rest := by simp [utf8Params]
    obtain ⟨d₁, hstore, hd₁⟩ := storeAll_encoded hL hascii (hnames (key, cs) (by simp)) hnew hcs
      (hkept hnot).1 hd
    rw [hparams] at hdistinct
    obtain ⟨d₂, hstore₂, hd₂⟩ := ih (fun p hp => hnames p (by simp [hp])) hrest
      (fun p hp => hencoded p (by simp [hp])) hdistinct hd₁
    refine ⟨d₂, ?_, by rwa [hparams]⟩
    rw [List.flatMap_cons, paramMatches, if_neg hnot, storeAll_append hstore, hstore₂]

theorem storeAll_params (hL : L.Documented) (hascii : L.KeepsAscii)
    {rest : List (List UInt8 × List Char)} (hnames : ∀ param ∈ rest, param.1 ≠ [])
    (hkeeps : KeepsParams rest)
    (hdistinct : (params ++ utf8Params rest).Pairwise fun p q => ¬ iequals p.1 q.1) :
    ∃ d, storeAll L (rest.flatMap fun param => paramMatches param.1 param.2) (init params) =
        .ok d ∧ d.Settled L (params ++ utf8Params rest) := by
  induction rest generalizing params with
  | nil => exact ⟨init params, rfl, by simpa [utf8Params] using settled_init params⟩
  | cons param rest ih =>
    obtain ⟨key, cs⟩ := param
    by_cases hplain : isAscii (utf8 cs)
    · obtain ⟨-, hrest, hkept, -⟩ := hkeeps
      have hnew : ∀ param ∈ params, ¬ iequals param.1 key := fun param hparam =>
        (List.pairwise_append.mp hdistinct).2.2 param hparam (key, utf8 cs) (by simp [utf8Params])
      have hparams : params ++ utf8Params ((key, cs) :: rest) =
          (params ++ [(key, utf8 cs)]) ++ utf8Params rest := by simp [utf8Params]
      rw [hparams] at hdistinct ⊢
      obtain ⟨d, hstore, hd⟩ := ih (fun p hp => hnames p (by simp [hp])) hrest hdistinct
      refine ⟨d, ?_, hd⟩
      rw [List.flatMap_cons, paramMatches, if_pos hplain, List.singleton_append, storeAll,
        store_plain hL (hkept hplain).word hnew]
      exact hstore
    · refine storeAll_params_encoded hL hascii hnames hkeeps ?_ hdistinct (settled_init params)
      intro p hp
      rcases List.mem_cons.mp hp with rfl | hp
      · exact hplain
      · exact (hkeeps.2.2.2 hplain).2.2 p hp

end ParamDecoder

end Store

section RoundTrip

variable {L : Locale}

/-- The characters of a token. A slash may stand between two of them. -/
def isTokenChar (ch : UInt8) : Bool := isgraph ch && !(octets "()<>@,;:\\\"[]?=").contains ch

def IsToken (main : List UInt8) : Prop := main ≠ [] ∧ ∀ ch ∈ main, isTokenChar ch

theorem decodeMimeheader_text (hL : L.Documented) (hascii : L.KeepsAscii)
    {f : List UInt8 → List UInt8} (hblanks : ∀ ch ∈ f [chr '\t'], isspace ch)
    (hne : f [chr '\t'] ≠ []) {main text : List UInt8} (hmain : ∀ ch ∈ main, !isParamsStart ch)
    (hword : findWord main = none) {params : List (List UInt8 × List Char)}
    (hnames : ∀ param ∈ params, isName param.1) (hkeeps : KeepsParams params)
    (hdistinct : (utf8Params params).Pairwise fun p q => ¬ iequals p.1 q.1)
    (htext : ParamsText f params text) :
    decodeMimeheader L (main ++ text) ⟨[], []⟩ = some ⟨main, utf8Params params⟩ := by
  have hmatch := matchParams_params hblanks hne hnames hkeeps htext
  have hstart : ∀ ch ∈ text.head?, ch = chr ';' := by
    cases htext with
    | nil => simp
    | cons => exact fun ch hch => (Option.some.inj hch).symm
  rw [decodeMimeheader]
  cases text with
  | nil =>
    cases htext
    rw [List.append_nil, List.takeWhile_eq_self_iff.mpr hmain,
      List.dropWhile_eq_nil_iff.mpr hmain, rfc2047Decode_of_no_word hL hword]
    rfl
  | cons ch text =>
    obtain rfl : ch = chr ';' := hstart ch rfl
    have hend : ¬ (!isParamsStart (chr ';')) = true := by decide
    rw [matchParams_of_skip (Or.inr rfl)] at hmatch
    have hdistinct' : (([] : List (List UInt8 × List UInt8)) ++ utf8Params params).Pairwise
        fun p q => ¬ iequals p.1 q.1 := hdistinct
    obtain ⟨d, hstore, hd⟩ := ParamDecoder.storeAll_params hL hascii
      (fun param hparam => isName_ne_nil (hnames param hparam)) hkeeps hdistinct'
    have hloop : ParamDecoder.loop L (text.length + 1) text (.init []) = some (.ok d) :=
      ParamDecoder.loop_of_consumed (by rw [hmatch]; exact hstore) (Or.inr (by rw [hmatch]))
        (Nat.lt_succ_self _)
    have hparams : rfc2231Decode L (text.length + 1) text [] = some (.ok (utf8Params params)) := by
      rw [rfc2231Decode, hloop, Option.map_some]
      change some (do let d ← d.writeOld L; return d.params) = _
      rw [hd.written]
      rfl
    rw [takeWhile_run hmain hend, dropWhile_run hmain hend, rfc2047Decode_of_no_word hL hword]
    simp only [Option.bind_eq_bind, Option.bind_some, hparams]
    rfl

theorem segments_of_no_blank {word : List UInt8} (h : ∀ ch ∈ word, ¬ isspace ch) :
    segments word = (word, []) := by
  induction word with
  | nil => rfl
  | cons ch word ih =>
    rw [segments, ih fun c hc => h c (by simp [hc])]
    exact if_neg (h ch (by simp))

/-- What is read back in front of the parameters as it is written: there is no blank in it, no
semicolon and no encoded word. -/
structure IsWord (main : List UInt8) : Prop where
  ne_nil : main ≠ []
  chars : ∀ ch ∈ main, isgraph ch ∧ ch ≠ chr ';'
  noWord : findWord main = none

theorem IsToken.isWord {main : List UInt8} (hmain : IsToken main) : IsWord main := by
  have h : ∀ ch : UInt8, isTokenChar ch → isgraph ch ∧ ch ≠ chr ';' ∧ ch ≠ chr '=' :=
    octet_forall (P := fun ch => isTokenChar ch → isgraph ch ∧ ch ≠ chr ';' ∧ ch ≠ chr '=')
      (by decide +kernel)
  exact ⟨hmain.1, fun ch hch => ⟨(h ch (hmain.2 ch hch)).1, (h ch (hmain.2 ch hch)).2.1⟩,
    findWord_of_notMem fun hmem => (h _ (hmain.2 _ hmem)).2.2 rfl⟩

theorem IsWord.octet {main : List UInt8} (hmain : IsWord main) :
    ∀ ch ∈ main, isprint ch ∧ ¬ isspace ch ∧ (!isParamsStart ch) = true := by
  intro ch hch
  have h : ∀ ch : UInt8, isgraph ch ∧ ch ≠ chr ';' →
      isprint ch ∧ ¬ isspace ch ∧ (!isParamsStart ch) = true :=
    octet_forall (P := fun ch => isgraph ch ∧ ch ≠ chr ';' →
      isprint ch ∧ ¬ isspace ch ∧ (!isParamsStart ch) = true) (by decide +kernel)
  exact h ch (hmain.chars ch hch)

theorem IsWord.clean {main : List UInt8} (hmain : IsWord main) : Clean main :=
  clean_of_isprint fun ch hch => (hmain.octet ch hch).1

theorem encodeField_word (key : List UInt8) (hkey : isName key) {charset main : List UInt8}
    (hmain : IsWord main) :
    encodeField L charset key main =
      some ((key.length + 2 + main.length : Int), key ++ octets ": " ++ main) := by
  have hascii : isAscii main := List.all_eq_true.mpr fun ch hch => (hmain.octet ch hch).1
  have hspace : ∀ ch ∈ main, ¬ isspace ch := fun ch hch => (hmain.octet ch hch).2.1
  have hplain : ∀ cnt, plainEncode cnt main = (cnt + main.length, main) := by
    intro cnt
    rw [plainEncode, segments_of_no_blank hspace, plainLoop]
  rw [encodeField, if_pos hkey]
  cases main with
  | nil => exact absurd rfl hmain.ne_nil
  | cons front rest =>
    dsimp only
    rw [if_pos ⟨hascii, hspace front (by simp), hspace _ (List.getLast_mem _)⟩, hplain]

/-- The text of parameters that are none of the encoder's and the decoder's disagreements, for any
way to unfold it that leaves blanks. -/
theorem encodeMimeheader_unfolds (hL : L.Documented) (hascii : L.KeepsAscii)
    {f : List UInt8 → List UInt8} (hblanks : ∀ ch ∈ f [chr '\t'], isspace ch)
    (hne : f [chr '\t'] ≠ []) {key main : List UInt8} (hkey : isName key) (hmain : IsWord main)
    {params : List (List UInt8 × List Char)} (hnames : ∀ param ∈ params, isName param.1)
    (hdistinct : (utf8Params params).Pairwise fun p q => ¬ iequals p.1 q.1)
    (hkeeps : KeepsParams params)
    (hfolds : FoldsKept f (key.length + 2 + main.length) params) :
    ∃ out text, encodeMimeheader L (octets "UTF-8") key main (utf8Params params) =
        some (key ++ octets ": " ++ (main ++ out)) ∧
      Unfolds f out text ∧
      decodeMimeheader L (main ++ text) ⟨[], []⟩ = some ⟨main, utf8Params params⟩ := by
  obtain ⟨out, text, hout, hunfolds, htext, -⟩ := encodeParams_unfolds hL hblanks hnames hkeeps
    hfolds
  refine ⟨out, text, ?_, hunfolds, ?_⟩
  · rw [encodeMimeheader, encodeField_word key hkey hmain]
    simp only [Option.bind_eq_bind, Option.bind_some, hout, List.append_assoc]
  · exact decodeMimeheader_text hL hascii hblanks hne (fun ch hch => (hmain.octet ch hch).2.2)
      hmain.noWord hnames hkeeps hdistinct htext

/-- Parameters that are none of the encoder's and the decoder's disagreements come back. -/
theorem params_round_trip (hL : L.Documented) (hascii : L.KeepsAscii) {key main : List UInt8}
    (hkey : isName key) (hmain : IsToken main) {params : List (List UInt8 × List Char)}
    (hnames : ∀ param ∈ params, isName param.1)
    (hdistinct : (utf8Params params).Pairwise fun p q => ¬ iequals p.1 q.1)
    (hkeeps : KeepsParams params) :
    ∃ text, encodeMimeheader L (octets "UTF-8") key main (utf8Params params) =
        some (key ++ octets ": " ++ text) ∧
      decodeMimeheader L (unfoldText text) ⟨[], []⟩ = some ⟨main, utf8Params params⟩ := by
  have hblanks : ∀ ch ∈ id [chr '\t'], isspace ch := by
    intro ch hch
    rw [List.mem_singleton.mp hch]
    decide
  obtain ⟨out, text, hout, hunfolds, hdecode⟩ := encodeMimeheader_unfolds hL hascii (f := id)
    hblanks (List.cons_ne_nil _ _) hkey hmain.isWord hnames hdistinct hkeeps
    (foldsKept_id _ params)
  refine ⟨main ++ out, hout, ?_⟩
  rw [unfoldText_clean hmain.isWord.clean, hunfolds.unfoldText_eq, hdecode]

/-- A plain parameter before one that is encoded. -/
theorem params_round_trip_of_tab :
    ∃ text, encodeMimeheader utf8Locale (octets "UTF-8") (octets "Content-Type")
        (octets "text/plain") (utf8Params [(octets "a", ['x', ' ', 'y']), (octets "b", ['\t'])]) =
        some (octets "Content-Type" ++ octets ": " ++ text) ∧
      decodeMimeheader utf8Locale (unfoldText text) ⟨[], []⟩ =
        some ⟨octets "text/plain",
          utf8Params [(octets "a", ['x', ' ', 'y']), (octets "b", ['\t'])]⟩ := by
  have hplain : KeepsPlain ['x', ' ', 'y'] :=
    ⟨by decide, findWord_eq_none_iff.mp (findWord_of_notMem (by decide))⟩
  have hencoded : KeepsEncoded ['\t'] :=
    ⟨by decide +kernel, by decide, by decide, fun _ => by decide +kernel⟩
  have hkeeps : KeepsParams [(octets "a", ['x', ' ', 'y']), (octets "b", ['\t'])] :=
    ⟨by simp, ⟨by simp, trivial, fun h => absurd h (by decide),
      fun _ => ⟨hencoded, fun h => absurd rfl h, by simp⟩⟩, fun _ => hplain,
      fun h => absurd (by decide) h⟩
  exact params_round_trip utf8Locale_documented (fun _ _ => rfl) (by decide)
    ⟨by decide, by decide +kernel⟩ (by decide +kernel) (by decide +kernel) hkeeps

/-- A parameter with nothing in it is written without a value, which is never read to its end. -/
theorem not_params_round_trip_of_empty :
    encodeMimeheader utf8Locale (octets "UTF-8") (octets "Content-Type") (octets "text/plain")
        (utf8Params [(octets "a", [])]) =
        some (octets "Content-Type" ++ octets ": " ++ octets "text/plain; a") ∧
      (∀ fuel, rfc2231Decode utf8Locale fuel (octets " a") [] = none) ∧
      decodeMimeheader utf8Locale (unfoldText (octets "text/plain; a")) ⟨[], []⟩ ≠
        some ⟨octets "text/plain", utf8Params [(octets "a", [])]⟩ := by
  refine ⟨by decide, fun fuel => ?_, by decide⟩
  have hmatch : matchParams (octets " a") = ([], octets "a") := by
    have hbare : matchParams (octets "a") = ([], octets "a") :=
      matchParams_of_none (by decide) (by decide)
    exact (matchParams_of_skip (by decide)).trans hbare
  have hstore : ParamDecoder.storeAll utf8Locale (matchParams (octets " a")).1 (.init []) =
      .ok (.init []) := by
    rw [hmatch]
    rfl
  have hstuck := ParamDecoder.loop_of_stuck hstore (by rw [hmatch]; decide) fuel
  rw [rfc2231Decode, hstuck]
  rfl

end RoundTrip

end Email

end Acqua
