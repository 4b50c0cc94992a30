import Acqua.Email.ParamMatching
import Acqua.Email.Unfolding

/-! The text that `encode_mimeheader` writes for parameters, once it is unfolded. -/

namespace Acqua

namespace Email

/-- The parameters of a disposition whose values are texts in UTF-8. -/
def utf8Params (params : List (List UInt8 × List Char)) : List (List UInt8 × List UInt8) :=
  params.map fun param => (param.1, utf8 param.2)

def percentText (cs : List Char) : List UInt8 := (utf8 cs).flatMap percentChar

def charsetText : List UInt8 := [chr '\''] ++ octets "UTF-8" ++ octets "''"

def segmentText (key : List UInt8) (idx : Nat) (piece : List Char) : List UInt8 :=
  key ++ [chr '*'] ++ octets (Nat.repr idx) ++ octets "*=" ++
    (if idx = 1 then charsetText else []) ++ percentText piece

def lastText (key : List UInt8) (idx : Nat) (rest : List Char) : List UInt8 :=
  if rest = [] then []
  else key ++ (if idx = 0 then [] else [chr '*'] ++ octets (Nat.repr idx)) ++ octets "*=" ++
    percentText rest

section Text

-- What a line break and the blanks after it are unfolded to.
variable (f : List UInt8 → List UInt8)

def piecesText (key : List UInt8) : Nat → List (List Char) → List UInt8
  | _, [] => []
  | idx, piece :: rest =>
    segmentText key (idx + 1) piece ++ (f [chr '\t'] ++ piecesText key (idx + 1) rest)

def paramText (key : List UInt8) (cs : List Char) : List UInt8 :=
  if isAscii (utf8 cs) then key ++ octets "=\"" ++ utf8 cs ++ [chr '"']
  else
    piecesText f key 0 (charChunks [] cs).1 ++
      lastText key (charChunks [] cs).1.length (charChunks [] cs).2

/-- What the parameters are unfolded to: there are blanks after each semicolon. -/
inductive ParamsText : List (List UInt8 × List Char) → List UInt8 → Prop
  | nil : ParamsText [] []
  | cons {key : List UInt8} {cs : List Char} {rest : List (List UInt8 × List Char)}
    {blanks text : List UInt8} (hblanks : ∀ ch ∈ blanks, isspace ch)
    (htext : ParamsText rest text) :
    ParamsText ((key, cs) :: rest) (chr ';' :: blanks ++ (paramText f key cs ++ text))

/-- The lines of the plain parameters are broken at gaps that unfolding keeps. -/
def FoldsKept : Int → List (List UInt8 × List Char) → Prop
  | _, [] => True
  | cnt, (key, cs) :: rest =>
    let cnt := if cnt - 2 < lineMax then cnt + 2 else 1
    isAscii (utf8 cs) →
      (∀ gap ∈ foldedGaps cnt (segments (utf8 cs)).1 (segments (utf8 cs)).2, f gap = gap) ∧
        FoldsKept ((plainEncode cnt (utf8 cs)).1 + (key.length + 3)) rest

end Text

theorem foldsKept_id (cnt : Int) (params : List (List UInt8 × List Char)) :
    FoldsKept id cnt params := by
  induction params generalizing cnt with
  | nil => trivial
  | cons param rest ih => exact fun _ => ⟨fun _ _ => rfl, ih _⟩

section Encode

variable {L : Locale} {f : List UInt8 → List UInt8} {key : List UInt8}

theorem percentEncode_utf8 (hL : L.Documented) (cs : List Char) :
    percentEncode L (octets "UTF-8") (utf8 cs) = some (percentText cs) := by
  rw [percentEncode, hL.fromUtf_utf8]
  rfl

theorem clean_percentText (hL : L.Documented) (cs : List Char) : Clean (percentText cs) :=
  clean_percentEncode (percentEncode_utf8 hL cs)

theorem clean_segmentText (hL : L.Documented) (hkey : isName key) (idx : Nat)
    (piece : List Char) : Clean (segmentText key idx piece) := by
  have hcharset : Clean (if idx = 1 then charsetText else []) := by
    split_ifs
    · exact clean_of_isprint (by decide +kernel)
    · exact fun ch hch => absurd hch (by simp)
  have hstar : Clean [chr '*'] := clean_of_isprint (by decide +kernel)
  exact (((((clean_of_isName hkey).append hstar).append (clean_index idx)).append
    (clean_octets "*=")).append hcharset).append (clean_percentText hL piece)

theorem clean_lastText (hL : L.Documented) (hkey : isName key) (idx : Nat) (rest : List Char) :
    Clean (lastText key idx rest) := by
  unfold lastText
  by_cases hrest : rest = []
  · rw [if_pos hrest]
    exact fun ch hch => absurd hch (by simp)
  · rw [if_neg hrest]
    have hindex : Clean (if idx = 0 then [] else [chr '*'] ++ octets (Nat.repr idx)) := by
      split_ifs
      · exact fun ch hch => absurd hch (by simp)
      · exact Clean.append (clean_of_isprint (by decide +kernel)) (clean_index idx)
    exact (((clean_of_isName hkey).append hindex).append (clean_octets "*=")).append
      (clean_percentText hL rest)

theorem head_of_name (hkey : isName key) (text : List UInt8) :
    ∀ ch ∈ (key ++ text).head?, ¬ isspace ch := by
  intro ch hch
  rw [List.head?_append_of_ne_nil _ (isName_ne_nil hkey)] at hch
  exact fun hspace => not_skip_of_isName hkey ch (List.mem_of_mem_head? hch) (Or.inl hspace)

theorem head_append {text text' : List UInt8} (h : ∀ ch ∈ text.head?, ¬ isspace ch)
    (h' : ∀ ch ∈ text'.head?, ¬ isspace ch) : ∀ ch ∈ (text ++ text').head?, ¬ isspace ch := by
  cases text with
  | nil => exact h'
  | cons ch text => exact h

theorem segmentText_eq (key : List UInt8) (idx : Nat) (piece : List Char) (text : List UInt8) :
    ∃ rest, segmentText key idx piece ++ text = key ++ rest := by
  simp only [segmentText, List.append_assoc]
  exact ⟨_, rfl⟩

theorem rfc2231Pieces_unfolds (hL : L.Documented) (hkey : isName key)
    (pieces : List (List Char)) (idx : Nat) (cnt : Int) :
    ∃ cnt' out, rfc2231Pieces L (octets "UTF-8") key idx cnt (pieces.map utf8) =
        some (idx + pieces.length, cnt', out) ∧ Unfolds f out (piecesText f key idx pieces) ∧
      ∀ ch ∈ out.head?, ¬ isspace ch := by
  induction pieces generalizing idx cnt with
  | nil => exact ⟨cnt, [], rfl, .nil, by simp⟩
  | cons piece rest ih =>
    obtain ⟨cnt', out, hout, hunfolds, hhead⟩ :=
      ih (idx + 1) (cnt + (percentText piece).length)
    refine ⟨cnt', segmentText key (idx + 1) piece ++ (crlf ++ ([chr '\t'] ++ out)), ?_, ?_, ?_⟩
    · rw [List.map_cons, rfc2231Pieces, percentEncode_utf8 hL]
      simp only [Option.bind_eq_bind, Option.bind_some, hout, List.length_cons, segmentText,
        charsetText, List.append_assoc]
      rw [Nat.add_right_comm, Nat.add_assoc]
    · exact .clean (clean_segmentText hL hkey (idx + 1) piece)
        (.fold (List.cons_ne_nil _ _) (by simp) hhead hunfolds)
    · obtain ⟨text, htext⟩ := segmentText_eq key (idx + 1) piece (crlf ++ ([chr '\t'] ++ out))
      rw [htext]
      exact head_of_name hkey text

theorem utf8_eq_nil_iff {cs : List Char} : utf8 cs = [] ↔ cs = [] :=
  ⟨fun h => by_contra fun hcs => utf8_ne_nil hcs h, fun h => by rw [h]; rfl⟩

theorem rfc2231Encode_unfolds (hL : L.Documented) (hkey : isName key) (cnt : Int)
    (cs : List Char) :
    ∃ cnt' out, rfc2231Encode L (octets "UTF-8") cnt key (utf8 cs) = some (cnt', out) ∧
      Unfolds f out (piecesText f key 0 (charChunks [] cs).1 ++
        lastText key (charChunks [] cs).1.length (charChunks [] cs).2) ∧
      ∀ ch ∈ out.head?, ¬ isspace ch := by
  obtain ⟨cnt', out, hout, hunfolds, hstart⟩ :=
    rfc2231Pieces_unfolds (f := f) hL hkey (charChunks [] cs).1 0 cnt
  have hchunks : chunks L [] 0 (utf8 cs) =
      some ((charChunks [] cs).1.map utf8, utf8 (charChunks [] cs).2) := chunks_utf8 hL [] cs
  have hlast : Unfolds f (lastText key (charChunks [] cs).1.length (charChunks [] cs).2)
      (lastText key (charChunks [] cs).1.length (charChunks [] cs).2) :=
    .of_clean (clean_lastText hL hkey _ _)
  have hhead : ∀ ch ∈ (lastText key (charChunks [] cs).1.length (charChunks [] cs).2).head?,
      ¬ isspace ch := by
    unfold lastText
    by_cases hrest : (charChunks [] cs).2 = []
    · rw [if_pos hrest]
      simp
    · rw [if_neg hrest, List.append_assoc, List.append_assoc]
      exact head_of_name hkey _
  have hall := hunfolds.append hlast hhead
  rw [rfc2231Encode, hchunks]
  simp only [Option.bind_eq_bind, Option.bind_some, hout, Nat.zero_add]
  by_cases hrest : (charChunks [] cs).2 = []
  · rw [if_pos (utf8_eq_nil_iff.mpr hrest)]
    refine ⟨cnt', out, rfl, ?_, hstart⟩
    rw [lastText, if_pos hrest, List.append_nil] at hall
    rwa [lastText, if_pos hrest, List.append_nil]
  · rw [if_neg fun h => hrest (utf8_eq_nil_iff.mp h), percentEncode_utf8 hL]
    have hboth := head_append hstart hhead
    rw [lastText, if_neg hrest] at hall hboth
    refine ⟨_, _, rfl, ?_, ?_⟩
    · rw [lastText, if_neg hrest]
      simpa only [List.append_assoc] using hall
    · simpa only [List.append_assoc] using hboth

theorem encodeParam_unfolds (hL : L.Documented) (hkey : isName key) {cs : List Char}
    (hcs : cs ≠ []) {cnt : Int} (hf : isAscii (utf8 cs) →
      ∀ gap ∈ foldedGaps cnt (segments (utf8 cs)).1 (segments (utf8 cs)).2, f gap = gap) :
    ∃ cnt' out, encodeParam L (octets "UTF-8") cnt key (utf8 cs) = some (cnt', out) ∧
      (isAscii (utf8 cs) → cnt' = (plainEncode cnt (utf8 cs)).1 + (key.length + 3)) ∧
      Unfolds f out (paramText f key cs) ∧ ∀ ch ∈ out.head?, ¬ isspace ch := by
  rw [encodeParam, if_neg fun h => hcs (utf8_eq_nil_iff.mp h), paramText]
  by_cases hascii : isAscii (utf8 cs)
  · rw [if_pos hascii, if_pos hascii]
    refine ⟨_, _, rfl, fun _ => rfl, ?_, ?_⟩
    rotate_left
    · rw [List.append_assoc, List.append_assoc]
      exact head_of_name hkey _
    have hname : Clean (key ++ octets "=\"") :=
      (clean_of_isName hkey).append (clean_of_isprint (by decide +kernel))
    have hquote : Unfolds f [chr '"'] [chr '"'] := .of_clean (clean_of_isprint (by decide +kernel))
    rw [List.append_assoc (key ++ octets "=\""), List.append_assoc (key ++ octets "=\"")]
    exact .clean hname ((plainEncode_unfolds hascii (hf hascii)).append hquote
      (by decide +kernel))
  · rw [if_neg hascii, if_neg hascii]
    obtain ⟨cnt', out, hout, hunfolds⟩ := rfc2231Encode_unfolds (f := f) hL hkey cnt cs
    exact ⟨cnt', out, hout, fun h => absurd h hascii, hunfolds⟩

end Encode

/-- A plain parameter that comes back: it has neither a quote nor an encoded word in it. -/
structure KeepsPlain (cs : List Char) : Prop where
  quote : chr '"' ∉ utf8 cs
  word : ∀ w : EncodedWord, w.Accepted → ¬ w.chars <:+: utf8 cs

/-- An encoded parameter that comes back: it has no percent sign, no part of it but the first one
begins with a quote, and if it is too short to be cut, it is good for US-ASCII. -/
structure KeepsEncoded (cs : List Char) : Prop where
  percent : chr '%' ∉ utf8 cs
  count : (charChunks [] cs).1.length < 2 ^ 31
  quotes : ∀ piece ∈ ((charChunks [] cs).1 ++ [(charChunks [] cs).2]).tail,
    (utf8 piece).head? ≠ some (chr '"')
  short : (charChunks [] cs).1 = [] → (∀ ch ∈ utf8 cs, ch < 128) ∧
    (utf8 cs).head? ≠ some (chr '"') ∧ (utf8 cs).count (chr '\'') < 3

/-- The parameters that come back: none is empty, the plain ones stand before the encoded ones,
and an encoded one before another one is cut at its very end. -/
def KeepsParams : List (List UInt8 × List Char) → Prop
  | [] => True
  | (_, cs) :: rest =>
    cs ≠ [] ∧ KeepsParams rest ∧
      (isAscii (utf8 cs) → KeepsPlain cs) ∧
      (¬ isAscii (utf8 cs) → KeepsEncoded cs ∧ (rest ≠ [] → Tiled cs) ∧
        ∀ param ∈ rest, ¬ isAscii (utf8 param.2))

theorem foldsKept_of_encoded {params : List (List UInt8 × List Char)}
    (h : ∀ param ∈ params, ¬ isAscii (utf8 param.2)) (f : List UInt8 → List UInt8) (cnt : Int) :
    FoldsKept f cnt params := by
  cases params with
  | nil => trivial
  | cons param rest => exact fun hascii => absurd hascii (h param (by simp))

theorem encodeParams_unfolds {L : Locale} (hL : L.Documented) {f : List UInt8 → List UInt8}
    (hblanks : ∀ ch ∈ f [chr '\t'], isspace ch) {params : List (List UInt8 × List Char)}
    (hnames : ∀ param ∈ params, isName param.1) (hkeeps : KeepsParams params) {cnt : Int}
    (hfolds : FoldsKept f cnt params) :
    ∃ out text, encodeParams L (octets "UTF-8") cnt (utf8Params params) = some out ∧
      Unfolds f out text ∧ ParamsText f params text ∧ ∀ ch ∈ out.head?, ch = chr ';' := by
  induction params generalizing cnt with
  | nil => exact ⟨[], [], rfl, .nil, .nil, by simp⟩
  | cons param rest ih =>
    obtain ⟨key, cs⟩ := param
    obtain ⟨hcs, hrest, hplain, hencoded⟩ := hkeeps
    have hkey : isName key := hnames (key, cs) (by simp)
    have ih := fun cnt (hcnt : FoldsKept f cnt rest) =>
      ih (fun param hmem => hnames param (by simp [hmem])) hrest hcnt
    generalize hstart : (if cnt - 2 < lineMax then cnt + 2 else 1) = cnt₁
    have hgaps : isAscii (utf8 cs) → ∀ gap ∈ foldedGaps cnt₁ (segments (utf8 cs)).1
        (segments (utf8 cs)).2, f gap = gap := by
      intro hascii
      rw [← hstart]
      exact (hfolds hascii).1
    obtain ⟨cnt₂, out, hout, hcnt₂, hunfolds, hstartOut⟩ := encodeParam_unfolds hL hkey hcs hgaps
    have hfolds' : FoldsKept f cnt₂ rest := by
      by_cases hascii : isAscii (utf8 cs)
      · rw [hcnt₂ hascii, ← hstart]
        exact (hfolds hascii).2
      · exact foldsKept_of_encoded (hencoded hascii).2.2 f cnt₂
    obtain ⟨out', text, hout', hunfolds', htext, hhead⟩ := ih cnt₂ hfolds'
    have hnext : ∀ ch ∈ out'.head?, ¬ isspace ch := by
      intro ch hch
      rw [hhead ch hch]
      decide
    have hboth := hunfolds.append hunfolds' hnext
    have hparams : utf8Params ((key, cs) :: rest) = (key, utf8 cs) :: utf8Params rest := rfl
    rw [hparams, encodeParams, if_pos hkey]
    by_cases hfits : cnt - 2 < lineMax
    · rw [if_pos hfits] at hstart
      simp only [hfits, if_true, hstart, Option.bind_eq_bind, Option.bind_some, hout, hout']
      refine ⟨_, chr ';' :: [chr ' '] ++ (paramText f key cs ++ text), rfl, ?_,
        .cons (by decide +kernel) htext, fun ch hch => (Option.some.inj hch).symm⟩
      rw [List.append_assoc]
      exact .clean (clean_of_isprint (by decide +kernel)) hboth
    · rw [if_neg hfits] at hstart
      simp only [hfits, if_false, hstart, Option.bind_eq_bind, Option.bind_some, hout, hout']
      refine ⟨_, chr ';' :: f [chr '\t'] ++ (paramText f key cs ++ text), rfl, ?_,
        .cons hblanks htext, fun ch hch => (Option.some.inj hch).symm⟩
      have hsep : [chr ';'] ++ crlf ++ [chr '\t'] ++ out ++ out' =
          [chr ';'] ++ (crlf ++ ([chr '\t'] ++ (out ++ out'))) := by simp only [List.append_assoc]
      rw [hsep]
      have hfold := Unfolds.fold (f := f) (List.cons_ne_nil (chr '\t') []) (by simp)
        (head_append hstartOut hnext) hboth
      exact .clean (s := [chr ';']) (clean_of_isprint (by decide +kernel)) hfold

end Email

end Acqua
