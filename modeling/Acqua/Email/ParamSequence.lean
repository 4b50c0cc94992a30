import Acqua.Email.ParamText

/-! What the grammar of `rfc2231_decode` finds in the text of the parameters. -/

namespace Acqua

namespace Email

section Matches

def segmentMatch (key : List UInt8) (idx : Nat) (piece : List Char) : Param :=
  ⟨key, some (some (idx : Int)), (if idx = 1 then charsetText else []) ++ percentText piece⟩

def piecesMatches (key : List UInt8) : Nat → List (List Char) → List Param
  | _, [] => []
  | idx, piece :: rest => segmentMatch key (idx + 1) piece :: piecesMatches key (idx + 1) rest

def lastMatches (key : List UInt8) (idx : Nat) (rest : List Char) : List Param :=
  if rest = [] then []
  else [⟨key, some (if idx = 0 then none else some (idx : Int)), percentText rest⟩]

/-- What the grammar finds of a parameter. -/
def paramMatches (key : List UInt8) (cs : List Char) : List Param :=
  if isAscii (utf8 cs) then [⟨key, none, utf8 cs⟩]
  else
    piecesMatches key 0 (charChunks [] cs).1 ++
      lastMatches key (charChunks [] cs).1.length (charChunks [] cs).2

variable {key : List UInt8} {text : List UInt8}

theorem matchParams_blanks {blanks : List UInt8} (h : ∀ ch ∈ blanks, isspace ch ∨ ch = chr ';')
    (text : List UInt8) : matchParams (blanks ++ text) = matchParams text := by
  induction blanks with
  | nil => rfl
  | cons ch blanks ih =>
    rw [List.cons_append, matchParams_of_skip (h ch (by simp)), ih fun c hc => h c (by simp [hc])]

theorem matchParams_name (hkey : isName key) {tail rest : List UInt8} {p : Param}
    (hmatch : matchParam (key ++ tail) = some (p, rest)) :
    matchParams (key ++ tail) = (p :: (matchParams rest).1, (matchParams rest).2) := by
  have hchars := not_skip_of_isName hkey
  cases key with
  | nil => exact absurd rfl (isName_ne_nil hkey)
  | cons ch key => exact matchParams_of_some (hchars ch (by simp)) hmatch

theorem percentText_ne_nil {cs : List Char} (hcs : cs ≠ []) : percentText cs ≠ [] := by
  cases h : utf8 cs with
  | nil => exact absurd h (utf8_ne_nil hcs)
  | cons ch rest =>
    have hchar : percentChar ch ≠ [] := by
      unfold percentChar
      split_ifs <;> simp
    simp [percentText, h, hchar]

theorem not_isspace_percentText (cs : List Char) : ∀ ch ∈ percentText cs, ¬ isspace ch := by
  intro ch hch
  obtain ⟨c, -, hc⟩ := List.mem_flatMap.mp hch
  exact not_isspace_percentChar c ch hc

theorem head_percentText {cs : List Char} (h : (utf8 cs).head? ≠ some (chr '"')) :
    (percentText cs).head? ≠ some (chr '"') := by
  have hchar : ∀ ch : UInt8, ch ≠ chr '"' → (percentChar ch).head? ≠ some (chr '"') :=
    octet_forall (P := fun ch => ch ≠ chr '"' → (percentChar ch).head? ≠ some (chr '"'))
      (by decide +kernel)
  have hne : ∀ ch : UInt8, percentChar ch ≠ [] := by
    intro ch
    unfold percentChar
    split_ifs <;> simp
  unfold percentText
  cases hcs : utf8 cs with
  | nil => simp
  | cons ch rest =>
    rw [hcs, List.head?_cons] at h
    rw [List.flatMap_cons, List.head?_append_of_ne_nil _ (hne ch)]
    exact hchar ch fun heq => h (by rw [heq])

theorem matchParam_segment (hkey : isName key) {idx : Nat} (hidx : idx < 2 ^ 31)
    {piece : List Char} (hpiece : piece ≠ [])
    (hquote : idx ≠ 1 → (utf8 piece).head? ≠ some (chr '"'))
    (htext : ∀ ch ∈ text.head?, isspace ch) :
    matchParam (segmentText key idx piece ++ text) = some (segmentMatch key idx piece, text) := by
  have hsplit : segmentText key idx piece ++ text = key ++ chr '*' ::
      (octets (Nat.repr idx) ++ octets "*=" ++
        ((if idx = 1 then charsetText else []) ++ percentText piece ++ text)) := by
    simp [segmentText]
  have hval : matchVal ((if idx = 1 then charsetText else []) ++ percentText piece ++ text) =
      some ((if idx = 1 then charsetText else []) ++ percentText piece, text) := by
    refine matchVal_word ?_ ?_ ?_ htext
    · exact List.append_ne_nil_of_right_ne_nil _ (percentText_ne_nil hpiece)
    · intro ch hch
      rcases List.mem_append.mp hch with hch | hch
      · split_ifs at hch
        · have hcharset : ∀ ch ∈ charsetText, ¬ isspace ch := by decide +kernel
          exact hcharset ch hch
        · exact absurd hch (by simp)
      · exact not_isspace_percentText piece ch hch
    · by_cases hone : idx = 1
      · rw [if_pos hone, List.head?_append_of_ne_nil _ (by decide)]
        decide
      · rw [if_neg hone]
        exact head_percentText (hquote hone)
  rw [hsplit, matchParam_name hkey (by decide) (matchIdx_number hidx _), hval]
  rfl

theorem charChunks_ne_nil {pending cs : List Char} :
    ∀ piece ∈ (charChunks pending cs).1, piece ≠ [] := by
  induction cs generalizing pending with
  | nil => simp [charChunks]
  | cons c cs ih =>
    rw [charChunks]
    split_ifs
    · intro piece hpiece
      rcases List.mem_cons.mp hpiece with rfl | hpiece
      · simp
      · exact ih piece hpiece
    · exact ih

theorem matchParams_pieces (hkey : isName key) {f : List UInt8 → List UInt8}
    (hblanks : ∀ ch ∈ f [chr '\t'], isspace ch) (hne : f [chr '\t'] ≠ [])
    {pieces : List (List Char)} {idx : Nat} (hcount : idx + pieces.length < 2 ^ 31)
    (hpieces : ∀ piece ∈ pieces, piece ≠ [])
    (hquotes : ∀ piece ∈ pieces.drop (1 - idx), (utf8 piece).head? ≠ some (chr '"'))
    (text : List UInt8) :
    matchParams (piecesText f key idx pieces ++ text) =
      (piecesMatches key idx pieces ++ (matchParams text).1, (matchParams text).2) := by
  induction pieces generalizing idx with
  | nil => rfl
  | cons piece rest ih =>
    rw [List.length_cons] at hcount
    have hrest := ih (show (idx + 1) + rest.length < 2 ^ 31 by omega) (fun piece h => hpieces piece (by simp [h]))
      fun piece h => hquotes piece (by
        have hmem : piece ∈ rest := List.mem_of_mem_drop h
        cases idx with
        | zero => exact hmem
        | succ idx => simp [hmem])
    have hfirst : idx + 1 ≠ 1 → (utf8 piece).head? ≠ some (chr '"') := by
      intro hidx
      refine hquotes piece ?_
      rw [Nat.sub_eq_zero_of_le (by omega)]
      exact List.mem_cons_self
    have hsplit : piecesText f key idx (piece :: rest) ++ text =
        segmentText key (idx + 1) piece ++
          (f [chr '\t'] ++ (piecesText f key (idx + 1) rest ++ text)) := by
      simp [piecesText]
    have hhead : ∀ ch ∈ (f [chr '\t'] ++ (piecesText f key (idx + 1) rest ++ text)).head?,
        isspace ch := by
      intro ch hch
      rw [List.head?_append_of_ne_nil _ hne] at hch
      exact hblanks ch (List.mem_of_mem_head? hch)
    have hmatch := matchParam_segment hkey (by omega) (hpieces piece (by simp)) hfirst hhead
    rw [hsplit]
    obtain ⟨tail, htail⟩ := segmentText_eq key (idx + 1) piece
      (f [chr '\t'] ++ (piecesText f key (idx + 1) rest ++ text))
    rw [htail] at hmatch ⊢
    rw [matchParams_name hkey hmatch, matchParams_blanks fun ch hch => Or.inl (hblanks ch hch),
      hrest]
    rfl

theorem matchParams_last (hkey : isName key) {idx : Nat} (hidx : idx < 2 ^ 31) {rest : List Char}
    (hquote : (utf8 rest).head? ≠ some (chr '"')) (htext : rest ≠ [] → text = []) :
    matchParams (lastText key idx rest ++ text) =
      (lastMatches key idx rest ++ (matchParams text).1, (matchParams text).2) := by
  by_cases hrest : rest = []
  · rw [lastText, lastMatches, if_pos hrest, if_pos hrest]
    rfl
  · rw [htext hrest, List.append_nil]
    have hval : matchVal (percentText rest) = some (percentText rest, []) := by
      have h := matchVal_word (percentText_ne_nil hrest) (not_isspace_percentText rest)
        (head_percentText hquote) (show ∀ ch ∈ ([] : List UInt8).head?, isspace ch by simp)
      rwa [List.append_nil] at h
    have hnil : matchParams [] = ([], []) := by rw [matchParams]
    rw [lastText, lastMatches, if_neg hrest, if_neg hrest, List.append_assoc, List.append_assoc]
    by_cases hzero : idx = 0
    · rw [if_pos hzero, if_pos hzero, List.nil_append]
      have hmatch : matchParam (key ++ (octets "*=" ++ percentText rest)) =
          some (⟨key, some none, percentText rest⟩, []) := by
        have hname := matchParam_name hkey (show ¬ isKeyChar (chr '*') by decide)
          (matchIdx_star (percentText rest))
        rw [hval] at hname
        exact hname
      rw [matchParams_name hkey hmatch, hnil]
      rfl
    · rw [if_neg hzero, if_neg hzero]
      have hmatch : matchParam (key ++ ([chr '*'] ++ octets (Nat.repr idx) ++
          (octets "*=" ++ percentText rest))) =
          some (⟨key, some (some (idx : Int)), percentText rest⟩, []) := by
        have hname := matchParam_name hkey (show ¬ isKeyChar (chr '*') by decide)
          (matchIdx_number hidx (percentText rest))
        have hsplit : key ++ ([chr '*'] ++ octets (Nat.repr idx) ++
            (octets "*=" ++ percentText rest)) =
            key ++ chr '*' :: (octets (Nat.repr idx) ++ octets "*=" ++ percentText rest) := by
          simp
        rw [hsplit, hname, hval]
        rfl
      rw [matchParams_name hkey hmatch, hnil]
      rfl

theorem matchParams_encoded (hkey : isName key) {f : List UInt8 → List UInt8}
    (hblanks : ∀ ch ∈ f [chr '\t'], isspace ch) (hne : f [chr '\t'] ≠ []) {cs : List Char}
    (hkeeps : KeepsEncoded cs) (htext : ¬ Tiled cs → text = []) :
    matchParams (piecesText f key 0 (charChunks [] cs).1 ++
        lastText key (charChunks [] cs).1.length (charChunks [] cs).2 ++ text) =
      (piecesMatches key 0 (charChunks [] cs).1 ++
        lastMatches key (charChunks [] cs).1.length (charChunks [] cs).2 ++ (matchParams text).1,
        (matchParams text).2) := by
  have hflatten := charChunks_flatten [] cs
  have hshort := hkeeps.short
  have hquotes := hkeeps.quotes
  have hcount := hkeeps.count
  have hpieces : ∀ piece ∈ (charChunks [] cs).1, piece ≠ [] := charChunks_ne_nil
  have hend : (charChunks [] cs).2 ≠ [] → text = [] := fun h =>
    htext fun htiled => h (charChunks_snd_eq_nil_iff.mpr htiled)
  generalize (charChunks [] cs).1 = pieces at *
  generalize (charChunks [] cs).2 = last at *
  have hlast : (utf8 last).head? ≠ some (chr '"') := by
    cases pieces with
    | nil =>
      obtain rfl : last = cs := by simpa using hflatten
      exact (hshort rfl).2.1
    | cons piece pieces => exact hquotes last (by simp)
  have hpieceQuotes : ∀ piece ∈ pieces.drop (1 - 0), (utf8 piece).head? ≠ some (chr '"') := by
    intro piece hpiece
    cases pieces with
    | nil => exact absurd hpiece (by simp)
    | cons first pieces => exact hquotes piece (List.mem_append_left _ hpiece)
  rw [List.append_assoc, matchParams_pieces hkey hblanks hne (by omega) hpieces hpieceQuotes,
    matchParams_last hkey hcount hlast hend, List.append_assoc]

theorem matchParams_param (hkey : isName key) {f : List UInt8 → List UInt8}
    (hblanks : ∀ ch ∈ f [chr '\t'], isspace ch) (hne : f [chr '\t'] ≠ []) {cs : List Char}
    (hplain : isAscii (utf8 cs) → KeepsPlain cs)
    (hencoded : ¬ isAscii (utf8 cs) → KeepsEncoded cs ∧ (¬ Tiled cs → text = [])) :
    matchParams (paramText f key cs ++ text) =
      (paramMatches key cs ++ (matchParams text).1, (matchParams text).2) := by
  by_cases hascii : isAscii (utf8 cs)
  · rw [paramText, paramMatches, if_pos hascii, if_pos hascii]
    have hsplit : key ++ octets "=\"" ++ utf8 cs ++ [chr '"'] ++ text =
        key ++ chr '=' :: chr '"' :: (utf8 cs ++ chr '"' :: text) := by
      simp [octets]
    have hidx : matchIdx (chr '=' :: chr '"' :: (utf8 cs ++ chr '"' :: text)) =
        (none, chr '=' :: chr '"' :: (utf8 cs ++ chr '"' :: text)) := rfl
    have hname := matchParam_name hkey (show ¬ isKeyChar (chr '=') by decide) hidx
    rw [matchVal_quoted (hplain hascii).quote] at hname
    rw [hsplit, matchParams_name hkey hname]
    rfl
  · rw [paramText, paramMatches, if_neg hascii, if_neg hascii]
    exact matchParams_encoded hkey hblanks hne (hencoded hascii).1 (hencoded hascii).2

theorem matchParams_params {f : List UInt8 → List UInt8}
    (hblanks : ∀ ch ∈ f [chr '\t'], isspace ch) (hne : f [chr '\t'] ≠ [])
    {params : List (List UInt8 × List Char)} (hnames : ∀ param ∈ params, isName param.1)
    (hkeeps : KeepsParams params) (h : ParamsText f params text) :
    matchParams text = (params.flatMap fun param => paramMatches param.1 param.2, []) := by
  induction h with
  | nil => rw [matchParams]; rfl
  | @cons key cs rest blanks text hspace htext ih =>
    obtain ⟨-, hrest, hplain, hencoded⟩ := hkeeps
    have htail := ih (fun param h => hnames param (by simp [h])) hrest
    have hsep : chr ';' :: blanks ++ (paramText f key cs ++ text) =
        (chr ';' :: blanks) ++ (paramText f key cs ++ text) := rfl
    have hskip : ∀ ch ∈ chr ';' :: blanks, isspace ch ∨ ch = chr ';' := by
      intro ch hch
      rcases List.mem_cons.mp hch with rfl | hch
      · exact Or.inr rfl
      · exact Or.inl (hspace ch hch)
    have hlast : ¬ Tiled cs → ¬ isAscii (utf8 cs) → text = [] := by
      intro htiled hascii
      have hnil : rest = [] := by_contra fun h => htiled ((hencoded hascii).2.1 h)
      subst hnil
      cases htext
      rfl
    rw [hsep, matchParams_blanks hskip, matchParams_param (hnames (key, cs) (by simp)) hblanks hne
      hplain fun hascii => ⟨(hencoded hascii).1, fun htiled => hlast htiled hascii⟩, htail,
      List.flatMap_cons]

end Matches

end Email

end Acqua
