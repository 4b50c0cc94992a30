import Acqua.Email.HeaderRoundTrip

/-! What the encoded words of a value hold of it. -/

namespace Acqua

namespace Email

/-- What stands between two encoded words. -/
def fold : List UInt8 := crlf ++ [chr '\t']

/-- The word holds the piece in base64. -/
structure Holds (word : EncodedWord) (piece : List Char) : Prop where
  charset : word.charset = octets "UTF-8"
  enc : word.enc = chr 'B'
  text : Base64Decoder.decode base64Traits word.text = utf8 piece

/-- A text is made of encoded words and folds, and its words hold the value in whole characters,
of which at most the last one of a word is past half a line. -/
def WrittenInPieces (text : List UInt8) (cs : List Char) : Prop :=
  ∃ words last pieces, findWords text.length text = (words, last) ∧
    (∀ gap ∈ last :: words.map Prod.fst, gap = [] ∨ gap = fold) ∧
    List.Forall₂ (fun word piece => Holds word.2 piece) words pieces ∧
    (∀ piece ∈ pieces, ShortPiece piece) ∧ pieces.flatten = cs

section Pieces

variable {L : Locale}

theorem holds_wordOf (piece : List Char) : Holds (wordOf piece) piece :=
  ⟨rfl, rfl, Base64.decode_encode base64Traits _ (Base64.make_cnt _ _ _) _⟩

/-- The words of a value with what stands in front of them. -/
def foldedWords (first : List Char) (rest : List (List Char)) :
    List (List UInt8 × EncodedWord) :=
  ([], wordOf first) :: rest.map fun piece => (fold, wordOf piece)

theorem foldedText_eq_wordText (first : List Char) (rest : List (List Char)) (empty : Bool) :
    foldedText (wordOf first).chars (wordConts rest empty) =
      wordText (foldedWords first rest) ++ if empty then fold else [] := by
  cases empty <;>
    simp [foldedText, wordConts, wordText, foldedWords, fold, List.flatMap_map]

theorem writtenInPieces_folded (first : List Char) (rest : List (List Char)) (empty : Bool)
    (hshort : ∀ piece ∈ first :: rest, ShortPiece piece) :
    WrittenInPieces (foldedText (wordOf first).chars (wordConts rest empty))
      (first ++ rest.flatten) := by
  have hfold : chr '=' ∉ fold := by decide
  have hlast : chr '=' ∉ (if empty then fold else []) := by
    cases empty
    · exact List.not_mem_nil
    · exact hfold
  have hwords : ∀ word ∈ foldedWords first rest, chr '=' ∉ word.1 ∧ word.2.Accepted := by
    refine List.forall_mem_cons.mpr ⟨⟨List.not_mem_nil, wordOf_accepted first⟩, ?_⟩
    intro word hword
    obtain ⟨piece, -, rfl⟩ := List.mem_map.mp hword
    exact ⟨hfold, wordOf_accepted piece⟩
  have hlength := length_le_wordText (foldedWords first rest)
  refine ⟨foldedWords first rest, if empty then fold else [], first :: rest, ?_, ?_, ?_, hshort,
    rfl⟩
  · rw [foldedText_eq_wordText]
    refine findWords_of_words hwords hlast ?_
    rw [List.length_append]
    omega
  · refine List.forall_mem_cons.mpr ⟨by cases empty <;> simp, ?_⟩
    simp [foldedWords]
  · refine .cons (holds_wordOf first) ?_
    rw [List.forall₂_map_left_iff]
    exact List.forall₂_same.mpr fun piece _ => holds_wordOf piece

/-- A value is written without loss, and no character of it is cut. -/
theorem rfc2047Encode_pieces (hL : L.Documented) (cs : List Char) :
    ∃ text, rfc2047Encode L (octets "UTF-8") (utf8 cs) = some text ∧ WrittenInPieces text cs := by
  by_cases hcs : cs = []
  · subst hcs
    exact ⟨[], rfl, [], [], [], rfl, by simp, .nil, by simp, rfl⟩
  · obtain ⟨first, rest, hflatten, hshort, hencode⟩ := rfc2047Encode_utf8 hL hcs
    refine ⟨_, hencode, ?_⟩
    rw [← hflatten]
    exact writtenInPieces_folded first rest _ hshort

theorem rfc2047Encode_pieces_of_kana :
    ∃ text, rfc2047Encode utf8Locale (octets "UTF-8") (utf8 (List.replicate 14 'あ')) = some text ∧
      WrittenInPieces text (List.replicate 14 'あ') :=
  rfc2047Encode_pieces utf8Locale_documented _

end Pieces

end Email

end Acqua
