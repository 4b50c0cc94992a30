import Acqua.Email.EncodeMimeheader

/-! The pieces that a text in UTF-8 is cut into: they are made of whole characters. -/

namespace Acqua

namespace Email

/-- The loop of `rfc2047_encode` and `rfc2231_encode` over characters. -/
def charChunks : List Char → List Char → List (List Char) × List Char
  | pending, [] => ([], pending)
  | pending, c :: cs =>
    if lineMax / 2 < (utf8 (pending ++ [c])).length then
      ((pending ++ [c]) :: (charChunks [] cs).1, (charChunks [] cs).2)
    else charChunks (pending ++ [c]) cs

/-- A text that is cut at its very end: pieces that are just longer than half a line. -/
inductive Tiled : List Char → Prop
  | nil : Tiled []
  | piece {cs : List Char} {c : Char} {rest : List Char}
    (hshort : (utf8 cs).length ≤ lineMax / 2) (hlong : lineMax / 2 < (utf8 (cs ++ [c])).length)
    (hrest : Tiled rest) : Tiled (cs ++ c :: rest)

theorem utf8_singleton (c : Char) : utf8 [c] = String.utf8EncodeChar c := by simp [utf8]

theorem utf8_ne_nil {cs : List Char} (h : cs ≠ []) : utf8 cs ≠ [] := by
  cases cs with
  | nil => exact absurd rfl h
  | cons c cs =>
    have hc : String.utf8EncodeChar c ≠ [] := String.utf8EncodeChar_ne_nil
    simp [utf8, hc]

section Chunks

variable {L : Locale}

theorem chunks_last {need : Nat} {ch : UInt8}
    (h : (if need = 0 then (L.trailLength ch).toNat else need - 1) = 0)
    (pending rest : List UInt8) :
    chunks L pending need (ch :: rest) =
      if lineMax / 2 < (pending ++ [ch]).length then
        (chunks L [] 0 rest).map fun r => ((pending ++ [ch]) :: r.1, r.2)
      else chunks L (pending ++ [ch]) 0 rest := by
  simp only [chunks, h, true_and]

theorem chunks_inner {need k : Nat} {ch : UInt8}
    (h : (if need = 0 then (L.trailLength ch).toNat else need - 1) = k) (hk : k ≠ 0)
    (pending rest : List UInt8) :
    chunks L pending need (ch :: rest) = chunks L (pending ++ [ch]) k rest := by
  simp only [chunks, h, hk, false_and, if_false]

theorem chunks_trail {trail : List UInt8} (htrail : trail ≠ []) (pending rest : List UInt8) :
    chunks L pending trail.length (trail ++ rest) =
      if lineMax / 2 < (pending ++ trail).length then
        (chunks L [] 0 rest).map fun r => ((pending ++ trail) :: r.1, r.2)
      else chunks L (pending ++ trail) 0 rest := by
  induction trail generalizing pending with
  | nil => exact absurd rfl htrail
  | cons ch trail ih =>
    cases trail with
    | nil => exact chunks_last rfl pending rest
    | cons ch' trail =>
      have hneed : (if (ch :: ch' :: trail).length = 0 then (L.trailLength ch).toNat
          else (ch :: ch' :: trail).length - 1) = (ch' :: trail).length := rfl
      rw [List.cons_append, chunks_inner hneed (by simp), ih (by simp), List.append_assoc,
        List.singleton_append]

theorem chunks_char (hL : L.Documented) (c : Char) (pending rest : List UInt8) :
    chunks L pending 0 (String.utf8EncodeChar c ++ rest) =
      if lineMax / 2 < (pending ++ String.utf8EncodeChar c).length then
        (chunks L [] 0 rest).map fun r => ((pending ++ String.utf8EncodeChar c) :: r.1, r.2)
      else chunks L (pending ++ String.utf8EncodeChar c) 0 rest := by
  obtain ⟨lead, trail, hchar, hlead⟩ := hL.trailLength_utf8 c
  have hneed : (if 0 = 0 then (L.trailLength lead).toNat else 0 - 1) = trail.length := by
    rw [if_pos rfl, hlead, Int.toNat_natCast]
  rw [hchar, List.cons_append]
  cases trail with
  | nil => exact chunks_last hneed pending rest
  | cons ch trail =>
    rw [chunks_inner hneed (by simp), chunks_trail (by simp), List.append_assoc,
      List.singleton_append]

theorem chunks_utf8 (hL : L.Documented) (pending cs : List Char) :
    chunks L (utf8 pending) 0 (utf8 cs) =
      some ((charChunks pending cs).1.map utf8, utf8 (charChunks pending cs).2) := by
  induction cs generalizing pending with
  | nil => rfl
  | cons c cs ih =>
    have hpending : utf8 (pending ++ [c]) = utf8 pending ++ String.utf8EncodeChar c := by
      rw [utf8_append, utf8_singleton]
    have htext : utf8 (c :: cs) = String.utf8EncodeChar c ++ utf8 cs := rfl
    rw [htext, chunks_char hL, ← hpending, charChunks]
    split_ifs
    · rw [show chunks L [] 0 (utf8 cs) = chunks L (utf8 []) 0 (utf8 cs) from rfl, ih]
      rfl
    · exact ih _

end Chunks

theorem charChunks_flatten (pending cs : List Char) :
    (charChunks pending cs).1.flatten ++ (charChunks pending cs).2 = pending ++ cs := by
  induction cs generalizing pending with
  | nil => simp [charChunks]
  | cons c cs ih =>
    unfold charChunks
    split_ifs
    · simp [ih]
    · rw [ih]
      simp

/-- At most the last character is past half a line. -/
def ShortPiece (piece : List Char) : Prop := (utf8 piece.dropLast).length ≤ lineMax / 2

theorem charChunks_short {pending : List Char} (hpending : (utf8 pending).length ≤ lineMax / 2)
    (cs : List Char) :
    (∀ piece ∈ (charChunks pending cs).1, ShortPiece piece) ∧
      (utf8 (charChunks pending cs).2).length ≤ lineMax / 2 := by
  induction cs generalizing pending with
  | nil => exact ⟨by simp [charChunks], hpending⟩
  | cons c cs ih =>
    unfold charChunks
    split_ifs with hlong
    · obtain ⟨hpieces, hlast⟩ := @ih [] (by decide)
      refine ⟨List.forall_mem_cons.mpr ⟨?_, hpieces⟩, hlast⟩
      rw [ShortPiece, List.dropLast_concat]
      exact hpending
    · exact ih (Int.not_lt.mp hlong)

theorem ShortPiece.of_length {piece : List Char} (h : (utf8 piece).length ≤ lineMax / 2) :
    ShortPiece piece := by
  rcases List.eq_nil_or_concat piece with rfl | ⟨init, c, rfl⟩
  · exact h
  · rw [List.concat_eq_append, utf8_append, List.length_append] at h
    rw [ShortPiece, List.concat_eq_append, List.dropLast_concat]
    omega

theorem charChunks_piece {cs : List Char} {c : Char} {rest : List Char}
    (hshort : (utf8 cs).length ≤ lineMax / 2) (hlong : lineMax / 2 < (utf8 (cs ++ [c])).length)
    {pending tail : List Char} (hcs : cs = pending ++ tail) :
    charChunks pending (tail ++ c :: rest) =
      ((cs ++ [c]) :: (charChunks [] rest).1, (charChunks [] rest).2) := by
  induction tail generalizing pending with
  | nil =>
    rw [List.append_nil] at hcs
    rw [List.nil_append, charChunks, ← hcs, if_pos hlong]
  | cons d tail ih =>
    have hstep : cs = (pending ++ [d]) ++ tail := by simp [hcs]
    have hle : (utf8 (pending ++ [d])).length ≤ (utf8 cs).length := by
      rw [hstep, utf8_append _ tail, List.length_append]
      omega
    rw [List.cons_append, charChunks, if_neg (by omega)]
    exact ih hstep

theorem tiled_of_charChunks {pending cs : List Char}
    (hpending : (utf8 pending).length ≤ lineMax / 2) (h : (charChunks pending cs).2 = []) :
    Tiled (pending ++ cs) := by
  induction cs generalizing pending with
  | nil =>
    obtain rfl : pending = [] := h
    exact .nil
  | cons c cs ih =>
    unfold charChunks at h
    by_cases hlong : lineMax / 2 < (utf8 (pending ++ [c])).length
    · rw [if_pos hlong] at h
      exact .piece hpending hlong (ih (by decide) h)
    · rw [if_neg hlong] at h
      have hrest := ih (Int.not_lt.mp hlong) h
      rwa [List.append_assoc] at hrest

theorem charChunks_snd_eq_nil_iff {cs : List Char} : (charChunks [] cs).2 = [] ↔ Tiled cs := by
  constructor
  · exact fun h => tiled_of_charChunks (by decide) h
  · intro h
    induction h with
    | nil => rfl
    | @piece cs c rest hshort hlong _ ih =>
      rw [charChunks_piece hshort hlong (List.nil_append cs).symm]
      exact ih

end Email

end Acqua
