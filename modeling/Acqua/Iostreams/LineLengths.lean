import Acqua.Iostreams.AsciiRoundTrip
import Acqua.Iostreams.QprintPush
import Acqua.Library.LineLength

/-! How long the lines are that `ascii_encoder` and `qprint_encoder` write. -/

namespace Acqua

/-- CR and LF end a line. -/
def IsLineEnd (ch : UInt8) : Prop := ch = chr '\r' ∨ ch = chr '\n'

instance : DecidablePred IsLineEnd := fun _ => inferInstanceAs (Decidable (_ ∨ _))

theorem newline_chars_ne_nil {nl : Newline} (hnl : nl ≠ .none) : nl.chars ≠ [] := by
  cases nl with
  | none => exact absurd rfl hnl
  | cr => exact List.cons_ne_nil _ _
  | ln => exact List.cons_ne_nil _ _
  | crln => exact List.cons_ne_nil _ _

theorem restAtMost_newline {nl : Newline} (hnl : nl ≠ .none) {limit used : Nat} {text : List UInt8}
    (hused : used ≤ limit) (h : RestAtMost IsLineEnd limit 0 text) :
    RestAtMost IsLineEnd limit used (nl.chars ++ text) :=
  restAtMost_ends (newline_chars_ne_nil hnl) (fun _ => mem_newline_chars) hused h

namespace AsciiEncoder

/-- A line is as long as its column says. -/
theorem restAtMost_stream {nl : Newline} (hnl : nl ≠ .none) {size : Nat} (hpos : 1 ≤ size)
    (hsize : size ≤ sizeMax) (text : List UInt8) :
    ∀ cnt ≤ size, RestAtMost IsLineEnd (size + 1) cnt (stream nl size cnt text) := by
  induction text with
  | nil => exact fun cnt hcnt => Nat.le_succ_of_le hcnt
  | cons ch text ih =>
    intro cnt hcnt
    have hspace : ¬ IsLineEnd (chr ' ') := by decide
    by_cases hcr : ch = chr '\r'
    · have hstream : stream nl size cnt (ch :: text) = stream nl size cnt text := by
        rw [hcr]
        rfl
      rw [hstream]
      exact ih cnt hcnt
    · by_cases hln : ch = chr '\n'
      · rw [hln, stream_newline]
        exact restAtMost_newline hnl (Nat.le_succ_of_le hcnt) (ih 0 (Nat.zero_le size))
      · have hch : ¬ IsLineEnd ch := not_or.mpr ⟨hcr, hln⟩
        by_cases hle : size ≤ cnt
        · rw [stream_break hcr hln hle, restAtMost_cons hspace]
          exact restAtMost_newline hnl (Nat.succ_le_succ hcnt)
            ((restAtMost_cons hch).mpr (ih 1 hpos))
        · rw [stream_char hcr hln (not_le.mp hle) hsize, restAtMost_cons hch]
          exact ih (cnt + 1) (not_le.mp hle)

end AsciiEncoder

namespace Qprint

/-- The characters of a token. -/
def Token.text : Token → List UInt8
  | .hard => [chr '\n']
  | .plain ch => [ch]
  | .escape ch => chr '=' :: hexDigits ch
  | .final ch => [ch]

/-- The blank that closes the input is the last token. -/
def FinalLast : List Token → Prop
  | [] => True
  | .final _ :: ts => ts = []
  | _ :: ts => FinalLast ts

/-- Soft line breaks stand between tokens and nowhere else. -/
def BrokenBetween (nl : Newline) (ts : List Token) (text : List UInt8) : Prop :=
  ∃ breaks : List Bool, breaks.length = ts.length ∧
    text = (breaks.zip ts).flatMap fun p =>
      (if p.1 then chr '=' :: nl.chars else []) ++ p.2.text

theorem tokens_finalLast (bytes : List UInt8) : FinalLast (tokens bytes) := by
  induction bytes with
  | nil => trivial
  | cons ch rest ih =>
    rw [tokens]
    split_ifs with hcr hln hblank hescape
    · exact ih
    · exact ih
    · cases rest with
      | nil => rfl
      | cons next rest =>
        rw [blankToken]
        split_ifs <;> exact ih
    · exact ih
    · exact ih

theorem length_tokens_le (bytes : List UInt8) : (tokens bytes).length ≤ bytes.length := by
  induction bytes with
  | nil => exact Nat.le_refl 0
  | cons ch rest ih =>
    rw [tokens, List.length_cons]
    split_ifs
    · exact Nat.le_succ_of_le ih
    all_goals exact Nat.succ_le_succ ih

section Render

variable {nl : Newline} {max : Nat}

theorem render_cons (col : Nat) (t : Token) (ts : List Token) :
    render nl max col (t :: ts) =
      (if t.moves then softBreak nl max col else []) ++
        (t.text ++ render nl max (columnStep max col t) ts) := by
  cases t <;> simp [render, Token.moves, Token.text, columnStep]

theorem brokenBetween_render (ts : List Token) (col : Nat) :
    BrokenBetween nl ts (render nl max col ts) := by
  induction ts generalizing col with
  | nil => exact ⟨[], rfl, rfl⟩
  | cons t ts ih =>
    obtain ⟨breaks, hlength, hrender⟩ := ih (columnStep max col t)
    refine ⟨(t.moves && decide (max ≤ col)) :: breaks, congrArg (· + 1) hlength, ?_⟩
    rw [render_cons, hrender, List.zip_cons_cons, List.flatMap_cons, List.append_assoc]
    congr 1
    by_cases hmoves : t.moves <;> by_cases hcol : max ≤ col <;> simp [hmoves, hcol, softBreak]

theorem length_softBreak_le (col : Nat) : (softBreak nl max col).length ≤ 3 := by
  rw [softBreak]
  split_ifs
  · cases nl <;> simp [Newline.chars]
  · exact Nat.zero_le 3

theorem length_text_le (t : Token) : t.text.length ≤ 3 := by
  cases t <;> simp [Token.text, hexDigits]

theorem length_render_le (ts : List Token) (col : Nat) :
    (render nl max col ts).length ≤ 6 * ts.length := by
  induction ts generalizing col with
  | nil => exact Nat.le_refl 0
  | cons t ts ih =>
    have hrest := ih (columnStep max col t)
    have hbreak : (if t.moves then softBreak nl max col else []).length ≤ 3 := by
      split_ifs
      · exact length_softBreak_le col
      · exact Nat.zero_le 3
    have htext := length_text_le t
    rw [render_cons, List.length_append, List.length_append, List.length_cons]
    omega

theorem not_isLineEnd_text {t : Token} (h : t.Written) (hhard : t ≠ .hard) :
    ∀ ch ∈ t.text, ¬ IsLineEnd ch := by
  have hplain : ∀ ch, ch = chr ' ' ∨ ch = chr '\t' ∨ ¬ QprintEncoder.mustEscape ch →
      ¬ IsLineEnd ch := by
    rintro ch (rfl | rfl | hescape)
    · decide
    · decide
    · rintro (rfl | rfl) <;> exact hescape (by decide)
  cases t with
  | hard => exact absurd rfl hhard
  | plain ch =>
    rintro c hc
    obtain rfl := List.mem_singleton.mp hc
    exact hplain c h
  | final ch =>
    rintro c hc
    obtain rfl := List.mem_singleton.mp hc
    exact hplain c (or_assoc.mp (Or.inl h))
  | escape ch =>
    obtain ⟨hupper, hlower⟩ := nibble_forall
      (P := fun n => ¬ IsLineEnd (QprintEncoder.hexDigit n)) (by decide) ch
    have hpad : ¬ IsLineEnd (chr '=') := by decide
    rintro c hc
    simp only [Token.text, hexDigits, List.mem_cons, List.not_mem_nil, or_false] at hc
    rcases hc with rfl | rfl | rfl
    · exact hpad
    · exact hupper
    · exact hlower

/-- Up to three characters that may be moved to another line, and what follows them. -/
theorem restAtMost_moved (hnl : nl ≠ .none) (hpos : 1 ≤ max) (hmax : max ≤ 2 ^ 64 - 3)
    {w : List UInt8} (hw : ∀ ch ∈ w, ¬ IsLineEnd ch) (hlength : w.length ≤ 3)
    {rest : Nat → List UInt8}
    (hrest : ∀ col ≤ max + 2, RestAtMost IsLineEnd (max + 3) col (rest col)) {col : Nat}
    (hcol : col ≤ max + 2) :
    RestAtMost IsLineEnd (max + 3) col
      (softBreak nl max col ++ (w ++ rest (advance max col w.length))) := by
  have hpad : ¬ IsLineEnd (chr '=') := by decide
  by_cases hbreak : max ≤ col
  · have hadvance : advance max col w.length = w.length := by
      rw [advance, if_pos hbreak]
      omega
    rw [softBreak_of_le hbreak, hadvance, List.cons_append, restAtMost_cons hpad]
    refine restAtMost_newline hnl (Nat.succ_le_succ hcol) ((restAtMost_append hw).mpr ?_)
    rw [Nat.zero_add]
    exact hrest _ (by omega)
  · have hadvance : advance max col w.length = col + w.length := by
      rw [advance, if_neg hbreak]
      omega
    rw [softBreak_of_lt (not_le.mp hbreak), hadvance, List.nil_append, restAtMost_append hw]
    exact hrest _ (by omega)

/-- A line has no more characters than its column says, and up to two of an escape above the
size. -/
theorem restAtMost_render (hnl : nl ≠ .none) (hpos : 1 ≤ max) (hmax : max ≤ 2 ^ 64 - 3)
    (ts : List Token) (hwritten : ∀ t ∈ ts, t.Written) (hfinal : FinalLast ts) :
    ∀ col ≤ max + 2, RestAtMost IsLineEnd (max + 3) col (render nl max col ts) := by
  induction ts with
  | nil => exact fun col hcol => Nat.le_succ_of_le hcol
  | cons t ts ih =>
    obtain ⟨ht, hts⟩ := List.forall_mem_cons.mp hwritten
    intro col hcol
    cases t with
    | hard =>
      have hln : IsLineEnd (chr '\n') := Or.inr rfl
      rw [render, restAtMost_end hln]
      exact ⟨Nat.le_succ_of_le hcol, (ih hts hfinal col hcol).mono (Nat.zero_le col)⟩
    | final ch =>
      obtain rfl : ts = [] := hfinal
      have hch : ¬ IsLineEnd ch :=
        not_isLineEnd_text ht Token.noConfusion ch (List.mem_singleton_self ch)
      rw [render, restAtMost_cons hch]
      exact Nat.succ_le_succ hcol
    | plain ch =>
      rw [render_cons]
      exact restAtMost_moved hnl hpos hmax (not_isLineEnd_text ht Token.noConfusion)
        (length_text_le _) (ih hts hfinal) hcol
    | escape ch =>
      rw [render_cons]
      exact restAtMost_moved hnl hpos hmax (not_isLineEnd_text ht Token.noConfusion)
        (length_text_le _) (ih hts hfinal) hcol

theorem linesAtMost_render (hnl : nl ≠ .none) (hpos : 1 ≤ max) {bytes : List UInt8}
    (h : max ≤ 2 ^ 64 - 3 ∨ bytes.length ≤ 2 ^ 61) :
    LinesAtMost IsLineEnd (max + 3) (render nl max 0 (tokens bytes)) := by
  by_cases hmax : max ≤ 2 ^ 64 - 3
  · exact (restAtMost_render hnl hpos hmax _ (tokens_written bytes) (tokens_finalLast bytes) 0
      (Nat.zero_le _)).linesAtMost
  · have hbytes := h.resolve_left hmax
    have hrender : (render nl max 0 (tokens bytes)).length ≤ 6 * (tokens bytes).length :=
      length_render_le _ 0
    have htokens := length_tokens_le bytes
    exact linesAtMost_of_length (by omega)

end Render

end Qprint

/-- No line is longer than the size and the blank of a line break, or than the size, two characters
of an escape and `=`, unless the column wraps around. Escapes are in one piece. -/
theorem encoded_lines {nl : Newline} (hnl : nl ≠ .none) {size : Nat} (hpos : 1 ≤ size)
    (hsize : size ≤ sizeMax) :
    (∀ text, LinesAtMost IsLineEnd (size + 1) (AsciiEncoder.encode nl size text)) ∧
    (∀ bytes : List UInt8, size ≤ 2 ^ 64 - 3 ∨ bytes.length ≤ 2 ^ 61 →
      LinesAtMost IsLineEnd (size + 3) (QprintEncoder.encode (.make nl size) bytes)) ∧
    ∀ bytes, Qprint.BrokenBetween nl (Qprint.tokens bytes)
      (QprintEncoder.encode (.make nl size) bytes) := by
  refine ⟨fun text => ?_, fun bytes h => ?_, fun bytes => ?_⟩
  · rw [AsciiEncoder.encode_eq_stream hnl]
    exact (AsciiEncoder.restAtMost_stream hnl hpos hsize text 0 (Nat.zero_le size)).linesAtMost
  · rw [Qprint.encode_make, if_neg hnl]
    exact Qprint.linesAtMost_render hnl hpos h
  · rw [Qprint.encode_make, if_neg hnl]
    exact Qprint.brokenBetween_render _ 0

theorem encoded_lines_of_mime :
    (∀ text, LinesAtMost IsLineEnd (76 + 1) (AsciiEncoder.encode .crln 76 text)) ∧
    (∀ bytes : List UInt8, 76 ≤ 2 ^ 64 - 3 ∨ bytes.length ≤ 2 ^ 61 →
      LinesAtMost IsLineEnd (76 + 3) (QprintEncoder.encode (.make .crln 76) bytes)) ∧
    ∀ bytes, Qprint.BrokenBetween .crln (Qprint.tokens bytes)
      (QprintEncoder.encode (.make .crln 76) bytes) :=
  encoded_lines (by decide) (by decide) (by decide)

namespace Qprint

theorem tokens_replicate {ch : UInt8} (hcr : ch ≠ chr '\r') (hln : ch ≠ chr '\n')
    (hblank : ¬ (ch = chr ' ' ∨ ch = chr '\t')) (hescape : ¬ QprintEncoder.mustEscape ch) (n : Nat)
    (rest : List UInt8) :
    tokens (List.replicate n ch ++ rest) = List.replicate n (.plain ch) ++ tokens rest := by
  induction n with
  | zero => rfl
  | succ n ih =>
    rw [List.replicate_succ, List.cons_append, tokens, if_neg hcr, if_neg hln, if_neg hblank,
      if_neg hescape, ih]
    rfl

theorem render_replicate {nl : Newline} {max : Nat} (hmax : max < 2 ^ 64) (ch : UInt8) (n : Nat)
    (ts : List Token) {col : Nat} (hcol : col + n ≤ max) :
    render nl max col (List.replicate n (.plain ch) ++ ts) =
      List.replicate n ch ++ render nl max (col + n) ts := by
  induction n generalizing col with
  | zero => rfl
  | succ n ih =>
    have hbreak : ¬ max ≤ col := by omega
    have hadvance : advance max col 1 = col + 1 := by
      rw [advance, if_neg hbreak]
      omega
    rw [List.replicate_succ, List.cons_append, render, softBreak, if_neg hbreak, hadvance,
      ih (by omega), List.nil_append, Nat.add_assoc, Nat.add_comm 1 n]
    rfl

end Qprint

/-- At the largest size the column wraps around behind an escape, and the line goes on. -/
theorem qprint_line_of_wrapped_column :
    ¬ LinesAtMost IsLineEnd (sizeMax + 3) (QprintEncoder.encode (.make .crln sizeMax)
      (List.replicate (sizeMax - 1) (chr 'a') ++ octets "=aaa")) := by
  have htail : Qprint.render .crln sizeMax (0 + (sizeMax - 1)) (Qprint.tokens (octets "=aaa")) =
      octets "=3Daaa" := by decide
  have hencode : QprintEncoder.encode (.make .crln sizeMax)
      (List.replicate (sizeMax - 1) (chr 'a') ++ octets "=aaa") =
        List.replicate (sizeMax - 1) (chr 'a') ++ octets "=3Daaa" := by
    rw [Qprint.encode_make, if_neg (by decide), Qprint.tokens_replicate (by decide) (by decide)
      (by decide) (by decide), Qprint.render_replicate (by decide) _ _ _ (by decide), htail]
  rw [hencode]
  intro h
  have hchars : ∀ ch ∈ List.replicate (sizeMax - 1) (chr 'a') ++ octets "=3Daaa",
      ¬ IsLineEnd ch := by
    intro ch hch
    rcases List.mem_append.mp hch with hch | hch
    · rw [List.eq_of_mem_replicate hch]
      decide
    · have hall : (octets "=3Daaa").all fun ch => !decide (IsLineEnd ch) := by decide
      simpa using List.all_eq_true.mp hall ch hch
  have hlength := h _ (List.infix_refl _) hchars
  have hsix : (octets "=3Daaa").length = 6 := rfl
  rw [List.length_append, List.length_replicate, hsix, sizeMax] at hlength
  omega

end Acqua
