import Acqua.Iostreams.QprintRoundTrip
import Acqua.Library.Splits
import Acqua.Library.WriteLoop

/-! The push half of `qprint_decoder` on the output of `qprint_encoder`, against the pull half. -/

namespace Acqua

namespace QprintDecoder

/-- What is written when a text is pushed through the decoder. The stream in front of it keeps a
character for which `put` returns `false`, and those behind it, and offers them again. -/
def written (S : Buffering UInt8) (text : List UInt8) : List UInt8 := writeAll put S init text

/-- What is written when a text is offered once. -/
def offered (text : List UInt8) : List UInt8 := (offer put init text).2.1

/-- What is written when what is left of it is offered again. -/
def reoffered (text : List UInt8) : List UInt8 :=
  (offer put (offer put init text).1 (offer put init text).2.2).2.1

theorem written_flushed_zero (text : List UInt8) : written (.flushed 0) text = offered text :=
  writeAll_flushed_zero init text

theorem written_flushed_one (text : List UInt8) :
    written (.flushed 1) text = offered text ++ reoffered text :=
  writeAll_flushed_one init text

/-- No character is refused. -/
def Accepts (text : List UInt8) : Prop := (offer put init text).2.2 = []

theorem Accepts.written_eq {text : List UInt8} (h : Accepts text) (S : Buffering UInt8) :
    written S text = offered text :=
  writeAll_of_accepted h S

theorem offered_nil : offered [] = [] := rfl

theorem reoffered_nil : reoffered [] = [] := rfl

theorem accepts_nil : Accepts [] := rfl

theorem offer_plain {ch : UInt8} (hch : ch ≠ chr '=') (text : List UInt8) :
    offer put init (ch :: text) = ((offer put init text).1, ch :: (offer put init text).2.1,
      (offer put init text).2.2) := by
  have hput : put init ch = (init, some [ch]) := by simp [put, init, hch]
  exact offer_cons hput text

theorem offered_plain {ch : UInt8} (hch : ch ≠ chr '=') (text : List UInt8) :
    offered (ch :: text) = ch :: offered text :=
  congrArg (fun r => r.2.1) (offer_plain hch text)

theorem reoffered_plain {ch : UInt8} (hch : ch ≠ chr '=') (text : List UInt8) :
    reoffered (ch :: text) = reoffered text := by
  rw [reoffered, offer_plain hch, reoffered]

theorem accepts_plain {ch : UInt8} (hch : ch ≠ chr '=') {text : List UInt8} :
    Accepts (ch :: text) ↔ Accepts text := by
  rw [Accepts, offer_plain hch, Accepts]

theorem offer_unescaped {text : List UInt8} (h : chr '=' ∉ text) :
    offer put init text = (init, text, []) := by
  induction text with
  | nil => rfl
  | cons ch text ih =>
    rw [List.mem_cons, not_or] at h
    rw [offer_plain (Ne.symm h.1), ih h.2]

theorem unescape_lt_iff (upper lower : Int) :
    unescape upper lower < 0 ↔ unescape upper lower = eof := by
  unfold unescape eof
  dsimp only
  split_ifs <;> omega

/-- The two characters behind `=`, of which the first is kept until the second comes. -/
theorem offer_two {a : UInt8} (ha : a ≠ 0) (b : UInt8) (text : List UInt8) :
    offer put init (chr '=' :: a :: b :: text) =
      if unescape (promote a).toInt (promote b).toInt = eof then (init, [], b :: text)
      else ((offer put init text).1,
        UInt8.ofInt (unescape (promote a).toInt (promote b).toInt) :: (offer put init text).2.1,
        (offer put init text).2.2) := by
  have hpad : put init (chr '=') = (⟨chr '=', 0⟩, some []) := rfl
  have hfirst : put ⟨chr '=', 0⟩ a = (⟨chr '=', a⟩, some []) := rfl
  rw [offer_cons hpad, offer_cons hfirst]
  by_cases heof : unescape (promote a).toInt (promote b).toInt = eof
  · have hsecond : put ⟨chr '=', a⟩ b = (init, none) := by
      simp only [put, ha, ne_eq, not_false_eq_true, if_true, (unescape_lt_iff _ _).mpr heof, init]
    rw [if_pos heof, offer_refused hsecond]
    rfl
  · have hsecond : put ⟨chr '=', a⟩ b =
        (init, some [UInt8.ofInt (unescape (promote a).toInt (promote b).toInt)]) := by
      simp only [put, ha, ne_eq, not_false_eq_true, if_true, mt (unescape_lt_iff _ _).mp heof,
        if_false, init]
    rw [if_neg heof, offer_cons hsecond]
    rfl

theorem offered_two {a : UInt8} (ha : a ≠ 0) (b : UInt8) (text : List UInt8) :
    offered (chr '=' :: a :: b :: text) =
      if unescape (promote a).toInt (promote b).toInt = eof then []
      else UInt8.ofInt (unescape (promote a).toInt (promote b).toInt) :: offered text := by
  rw [offered, offer_two ha]
  split_ifs <;> rfl

/-- A soft line break is taken for an escape, and there is no such digit. -/
theorem offered_softBreak {nl : Newline} (hnl : nl ≠ .none) (ch : UInt8) (text : List UInt8) :
    offered (chr '=' :: (nl.chars ++ ch :: text)) = [] := by
  have hcr : ∀ x, unescape (promote (chr '\r')).toInt x = eof := fun x => rfl
  have hln : ∀ x, unescape (promote (chr '\n')).toInt x = eof := fun x => rfl
  cases nl with
  | none => exact absurd rfl hnl
  | cr => exact (offered_two (by decide) ch text).trans (if_pos (hcr _))
  | ln => exact (offered_two (by decide) ch text).trans (if_pos (hln _))
  | crln => exact (offered_two (by decide) (chr '\n') (ch :: text)).trans (if_pos (hcr _))

/-- The low digit of an escape is refused where it is above `A`. -/
theorem offer_escape (ch : UInt8) (text : List UInt8) :
    offer put init (chr '=' :: (Qprint.hexDigits ch ++ text)) =
      if unescaped ch = eof then (init, [], QprintEncoder.hexDigit (ch &&& 0xf) :: text)
      else ((offer put init text).1, UInt8.ofInt (unescaped ch) :: (offer put init text).2.1,
        (offer put init text).2.2) := by
  have hdigit : ∀ n < 16, QprintEncoder.hexDigit (UInt8.ofNat n) ≠ 0 ∧
      (promote (QprintEncoder.hexDigit (UInt8.ofNat n))).toInt =
        (QprintEncoder.hexDigit (UInt8.ofNat n)).toNat := by decide
  obtain ⟨⟨hzero, hupper⟩, -, hlower⟩ := nibble_forall
    (P := fun n => QprintEncoder.hexDigit n ≠ 0 ∧
      (promote (QprintEncoder.hexDigit n)).toInt = (QprintEncoder.hexDigit n).toNat) hdigit ch
  rw [Qprint.hexDigits, List.cons_append, List.cons_append, List.nil_append, offer_two hzero,
    hupper, hlower, unescaped]

theorem offered_escape (ch : UInt8) (text : List UInt8) :
    offered (chr '=' :: (Qprint.hexDigits ch ++ text)) =
      if unescaped ch = eof then [] else UInt8.ofInt (unescaped ch) :: offered text := by
  rw [offered, offer_escape]
  split_ifs <;> rfl

/-- A digit that was refused stands for itself when it comes again. -/
theorem reoffered_escape_of_eof {ch : UInt8} (h : unescaped ch = eof) (text : List UInt8) :
    reoffered (chr '=' :: (Qprint.hexDigits ch ++ text)) ≠ [] := by
  have hdigit : ∀ n < 16, QprintEncoder.hexDigit (UInt8.ofNat n) ≠ chr '=' := by decide
  have hlower := (nibble_forall (P := fun n => QprintEncoder.hexDigit n ≠ chr '=') hdigit ch).2
  rw [reoffered, offer_escape, if_pos h, offer_plain hlower]
  exact List.cons_ne_nil _ _

theorem reoffered_escape {ch : UInt8} (h : unescaped ch ≠ eof) (text : List UInt8) :
    reoffered (chr '=' :: (Qprint.hexDigits ch ++ text)) = reoffered text := by
  rw [reoffered, offer_escape, if_neg h, reoffered]

theorem accepts_escape {ch : UInt8} (h : unescaped ch ≠ eof) {text : List UInt8} :
    Accepts (chr '=' :: (Qprint.hexDigits ch ++ text)) ↔ Accepts text := by
  rw [Accepts, offer_escape, if_neg h, Accepts]

end QprintDecoder

namespace Qprint

open QprintDecoder (Accepts eof offered read reoffered unescaped written)

/-- No token is moved to another line, and every escape is read back. -/
def Unbroken (max : Nat) : Nat → List Token → Prop
  | _, [] => True
  | col, .hard :: ts => Unbroken max col ts
  | col, .plain _ :: ts => col < max ∧ Unbroken max (advance max col 1) ts
  | col, .escape ch :: ts =>
    col < max ∧ unescaped ch ≠ eof ∧ Unbroken max (advance max col 3) ts
  | col, .final _ :: ts => Unbroken max col ts

variable {nl : Newline} (hnl : nl ≠ .none) {max : Nat}

theorem Unbroken.accepts_render {ts : List Token} (hproper : ∀ t ∈ ts, t.Proper) {col : Nat}
    (h : Unbroken max col ts) : Accepts (render nl max col ts) := by
  induction ts generalizing col with
  | nil => exact QprintDecoder.accepts_nil
  | cons t ts ih =>
    obtain ⟨ht, hrest⟩ := List.forall_mem_cons.mp hproper
    cases t with
    | hard => exact (QprintDecoder.accepts_plain (by decide)).mpr (ih hrest h)
    | final ch => exact (QprintDecoder.accepts_plain ht).mpr (ih hrest h)
    | plain ch =>
      obtain ⟨hcol, hts⟩ := h
      rw [render, softBreak_of_lt hcol, List.nil_append, QprintDecoder.accepts_plain ht.1]
      exact ih hrest hts
    | escape ch =>
      obtain ⟨hcol, heof, hts⟩ := h
      rw [render_escape hcol, QprintDecoder.accepts_escape heof]
      exact ih hrest hts

include hnl in
/-- A soft line break is lost, and a digit that is refused comes again. -/
theorem offered_render_iff (ts : List Token) (hproper : ∀ t ∈ ts, t.Proper) (col : Nat) :
    offered (render nl max col ts) = read (render nl max col ts) ∧
        reoffered (render nl max col ts) = [] ↔ Unbroken max col ts := by
  induction ts generalizing col with
  | nil =>
    exact iff_of_true ⟨QprintDecoder.offered_nil.trans QprintDecoder.read_nil.symm,
      QprintDecoder.reoffered_nil⟩ trivial
  | cons t ts ih =>
    obtain ⟨ht, hrest⟩ := List.forall_mem_cons.mp hproper
    cases t with
    | hard =>
      have hne : chr '\n' ≠ chr '=' := by decide
      rw [render, QprintDecoder.offered_plain hne, QprintDecoder.read_plain hne,
        QprintDecoder.reoffered_plain hne, List.cons_inj_right, ih hrest, Unbroken]
    | final ch =>
      rw [render, QprintDecoder.offered_plain ht, QprintDecoder.read_plain ht,
        QprintDecoder.reoffered_plain ht, List.cons_inj_right, ih hrest, Unbroken]
    | plain ch =>
      by_cases hcol : col < max
      · rw [render, softBreak_of_lt hcol, List.nil_append, QprintDecoder.offered_plain ht.1,
          QprintDecoder.read_plain ht.1, QprintDecoder.reoffered_plain ht.1,
          List.cons_inj_right, ih hrest, Unbroken, and_iff_right hcol]
      · rw [render, softBreak_of_le (not_lt.mp hcol), List.cons_append,
          QprintDecoder.offered_softBreak hnl, QprintDecoder.read_softBreak hnl ht.2, Unbroken]
        exact iff_of_false (fun h => List.cons_ne_nil _ _ h.1.symm) fun h => hcol h.1
    | escape ch =>
      by_cases hcol : col < max
      · rw [render_escape hcol, QprintDecoder.offered_escape, QprintDecoder.read_escape,
          Unbroken, and_iff_right hcol]
        by_cases heof : unescaped ch = eof
        · have hagain := QprintDecoder.reoffered_escape_of_eof heof
          exact iff_of_false (fun h => hagain _ h.2) fun h => h.1 heof
        · rw [if_neg heof, if_neg heof, QprintDecoder.reoffered_escape heof,
            List.cons_inj_right, ih hrest, and_iff_right heof]
      · rw [render_broken_escape (not_lt.mp hcol), QprintDecoder.offered_softBreak hnl,
          QprintDecoder.read_softBreak hnl (by decide), Unbroken]
        exact iff_of_false (fun h => List.cons_ne_nil _ _ h.1.symm) fun h => hcol h.1

include hnl in
/-- What is written does not depend on the stream exactly where nothing is refused. -/
theorem written_render_iff (ts : List Token) (hproper : ∀ t ∈ ts, t.Proper) (col : Nat) :
    (∀ S, written S (render nl max col ts) = read (render nl max col ts)) ↔
      Unbroken max col ts := by
  constructor
  · intro h
    have honce := h (.flushed 0)
    have hagain := h (.flushed 1)
    rw [QprintDecoder.written_flushed_zero] at honce
    rw [QprintDecoder.written_flushed_one, honce, List.append_right_eq_self] at hagain
    exact (offered_render_iff hnl ts hproper col).mp ⟨honce, hagain⟩
  · intro h S
    rw [(h.accepts_render hproper).written_eq S]
    exact ((offered_render_iff hnl ts hproper col).mpr h).1

/-- The tokens that a soft line break may stand before. -/
def Token.moves : Token → Bool
  | .plain _ => true
  | .escape _ => true
  | _ => false

theorem unbroken_iff (ts : List Token) (col : Nat) :
    Unbroken max col ts ↔ ∀ pre t post, ts = pre ++ t :: post → t.moves →
      pre.foldl (columnStep max) col < max ∧ ∀ ch, t = .escape ch → unescaped ch ≠ eof := by
  induction ts generalizing col with
  | nil => exact iff_of_true trivial forall_split_nil
  | cons t ts ih =>
    rw [forall_split_cons]
    cases t with
    | hard => simp [Unbroken, Token.moves, ih, columnStep]
    | final ch => simp [Unbroken, Token.moves, ih, columnStep]
    | plain ch => simp [Unbroken, Token.moves, ih, columnStep]
    | escape ch => simp [Unbroken, Token.moves, ih, columnStep, and_assoc]

theorem encode_make (nl : Newline) (size : Nat) (bytes : List UInt8) :
    QprintEncoder.encode (.make nl size) bytes =
      render nl (if nl = .none then sizeMax else size) 0 (tokens bytes) :=
  (encode_eq_render bytes).1 0

end Qprint

open QprintDecoder (read written)

/-- Pushing what was encoded writes what reading it gives, whatever the stream in front of the
decoder does, exactly where there is no soft line break and the second digit of no escape is
above `A`. -/
theorem qprint_push_eq_pull_iff {nl : Newline} (hnl : nl ≠ .none) (size : Nat)
    (bytes : List UInt8) :
    (∀ S, written S (QprintEncoder.encode (.make nl size) bytes) =
        read (QprintEncoder.encode (.make nl size) bytes)) ↔
      ∀ pre t post, Qprint.tokens bytes = pre ++ t :: post → t.moves →
        Qprint.column size pre < size ∧ ∀ ch, t = .escape ch → ch.toNat % 16 ≤ 10 := by
  have hdigit : ∀ ch : UInt8, QprintDecoder.unescaped ch ≠ QprintDecoder.eof ↔
      ch.toNat % 16 ≤ 10 := fun ch =>
    (not_congr (QprintDecoder.unescaped_eq_eof_iff ch)).trans not_lt
  rw [Qprint.encode_make, if_neg hnl, Qprint.written_render_iff hnl _ (Qprint.tokens_proper bytes),
    Qprint.unbroken_iff]
  simp only [hdigit]
  rfl

theorem qprint_push_eq_pull_of_mime_line :
    (∀ S, written S (QprintEncoder.encode (.make .crln 76) (octets "a ")) =
        read (QprintEncoder.encode (.make .crln 76) (octets "a "))) ↔
      ∀ pre t post, Qprint.tokens (octets "a ") = pre ++ t :: post → t.moves →
        Qprint.column 76 pre < 76 ∧ ∀ ch, t = .escape ch → ch.toNat % 16 ≤ 10 :=
  qprint_push_eq_pull_iff (by decide) 76 (octets "a ")

/-- The line end of a soft line break is refused and comes again when the stream is closed. -/
theorem qprint_push_loses_soft_break :
    QprintEncoder.encode (.make .crln 1) (octets "ab") = octets "a=\r\nb" ∧
      written (.flushed 1) (QprintEncoder.encode (.make .crln 1) (octets "ab")) = octets "a\nb" ∧
      read (QprintEncoder.encode (.make .crln 1) (octets "ab")) = octets "ab" := by
  decide

end Acqua
