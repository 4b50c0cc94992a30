import Acqua.Iostreams.Qprint

/-! What the decoder reads back of what the encoder wrote. The encoder's output is cut into
tokens, one for each octet that is kept, and each token is read back or is not. -/

namespace Acqua

namespace Qprint

/-- How an octet is written. The blank that closes the input is neither escaped nor moved
to another line. -/
inductive Token
  | hard
  | plain (ch : UInt8)
  | escape (ch : UInt8)
  | final (ch : UInt8)

def Token.octet : Token → UInt8
  | .hard => chr '\n'
  | .plain ch => ch
  | .escape ch => ch
  | .final ch => ch

def blankToken (ch : UInt8) : List UInt8 → Token
  | [] => .final ch
  | next :: _ => if next = chr '\r' ∨ next = chr '\n' then .escape ch else .plain ch

/-- The tokens of an input: CR is dropped, and a blank is escaped when CR or LF follows. -/
def tokens : List UInt8 → List Token
  | [] => []
  | ch :: rest =>
    if ch = chr '\r' then tokens rest
    else if ch = chr '\n' then .hard :: tokens rest
    else if ch = chr ' ' ∨ ch = chr '\t' then blankToken ch rest :: tokens rest
    else if QprintEncoder.mustEscape ch then .escape ch :: tokens rest
    else .plain ch :: tokens rest

/-- The column after a token that starts in the column `col` and has `width` characters. -/
def advance (max col width : Nat) : Nat := ((if max ≤ col then 0 else col) + width) % 2 ^ 64

/-- The column that a token leaves behind; a hard line break does not reset it. -/
def columnStep (max col : Nat) : Token → Nat
  | .hard => col
  | .plain _ => advance max col 1
  | .escape _ => advance max col 3
  | .final _ => col

/-- `count()` after some tokens. -/
def column (max : Nat) (ts : List Token) : Nat := ts.foldl (columnStep max) 0

def softBreak (nl : Newline) (max col : Nat) : List UInt8 :=
  if max ≤ col then chr '=' :: nl.chars else []

def hexDigits (ch : UInt8) : List UInt8 :=
  [QprintEncoder.hexDigit (ch >>> 4 &&& 0xf), QprintEncoder.hexDigit (ch &&& 0xf)]

def render (nl : Newline) (max : Nat) : Nat → List Token → List UInt8
  | _, [] => []
  | col, .hard :: ts => chr '\n' :: render nl max col ts
  | col, .plain ch :: ts =>
    softBreak nl max col ++ ch :: render nl max (advance max col 1) ts
  | col, .escape ch :: ts =>
    softBreak nl max col ++ chr '=' :: hexDigits ch ++ render nl max (advance max col 3) ts
  | col, .final ch :: ts => ch :: render nl max col ts

section Encoder

variable {nl : Newline} {max col : Nat}

theorem softBreak_of_lt (h : col < max) : softBreak nl max col = [] := if_neg h.not_ge

theorem softBreak_of_le (h : max ≤ col) : softBreak nl max col = chr '=' :: nl.chars := if_pos h

theorem render_escape (h : col < max) (ch : UInt8) (ts : List Token) :
    render nl max col (.escape ch :: ts) =
      chr '=' :: (hexDigits ch ++ render nl max (advance max col 3) ts) := by
  rw [render, softBreak_of_lt h]
  rfl

theorem render_broken_escape (h : max ≤ col) (ch : UInt8) (ts : List Token) :
    render nl max col (.escape ch :: ts) =
      chr '=' :: (nl.chars ++
        chr '=' :: (hexDigits ch ++ render nl max (advance max col 3) ts)) := by
  rw [render, softBreak_of_le h, List.cons_append, List.cons_append, List.append_assoc]
  rfl

def base (nl : Newline) (max col : Nat) : NewlineBase := ⟨nl, max, col⟩

theorem base_put (ch : UInt8) :
    (base nl max col).put QprintEncoder.lineBreak ch =
      (base nl max (advance max col 1), softBreak nl max col ++ [ch]) := by
  by_cases h : max ≤ col
  · simp [NewlineBase.put, base, softBreak, advance, h, QprintEncoder.lineBreak,
      NewlineBase.putLn, NewlineBase.putNobreak]
  · simp [NewlineBase.put, base, softBreak, advance, h, NewlineBase.putNobreak]

theorem base_escape (ch : UInt8) :
    QprintEncoder.escape (base nl max col) ch =
      (base nl max (advance max col 3), softBreak nl max col ++ chr '=' :: hexDigits ch) := by
  have hcol : advance max col 3 = ((advance max col 1 + 1) % 2 ^ 64 + 1) % 2 ^ 64 := by
    simp only [advance]
    omega
  rw [QprintEncoder.escape, base_put, hcol]
  simp [base, NewlineBase.putNobreak, hexDigits]

theorem blank_ne {ch : UInt8} (h : ch = chr ' ' ∨ ch = chr '\t') :
    ch ≠ 0 ∧ ch ≠ chr '\r' ∧ ch ≠ chr '\n' := by
  obtain rfl | rfl := h <;> decide

theorem encode_cons (e : QprintEncoder) (ch : UInt8) (bytes : List UInt8) :
    e.encode (ch :: bytes) = (e.put ch).2 ++ (e.put ch).1.encode bytes := by
  simp only [QprintEncoder.encode, pushAll_cons, List.append_assoc]

theorem encode_prior_cons {prior : UInt8} (hprior : prior ≠ 0) (b : NewlineBase) (ch : UInt8)
    (bytes : List UInt8) {r : NewlineBase × List UInt8}
    (hr : r = if ch = chr '\r' ∨ ch = chr '\n' then QprintEncoder.escape b prior
      else b.put QprintEncoder.lineBreak prior) :
    QprintEncoder.encode ⟨b, prior⟩ (ch :: bytes) =
      r.2 ++ QprintEncoder.encode ⟨r.1, 0⟩ (ch :: bytes) := by
  have hput : QprintEncoder.put ⟨b, prior⟩ ch =
      ((QprintEncoder.put ⟨r.1, 0⟩ ch).1, r.2 ++ (QprintEncoder.put ⟨r.1, 0⟩ ch).2) := by
    simp only [QprintEncoder.put, hprior, ne_eq, not_false_eq_true, if_true, ← hr,
      not_true_eq_false, if_false, List.nil_append]
    by_cases hcr : ch = chr '\r'
    · simp [hcr]
    · by_cases hln : ch = chr '\n'
      · simp [hln, show ¬ chr '\n' = chr '\r' by decide]
      · by_cases hblank : ch = chr ' ' ∨ ch = chr '\t'
        · simp [hcr, hln, hblank]
        · simp [hcr, hln, hblank]
  rw [encode_cons, encode_cons, hput, List.append_assoc]

/-- What is written from a state on is the rendering of the tokens of the octets that were
not written yet. -/
theorem encode_eq_render (bytes : List UInt8) :
    (∀ col, QprintEncoder.encode ⟨base nl max col, 0⟩ bytes = render nl max col (tokens bytes)) ∧
    ∀ col ch, ch = chr ' ' ∨ ch = chr '\t' →
      QprintEncoder.encode ⟨base nl max col, ch⟩ bytes =
        render nl max col (tokens (ch :: bytes)) := by
  induction bytes with
  | nil =>
    refine ⟨fun col => rfl, fun col ch hch => ?_⟩
    obtain ⟨hzero, hcr, hln⟩ := blank_ne hch
    simp [QprintEncoder.encode, QprintEncoder.close, hzero, tokens, hcr, hln, hch, blankToken,
      render]
  | cons ch bytes ih =>
    obtain ⟨ih, ihBlank⟩ := ih
    have hstep : ∀ col, QprintEncoder.encode ⟨base nl max col, 0⟩ (ch :: bytes) =
        render nl max col (tokens (ch :: bytes)) := by
      intro col
      rw [encode_cons]
      by_cases hcr : ch = chr '\r'
      · simp [QprintEncoder.put, tokens, hcr, ih]
      · by_cases hln : ch = chr '\n'
        · have hne : chr '\n' ≠ chr '\r' := by decide
          simp [QprintEncoder.put, tokens, hln, hne, ih, render]
        · by_cases hblank : ch = chr ' ' ∨ ch = chr '\t'
          · simpa [QprintEncoder.put, hcr, hln, hblank] using ihBlank col ch hblank
          · by_cases hescape : QprintEncoder.mustEscape ch
            · simp [QprintEncoder.put, tokens, hcr, hln, hblank, hescape, base_escape, ih, render]
            · simp [QprintEncoder.put, tokens, hcr, hln, hblank, hescape, base_put, ih, render]
    refine ⟨hstep, fun col prior hprior => ?_⟩
    obtain ⟨hzero, hcr, hln⟩ := blank_ne hprior
    rw [encode_prior_cons hzero _ _ _ rfl]
    by_cases hbreak : ch = chr '\r' ∨ ch = chr '\n'
    · rw [if_pos hbreak, base_escape, hstep]
      rw [tokens.eq_def (prior :: ch :: bytes)]
      simp [hcr, hln, hprior, blankToken, hbreak, render]
    · rw [if_neg hbreak, base_put, hstep]
      rw [tokens.eq_def (prior :: ch :: bytes)]
      simp [hcr, hln, hprior, blankToken, hbreak, render]

end Encoder

end Qprint

namespace QprintDecoder

theorem toNat_eq_iff {ch : UInt8} {c : Char} (hc : c.toNat < 256) :
    (ch.toNat : Int) = c.toNat ↔ ch = chr c := by
  rw [← UInt8.toNat_inj, toNat_chr hc]
  omega

theorem toNat_ne_eof (ch : UInt8) : (ch.toNat : Int) ≠ eof := by
  simp only [eof]
  omega

theorem sourceGet_length (src : List UInt8) :
    (sourceGet src).2.length ≤ src.length - 1 := by
  cases src <;> simp [sourceGet]

theorem get_length {src : List UInt8} (h : (get src).1 ≠ eof) :
    (get src).2.length < src.length := by
  have hlen : (get src).2.length ≤ src.length - 1 := by
    have h₁ := sourceGet_length src
    have h₂ := sourceGet_length (sourceGet src).2
    have h₃ := sourceGet_length (sourceGet (sourceGet src).2).2
    have h₄ := sourceGet_length (sourceGet (sourceGet (sourceGet src).2).2).2
    simp only [get]
    split_ifs <;> grind
  cases src with
  | nil => exact absurd (by simp [get, sourceGet, eof]) h
  | cons ch src =>
    simp only [List.length_cons] at hlen ⊢
    omega

theorem readAll_congr (fuel fuel' : Nat) (src : List UInt8) (h : src.length < fuel)
    (h' : src.length < fuel') : readAll fuel src = readAll fuel' src := by
  induction fuel generalizing fuel' src with
  | zero => omega
  | succ fuel ih =>
    cases fuel' with
    | zero => omega
    | succ fuel' =>
      by_cases heof : (get src).1 = eof
      · simp [readAll, heof]
      · have hlen := get_length heof
        simp only [readAll, heof, if_false]
        rw [ih fuel' _ (by omega) (by omega)]

theorem read_eq (src : List UInt8) :
    read src =
      if (get src).1 = eof then [] else UInt8.ofInt (get src).1 :: read (get src).2 := by
  by_cases heof : (get src).1 = eof
  · simp [read, readAll, heof]
  · have hlen := get_length heof
    rw [read, readAll]
    simp only [heof, if_false]
    rw [readAll_congr _ ((get src).2.length + 1) _ (by omega) (by omega), read]

theorem read_of_get {src src' : List UInt8} {ch : UInt8} (h : get src = (↑ch.toNat, src')) :
    read src = ch :: read src' := by
  rw [read_eq, h, if_neg (toNat_ne_eof ch), ofInt_toNat]

theorem read_nil : read [] = [] := by
  rw [read_eq, if_pos (by simp [get, sourceGet, eof])]

theorem read_plain {ch : UInt8} (hch : ch ≠ chr '=') (src : List UInt8) :
    read (ch :: src) = ch :: read src := by
  apply read_of_get
  simp only [get, sourceGet, toNat_eq_iff (c := '=') (by decide), hch, if_false]

/-- After a soft line break the next character is read as it stands, also when it begins
an escape. -/
theorem read_softBreak {nl : Newline} (hnl : nl ≠ .none) {ch : UInt8} (hch : ch ≠ chr '\n')
    (src : List UInt8) : read (chr '=' :: (nl.chars ++ ch :: src)) = ch :: read src := by
  apply read_of_get
  have hpad : ((chr '=').toNat : Int) = '='.toNat := by decide
  have hcr : ((chr '\r').toNat : Int) = '\r'.toNat := by decide
  have hln : ((chr '\n').toNat : Int) = '\n'.toNat := by decide
  have hne : ('\r'.toNat : Int) ≠ '\n'.toNat := by decide
  have hchLn : (ch.toNat : Int) ≠ '\n'.toNat := fun h => hch ((toNat_eq_iff (by decide)).mp h)
  have heof : ('\r'.toNat : Int) ≠ eof ∧ ('\n'.toNat : Int) ≠ eof := by decide
  cases nl with
  | none => exact absurd rfl hnl
  | cr =>
    simp only [Newline.chars, List.cons_append, List.nil_append, get, sourceGet, hpad, hcr, hchLn,
      heof.1, true_or, if_true, if_false]
  | ln =>
    simp only [Newline.chars, List.cons_append, List.nil_append, get, sourceGet, hpad, hln, hchLn,
      heof.2, or_true, if_true, if_false]
  | crln =>
    simp only [Newline.chars, List.cons_append, List.nil_append, get, sourceGet, hpad, hcr, hln,
      heof.1, true_or, if_true, if_false]

/-- What `unescape` makes of the two digits of an octet. -/
def unescaped (ch : UInt8) : Int :=
  unescape (QprintEncoder.hexDigit (ch >>> 4 &&& 0xf)).toNat
    (QprintEncoder.hexDigit (ch &&& 0xf)).toNat

theorem read_escape (ch : UInt8) (src : List UInt8) :
    read (chr '=' :: (Qprint.hexDigits ch ++ src)) =
      if unescaped ch = eof then [] else UInt8.ofInt (unescaped ch) :: read src := by
  have hpad : ((chr '=').toNat : Int) = '='.toNat := by decide
  have hdigit : ∀ n < 16, ((QprintEncoder.hexDigit (UInt8.ofNat n)).toNat : Int) ≠ '\r'.toNat ∧
      ((QprintEncoder.hexDigit (UInt8.ofNat n)).toNat : Int) ≠ '\n'.toNat := by decide
  obtain ⟨⟨hcr, hln⟩, -⟩ := nibble_forall (P := fun n =>
    ((QprintEncoder.hexDigit n).toNat : Int) ≠ '\r'.toNat ∧
      ((QprintEncoder.hexDigit n).toNat : Int) ≠ '\n'.toNat) hdigit ch
  have hget : get (chr '=' :: (Qprint.hexDigits ch ++ src)) = (unescaped ch, src) := by
    simp only [Qprint.hexDigits, List.cons_append, List.nil_append, get, sourceGet, hpad,
      toNat_ne_eof, hcr, hln, or_self, if_true, if_false,
      unescaped]
  rw [read_eq, hget]

theorem unescaped_table (ch : UInt8) :
    (unescaped ch = eof ↔ 10 < ch.toNat % 16) ∧
      ((unescaped ch ≠ eof ∧ UInt8.ofInt (unescaped ch) = ch) ↔
        ch.toNat / 16 ≤ 9 ∧ ch.toNat % 16 ≤ 9) :=
  octet_forall (P := fun ch => (unescaped ch = eof ↔ 10 < ch.toNat % 16) ∧
    ((unescaped ch ≠ eof ∧ UInt8.ofInt (unescaped ch) = ch) ↔
      ch.toNat / 16 ≤ 9 ∧ ch.toNat % 16 ≤ 9)) (by decide +kernel) ch

/-- The digits `a` to `f` have the values 0 to 5, and only the first of them may come
second. -/
theorem unescaped_iff (ch : UInt8) :
    (unescaped ch ≠ eof ∧ UInt8.ofInt (unescaped ch) = ch) ↔
      ch.toNat / 16 ≤ 9 ∧ ch.toNat % 16 ≤ 9 := (unescaped_table ch).2

theorem unescaped_eq_eof_iff (ch : UInt8) : unescaped ch = eof ↔ 10 < ch.toNat % 16 :=
  (unescaped_table ch).1

end QprintDecoder

namespace Qprint

/-- What the rendering needs of a token. -/
def Token.Proper : Token → Prop
  | .hard => True
  | .plain ch => ch ≠ chr '=' ∧ ch ≠ chr '\n'
  | .escape ch => QprintEncoder.mustEscape ch ∨ ch = chr ' ' ∨ ch = chr '\t'
  | .final ch => ch ≠ chr '='

theorem blankToken_octet (ch : UInt8) (rest : List UInt8) : (blankToken ch rest).octet = ch := by
  cases rest with
  | nil => rfl
  | cons next rest =>
    by_cases hbreak : next = chr '\r' ∨ next = chr '\n' <;> simp [blankToken, hbreak, Token.octet]

/-- The octets that a kind of token is made for. -/
def Token.Written : Token → Prop
  | .hard => True
  | .plain ch => ch = chr ' ' ∨ ch = chr '\t' ∨ ¬ QprintEncoder.mustEscape ch
  | .escape ch => ch = chr ' ' ∨ ch = chr '\t' ∨ QprintEncoder.mustEscape ch
  | .final ch => ch = chr ' ' ∨ ch = chr '\t'

theorem blankToken_written {ch : UInt8} (h : ch = chr ' ' ∨ ch = chr '\t') (rest : List UInt8) :
    (blankToken ch rest).Written := by
  cases rest with
  | nil => exact h
  | cons next rest =>
    rw [blankToken]
    split_ifs
    · exact or_assoc.mp (Or.inl h)
    · exact or_assoc.mp (Or.inl h)

theorem tokens_written (bytes : List UInt8) : ∀ t ∈ tokens bytes, t.Written := by
  induction bytes with
  | nil => simp [tokens]
  | cons ch rest ih =>
    rw [tokens]
    split_ifs with hcr hln hblank hescape
    · exact ih
    · exact List.forall_mem_cons.mpr ⟨trivial, ih⟩
    · exact List.forall_mem_cons.mpr ⟨blankToken_written hblank rest, ih⟩
    · exact List.forall_mem_cons.mpr ⟨Or.inr (Or.inr hescape), ih⟩
    · exact List.forall_mem_cons.mpr ⟨Or.inr (Or.inr hescape), ih⟩

theorem Token.Written.proper {t : Token} (h : t.Written) : t.Proper := by
  cases t with
  | hard => trivial
  | plain ch =>
    rcases h with rfl | rfl | hescape
    · exact ⟨by decide, by decide⟩
    · exact ⟨by decide, by decide⟩
    · constructor <;> rintro rfl <;> exact hescape (by decide)
  | escape ch =>
    rcases h with hspace | htab | hescape
    · exact Or.inr (Or.inl hspace)
    · exact Or.inr (Or.inr htab)
    · exact Or.inl hescape
  | final ch => rcases h with rfl | rfl <;> simp only [Token.Proper] <;> decide

theorem tokens_proper (bytes : List UInt8) : ∀ t ∈ tokens bytes, t.Proper :=
  fun t ht => (tokens_written bytes t ht).proper

theorem map_octet_tokens (bytes : List UInt8) :
    (tokens bytes).map Token.octet = bytes.filter (· ≠ chr '\r') := by
  induction bytes with
  | nil => rfl
  | cons ch rest ih =>
    by_cases hcr : ch = chr '\r'
    · simpa [tokens, hcr] using ih
    · by_cases hln : ch = chr '\n'
      · have hne : chr '\n' ≠ chr '\r' := by decide
        simpa [tokens, hln, hne, Token.octet] using ih
      · by_cases hblank : ch = chr ' ' ∨ ch = chr '\t'
        · simpa [tokens, hcr, hln, hblank, blankToken_octet] using ih
        · by_cases hescape : QprintEncoder.mustEscape ch <;>
            simpa [tokens, hcr, hln, hblank, hescape, Token.octet] using ih

variable {nl : Newline} (hnl : nl ≠ .none) {max : Nat}

include hnl in
theorem read_render_cons {t : Token} (hproper : t.Proper) (hescape : ∀ ch, t ≠ .escape ch)
    (col : Nat) (ts : List Token) :
    QprintDecoder.read (render nl max col (t :: ts)) =
      t.octet :: QprintDecoder.read (render nl max (columnStep max col t) ts) := by
  cases t with
  | hard => exact QprintDecoder.read_plain (by decide) _
  | final ch => exact QprintDecoder.read_plain hproper _
  | escape ch => exact absurd rfl (hescape ch)
  | plain ch =>
    by_cases hbreak : max ≤ col
    · simpa [render, softBreak, hbreak, Token.octet, columnStep] using
        QprintDecoder.read_softBreak hnl hproper.2 _
    · simpa [render, softBreak, hbreak, Token.octet, columnStep] using
        QprintDecoder.read_plain hproper.1 _

theorem read_render_escape {col : Nat} (hcol : col < max) (ch : UInt8) (ts : List Token) :
    QprintDecoder.read (render nl max col (.escape ch :: ts)) =
      if QprintDecoder.unescaped ch = QprintDecoder.eof then []
      else UInt8.ofInt (QprintDecoder.unescaped ch) ::
        QprintDecoder.read (render nl max (advance max col 3) ts) := by
  rw [render_escape hcol]
  exact QprintDecoder.read_escape ch _

include hnl in
theorem read_render_broken_escape {col : Nat} (hcol : max ≤ col) (ch : UInt8) (ts : List Token) :
    QprintDecoder.read (render nl max col (.escape ch :: ts)) =
      chr '=' :: (hexDigits ch ++
        QprintDecoder.read (render nl max (advance max col 3) ts)) := by
  obtain ⟨hupper, hlower⟩ := nibble_forall (P := fun n => QprintEncoder.hexDigit n ≠ chr '=')
    (by decide) ch
  rw [render_broken_escape hcol, QprintDecoder.read_softBreak hnl (by decide), hexDigits]
  simp only [List.cons_append, List.nil_append]
  rw [QprintDecoder.read_plain hupper, QprintDecoder.read_plain hlower]

include hnl in
/-- The digits of an escaped `=` that were read as they stand are never made up for: what
follows them would have to begin with them again, for ever. -/
theorem digits_cons_read_ne (ts : List Token) (hproper : ∀ t ∈ ts, t.Proper) (col : Nat) :
    chr '3' :: chr 'D' :: QprintDecoder.read (render nl max col ts) ≠ ts.map Token.octet := by
  have hplain : ∀ c, c = chr '3' ∨ c = chr 'D' → ∀ t : Token, t.Proper → t.octet = c →
      ∀ ch, t ≠ .escape ch := by
    intro c hc t ht hoctet ch heq
    rw [heq] at ht hoctet
    rw [show ch = c from hoctet] at ht
    revert ht
    obtain rfl | rfl := hc <;> simp only [Token.Proper] <;> decide
  induction hlen : ts.length using Nat.strong_induction_on generalizing ts col with
  | _ n ih =>
    intro heq
    match ts, hproper, hlen, heq with
    | [], _, _, heq => simp at heq
    | [_], _, _, heq => simp at heq
    | t₁ :: t₂ :: ts, hproper, hlen, heq =>
      simp only [List.map_cons, List.cons.injEq] at heq
      obtain ⟨h₁, h₂, heq⟩ := heq
      have hp₁ := hproper t₁ (by simp)
      have hp₂ := hproper t₂ (by simp)
      rw [read_render_cons hnl hp₁ (hplain _ (Or.inl rfl) t₁ hp₁ h₁.symm),
        read_render_cons hnl hp₂ (hplain _ (Or.inr rfl) t₂ hp₂ h₂.symm), ← h₁, ← h₂] at heq
      exact ih ts.length (by rw [← hlen]; simp) ts (fun t ht => hproper t (by simp [ht])) _ rfl heq

/-- Every escape begins before its line is full and has two decimal digits. -/
def Readable (max : Nat) : Nat → List Token → Prop
  | _, [] => True
  | col, t :: ts =>
    (∀ ch, t = .escape ch → col < max ∧ ch.toNat / 16 ≤ 9 ∧ ch.toNat % 16 ≤ 9) ∧
      Readable max (columnStep max col t) ts

theorem readable_escape_cons (col : Nat) (ch : UInt8) (ts : List Token) :
    Readable max col (.escape ch :: ts) ↔
      (col < max ∧ ch.toNat / 16 ≤ 9 ∧ ch.toNat % 16 ≤ 9) ∧ Readable max (advance max col 3) ts := by
  simp [Readable, columnStep]

include hnl in
theorem read_render_iff (ts : List Token) (hproper : ∀ t ∈ ts, t.Proper) (col : Nat) :
    QprintDecoder.read (render nl max col ts) = ts.map Token.octet ↔ Readable max col ts := by
  induction ts generalizing col with
  | nil => simp [render, QprintDecoder.read_nil, Readable]
  | cons t ts ih =>
    have hrest : ∀ t ∈ ts, t.Proper := fun t ht => hproper t (by simp [ht])
    by_cases hescape : ∃ ch, t = .escape ch
    · obtain ⟨ch, rfl⟩ := hescape
      rw [readable_escape_cons]
      by_cases hcol : col < max
      · rw [read_render_escape hcol, ← QprintDecoder.unescaped_iff ch, ← ih hrest]
        by_cases heof : QprintDecoder.unescaped ch = QprintDecoder.eof
        · simp [heof]
        · simp [heof, hcol, Token.octet]
      · rw [read_render_broken_escape hnl (by omega)]
        constructor
        · intro h
          simp only [List.map_cons, Token.octet, List.cons.injEq] at h
          obtain ⟨rfl, h⟩ := h
          exact absurd h (digits_cons_read_ne hnl ts hrest _)
        · intro h
          exact absurd h.1.1 hcol
    · have hplain : ∀ ch, t ≠ .escape ch := fun ch h => hescape ⟨ch, h⟩
      rw [read_render_cons hnl (hproper t (by simp)) hplain, List.map_cons, List.cons.injEq,
        ih hrest]
      simp [Readable, hplain]

theorem readable_iff (ts : List Token) (col : Nat) :
    Readable max col ts ↔ ∀ pre ch post, ts = pre ++ .escape ch :: post →
      pre.foldl (columnStep max) col < max ∧ ch.toNat / 16 ≤ 9 ∧ ch.toNat % 16 ≤ 9 := by
  induction ts generalizing col with
  | nil => simp [Readable]
  | cons t ts ih =>
    rw [Readable, ih]
    constructor
    · rintro ⟨hhead, htail⟩ pre ch post heq
      cases pre with
      | nil =>
        simp only [List.nil_append, List.cons.injEq] at heq
        exact hhead ch heq.1
      | cons t' pre =>
        simp only [List.cons_append, List.cons.injEq] at heq
        obtain ⟨rfl, heq⟩ := heq
        exact htail pre ch post heq
    · intro h
      refine ⟨fun ch heq => h [] ch ts (by rw [heq]; rfl), fun pre ch post heq => ?_⟩
      exact h (t :: pre) ch post (by rw [heq]; rfl)

end Qprint

/-- The decoder reads back the input without its CRs exactly when every octet that is
escaped has two decimal digits and none is escaped at the place of a soft line break. -/
theorem qprint_round_trip_iff {nl : Newline} (hnl : nl ≠ .none) (size : Nat)
    (bytes : List UInt8) :
    QprintDecoder.read (QprintEncoder.encode (.make nl size) bytes) =
        bytes.filter (· ≠ chr '\r') ↔
      ∀ pre ch post, Qprint.tokens bytes = pre ++ .escape ch :: post →
        Qprint.column size pre < size ∧ ch.toNat / 16 ≤ 9 ∧ ch.toNat % 16 ≤ 9 := by
  have hmake : QprintEncoder.make nl size = ⟨Qprint.base nl size 0, 0⟩ := by
    simp [QprintEncoder.make, NewlineBase.make, Qprint.base, hnl]
  rw [hmake, (Qprint.encode_eq_render bytes).1 0, ← Qprint.map_octet_tokens,
    Qprint.read_render_iff hnl _ (Qprint.tokens_proper bytes), Qprint.readable_iff]
  rfl

/-- A blank before a line break is escaped as `=20`, which is read back. -/
theorem qprint_round_trip_of_trailing_blank :
    QprintDecoder.read (QprintEncoder.encode (.make .crln 4) (octets "ab \ncd")) =
      (octets "ab \ncd").filter (· ≠ chr '\r') := by
  have htokens : Qprint.tokens (octets "ab \ncd") =
      [.plain (chr 'a'), .plain (chr 'b'), .escape (chr ' '), .hard, .plain (chr 'c'),
        .plain (chr 'd')] := rfl
  refine (qprint_round_trip_iff (by decide) 4 _).mpr ?_
  rw [htokens]
  refine (Qprint.readable_iff _ 0).mp ?_
  simp only [Qprint.Readable, Qprint.columnStep, Qprint.advance]
  simp
  decide

/-- `=` is written as `=3D`, and `D` may not come second. -/
theorem qprint_equals_lost :
    QprintDecoder.read (QprintEncoder.encode (.make .crln 76) (octets "=")) ≠
      (octets "=").filter (· ≠ chr '\r') := by
  decide

end Acqua
