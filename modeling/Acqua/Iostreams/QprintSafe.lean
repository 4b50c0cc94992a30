import Acqua.Iostreams.LineLengths

/-! When the output of `qprint_encoder` may be sent as text. -/

namespace Acqua

def isUpperHex (ch : UInt8) : Bool := isdigit ch ∨ (chr 'A' ≤ ch ∧ ch ≤ chr 'F')

/-- What may stand behind `=`. -/
inductive BehindPad : List UInt8 → Prop
  | digits {a b : UInt8} {rest : List UInt8} (ha : isUpperHex a) (hb : isUpperHex b) :
      BehindPad (a :: b :: rest)
  | lineEnd {ch : UInt8} {rest : List UInt8} (h : IsLineEnd ch) : BehindPad (ch :: rest)

/-- A character and what follows it: it is printable, a tab or a line end, `=` stands before two
digits or a line end, and blanks stand before other characters. -/
structure SafeAt (ch : UInt8) (post : List UInt8) : Prop where
  char : isprint ch ∨ ch = chr '\t' ∨ IsLineEnd ch
  pad : ch = chr '=' → BehindPad post
  blank : ch = chr ' ' ∨ ch = chr '\t' → ∃ next rest, post = next :: rest ∧ ¬ IsLineEnd next

def TransportSafe (text : List UInt8) : Prop :=
  ∀ pre ch post, text = pre ++ ch :: post → SafeAt ch post

section Safe

variable {ch : UInt8} {post text : List UInt8}

theorem transportSafe_nil : TransportSafe [] := forall_split_nil

theorem transportSafe_cons : TransportSafe (ch :: text) ↔ SafeAt ch text ∧ TransportSafe text :=
  forall_split_cons (Q := fun _ ch post => SafeAt ch post)

theorem transportSafe_append {w : List UInt8} (hw : ∀ ch ∈ w, ∀ post, SafeAt ch post) :
    TransportSafe (w ++ text) ↔ TransportSafe text := by
  induction w with
  | nil => rfl
  | cons ch w ih =>
    obtain ⟨hch, hrest⟩ := List.forall_mem_cons.mp hw
    rw [List.cons_append, transportSafe_cons, ih hrest]
    exact and_iff_right (hch _)

theorem safeAt_graph (h : isgraph ch) (hne : ch ≠ chr '=') : SafeAt ch post where
  char := by
    simp only [isgraph, isprint, decide_eq_true_eq] at h ⊢
    exact Or.inl ⟨UInt8.le_of_lt h.1, h.2⟩
  pad := fun hpad => absurd hpad hne
  blank := by
    rintro (rfl | rfl) <;> exact absurd h (by decide)

theorem safeAt_lineEnd (h : IsLineEnd ch) : SafeAt ch post where
  char := Or.inr (Or.inr h)
  pad := by
    rintro rfl
    exact absurd h (by decide)
  blank := by
    rintro (rfl | rfl) <;> exact absurd h (by decide)

theorem safeAt_blank (h : ch = chr ' ' ∨ ch = chr '\t') :
    SafeAt ch post ↔ ∃ next rest, post = next :: rest ∧ ¬ IsLineEnd next := by
  constructor
  · exact fun hsafe => hsafe.blank h
  · intro hpost
    refine ⟨?_, ?_, fun _ => hpost⟩
    · rcases h with rfl | rfl <;> decide
    · rcases h with rfl | rfl <;> exact fun hpad => absurd hpad (by decide)

theorem safeAt_pad : SafeAt (chr '=') post ↔ BehindPad post := by
  constructor
  · exact fun hsafe => hsafe.pad rfl
  · intro hpost
    exact ⟨Or.inl (by decide), fun _ => hpost, fun h => absurd h (by decide)⟩

theorem toInt_promote (ch : UInt8) :
    (promote ch).toInt = if ch.toNat < 128 then (ch.toNat : Int) else ch.toNat - 256 := by
  have hlt := ch.toNat_lt
  rw [promote, BitVec.toInt_signExtend_of_le (by decide), BitVec.toInt_eq_toNat_cond]
  simp only [UInt8.toNat_toBitVec]
  split_ifs <;> omega

theorem isgraph_of_not_mustEscape (h : ¬ QprintEncoder.mustEscape ch) :
    isgraph ch ∧ ch ≠ chr '=' := by
  simp only [QprintEncoder.mustEscape, decide_eq_true_eq, not_or, not_lt, toInt_promote] at h
  obtain ⟨hpad, hlow, hhigh⟩ := h
  have hlt := ch.toNat_lt
  have hspace : (chr ' ').toNat = 32 := rfl
  have htilde : (chr '~').toNat = 126 := rfl
  refine ⟨?_, hpad⟩
  simp only [isgraph, decide_eq_true_eq, UInt8.lt_iff_toNat_lt, UInt8.le_iff_toNat_le, hspace,
    htilde]
  split_ifs at hlow hhigh <;> omega

end Safe

namespace Qprint

section Render

variable {nl : Newline} {max : Nat}

/-- What stands behind a soft line break that writes nothing but `=`. -/
def DigitsNext (t : Token) (ts : List Token) : Prop :=
  ∃ a b rest, t = .plain a ∧ ts = .plain b :: rest ∧ isUpperHex a ∧ isUpperHex b

/-- No blank closes the text, and each `=` that breaks a line has a line end or two digits behind
it. -/
def Sent (nl : Newline) (max : Nat) : Nat → List Token → Prop
  | _, [] => True
  | col, t :: ts =>
    (∀ ch, t ≠ .final ch) ∧ (nl = .none → t.moves → max ≤ col → DigitsNext t ts) ∧
      Sent nl max (columnStep max col t) ts

/-- A blank that is neither escaped nor the last one stands before another character. -/
def BlanksInside : List Token → Prop
  | [] => True
  | t :: ts =>
    (∀ ch, t = .plain ch → ch = chr ' ' ∨ ch = chr '\t' → ∃ next rest, ts = next :: rest ∧
      next ≠ .hard) ∧ BlanksInside ts

theorem tokens_cons {next : UInt8} (hcr : next ≠ chr '\r') (hln : next ≠ chr '\n')
    (rest : List UInt8) : ∃ t ts, tokens (next :: rest) = t :: ts ∧ t ≠ .hard := by
  have hblank : blankToken next rest ≠ .hard := by
    cases rest with
    | nil => exact Token.noConfusion
    | cons ch rest =>
      rw [blankToken]
      split_ifs <;> exact Token.noConfusion
  rw [tokens, if_neg hcr, if_neg hln]
  split_ifs
  · exact ⟨_, _, rfl, hblank⟩
  · exact ⟨_, _, rfl, Token.noConfusion⟩
  · exact ⟨_, _, rfl, Token.noConfusion⟩

theorem tokens_blanksInside (bytes : List UInt8) : BlanksInside (tokens bytes) := by
  induction bytes with
  | nil => trivial
  | cons ch rest ih =>
    rw [tokens]
    split_ifs with hcr hln hblank hescape
    · exact ih
    · exact ⟨fun _ h => Token.noConfusion h, ih⟩
    · refine ⟨fun c hc _ => ?_, ih⟩
      cases rest with
      | nil => exact Token.noConfusion hc
      | cons next rest =>
        rw [blankToken] at hc
        split_ifs at hc with hbreak
        exact tokens_cons (not_or.mp hbreak).1 (not_or.mp hbreak).2 rest
    · exact ⟨fun _ h => Token.noConfusion h, ih⟩
    · refine ⟨fun c hc hblank' => ?_, ih⟩
      obtain rfl := Token.plain.inj hc
      exact absurd hblank' hblank

theorem head_text {t : Token} (ht : t.Written) (hhard : t ≠ .hard) :
    ∃ ch w, t.text = ch :: w ∧ ¬ IsLineEnd ch := by
  have htext := not_isLineEnd_text ht hhard
  cases t with
  | hard => exact absurd rfl hhard
  | plain ch => exact ⟨ch, [], rfl, htext ch (List.mem_singleton_self ch)⟩
  | escape ch => exact ⟨chr '=', hexDigits ch, rfl, by decide⟩
  | final ch => exact ⟨ch, [], rfl, htext ch (List.mem_singleton_self ch)⟩

theorem head_render {t : Token} (ht : t.Written) (hhard : t ≠ .hard) (col : Nat)
    (ts : List Token) :
    ∃ next rest, render nl max col (t :: ts) = next :: rest ∧ ¬ IsLineEnd next := by
  obtain ⟨ch, w, htext, hch⟩ := head_text ht hhard
  have hpad : ¬ IsLineEnd (chr '=') := by decide
  rw [render_cons, htext]
  split_ifs
  · by_cases hcol : max ≤ col
    · rw [softBreak_of_le hcol]
      exact ⟨chr '=', _, rfl, hpad⟩
    · rw [softBreak_of_lt (not_le.mp hcol)]
      exact ⟨ch, _, rfl, hch⟩
  · exact ⟨ch, _, rfl, hch⟩

theorem isUpperHex_hexDigits (ch : UInt8) :
    isUpperHex (QprintEncoder.hexDigit (ch >>> 4 &&& 0xf)) ∧
      isUpperHex (QprintEncoder.hexDigit (ch &&& 0xf)) :=
  nibble_forall (P := fun n => isUpperHex (QprintEncoder.hexDigit n)) (by decide) ch

theorem safeAt_hexDigits (ch : UInt8) : ∀ c ∈ hexDigits ch, ∀ post, SafeAt c post := by
  have hall : ∀ n < 16, isgraph (QprintEncoder.hexDigit (UInt8.ofNat n)) ∧
      QprintEncoder.hexDigit (UInt8.ofNat n) ≠ chr '=' := by decide
  obtain ⟨hupper, hlower⟩ := nibble_forall (P := fun n => isgraph (QprintEncoder.hexDigit n) ∧
    QprintEncoder.hexDigit n ≠ chr '=') hall ch
  intro c hc post
  obtain rfl | rfl := List.mem_pair.mp hc
  · exact safeAt_graph hupper.1 hupper.2
  · exact safeAt_graph hlower.1 hlower.2

/-- A token that is moved is safe in front of a text that does not begin with a line end, and in
front of any other text if it is no blank. -/
theorem transportSafe_text {t : Token} (ht : t.Written) (hmoves : t.moves) {text : List UInt8}
    (hblank : ∀ ch, t = .plain ch → ch = chr ' ' ∨ ch = chr '\t' →
      ∃ next rest, text = next :: rest ∧ ¬ IsLineEnd next) :
    TransportSafe (t.text ++ text) ↔ TransportSafe text := by
  cases t with
  | hard => exact absurd hmoves Bool.false_ne_true
  | final ch => exact absurd hmoves Bool.false_ne_true
  | plain ch =>
    refine transportSafe_cons.trans (and_iff_right ?_)
    by_cases hch : ch = chr ' ' ∨ ch = chr '\t'
    · exact (safeAt_blank hch).mpr (hblank ch rfl hch)
    · obtain ⟨hgraph, hne⟩ := isgraph_of_not_mustEscape ((or_assoc.mpr ht).resolve_left hch)
      exact safeAt_graph hgraph hne
  | escape ch =>
    obtain ⟨hupper, hlower⟩ := isUpperHex_hexDigits ch
    refine transportSafe_cons.trans ((and_iff_right ?_).trans ?_)
    · exact safeAt_pad.mpr (BehindPad.digits hupper hlower)
    · exact transportSafe_append (safeAt_hexDigits ch)

theorem transportSafe_break (hnl : nl ≠ .none) (text : List UInt8) :
    TransportSafe (chr '=' :: nl.chars ++ text) ↔ TransportSafe text := by
  have hchars : ∀ ch ∈ nl.chars, ∀ post, SafeAt ch post :=
    fun ch hch post => safeAt_lineEnd (mem_newline_chars hch)
  rw [List.cons_append, transportSafe_cons, transportSafe_append hchars]
  refine and_iff_right (safeAt_pad.mpr ?_)
  obtain ⟨ch, chars, hcons⟩ := List.exists_cons_of_ne_nil (newline_chars_ne_nil hnl)
  rw [hcons]
  exact BehindPad.lineEnd (mem_newline_chars (hcons ▸ List.mem_cons_self))

/-- In the second column no soft line break stands before a token. -/
theorem render_second (hmax : 1 < max) (t : Token) (ts : List Token) :
    render nl max 1 (t :: ts) = t.text ++ render nl max (columnStep max 1 t) ts := by
  rw [render_cons, softBreak_of_lt hmax, ite_self, List.nil_append]

theorem plain_of_upperHex (hmax : 1 < max) {ts : List Token} (hts : ∀ t ∈ ts, t.Written)
    {b : UInt8} {rest : List UInt8} (hrender : render nl max 1 ts = b :: rest)
    (hb : isUpperHex b) : ∃ post, ts = .plain b :: post := by
  cases ts with
  | nil => exact absurd hrender (List.cons_ne_nil b rest).symm
  | cons t ts =>
    rw [render_second hmax] at hrender
    have ht := (List.forall_mem_cons.mp hts).1
    cases t with
    | hard =>
      obtain rfl : chr '\n' = b := (List.cons.inj hrender).1
      exact absurd hb (by decide)
    | plain ch =>
      obtain rfl : ch = b := (List.cons.inj hrender).1
      exact ⟨ts, rfl⟩
    | escape ch =>
      obtain rfl : chr '=' = b := (List.cons.inj hrender).1
      exact absurd hb (by decide)
    | final ch =>
      obtain rfl : ch = b := (List.cons.inj hrender).1
      rcases ht with rfl | rfl <;> exact absurd hb (by decide)

/-- What is behind a soft line break of no more than `=`, which leaves the next token in the
second column. -/
theorem behindPad_iff (hmax : 1 < max) {t : Token} (ht : t.Written) (hmoves : t.moves)
    {ts : List Token} (hts : ∀ t ∈ ts, t.Written) {col : Nat} (hcol : max ≤ col) :
    BehindPad (t.text ++ render nl max (columnStep max col t) ts) ↔ DigitsNext t ts := by
  cases t with
  | hard => exact absurd hmoves Bool.false_ne_true
  | final ch => exact absurd hmoves Bool.false_ne_true
  | escape ch =>
    have hpad : ¬ isUpperHex (chr '=') ∧ ¬ IsLineEnd (chr '=') := by decide
    refine iff_of_false (fun h => ?_) ?_
    · cases h with
      | digits ha hb => exact hpad.1 ha
      | lineEnd h => exact hpad.2 h
    · rintro ⟨a, b, rest, h, -⟩
      exact Token.noConfusion h
  | plain a =>
    have hend := not_isLineEnd_text ht Token.noConfusion a (List.mem_singleton_self a)
    have hstep : columnStep max col (.plain a) = 1 := by
      rw [columnStep, advance, if_pos hcol]
      rfl
    rw [hstep, Token.text, List.singleton_append]
    constructor
    · intro h
      generalize hrender : render nl max 1 ts = text at h
      cases h with
      | lineEnd h => exact absurd h hend
      | digits ha hb =>
        obtain ⟨post, rfl⟩ := plain_of_upperHex hmax hts hrender hb
        exact ⟨a, _, post, rfl, rfl, ha, hb⟩
    · rintro ⟨a', b, rest, ha', rfl, ha, hb⟩
      obtain rfl := Token.plain.inj ha'
      rw [render_second hmax]
      exact BehindPad.digits ha hb

/-- One token of a text that may be sent. -/
theorem transportSafe_moved (hmax : nl = .none → 1 < max) {t : Token} (ht : t.Written)
    (hmoves : t.moves) {ts : List Token} (hts : ∀ t ∈ ts, t.Written)
    (hinside : BlanksInside (t :: ts)) (col : Nat) :
    TransportSafe (render nl max col (t :: ts)) ↔
      (nl = .none → max ≤ col → DigitsNext t ts) ∧
        TransportSafe (render nl max (columnStep max col t) ts) := by
  have htext : TransportSafe (t.text ++ render nl max (columnStep max col t) ts) ↔
      TransportSafe (render nl max (columnStep max col t) ts) := by
    refine transportSafe_text ht hmoves fun ch hch hblank => ?_
    obtain ⟨next, rest, rfl, hnext⟩ := hinside.1 ch hch hblank
    exact head_render (List.forall_mem_cons.mp hts).1 hnext _ rest
  rw [render_cons, if_pos hmoves]
  by_cases hcol : max ≤ col
  · rw [softBreak_of_le hcol]
    by_cases hnl : nl = .none
    · subst hnl
      rw [Newline.chars, List.singleton_append, transportSafe_cons, safeAt_pad,
        behindPad_iff (hmax rfl) ht hmoves hts hcol, htext]
      exact and_congr_left' ⟨fun h _ _ => h, fun h => h rfl hcol⟩
    · rw [transportSafe_break hnl, htext]
      exact (and_iff_right fun h => absurd h hnl).symm
  · rw [softBreak_of_lt (not_le.mp hcol), List.nil_append, htext]
    exact (and_iff_right fun _ h => absurd h hcol).symm

theorem transportSafe_render_iff (hmax : nl = .none → 1 < max) (ts : List Token)
    (hwritten : ∀ t ∈ ts, t.Written) (hfinal : FinalLast ts) (hinside : BlanksInside ts)
    (col : Nat) : TransportSafe (render nl max col ts) ↔ Sent nl max col ts := by
  induction ts generalizing col with
  | nil => exact iff_of_true transportSafe_nil trivial
  | cons t ts ih =>
    obtain ⟨ht, hts⟩ := List.forall_mem_cons.mp hwritten
    cases t with
    | hard =>
      rw [render, transportSafe_cons, and_iff_right (safeAt_lineEnd (Or.inr rfl)),
        ih hts hfinal hinside.2, Sent]
      simp [Token.moves, columnStep]
    | final ch =>
      obtain rfl : ts = [] := hfinal
      refine iff_of_false (fun h => ?_) fun h => h.1 ch rfl
      obtain ⟨next, rest, hnil, -⟩ := (transportSafe_cons.mp h).1.blank ht
      exact List.cons_ne_nil next rest hnil.symm
    | plain ch =>
      rw [transportSafe_moved hmax ht rfl hts hinside, ih hts hfinal hinside.2, Sent]
      simp [Token.moves]
    | escape ch =>
      rw [transportSafe_moved hmax ht rfl hts hinside, ih hts hfinal hinside.2, Sent]
      simp [Token.moves]

theorem sent_iff (ts : List Token) (col : Nat) :
    Sent nl max col ts ↔ (∀ ch, .final ch ∉ ts) ∧ (nl = .none → ∀ pre t post,
      ts = pre ++ t :: post → t.moves → max ≤ pre.foldl (columnStep max) col →
        DigitsNext t post) := by
  induction ts generalizing col with
  | nil => exact iff_of_true trivial ⟨fun _ => List.not_mem_nil, fun _ => forall_split_nil⟩
  | cons t ts ih =>
    rw [Sent, ih, forall_split_cons]
    simp only [List.mem_cons, not_or, List.foldl_nil, List.foldl_cons]
    constructor
    · rintro ⟨hne, hhead, hmem, htail⟩
      exact ⟨fun ch => ⟨fun h => hne ch h.symm, hmem ch⟩, fun hnl => ⟨hhead hnl, htail hnl⟩⟩
    · rintro ⟨hmem, hsplit⟩
      exact ⟨fun ch h => (hmem ch).1 h.symm, fun hnl => (hsplit hnl).1, fun ch => (hmem ch).2,
        fun hnl => (hsplit hnl).2⟩

end Render

theorem final_mem_iff (bytes : List UInt8) :
    (∃ ch, .final ch ∈ tokens bytes) ↔
      ∃ ch ∈ bytes.getLast?, ch = chr ' ' ∨ ch = chr '\t' := by
  induction bytes with
  | nil => simp [tokens]
  | cons ch rest ih =>
    cases rest with
    | nil =>
      by_cases hcr : ch = chr '\r'
      · simp [tokens, hcr]; decide
      · by_cases hln : ch = chr '\n'
        · simp [tokens, hln]; decide
        · by_cases hblank : ch = chr ' ' ∨ ch = chr '\t'
          · simp [tokens, hcr, hln, hblank, blankToken]
          · by_cases hescape : QprintEncoder.mustEscape ch <;>
              simp [tokens, hcr, hln, hblank, hescape]
    | cons next rest =>
      rw [List.getLast?_cons_cons, ← ih, tokens]
      split_ifs with hcr hln hblank hescape
      · rfl
      · simp
      · rw [blankToken]
        split_ifs <;> simp
      · simp
      · simp

end Qprint

/-- What is encoded may be sent as text unless a blank closes it, or, without a newline, a line that
fills the counter is broken before anything but two digits. -/
theorem qprint_safe_iff (nl : Newline) (size : Nat) (bytes : List UInt8) :
    TransportSafe (QprintEncoder.encode (.make nl size) bytes) ↔
      (¬ ∃ ch ∈ bytes.getLast?, ch = chr ' ' ∨ ch = chr '\t') ∧
        (nl = .none → ∀ pre t post, Qprint.tokens bytes = pre ++ t :: post → t.moves →
          sizeMax ≤ Qprint.column sizeMax pre → Qprint.DigitsNext t post) := by
  rw [Qprint.encode_make, Qprint.transportSafe_render_iff (fun h => by rw [if_pos h]; decide) _
    (Qprint.tokens_written bytes) (Qprint.tokens_finalLast bytes)
    (Qprint.tokens_blanksInside bytes), Qprint.sent_iff, ← Qprint.final_mem_iff, not_exists]
  refine and_congr_right' (forall_congr' fun hnl => ?_)
  rw [if_pos hnl]
  rfl

/-- The blank that waits is written as it is when the input is closed. -/
theorem qprint_final_blank :
    ¬ TransportSafe (QprintEncoder.encode (.make .crln 76) (octets "a ")) := by
  intro h
  have hencode : QprintEncoder.encode (.make .crln 76) (octets "a ") = [chr 'a', chr ' '] := by
    decide
  obtain ⟨next, rest, hnil, -⟩ := (h [chr 'a'] (chr ' ') [] hencode).blank (Or.inl rfl)
  exact List.cons_ne_nil next rest hnil.symm

end Acqua
