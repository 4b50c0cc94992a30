import Acqua.Iostreams.AsciiRoundTrip

/-! The two halves of `ascii_decoder` on texts whose lines end in CR LF. -/

namespace Acqua

namespace AsciiDecoder

/-- CR and LF stand together wherever they stand. -/
inductive CrlnText : List UInt8 → Prop
  | nil : CrlnText []
  | char {ch : UInt8} {text : List UInt8} (hcr : ch ≠ chr '\r') (hln : ch ≠ chr '\n')
      (h : CrlnText text) : CrlnText (ch :: text)
  | crln {text : List UInt8} (h : CrlnText text) : CrlnText (chr '\r' :: chr '\n' :: text)

/-- No octet 0 stands directly behind a blank. -/
def NoBlankNul (text : List UInt8) : Prop := text.IsChain fun a b => isblank a → b ≠ 0

theorem count_crln (text : List UInt8) :
    (chr '\r' :: chr '\n' :: text).count (chr '\r') = text.count (chr '\r') + 1 ∧
      (chr '\r' :: chr '\n' :: text).count (chr '\n') = text.count (chr '\n') + 1 := by
  constructor
  · rw [List.count_cons_self, List.count_cons_of_ne (by decide)]
  · rw [List.count_cons_of_ne (by decide), List.count_cons_self]

section Push

variable {d : AsciiDecoder} {text : List UInt8}

theorem put_char {ch : UInt8} (hcr : ch ≠ chr '\r') (hd : d.prior ≠ chr '\r') :
    (put d ch).2 = [ch] ∧ (put d ch).1.prior ≠ chr '\r' := by
  have hspace : chr ' ' ≠ chr '\r' := by decide
  rw [put, if_neg fun h => hcr h.2, if_neg fun h => hd h.1]
  split_ifs with hblank
  · exact ⟨rfl, hspace⟩
  · exact ⟨rfl, hd⟩

/-- A line end is removed with both its characters, or written with both. -/
theorem pushAll_put_crln (hd : d.prior ≠ chr '\r') (text : List UInt8) :
    ∃ d' : AsciiDecoder, d'.prior ≠ chr '\r' ∧
      ((pushAll put d (chr '\r' :: chr '\n' :: text)).2 = (pushAll put d' text).2 ∨
        (pushAll put d (chr '\r' :: chr '\n' :: text)).2 =
          chr '\r' :: chr '\n' :: (pushAll put d' text).2) := by
  have hcr : chr '\r' ≠ chr ' ' ∧ chr '\r' ≠ chr '\t' := by decide
  have hln : chr '\n' ≠ chr ' ' ∧ chr '\n' ≠ chr '\t' := by decide
  by_cases hspace : d.prior = chr ' '
  · refine ⟨⟨0⟩, by decide, Or.inl ?_⟩
    have hfirst : put d (chr '\r') = (⟨chr '\r'⟩, []) := if_pos ⟨hspace, rfl⟩
    have hsecond : put ⟨chr '\r'⟩ (chr '\n') = (⟨0⟩, []) := by
      rw [put, if_neg (by decide), if_pos ⟨rfl, rfl⟩]
    rw [pushAll_cons, hfirst, pushAll_cons, hsecond]
    rfl
  · refine ⟨d, hd, Or.inr ?_⟩
    have hfirst : put d (chr '\r') = (d, [chr '\r']) := by
      rw [put, if_neg fun h => hspace h.1, if_neg fun h => hd h.1, if_neg (by decide)]
    have hsecond : put d (chr '\n') = (d, [chr '\n']) := by
      rw [put, if_neg fun h => hspace h.1, if_neg fun h => hd h.1, if_neg (by decide)]
    rw [pushAll_cons, hfirst, pushAll_cons, hsecond]
    rfl

/-- The push half keeps the blanks, and as many CRs as LFs. -/
theorem count_pushAll (htext : CrlnText text) (hd : d.prior ≠ chr '\r') :
    (pushAll put d text).2.countP isblank = text.countP isblank ∧
      (pushAll put d text).2.count (chr '\r') = (pushAll put d text).2.count (chr '\n') := by
  induction htext generalizing d with
  | nil => exact ⟨rfl, rfl⟩
  | @char ch text hcr hln _ ih =>
    obtain ⟨hout, hd'⟩ := put_char hcr hd
    obtain ⟨hblank, hcount⟩ := ih hd'
    rw [pushAll_cons, hout, List.singleton_append, List.countP_cons, List.countP_cons, hblank,
      List.count_cons_of_ne hcr, List.count_cons_of_ne hln]
    exact ⟨rfl, hcount⟩
  | @crln text _ ih =>
    have hcr : isblank (chr '\r') = false := by decide
    have hln : isblank (chr '\n') = false := by decide
    obtain ⟨d', hd', hout | hout⟩ := pushAll_put_crln hd text <;> obtain ⟨hblank, hcount⟩ := ih hd'
    · rw [hout, hblank]
      exact ⟨by simp [hcr, hln], hcount⟩
    · rw [hout]
      refine ⟨by simp [hcr, hln, hblank], ?_⟩
      rw [(count_crln _).1, (count_crln _).2, hcount]

end Push

/-- What can be said of the result of the pull half: it has lost a blank, or it has as many LFs as
the text, and no CR. -/
def PulledFrom (text out : List UInt8) : Prop :=
  out.countP isblank < text.countP isblank ∨
    (out.countP isblank = text.countP isblank ∧ out.count (chr '\r') = 0 ∧
      out.count (chr '\n') = text.count (chr '\n'))

theorem PulledFrom.le {text out : List UInt8} (h : PulledFrom text out) :
    out.countP isblank ≤ text.countP isblank := by
  rcases h with h | h
  · exact h.le
  · exact h.1.le

theorem PulledFrom.cons {text out : List UInt8} {ch : UInt8} (hcr : ch ≠ chr '\r')
    (h : PulledFrom text out) : PulledFrom (ch :: text) (ch :: out) := by
  rcases h with h | ⟨hblank, hcount, hln⟩
  · left
    rw [List.countP_cons, List.countP_cons]
    omega
  · right
    rw [List.countP_cons, List.countP_cons, hblank, List.count_cons_of_ne hcr, List.count_cons,
      List.count_cons, hln]
    exact ⟨rfl, hcount, rfl⟩

theorem PulledFrom.nul {text out : List UInt8} (h : PulledFrom text out) :
    PulledFrom (0 :: text) out := by
  have hcount : ((0 : UInt8) :: text).countP isblank = text.countP isblank :=
    List.countP_cons_of_neg (by decide)
  have hln : ((0 : UInt8) :: text).count (chr '\n') = text.count (chr '\n') :=
    List.count_cons_of_ne (by decide)
  rw [PulledFrom, hcount, hln]
  exact h

theorem PulledFrom.crln {text out : List UInt8} (h : PulledFrom text out) :
    PulledFrom (chr '\r' :: chr '\n' :: text) (chr '\n' :: out) := by
  have hcr : (chr '\r' :: chr '\n' :: text).countP isblank =
      (chr '\n' :: text).countP isblank := List.countP_cons_of_neg (by decide)
  have hln : (chr '\r' :: chr '\n' :: text).count (chr '\n') =
      (chr '\n' :: text).count (chr '\n') := List.count_cons_of_ne (by decide)
  rw [PulledFrom, hcr, hln]
  exact h.cons (by decide)

/-- A blank that is removed with the line end behind it is not made up for. -/
theorem pulledFrom_soft {b : UInt8} (hb : isblank b) {text out : List UInt8}
    (h : out.countP isblank ≤ text.countP isblank) :
    PulledFrom (b :: chr '\r' :: chr '\n' :: text) out := by
  have hcr : (chr '\r' :: chr '\n' :: text).countP isblank =
      (chr '\n' :: text).countP isblank := List.countP_cons_of_neg (by decide)
  have hln : (chr '\n' :: text).countP isblank = text.countP isblank :=
    List.countP_cons_of_neg (by decide)
  left
  rw [List.countP_cons_of_pos hb, hcr, hln]
  omega

theorem pulls_soft_crln {b ch : UInt8} (hb : isblank b) {text out : List UInt8}
    (h : Pulls get 0 text out) :
    Pulls get 0 (b :: chr '\r' :: chr '\n' :: ch :: text) (ch :: out) := by
  have hsoft : Pulls get 0 (b :: (Newline.chars .crln ++ ch :: text)) (ch :: out) :=
    pulls_soft hb (by decide) (fun h => absurd h (by decide)) h
  exact hsoft

theorem pulls_soft_crln_nil {b : UInt8} (hb : isblank b) :
    Pulls get 0 [b, chr '\r', chr '\n'] [] := by
  have hsoft : Pulls get 0 (b :: Newline.chars .crln) [] := pulls_soft_nil hb (by decide)
  exact hsoft

theorem pulls_crln {text out : List UInt8} (h : Pulls get 0 text out) :
    Pulls get 0 (chr '\r' :: chr '\n' :: text) (chr '\n' :: out) := by
  have hbreak : Pulls get 0 (Newline.chars .crln ++ text) (chr '\n' :: out) :=
    pulls_break (by decide) (by decide) h
  exact hbreak

/-- The pull half comes to an end on every such text. -/
theorem exists_pulledFrom {text : List UInt8} (htext : CrlnText text) :
    ∃ out, Pulls get 0 text out ∧ PulledFrom text out := by
  induction hlen : text.length using Nat.strong_induction_on generalizing text with
  | _ n ih =>
    have hih : ∀ text', CrlnText text' → text'.length < text.length →
        ∃ out, Pulls get 0 text' out ∧ PulledFrom text' out :=
      fun text' htext' hlt => ih _ (hlen ▸ hlt) htext' rfl
    cases htext with
    | nil => exact ⟨[], pulls_nil, Or.inr ⟨rfl, rfl, rfl⟩⟩
    | @crln rest hrest =>
      obtain ⟨out, hpulls, hfrom⟩ := hih rest hrest (by simp)
      exact ⟨_, pulls_crln hpulls, hfrom.crln⟩
    | @char ch rest hcr hln hrest =>
      by_cases hblank : isblank ch
      · cases hrest with
        | nil => exact ⟨[ch], pulls_blank_nil hblank, Or.inr ⟨rfl, by simp [hcr], rfl⟩⟩
        | @char next rest hcr' hln' hrest =>
          by_cases hzero : next = 0
          · subst hzero
            obtain ⟨out, hpulls, hfrom⟩ := hih rest hrest (by simp)
            exact ⟨_, pulls_blank_nul hblank hpulls, hfrom.nul.cons hcr⟩
          · obtain ⟨out, hpulls, hfrom⟩ := hih _ (CrlnText.char hcr' hln' hrest) (by simp)
            exact ⟨_, pulls_blank hblank hzero hcr' hln' hpulls, hfrom.cons hcr⟩
        | @crln rest hrest =>
          cases hrest with
          | nil => exact ⟨[], pulls_soft_crln_nil hblank, pulledFrom_soft hblank (Nat.zero_le _)⟩
          | @char next rest hcr' hln' hrest =>
            obtain ⟨out, hpulls, hfrom⟩ := hih rest hrest (by simp; omega)
            refine ⟨_, pulls_soft_crln hblank hpulls, pulledFrom_soft hblank ?_⟩
            exact (hfrom.cons hcr').le
          | @crln rest hrest =>
            obtain ⟨out, hpulls, hfrom⟩ := hih rest hrest (by simp; omega)
            have hln : Pulls get 0 (chr '\n' :: rest) (chr '\n' :: out) :=
              pulls_plain (by decide) (by decide) hpulls
            refine ⟨_, pulls_soft_crln hblank hln, pulledFrom_soft hblank ?_⟩
            have hcount : (chr '\r' :: chr '\n' :: out).countP isblank =
                (chr '\n' :: out).countP isblank := List.countP_cons_of_neg (by decide)
            rw [hcount]
            exact hfrom.crln.le
      · obtain ⟨out, hpulls, hfrom⟩ := hih rest hrest (by simp)
        exact ⟨_, pulls_plain hblank hcr hpulls, hfrom.cons hcr⟩

theorem CrlnText.count_eq {text : List UInt8} (h : CrlnText text) :
    text.count (chr '\r') = text.count (chr '\n') := by
  induction h with
  | nil => rfl
  | char hcr hln _ ih => rw [List.count_cons_of_ne hcr, List.count_cons_of_ne hln, ih]
  | crln _ ih => rw [(count_crln _).1, (count_crln _).2, ih]

/-- A text without line ends is read as it is but for an octet 0 directly behind a blank. -/
theorem reads_self : ∀ text : List UInt8, chr '\r' ∉ text → chr '\n' ∉ text →
    Reads text text (NoBlankNul text)
  | [], _, _ => ⟨[], pulls_nil, fun _ => rfl, fun h => absurd List.IsChain.nil h⟩
  | [ch], hcr, _ => by
    have hch : ch ≠ chr '\r' := fun h => hcr (by simp [h])
    refine ⟨[ch], ?_, fun _ => rfl, fun h => absurd (List.IsChain.singleton ch) h⟩
    by_cases hblank : isblank ch
    · exact pulls_blank_nil hblank
    · exact pulls_plain hblank hch pulls_nil
  | ch :: next :: rest, hcr, hln => by
    have hch : ch ≠ chr '\r' := fun h => hcr (by simp [h])
    have hcr' : chr '\r' ∉ next :: rest := fun h => hcr (List.mem_cons_of_mem _ h)
    have hln' : chr '\n' ∉ next :: rest := fun h => hln (List.mem_cons_of_mem _ h)
    have hchain : NoBlankNul (ch :: next :: rest) ↔
        (isblank ch → next ≠ 0) ∧ NoBlankNul (next :: rest) := List.isChain_cons_cons
    by_cases hblank : isblank ch
    · by_cases hzero : next = 0
      · subst hzero
        have hrest := reads_self rest (fun h => hcr' (List.mem_cons_of_mem _ h))
          fun h => hln' (List.mem_cons_of_mem _ h)
        refine hrest.lose (w := [ch]) (fun h => (hchain.mp h).1 hblank rfl)
          (by simp [Nat.add_comm]) ?_
        exact fun h => pulls_blank_nul hblank h
      · refine (reads_self (next :: rest) hcr' hln').cons (hchain.trans (and_iff_right ?_)) ?_
        · exact fun _ => hzero
        · exact fun h => pulls_blank hblank hzero (fun h => hcr' (by simp [h]))
            (fun h => hln' (by simp [h])) h
    · refine (reads_self (next :: rest) hcr' hln').cons (hchain.trans (and_iff_right ?_)) ?_
      · exact fun h => absurd h hblank
      · exact fun h => pulls_plain hblank hch h

/-- Pushing a text writes what reading it gives, and a line end is removed directly behind a blank
only. -/
structure HalvesAgree (text : List UInt8) : Prop where
  same : Pulls get 0 text (pushAll put init text).2
  behind_blank : ∀ pre post, text = pre ++ chr '\r' :: chr '\n' :: post →
    (pushAll put (pushAll put init pre).1 [chr '\r', chr '\n']).2 = [] →
      ∃ b, pre.getLast? = some b ∧ isblank b

/-- The two halves agree on the texts without a line end, and without an octet 0 directly behind a
blank. -/
theorem halvesAgree_iff {text : List UInt8} (htext : CrlnText text) :
    HalvesAgree text ↔ chr '\r' ∉ text ∧ NoBlankNul text := by
  have hinit : init.prior ≠ chr '\r' := by decide
  have hplain : chr '\r' ∉ text → (HalvesAgree text ↔ NoBlankNul text) := by
    intro hcr
    have hln : chr '\n' ∉ text := by
      rw [← List.count_eq_zero] at hcr ⊢
      rw [← htext.count_eq, hcr]
    have hpush := pushAll_put hinit hcr
    obtain ⟨out, hpulls, hkept, hlost⟩ := reads_self text hcr hln
    constructor
    · intro hagree
      by_contra h
      have hsame := hagree.same
      rw [hpush] at hsame
      exact absurd (congrArg List.length (hpulls.unique hsame)) (hlost h).ne
    · intro h
      refine ⟨by rw [hpush]; exact hkept h ▸ hpulls, fun pre post heq => ?_⟩
      exact absurd (by rw [heq]; simp) hcr
  constructor
  · intro hagree
    obtain ⟨out, hpulls, hfrom⟩ := exists_pulledFrom htext
    obtain rfl := hpulls.unique hagree.same
    obtain ⟨hblank, hcount⟩ := count_pushAll htext hinit
    have hcr : chr '\r' ∉ text := by
      rcases hfrom with hlt | ⟨-, hzero, hln⟩
      · exact absurd hblank hlt.ne
      · rw [← List.count_eq_zero, htext.count_eq, ← hln, ← hcount, hzero]
    exact ⟨hcr, (hplain hcr).mp hagree⟩
  · rintro ⟨hcr, h⟩
    exact (hplain hcr).mpr h

theorem halvesAgree_of_words :
    HalvesAgree [chr 'a', chr ' ', chr 'b'] ↔
      chr '\r' ∉ [chr 'a', chr ' ', chr 'b'] ∧ NoBlankNul [chr 'a', chr ' ', chr 'b'] := by
  have hb : CrlnText [chr 'b'] := CrlnText.char (by decide) (by decide) CrlnText.nil
  have hblank : CrlnText [chr ' ', chr 'b'] := CrlnText.char (by decide) (by decide) hb
  exact halvesAgree_iff (CrlnText.char (by decide) (by decide) hblank)

/-- A line end is removed far behind the blank in its line, and the pull half writes LF. -/
theorem not_halvesAgree_of_stale_blank : ¬ HalvesAgree (octets "a b\r\n") := by
  intro h
  obtain ⟨b, hb, hblank⟩ := h.behind_blank (octets "a b") [] rfl (by decide)
  obtain rfl : chr 'b' = b := Option.some.inj hb
  exact absurd hblank (by decide)

end AsciiDecoder

end Acqua
