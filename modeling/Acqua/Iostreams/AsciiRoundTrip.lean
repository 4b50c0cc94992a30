import Acqua.Iostreams.AsciiFilter
import Acqua.Library.PullFilter

/-! What the pull half of `ascii_decoder` makes of the output of `ascii_encoder`. -/

namespace Acqua

namespace AsciiDecoder

open QprintDecoder (eof sourceGet)

theorem toNat_cast_inj {a b : UInt8} : ((a.toNat : Int) = b.toNat) ↔ a = b := by
  rw [Nat.cast_inj, UInt8.toNat_inj]

theorem toNat_cast_eq_zero {a : UInt8} : ((a.toNat : Int) = 0) ↔ a = 0 := by
  rw [Nat.cast_eq_zero, ← UInt8.toNat_inj, UInt8.toNat_zero]

theorem result_toNat (ch : UInt8) : result ch.toNat = some ch := by
  have hne : (ch.toNat : Int) ≠ eof := by
    rw [eof]
    omega
  rw [result, if_neg hne, ofInt_toNat]

theorem get_cons (ch : UInt8) (src : List UInt8) : get 0 (ch :: src) = getFrom ch.toNat src := rfl

theorem get_prior {ch : UInt8} (hch : ch ≠ 0) (src : List UInt8) :
    get ch.toNat src = get 0 (ch :: src) := if_pos (mt toNat_cast_eq_zero.mp hch)

theorem isblank_iff {ch : UInt8} : isblank ch = true ↔ ch = chr ' ' ∨ ch = chr '\t' := by
  simp [isblank]

theorem isblank_iff_toNat {ch : UInt8} : isblank ch = true ↔
    (ch.toNat : Int) = (chr ' ').toNat ∨ (ch.toNat : Int) = (chr '\t').toNat :=
  isblank_iff.trans (or_congr toNat_cast_inj.symm toNat_cast_inj.symm)

theorem ne_zero_of_isblank {ch : UInt8} (h : isblank ch) : ch ≠ 0 := by
  rcases isblank_iff.mp h with rfl | rfl <;> decide

theorem get_plain {ch : UInt8} (hblank : ¬ isblank ch) (hcr : ch ≠ chr '\r') (src : List UInt8) :
    get 0 (ch :: src) = ((0, some ch), src) := by
  rw [isblank_iff_toNat] at hblank
  rw [get_cons, getFrom, if_neg hblank, if_neg (mt toNat_cast_inj.mp hcr), result_toNat]

theorem skip_of_ne {c : UInt8} {ch : Int} (h : ch ≠ c.toNat) (prior : Int) (src : List UInt8) :
    skip c (ch, prior, src) = (ch, prior, src) := if_neg h

theorem skip_of_eq (c : UInt8) (prior : Int) (src : List UInt8) :
    skip c (c.toNat, prior, src) = ((sourceGet src).1, 0, (sourceGet src).2) := if_pos rfl

theorem getFrom_blank {b : UInt8} (hb : isblank b) (src : List UInt8) :
    getFrom b.toNat src =
      let r := skip (chr '\n') (skip (chr '\r') ((sourceGet src).1, b.toNat, (sourceGet src).2))
      if r.2.1 ≠ 0 then ((r.1, result r.2.1), r.2.2) else ((r.2.1, result r.1), r.2.2) := by
  rw [isblank_iff_toNat] at hb
  rw [getFrom, if_pos hb]

theorem get_blank {b : UInt8} (hb : isblank b) (src : List UInt8)
    (hcr : (sourceGet src).1 ≠ (chr '\r').toNat) (hln : (sourceGet src).1 ≠ (chr '\n').toNat) :
    get 0 (b :: src) = (((sourceGet src).1, some b), (sourceGet src).2) := by
  rw [get_cons, getFrom_blank hb, skip_of_ne hcr, skip_of_ne hln]
  dsimp only
  rw [if_pos (mt toNat_cast_eq_zero.mp (ne_zero_of_isblank hb)), result_toNat]

theorem get_soft {b : UInt8} (hb : isblank b) {nl : Newline} (hnl : nl ≠ .none) (src : List UInt8)
    (hln : nl = .cr → (sourceGet src).1 ≠ (chr '\n').toNat) :
    get 0 (b :: (nl.chars ++ src)) = ((0, result (sourceGet src).1), (sourceGet src).2) := by
  have hcrln : ((chr '\r').toNat : Int) ≠ (chr '\n').toNat := by decide
  have hlncr : ((chr '\n').toNat : Int) ≠ (chr '\r').toNat := by decide
  rw [get_cons, getFrom_blank hb]
  cases nl with
  | none => exact absurd rfl hnl
  | cr =>
    have hsrc : sourceGet (Newline.chars .cr ++ src) = (((chr '\r').toNat : Int), src) := rfl
    rw [hsrc, skip_of_eq, skip_of_ne (hln rfl)]
    rfl
  | ln =>
    have hsrc : sourceGet (Newline.chars .ln ++ src) = (((chr '\n').toNat : Int), src) := rfl
    rw [hsrc, skip_of_ne hlncr, skip_of_eq]
    rfl
  | crln =>
    have hsrc : sourceGet (Newline.chars .crln ++ src) =
        (((chr '\r').toNat : Int), chr '\n' :: src) := rfl
    have hsrc' : sourceGet (chr '\n' :: src) = (((chr '\n').toNat : Int), src) := rfl
    rw [hsrc, skip_of_eq, hsrc', skip_of_eq]
    rfl

theorem getFrom_cr (src : List UInt8) :
    getFrom (chr '\r').toNat src =
      if (sourceGet src).1 ≠ (chr '\n').toNat then
        (((sourceGet src).1, some (chr '\n')), (sourceGet src).2)
      else ((0, some (chr '\n')), (sourceGet src).2) := by
  have hblank : ¬ (((chr '\r').toNat : Int) = (chr ' ').toNat ∨
      ((chr '\r').toNat : Int) = (chr '\t').toNat) := by decide
  rw [getFrom, if_neg hblank, if_pos rfl, result_toNat]
  rcases sourceGet src with ⟨ch, rest⟩
  by_cases h : ch = (chr '\n').toNat
  · simp only [h, ne_eq, not_true_eq_false, if_false, result_toNat]
  · simp only [h, ne_eq, not_false_eq_true, if_true]

section Reads

theorem pulls_nil : Pulls get 0 [] [] := Pulls.done rfl

theorem pulls_eof (src : List UInt8) : Pulls get eof src [] := Pulls.done rfl

variable {src out : List UInt8}

theorem pulls_prior {ch : UInt8} (hch : ch ≠ 0) (h : Pulls get 0 (ch :: src) out) :
    Pulls get ch.toNat src out := h.congr (get_prior hch src)

theorem pulls_plain {ch : UInt8} (hblank : ¬ isblank ch) (hcr : ch ≠ chr '\r')
    (h : Pulls get 0 src out) : Pulls get 0 (ch :: src) (ch :: out) :=
  Pulls.more (get_plain hblank hcr src) h

theorem pulls_blank_nil {b : UInt8} (hb : isblank b) : Pulls get 0 [b] [b] :=
  Pulls.more (get_blank hb [] (by decide) (by decide)) (pulls_eof [])

theorem pulls_blank_nul {b : UInt8} (hb : isblank b) (h : Pulls get 0 src out) :
    Pulls get 0 (b :: 0 :: src) (b :: out) := by
  have hcr : ((0 : UInt8).toNat : Int) ≠ (chr '\r').toNat := by decide
  have hln : ((0 : UInt8).toNat : Int) ≠ (chr '\n').toNat := by decide
  exact Pulls.more (get_blank hb (0 :: src) hcr hln) h

theorem pulls_blank {b ch : UInt8} (hb : isblank b) (hch : ch ≠ 0) (hcr : ch ≠ chr '\r')
    (hln : ch ≠ chr '\n') (h : Pulls get 0 (ch :: src) out) :
    Pulls get 0 (b :: ch :: src) (b :: out) :=
  Pulls.more (get_blank hb (ch :: src) (mt toNat_cast_inj.mp hcr) (mt toNat_cast_inj.mp hln))
    (pulls_prior hch h)

theorem pulls_soft {b ch : UInt8} (hb : isblank b) {nl : Newline} (hnl : nl ≠ .none)
    (hln : nl = .cr → ch ≠ chr '\n') (h : Pulls get 0 src out) :
    Pulls get 0 (b :: (nl.chars ++ ch :: src)) (ch :: out) := by
  refine Pulls.more ?_ h
  rw [get_soft hb hnl (ch :: src) fun hcr => mt toNat_cast_inj.mp (hln hcr)]
  exact congrArg (fun r => ((0, r), src)) (result_toNat ch)

theorem pulls_soft_nil {b : UInt8} (hb : isblank b) {nl : Newline} (hnl : nl ≠ .none) :
    Pulls get 0 (b :: nl.chars) [] := by
  have hget := get_soft hb hnl [] fun _ => by decide
  rw [List.append_nil] at hget
  exact Pulls.done hget

theorem pulls_break {nl : Newline} (hnl : nl ≠ .none) (hcr : nl ≠ .cr) (h : Pulls get 0 src out) :
    Pulls get 0 (nl.chars ++ src) (chr '\n' :: out) := by
  cases nl with
  | none => exact absurd rfl hnl
  | cr => exact absurd rfl hcr
  | ln => exact pulls_plain (by decide) (by decide) h
  | crln => exact Pulls.more (getFrom_cr (chr '\n' :: src)) h

theorem pulls_cr_nil : Pulls get 0 [chr '\r'] [chr '\n'] :=
  Pulls.more (getFrom_cr []) (pulls_eof [])

theorem pulls_cr_nul (h : Pulls get 0 src out) :
    Pulls get 0 (chr '\r' :: 0 :: src) (chr '\n' :: out) := Pulls.more (getFrom_cr (0 :: src)) h

theorem pulls_cr {ch : UInt8} (hch : ch ≠ 0) (hln : ch ≠ chr '\n')
    (h : Pulls get 0 (ch :: src) out) : Pulls get 0 (chr '\r' :: ch :: src) (chr '\n' :: out) := by
  have hget : get 0 (chr '\r' :: ch :: src) = (((ch.toNat : Int), some (chr '\n')), src) := by
    rw [get_cons, getFrom_cr]
    exact if_pos (mt toNat_cast_inj.mp hln)
  exact Pulls.more hget (pulls_prior hch h)

end Reads

/-- What is read of an encoded text: the text itself, or something shorter. -/
def Reads (src text : List UInt8) (kept : Prop) : Prop :=
  ∃ out, Pulls get 0 src out ∧ (kept → out = text) ∧ (¬ kept → out.length < text.length)

section Reads

variable {src src' text text' : List UInt8} {kept kept' : Prop}

theorem Reads.cons {ch : UInt8} (h : Reads src text kept) (hkept : kept' ↔ kept)
    (hpulls : ∀ {out}, Pulls get 0 src out → Pulls get 0 src' (ch :: out)) :
    Reads src' (ch :: text) kept' := by
  obtain ⟨out, hout, heq, hlt⟩ := h
  refine ⟨ch :: out, hpulls hout, fun hk => ?_, fun hk => ?_⟩
  · rw [heq (hkept.mp hk)]
  · exact Nat.succ_lt_succ (hlt (mt hkept.mpr hk))

theorem Reads.lose {w : List UInt8} (h : Reads src text kept) (hkept : ¬ kept')
    (hlength : w.length + text.length < text'.length)
    (hpulls : ∀ {out}, Pulls get 0 src out → Pulls get 0 src' (w ++ out)) :
    Reads src' text' kept' := by
  obtain ⟨out, hout, heq, hlt⟩ := h
  have hle : out.length ≤ text.length := by
    by_cases hk : kept
    · rw [heq hk]
    · exact (hlt hk).le
  refine ⟨w ++ out, hpulls hout, fun hk => absurd hk hkept, fun _ => ?_⟩
  rw [List.length_append]
  omega

end Reads

end AsciiDecoder

namespace AsciiEncoder

open AsciiDecoder

/-- Whether nothing is lost of a text that is encoded from a column on, after a character that the
decoder looks at: a blank before a line feed is, and so is an octet 0 directly after a blank or,
where lines end in CR, at the beginning of a line. The character after a soft line break is taken
as it is. -/
def Kept (nl : Newline) (size : Nat) : Nat → UInt8 → List UInt8 → Prop
  | _, _, [] => True
  | cnt, last, ch :: text =>
    if ch = chr '\n' then ¬ isblank last ∧ Kept nl size 0 ch text
    else if size ≤ cnt then Kept nl size 1 0 text
    else ¬ (ch = 0 ∧ (isblank last ∨ nl = .cr ∧ last = chr '\n')) ∧
      Kept nl size (cnt + 1) ch text

section Stream

variable {nl : Newline} {size cnt : Nat}

/-- What is written from a column on. -/
def stream (nl : Newline) (size cnt : Nat) (text : List UInt8) : List UInt8 :=
  (pushAll put ⟨nl, size, cnt⟩ text).2

theorem encode_eq_stream (hnl : nl ≠ .none) (text : List UInt8) :
    encode nl size text = stream nl size 0 text := by
  rw [encode, NewlineBase.make, if_neg hnl]
  rfl

@[simp]
theorem stream_nil : stream nl size cnt [] = [] := rfl

theorem stream_newline (text : List UInt8) :
    stream nl size cnt (chr '\n' :: text) = nl.chars ++ stream nl size 0 text := rfl

theorem stream_break {ch : UInt8} (hcr : ch ≠ chr '\r') (hln : ch ≠ chr '\n') (h : size ≤ cnt)
    (text : List UInt8) : stream nl size cnt (ch :: text) =
      chr ' ' :: (nl.chars ++ ch :: stream nl size 1 text) := by
  have hput : put ⟨nl, size, cnt⟩ ch = (⟨nl, size, 1⟩, chr ' ' :: nl.chars ++ [ch]) := by
    rw [put, if_neg hcr, if_neg hln, NewlineBase.put, if_pos h]
    rfl
  rw [stream, pushAll_cons, hput]
  simp [stream]

theorem stream_char {ch : UInt8} (hcr : ch ≠ chr '\r') (hln : ch ≠ chr '\n') (h : cnt < size)
    (hsize : size ≤ sizeMax) (text : List UInt8) :
    stream nl size cnt (ch :: text) = ch :: stream nl size (cnt + 1) text := by
  have hcnt : (cnt + 1) % 2 ^ 64 = cnt + 1 := Nat.mod_eq_of_lt (by rw [sizeMax] at hsize; omega)
  have hput : put ⟨nl, size, cnt⟩ ch = (⟨nl, size, cnt + 1⟩, [ch]) := by
    rw [put, if_neg hcr, if_neg hln, NewlineBase.put, if_neg h.not_ge]
    simp only [NewlineBase.putNobreak, hcnt, List.nil_append]
  rw [stream, pushAll_cons, hput]
  rfl

theorem kept_newline {last : UInt8} (text : List UInt8) :
    Kept nl size cnt last (chr '\n' :: text) ↔ ¬ isblank last ∧ Kept nl size 0 (chr '\n') text := by
  rw [Kept, if_pos rfl]

theorem kept_break {ch last : UInt8} (hln : ch ≠ chr '\n') (h : size ≤ cnt) (text : List UInt8) :
    Kept nl size cnt last (ch :: text) ↔ Kept nl size 1 0 text := by
  rw [Kept, if_neg hln, if_pos h]

theorem kept_char {ch last : UInt8} (hln : ch ≠ chr '\n') (h : cnt < size) (text : List UInt8) :
    Kept nl size cnt last (ch :: text) ↔
      ¬ (ch = 0 ∧ (isblank last ∨ nl = .cr ∧ last = chr '\n')) ∧
        Kept nl size (cnt + 1) ch text := by
  rw [Kept, if_neg hln, if_neg h.not_ge]

end Stream

/-- From any column on, after a character that the decoder does not look at, a text is read as
`Kept` says. -/
def ReadsBack (nl : Newline) (size : Nat) (text : List UInt8) : Prop :=
  ∀ cnt ≤ size, ∀ last, ¬ isblank last → ¬ (nl = .cr ∧ last = chr '\n') →
    Reads (stream nl size cnt text) text (Kept nl size cnt last text)

section ReadsBack

variable {nl : Newline} {size : Nat} (hnl : nl ≠ .none) (hpos : 1 ≤ size) (hsize : size ≤ sizeMax)

theorem not_isblank_zero : ¬ isblank 0 := by decide

theorem zero_ne_newline : ¬ (nl = .cr ∧ (0 : UInt8) = chr '\n') := fun h => absurd h.2 (by decide)

theorem readsBack_nil : ReadsBack nl size [] := by
  intro cnt _ last _ _
  exact ⟨[], pulls_nil, fun _ => rfl, fun h => absurd trivial h⟩

include hnl hpos in
theorem reads_break {ch : UInt8} (hcr : ch ≠ chr '\r') (hln : ch ≠ chr '\n') {text : List UInt8}
    (h : ReadsBack nl size text) {cnt : Nat} (hcnt : size ≤ cnt) (last : UInt8) :
    Reads (stream nl size cnt (ch :: text)) (ch :: text) (Kept nl size cnt last (ch :: text)) := by
  rw [stream_break hcr hln hcnt]
  exact (h 1 hpos 0 not_isblank_zero zero_ne_newline).cons (kept_break hln hcnt text)
    (pulls_soft (by decide) hnl fun _ => hln)

include hnl hpos hsize in
theorem readsBack_plain {ch : UInt8} (hblank : ¬ isblank ch) (hcr : ch ≠ chr '\r')
    (hln : ch ≠ chr '\n') {text : List UInt8} (h : ReadsBack nl size text) :
    ReadsBack nl size (ch :: text) := by
  intro cnt hcnt last hlast hlast'
  by_cases hle : size ≤ cnt
  · exact reads_break hnl hpos hcr hln h hle last
  · rw [stream_char hcr hln (by omega) hsize]
    refine (h (cnt + 1) (by omega) ch hblank fun h => hln h.2).cons ?_ (pulls_plain hblank hcr)
    rw [kept_char hln (by omega)]
    tauto

include hsize in
theorem reads_next {ch : UInt8} (hcr : ch ≠ chr '\r') (hln : ch ≠ chr '\n') {text : List UInt8}
    (h : ReadsBack nl size (ch :: text)) {cnt : Nat} (hcnt : cnt ≤ size)
    (hch : ¬ (ch = 0 ∧ cnt < size)) (last : UInt8) :
    ∃ first rest, stream nl size cnt (ch :: text) = first :: rest ∧ first ≠ 0 ∧
      first ≠ chr '\r' ∧ first ≠ chr '\n' ∧
      Reads (first :: rest) (ch :: text) (Kept nl size cnt last (ch :: text)) := by
  have hreads := h cnt hcnt 0 not_isblank_zero zero_ne_newline
  by_cases hle : size ≤ cnt
  · rw [stream_break hcr hln hle, kept_break hln hle] at hreads
    rw [stream_break hcr hln hle, kept_break hln hle]
    exact ⟨_, _, rfl, by decide, by decide, by decide, hreads⟩
  · have hne : ch ≠ 0 := fun h => hch ⟨h, by omega⟩
    have hkept : Kept nl size cnt 0 (ch :: text) ↔ Kept nl size cnt last (ch :: text) := by
      rw [kept_char hln (by omega), kept_char hln (by omega)]
      tauto
    rw [hkept, stream_char hcr hln (by omega) hsize] at hreads
    rw [stream_char hcr hln (by omega) hsize]
    exact ⟨_, _, rfl, hne, hcr, hln, hreads⟩

include hnl hpos hsize in
theorem reads_blank_newline {b : UInt8} (hb : isblank b) {text : List UInt8}
    (htext : chr '\r' ∉ text)
    (ih : ∀ text', text'.length ≤ text.length → chr '\r' ∉ text' → ReadsBack nl size text')
    {kept : Prop} (hkept : ¬ kept) :
    Reads (b :: (nl.chars ++ stream nl size 0 text)) (b :: chr '\n' :: text) kept := by
  cases text with
  | nil =>
    rw [stream_nil, List.append_nil]
    exact ⟨[], pulls_soft_nil hb hnl, fun h => absurd h hkept, fun _ => by simp⟩
  | cons ch text =>
    have hrest : chr '\r' ∉ text := fun h => htext (List.mem_cons_of_mem _ h)
    have hread := ih text (by simp) hrest
    by_cases hln : ch = chr '\n'
    · subst hln
      have hzero := hread 0 (Nat.zero_le _) 0 not_isblank_zero zero_ne_newline
      rw [stream_newline]
      cases nl with
      | none => exact absurd rfl hnl
      | cr =>
        refine hzero.lose (w := [chr '\r']) hkept
          (by simp only [List.length_cons, List.length_nil]; omega) fun hout => ?_
        exact pulls_soft hb (show Newline.cr ≠ .none by decide) (fun _ => by decide) hout
      | ln =>
        refine hzero.lose (w := [chr '\n']) hkept
          (by simp only [List.length_cons, List.length_nil]; omega) fun hout => ?_
        exact pulls_soft hb (show Newline.ln ≠ .none by decide) (fun h => by cases h) hout
      | crln =>
        refine hzero.lose (w := [chr '\r', chr '\n']) hkept
          (by simp only [List.length_cons, List.length_nil]; omega) fun hout => ?_
        exact pulls_soft hb (show Newline.crln ≠ .none by decide) (fun h => by cases h)
          (pulls_plain (by decide) (by decide) hout)
    · have hcr : ch ≠ chr '\r' := fun h => htext (by simp [h])
      rw [stream_char hcr hln (by omega) hsize]
      refine (hread 1 hpos 0 not_isblank_zero zero_ne_newline).lose (w := [ch]) hkept
        (by simp only [List.length_cons, List.length_nil]; omega) fun hout => ?_
      exact pulls_soft hb hnl (fun _ => hln) hout

include hnl hpos hsize in
theorem readsBack_blank {b : UInt8} (hb : isblank b) {text : List UInt8} (htext : chr '\r' ∉ text)
    (ih : ∀ text', text'.length ≤ text.length → chr '\r' ∉ text' → ReadsBack nl size text') :
    ReadsBack nl size (b :: text) := by
  have hcr : b ≠ chr '\r' := by
    rcases isblank_iff.mp hb with rfl | rfl <;> decide
  have hln : b ≠ chr '\n' := by
    rcases isblank_iff.mp hb with rfl | rfl <;> decide
  have hzero := ne_zero_of_isblank hb
  intro cnt hcnt last hlast hlast'
  by_cases hle : size ≤ cnt
  · exact reads_break hnl hpos hcr hln (ih text le_rfl htext) hle last
  · have hkept : Kept nl size cnt last (b :: text) ↔ Kept nl size (cnt + 1) b text := by
      rw [kept_char hln (by omega)]
      tauto
    rw [stream_char hcr hln (by omega) hsize, hkept]
    cases text with
    | nil => exact ⟨[b], pulls_blank_nil hb, fun _ => rfl, fun h => absurd trivial h⟩
    | cons ch text =>
      have hrest : chr '\r' ∉ text := fun h => htext (List.mem_cons_of_mem _ h)
      have hcr' : ch ≠ chr '\r' := fun h => htext (by simp [h])
      by_cases hln' : ch = chr '\n'
      · subst hln'
        rw [stream_newline]
        refine reads_blank_newline hnl hpos hsize hb hrest
          (fun text' hlength => ih text' (by simp; omega)) ?_
        rw [kept_newline]
        tauto
      · by_cases hnul : ch = 0 ∧ cnt + 1 < size
        · obtain ⟨rfl, hlt⟩ := hnul
          rw [stream_char hcr' hln' hlt hsize, kept_char hln' hlt]
          refine (ih text (by simp) hrest (cnt + 1 + 1) hlt 0 not_isblank_zero
            zero_ne_newline).lose (w := [b]) (by tauto)
            (by simp only [List.length_cons, List.length_nil]; omega) fun hout => ?_
          exact pulls_blank_nul hb hout
        · obtain ⟨first, rest, hfirst, hfirst₀, hfirstcr, hfirstln, hreads⟩ :=
            reads_next hsize hcr' hln' (ih (ch :: text) le_rfl htext)
              (by omega : cnt + 1 ≤ size) hnul b
          rw [hfirst]
          exact hreads.cons Iff.rfl (pulls_blank hb hfirst₀ hfirstcr hfirstln)

include hsize in
theorem reads_cr {text : List UInt8} (htext : chr '\r' ∉ text)
    (ih : ∀ text', text'.length ≤ text.length → chr '\r' ∉ text' → ReadsBack .cr size text') :
    Reads (chr '\r' :: stream .cr size 0 text) (chr '\n' :: text)
      (Kept .cr size 0 (chr '\n') text) := by
  have hnl : Newline.cr ≠ .none := by decide
  have hblank : ¬ isblank (chr '\n') := by decide
  cases text with
  | nil => exact ⟨[chr '\n'], pulls_cr_nil, fun _ => rfl, fun h => absurd trivial h⟩
  | cons ch text =>
    have hrest : chr '\r' ∉ text := fun h => htext (List.mem_cons_of_mem _ h)
    have hcr : ch ≠ chr '\r' := fun h => htext (by simp [h])
    by_cases hln : ch = chr '\n'
    · subst hln
      have hreads := ih (chr '\n' :: text) le_rfl htext 0 (Nat.zero_le _) 0 not_isblank_zero
        zero_ne_newline
      refine hreads.cons ?_ (pulls_cr (by decide) (by decide))
      rw [kept_newline, kept_newline]
      exact and_congr_left fun _ => ⟨fun _ => not_isblank_zero, fun _ => hblank⟩
    · by_cases hnul : ch = 0 ∧ 0 < size
      · obtain ⟨rfl, hlt⟩ := hnul
        rw [stream_char hcr hln hlt hsize, kept_char hln hlt]
        refine (ih text (by simp) hrest (0 + 1) hlt 0 not_isblank_zero
          zero_ne_newline).lose (w := [chr '\n']) (by tauto)
          (by simp only [List.length_cons, List.length_nil]; omega) fun hout => ?_
        exact pulls_cr_nul hout
      · obtain ⟨first, rest, hfirst, hfirst₀, -, hfirstln, hreads⟩ :=
          reads_next hsize hcr hln (ih (ch :: text) le_rfl htext) (Nat.zero_le _) hnul
            (chr '\n')
        rw [hfirst]
        exact hreads.cons Iff.rfl (pulls_cr hfirst₀ hfirstln)

include hnl hsize in
theorem readsBack_newline {text : List UInt8} (htext : chr '\r' ∉ text)
    (ih : ∀ text', text'.length ≤ text.length → chr '\r' ∉ text' → ReadsBack nl size text') :
    ReadsBack nl size (chr '\n' :: text) := by
  intro cnt _ last hlast _
  have hblank : ¬ isblank (chr '\n') := by decide
  have hkept : Kept nl size cnt last (chr '\n' :: text) ↔ Kept nl size 0 (chr '\n') text := by
    rw [kept_newline]
    tauto
  rw [stream_newline, hkept]
  by_cases hcr : nl = .cr
  · subst hcr
    exact reads_cr hsize htext ih
  · have hreads := ih text le_rfl htext 0 (Nat.zero_le _) (chr '\n') hblank fun h => hcr h.1
    exact hreads.cons Iff.rfl (pulls_break hnl hcr)

include hnl hpos hsize in
theorem readsBack {text : List UInt8} (htext : chr '\r' ∉ text) : ReadsBack nl size text := by
  induction hn : text.length using Nat.strong_induction_on generalizing text with
  | _ n ih =>
    subst hn
    cases text with
    | nil => exact readsBack_nil
    | cons ch text =>
      have hcr : ch ≠ chr '\r' := fun h => htext (by simp [h])
      have hrest : chr '\r' ∉ text := fun h => htext (List.mem_cons_of_mem _ h)
      have ih' : ∀ text', text'.length ≤ text.length → chr '\r' ∉ text' →
          ReadsBack nl size text' := fun text' hlength htext' =>
        ih text'.length (by simp only [List.length_cons]; omega) htext' rfl
      by_cases hln : ch = chr '\n'
      · rw [hln]
        exact readsBack_newline hnl hsize hrest ih'
      · by_cases hb : isblank ch
        · exact readsBack_blank hnl hpos hsize hb hrest ih'
        · exact readsBack_plain hnl hpos hsize hb hcr hln (ih' text le_rfl hrest)

end ReadsBack

end AsciiEncoder

open AsciiDecoder AsciiEncoder in
/-- Reading an encoded text gives it back exactly when no blank that the decoder looks at stands
before a line feed and no octet 0 where the decoder has looked ahead. -/
theorem ascii_round_trip_iff {nl : Newline} (hnl : nl ≠ .none) {size : Nat} (hpos : 1 ≤ size)
    (hsize : size ≤ sizeMax) {text : List UInt8} (htext : chr '\r' ∉ text) :
    Pulls AsciiDecoder.get 0 (encode nl size text) text ↔ Kept nl size 0 0 text := by
  obtain ⟨out, hout, heq, hlt⟩ := readsBack hnl hpos hsize htext 0 (Nat.zero_le _) 0
    not_isblank_zero zero_ne_newline
  rw [encode_eq_stream hnl]
  constructor
  · intro h
    by_contra hkept
    exact (hlt hkept).ne (congrArg List.length (hout.unique h))
  · intro h
    rw [heq h] at hout
    exact hout

theorem ascii_round_trip_of_line :
    Newline.crln ≠ .none ∧ 1 ≤ 77 ∧ 77 ≤ sizeMax ∧ chr '\r' ∉ octets "a b\nc" ∧
      (Pulls AsciiDecoder.get 0 (AsciiEncoder.encode .crln 77 (octets "a b\nc"))
        (octets "a b\nc") ↔ AsciiEncoder.Kept .crln 77 0 0 (octets "a b\nc")) :=
  ⟨by decide, by decide, by decide, by decide,
    ascii_round_trip_iff (by decide) (by decide) (by decide) (by decide)⟩

/-- A blank before a line feed is lost together with it. -/
theorem not_ascii_round_trip_of_blank :
    ¬ ∀ (nl : Newline) (size : Nat) (text : List UInt8), nl ≠ .none → 1 ≤ size → size ≤ sizeMax →
      chr '\r' ∉ text → Pulls AsciiDecoder.get 0 (AsciiEncoder.encode nl size text) text := by
  intro h
  have hpulls := h .crln 77 (octets "a \nb") (by decide) (by decide) (by decide) (by decide)
  have hread : Pulls AsciiDecoder.get 0 (AsciiEncoder.encode .crln 77 (octets "a \nb"))
      (octets "ab") := by
    apply AsciiDecoder.pulls_plain (by decide) (by decide)
    exact AsciiDecoder.pulls_soft (by decide) (show Newline.crln ≠ .none by decide) (by decide)
      AsciiDecoder.pulls_nil
  exact absurd (hpulls.unique hread) (by decide)

end Acqua
