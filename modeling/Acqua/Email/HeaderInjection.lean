import Acqua.Email.Folding

/-! What the encoder writes is one logical header field: every line break in it is a CR and an
LF, and is followed by a blank. -/

namespace Acqua

namespace Email

/-- Text in which every line break is folded. -/
inductive Folded : List UInt8 → Prop
  | nil : Folded []
  | char {ch : UInt8} {s : List UInt8} (hcr : ch ≠ chr '\r') (hln : ch ≠ chr '\n')
    (hs : Folded s) : Folded (ch :: s)
  | fold {ws : UInt8} {s : List UInt8} (hws : ws = chr ' ' ∨ ws = chr '\t') (hs : Folded s) :
    Folded (chr '\r' :: chr '\n' :: ws :: s)

theorem Folded.append {s t : List UInt8} (hs : Folded s) (ht : Folded t) : Folded (s ++ t) := by
  induction hs with
  | nil => exact ht
  | char hcr hln _ ih => exact .char hcr hln ih
  | fold hws _ ih => exact .fold hws ih

theorem Clean.folded {s : List UInt8} (hs : Clean s) : Folded s := by
  induction s with
  | nil => exact .nil
  | cons ch s ih =>
    have hch := hs ch (by simp)
    exact .char hch.1 hch.2 (ih fun c hc => hs c (by simp [hc]))

theorem folded_crlf_tab : Folded (crlf ++ [chr '\t']) := .fold (Or.inr rfl) .nil

theorem forall_mem_of_mapM {α β : Type} {f : α → Option β} {P : β → Prop}
    (hf : ∀ a b, f a = some b → P b) {as : List α} {bs : List β} (h : as.mapM f = some bs) :
    ∀ b ∈ bs, P b := by
  induction as generalizing bs with
  | nil =>
    simp only [List.mapM_nil, Option.pure_def, Option.some.injEq] at h
    simp [← h]
  | cons a as ih =>
    simp only [List.mapM_cons, Option.bind_eq_bind, Option.bind_eq_some_iff, Option.pure_def,
      Option.some.injEq] at h
    obtain ⟨b, hb, bs', hbs', rfl⟩ := h
    intro c hc
    rcases List.mem_cons.mp hc with rfl | hc
    · exact hf a _ hb
    · exact ih hbs' c hc

theorem folded_crlf_gap {gap : List UInt8} (hne : gap ≠ []) (hspace : ∀ ch ∈ gap, isspace ch)
    (hprint : ∀ ch ∈ gap, isprint ch) : Folded (crlf ++ gap) := by
  cases gap with
  | nil => exact absurd rfl hne
  | cons ch gap =>
    have hblank : ch = chr ' ' :=
      octet_forall (P := fun ch => isspace ch → isprint ch → ch = chr ' ') (by decide +kernel) ch
        (hspace ch (by simp)) (hprint ch (by simp))
    exact .fold (Or.inl hblank) (clean_of_isprint fun c hc => hprint c (by simp [hc])).folded

theorem folded_plainLoop (segs : List (List UInt8 × List UInt8)) (cnt : Int) (word : List UInt8)
    (hsegs : Segmented segs) (hprint : ∀ ch ∈ joined word segs, isprint ch) :
    Folded (plainLoop cnt word segs).2 := by
  induction segs generalizing cnt word with
  | nil =>
    rw [joined, List.flatMap_nil, List.append_nil] at hprint
    exact (clean_of_isprint hprint).folded
  | cons seg segs ih =>
    obtain ⟨gap, next⟩ := seg
    obtain ⟨hgap, hspace, -, -, hrest⟩ := hsegs
    rw [joined_cons] at hprint
    have hword : ∀ ch ∈ word, isprint ch := fun ch hch => hprint ch (by simp [hch])
    have hgapPrint : ∀ ch ∈ gap, isprint ch := fun ch hch => hprint ch (by simp [hch])
    have hnext : ∀ ch ∈ joined next segs, isprint ch := fun ch hch => hprint ch (by simp [hch])
    have hwordFolded := (clean_of_isprint hword).folded
    have hgapFolded := (clean_of_isprint hgapPrint).folded
    cases next with
    | nil => exact hwordFolded.append hgapFolded
    | cons c next =>
      rw [plainLoop]
      by_cases hfits : cnt + (word ++ gap ++ c :: next).length < lineMax
      · rw [if_pos hfits]
        exact (hwordFolded.append hgapFolded).append (ih _ _ hrest hnext)
      · rw [if_neg hfits]
        have hfold := hwordFolded.append (folded_crlf_gap hgap hspace hgapPrint)
        rw [← List.append_assoc] at hfold
        exact hfold.append (ih _ _ hrest hnext)
      · simp

theorem folded_plainEncode {str : List UInt8} (hprint : isAscii str) (cnt : Int) :
    Folded (plainEncode cnt str).2 := by
  obtain ⟨hjoin, -, hsegs⟩ := segments_spec str
  refine folded_plainLoop _ _ _ hsegs ?_
  rw [hjoin]
  simpa [isAscii] using hprint

section Folded

variable {L : Locale} {charset : List UInt8} (hcharset : Clean charset)

include hcharset

theorem folded_rfc2047Encode {str out : List UInt8}
    (h : rfc2047Encode L charset str = some out) : Folded out := by
  simp only [rfc2047Encode, Option.bind_eq_bind, Option.bind_eq_some_iff, Option.some.injEq] at h
  obtain ⟨⟨full, rest⟩, -, words, hwords, last, hlast, rfl⟩ := h
  have hclean : ∀ word ∈ words, Clean word :=
    forall_mem_of_mapM (fun _ _ hword => clean_encodedWord hcharset hword) hwords
  have hlines : Folded (words.flatMap fun word => word ++ crlf ++ [chr '\t']) := by
    clear hwords
    induction words with
    | nil => exact .nil
    | cons word words ih =>
      have hline := (hclean word (by simp)).folded.append folded_crlf_tab
      rw [← List.append_assoc] at hline
      exact hline.append (ih fun w hw => hclean w (by simp [hw]))
  refine hlines.append ?_
  unfold lastWord at hlast
  by_cases hrest : rest = []
  · rw [if_pos hrest, Option.some.injEq] at hlast
    exact hlast ▸ .nil
  · rw [if_neg hrest] at hlast
    exact (clean_encodedWord hcharset hlast).folded

theorem folded_rfc2231Pieces {key : List UInt8} (hkey : isName key)
    (pieces : List (List UInt8)) {idx idx' : Nat} {cnt cnt' : Int} {out : List UInt8}
    (h : rfc2231Pieces L charset key idx cnt pieces = some (idx', cnt', out)) : Folded out := by
  induction pieces generalizing idx cnt out with
  | nil =>
    simp only [rfc2231Pieces, Option.some.injEq, Prod.mk.injEq] at h
    exact h.2.2 ▸ .nil
  | cons piece pieces ih =>
    simp only [rfc2231Pieces, Option.bind_eq_bind, Option.bind_eq_some_iff, Option.some.injEq,
      Prod.mk.injEq] at h
    obtain ⟨s, hs, ⟨idx₁, cnt₁, out₁⟩, hrest, rfl, rfl, rfl⟩ := h
    have hquoted : Clean (if idx + 1 = 1 then [chr '\''] ++ charset ++ octets "''" else []) := by
      by_cases hidx : idx + 1 = 1
      · rw [if_pos hidx]
        exact ((clean_octets "'").append hcharset).append (clean_octets "''")
      · rw [if_neg hidx]
        exact clean_octets ""
    have hline := ((((((clean_of_isName hkey).append (clean_octets "*")).append
      (clean_index (idx + 1))).append (clean_octets "*=")).append hquoted).append
      (clean_percentEncode hs)).folded.append folded_crlf_tab
    rw [← List.append_assoc] at hline
    exact hline.append (ih hrest)

theorem folded_rfc2231Encode {key val out : List UInt8} (hkey : isName key) {cnt cnt' : Int}
    (h : rfc2231Encode L charset cnt key val = some (cnt', out)) : Folded out := by
  simp only [rfc2231Encode, Option.bind_eq_bind, Option.bind_eq_some_iff] at h
  obtain ⟨⟨full, rest⟩, -, ⟨idx, cnt₁, out₁⟩, hpieces, hlast⟩ := h
  have hfirst := folded_rfc2231Pieces hcharset hkey full hpieces
  by_cases hrest : rest = []
  · simp only [hrest, if_true, Option.some.injEq, Prod.mk.injEq] at hlast
    exact hlast.2 ▸ hfirst
  · simp only [hrest, if_false, Option.bind_eq_some_iff, Option.some.injEq, Prod.mk.injEq] at hlast
    obtain ⟨s, hs, -, rfl⟩ := hlast
    have hidx : Clean (if idx = 0 then [] else [chr '*'] ++ octets (Nat.repr idx)) := by
      by_cases hzero : idx = 0
      · rw [if_pos hzero]
        exact clean_octets ""
      · rw [if_neg hzero]
        exact (clean_octets "*").append (clean_index idx)
    exact (((hfirst.append (clean_of_isName hkey).folded).append hidx.folded).append
      (clean_octets "*=").folded).append (clean_percentEncode hs).folded

theorem folded_encodeField {key val out : List UInt8} {cnt : Int}
    (h : encodeField L charset key val = some (cnt, out)) : Folded out := by
  unfold encodeField at h
  by_cases hkey : isName key
  · have hname := ((clean_of_isName hkey).append (clean_octets ": ")).folded
    rw [if_pos hkey] at h
    cases val with
    | nil =>
      simp only [Option.some.injEq, Prod.mk.injEq] at h
      exact h.2 ▸ hname
    | cons front rest =>
      simp only at h
      split_ifs at h with hplain
      · simp only [Option.some.injEq, Prod.mk.injEq] at h
        exact h.2 ▸ hname.append (folded_plainEncode hplain.1 _)
      · obtain ⟨s, hs, heq⟩ := Option.map_eq_some_iff.mp h
        simp only [Prod.mk.injEq] at heq
        exact heq.2 ▸ hname.append (folded_rfc2047Encode hcharset hs)
  · simp [hkey] at h

theorem folded_encodeParam {key val out : List UInt8} (hkey : isName key) {cnt cnt' : Int}
    (h : encodeParam L charset cnt key val = some (cnt', out)) : Folded out := by
  unfold encodeParam at h
  by_cases hval : val = []
  · rw [if_pos hval, Option.some.injEq, Prod.mk.injEq] at h
    exact h.2 ▸ (clean_of_isName hkey).folded
  · rw [if_neg hval] at h
    by_cases hplain : isAscii val
    · simp only [hplain, if_true, Option.some.injEq, Prod.mk.injEq] at h
      have hopen := ((clean_of_isName hkey).append (clean_octets "=\"")).folded
      exact h.2 ▸ (hopen.append (folded_plainEncode hplain _)).append (clean_octets "\"").folded
    · rw [if_neg hplain] at h
      exact folded_rfc2231Encode hcharset hkey h

theorem folded_encodeParams (params : List (List UInt8 × List UInt8)) {cnt : Int}
    {out : List UInt8} (h : encodeParams L charset cnt params = some out) : Folded out := by
  induction params generalizing cnt out with
  | nil =>
    simp only [encodeParams, Option.some.injEq] at h
    exact h ▸ .nil
  | cons param params ih =>
    obtain ⟨key, val⟩ := param
    unfold encodeParams at h
    by_cases hkey : isName key
    · simp only [hkey, if_true, Option.bind_eq_bind, Option.bind_eq_some_iff,
        Option.some.injEq] at h
      obtain ⟨⟨cnt', s⟩, hs, out', hrest, rfl⟩ := h
      have hsep : Folded (if cnt - 2 < lineMax then octets "; " else
          [chr ';'] ++ crlf ++ [chr '\t']) := by
        split_ifs
        · exact (clean_octets "; ").folded
        · exact (clean_octets ";").folded.append folded_crlf_tab
      exact (hsep.append (folded_encodeParam hcharset hkey hs)).append (ih hrest)
    · simp [hkey] at h

theorem folded_encodeMimeheader {key val : List UInt8} {params : List (List UInt8 × List UInt8)}
    {out : List UInt8} (h : encodeMimeheader L charset key val params = some out) :
    Folded out := by
  simp only [encodeMimeheader, Option.bind_eq_bind, Option.bind_eq_some_iff,
    Option.some.injEq] at h
  obtain ⟨⟨cnt, field⟩, hfield, rest, hrest, rfl⟩ := h
  exact (folded_encodeField hcharset hfield).append (folded_encodeParams hcharset params hrest)

end Folded

theorem Folded.after_cr {s : List UInt8} (hs : Folded s) (pre post : List UInt8)
    (h : s = pre ++ chr '\r' :: post) :
    ∃ ws rest, post = chr '\n' :: ws :: rest ∧ (ws = chr ' ' ∨ ws = chr '\t') := by
  induction hs generalizing pre with
  | nil => simp at h
  | @char ch s hcr _ _ ih =>
    cases pre with
    | nil =>
      rw [List.nil_append, List.cons.injEq] at h
      exact absurd h.1 hcr
    | cons c pre =>
      rw [List.cons_append, List.cons.injEq] at h
      exact ih pre h.2
  | @fold ws s hws _ ih =>
    match pre, h with
    | [], h =>
      simp only [List.nil_append, List.cons.injEq, true_and] at h
      exact ⟨ws, s, h.symm, hws⟩
    | [_], h => exact absurd h (by simp [show chr '\n' ≠ chr '\r' by decide])
    | [_, _], h =>
      simp only [List.cons_append, List.nil_append, List.cons.injEq] at h
      have hne : chr '\r' ≠ chr ' ' ∧ chr '\r' ≠ chr '\t' := by decide
      rcases hws with hws | hws
      · exact absurd (h.2.2.1 ▸ hws) hne.1
      · exact absurd (h.2.2.1 ▸ hws) hne.2
    | _ :: _ :: _ :: pre, h =>
      simp only [List.cons_append, List.cons.injEq] at h
      exact ih pre h.2.2.2

theorem Folded.before_ln {s : List UInt8} (hs : Folded s) (pre post : List UInt8)
    (h : s = pre ++ chr '\n' :: post) : ∃ pre', pre = pre' ++ [chr '\r'] := by
  induction hs generalizing pre with
  | nil => simp at h
  | @char ch s _ hln _ ih =>
    cases pre with
    | nil =>
      rw [List.nil_append, List.cons.injEq] at h
      exact absurd h.1 hln
    | cons c pre =>
      rw [List.cons_append, List.cons.injEq] at h
      obtain ⟨pre', rfl⟩ := ih pre h.2
      exact ⟨c :: pre', rfl⟩
  | @fold ws s hws _ ih =>
    match pre, h with
    | [], h => exact absurd h (by simp [show chr '\r' ≠ chr '\n' by decide])
    | [c], h =>
      rw [List.cons_append, List.cons.injEq] at h
      exact ⟨[], by rw [h.1, List.nil_append]⟩
    | [_, _], h =>
      simp only [List.cons_append, List.nil_append, List.cons.injEq] at h
      have hne : chr '\n' ≠ chr ' ' ∧ chr '\n' ≠ chr '\t' := by decide
      rcases hws with hws | hws
      · exact absurd (h.2.2.1 ▸ hws) hne.1
      · exact absurd (h.2.2.1 ▸ hws) hne.2
    | a :: b :: c :: pre, h =>
      simp only [List.cons_append, List.cons.injEq] at h
      obtain ⟨pre', rfl⟩ := ih pre h.2.2.2
      exact ⟨a :: b :: c :: pre', rfl⟩

/-- No octet of a value or of a parameter starts a new header field. -/
theorem encodeMimeheader_no_injection (L : Locale) {charset : List UInt8}
    (hcharset : ∀ ch ∈ charset, ch ≠ chr '\r' ∧ ch ≠ chr '\n') (key val : List UInt8)
    (params : List (List UInt8 × List UInt8)) {out : List UInt8}
    (h : encodeMimeheader L charset key val params = some out) :
    (∀ pre post, out = pre ++ chr '\r' :: post →
      ∃ ws rest, post = chr '\n' :: ws :: rest ∧ (ws = chr ' ' ∨ ws = chr '\t')) ∧
    ∀ pre post, out = pre ++ chr '\n' :: post → ∃ pre', pre = pre' ++ [chr '\r'] := by
  have hout := folded_encodeMimeheader hcharset h
  exact ⟨fun pre post => hout.after_cr pre post, fun pre post => hout.before_ln pre post⟩

/-- A value with a line break in it, in a charset that keeps every octet. -/
theorem encodeMimeheader_no_injection_of_line_break :
    let out := octets "Subject: =?UTF-8?B?YQ0KQmNjOiBi?="
    (∀ pre post, out = pre ++ chr '\r' :: post →
      ∃ ws rest, post = chr '\n' :: ws :: rest ∧ (ws = chr ' ' ∨ ws = chr '\t')) ∧
    ∀ pre post, out = pre ++ chr '\n' :: post → ∃ pre', pre = pre' ++ [chr '\r'] :=
  encodeMimeheader_no_injection ⟨fun _ => 0, fun _ => some, fun s _ => some s⟩
    (clean_octets "UTF-8") (octets "Subject") (octets "a" ++ crlf ++ octets "Bcc: b") []
    (by decide)

end Email

end Acqua
