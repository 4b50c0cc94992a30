import Mathlib

/-! Texts in a code that are cut into parts, also inside a code word, and decoders that drop what
they cannot decode. -/

namespace Acqua

section CutCode

variable {α β ω : Type*} {enc : α → List β} {wide : α → List ω} {conv : List β → List ω}

/-- A decoder from the words of one code to those of another. It drops the rest of a word that a
text begins with, and the part of one that it ends with. -/
structure DropsCuts (enc : α → List β) (wide : α → List ω) (conv : List β → List ω) : Prop where
  nil : conv [] = []
  word : ∀ a s, conv (enc a ++ s) = wide a ++ conv s
  rest : ∀ a pre mid post s, enc a = pre ++ (mid ++ post) → pre ≠ [] → conv (mid ++ s) = conv s
  part : ∀ a pre post, enc a = pre ++ post → post ≠ [] → conv pre = []

/-- What is left of a word that was cut, or nothing. -/
def Rest (enc : α → List β) (rest : List β) : Prop :=
  rest = [] ∨ ∃ a pre, enc a = pre ++ rest ∧ pre ≠ []

theorem DropsCuts.words (h : DropsCuts enc wide conv) (as : List α) (s : List β) :
    conv (as.flatMap enc ++ s) = as.flatMap wide ++ conv s := by
  induction as with
  | nil => rfl
  | cons a as ih =>
    rw [List.flatMap_cons, List.append_assoc, h.word, ih, List.flatMap_cons, List.append_assoc]

theorem DropsCuts.drop_rest (h : DropsCuts enc wide conv) {rest post : List β}
    (hrest : Rest enc (rest ++ post)) (s : List β) : conv (rest ++ s) = conv s := by
  rcases hrest with hnone | ⟨a, pre, ha, hpre⟩
  · rw [(List.append_eq_nil_iff.mp hnone).1, List.nil_append]
  · exact h.rest a pre rest post s ha hpre

/-- A first part of a text: whole words and perhaps the part of another. -/
theorem exists_words_of_append {part more : List β} {as : List α}
    (h : part ++ more = as.flatMap enc) :
    ∃ bs cs, as = bs ++ cs ∧ (part = bs.flatMap enc ∧ more = cs.flatMap enc ∨
      ∃ a pre post ds, cs = a :: ds ∧ enc a = pre ++ post ∧ pre ≠ [] ∧ post ≠ [] ∧
        part = bs.flatMap enc ++ pre ∧ more = post ++ ds.flatMap enc) := by
  induction as generalizing part with
  | nil =>
    obtain ⟨rfl, rfl⟩ := List.append_eq_nil_iff.mp h
    exact ⟨[], [], rfl, .inl ⟨rfl, rfl⟩⟩
  | cons a as ih =>
    rcases List.append_eq_append_iff.mp h with ⟨post, ha, hmore⟩ | ⟨tail, hpart, htail⟩
    · by_cases hpre : part = []
      · exact ⟨[], a :: as, rfl, .inl ⟨hpre, by rw [← h, hpre, List.nil_append]⟩⟩
      · by_cases hpost : post = []
        · refine ⟨[a], as, rfl, .inl ⟨?_, by rw [hmore, hpost, List.nil_append, List.flatMap]⟩⟩
          rw [List.flatMap_singleton, ha, hpost, List.append_nil]
        · exact ⟨[], a :: as, rfl, .inr ⟨a, part, post, as, rfl, ha, hpre, hpost, rfl, hmore⟩⟩
    · obtain ⟨bs, cs, rfl, hcases⟩ := ih htail.symm
      refine ⟨a :: bs, cs, rfl, ?_⟩
      rcases hcases with ⟨htail, hmore⟩ | ⟨b, pre, post, ds, hcs, hb, hpre, hpost, htail, hmore⟩
      · exact .inl ⟨by rw [hpart, htail, List.flatMap_cons], hmore⟩
      · refine .inr ⟨b, pre, post, ds, hcs, hb, hpre, hpost, ?_, hmore⟩
        rw [hpart, htail, List.flatMap_cons, List.append_assoc]

theorem DropsCuts.part_nil (h : DropsCuts enc wide conv) {part post : List β}
    (hrest : Rest enc (part ++ post)) : conv part = [] := by
  have hdrop := h.drop_rest hrest []
  rwa [List.append_nil, h.nil] at hdrop

/-- A first part of a text that begins with the rest of a word. It is converted to the words that
are whole in it, and a word that it ends in is lost. -/
theorem DropsCuts.step (h : DropsCuts enc wide conv) {part more rest : List β}
    {as : List α} (hrest : Rest enc rest) (heq : part ++ more = rest ++ as.flatMap enc) :
    ∃ rest' bs cs, Rest enc rest' ∧ more = rest' ++ cs.flatMap enc ∧ conv part = bs.flatMap wide ∧
      (as = bs ++ cs ∧ (rest = [] → rest' = [] ∧ part = bs.flatMap enc) ∨
        ∃ a, as = bs ++ a :: cs) := by
  rcases List.append_eq_append_iff.mp heq with ⟨rest', hsplit, hmore⟩ | ⟨tail, hpart, htail⟩
  · have hrest' : Rest enc rest' := by
      rcases hrest with hnone | ⟨a, pre, ha, hpre⟩
      · exact .inl (List.append_eq_nil_iff.mp (hsplit.symm.trans hnone)).2
      · refine .inr ⟨a, pre ++ part, by rw [ha, hsplit, List.append_assoc], ?_⟩
        exact List.append_ne_nil_of_left_ne_nil hpre part
    refine ⟨rest', [], as, hrest', hmore, h.part_nil (hsplit ▸ hrest), .inl ⟨rfl, ?_⟩⟩
    intro hnone
    obtain ⟨hpart, hrest''⟩ := List.append_eq_nil_iff.mp (hsplit.symm.trans hnone)
    exact ⟨hrest'', hpart⟩
  · have hconv : conv part = conv tail := by
      rw [hpart]
      exact @DropsCuts.drop_rest _ _ _ enc wide conv h rest [] (by rwa [List.append_nil]) tail
    obtain ⟨bs, cs, has, hcases⟩ := exists_words_of_append htail.symm
    rcases hcases with ⟨hwords, hmore⟩ | ⟨a, pre, post, ds, hcs, ha, hpre, hpost, hwords, hmore⟩
    · refine ⟨[], bs, cs, .inl rfl, hmore, ?_, .inl ⟨has, ?_⟩⟩
      · have hall := h.words bs []
        rw [hconv, hwords]
        rwa [List.append_nil, h.nil, List.append_nil] at hall
      · intro hnone
        exact ⟨rfl, by rw [hpart, hnone, List.nil_append, hwords]⟩
    · refine ⟨post, bs, ds, .inr ⟨a, pre, ha, hpre⟩, hmore, ?_, .inr ⟨a, by rw [has, hcs]⟩⟩
      rw [hconv, hwords, h.words, h.part a pre post ha hpost, List.append_nil]

theorem DropsCuts.length_le (h : DropsCuts enc wide conv)
    {parts : List (List β)} {rest : List β} {as : List α} (hrest : Rest enc rest)
    (heq : parts.flatten = rest ++ as.flatMap enc) :
    (parts.flatMap conv).length ≤ (as.flatMap wide).length := by
  induction parts generalizing rest as with
  | nil => exact Nat.zero_le _
  | cons part parts ih =>
    rw [List.flatten_cons] at heq
    obtain ⟨rest', bs, cs, hrest', hmore, hconv, has⟩ := h.step hrest heq
    have htail := ih hrest' hmore
    rw [List.flatMap_cons, List.length_append, hconv]
    rcases has with ⟨rfl, -⟩ | ⟨a, rfl⟩
    · rw [List.flatMap_append, List.length_append]
      omega
    · rw [List.flatMap_append, List.flatMap_cons, List.length_append, List.length_append]
      omega

theorem DropsCuts.texts (h : DropsCuts enc wide conv) {parts : List (List β)}
    (hparts : ∀ part ∈ parts, ∃ bs : List α, part = bs.flatMap enc) :
    ∃ as : List α, parts.flatten = as.flatMap enc ∧ parts.flatMap conv = as.flatMap wide := by
  induction parts with
  | nil => exact ⟨[], rfl, rfl⟩
  | cons part parts ih =>
    obtain ⟨⟨bs, rfl⟩, hrest⟩ := List.forall_mem_cons.mp hparts
    obtain ⟨as, hflatten, hconv⟩ := ih hrest
    have hpart := h.words bs []
    rw [List.append_nil, h.nil, List.append_nil] at hpart
    refine ⟨bs ++ as, ?_, ?_⟩
    · rw [List.flatten_cons, hflatten, List.flatMap_append]
    · rw [List.flatMap_cons, hpart, hconv, List.flatMap_append]

theorem DropsCuts.texts_of_eq (h : DropsCuts enc wide conv) (hwide : ∀ a, wide a ≠ [])
    {parts : List (List β)} {as : List α} (heq : parts.flatten = as.flatMap enc)
    (hall : parts.flatMap conv = as.flatMap wide) :
    ∀ part ∈ parts, ∃ bs : List α, part = bs.flatMap enc := by
  induction parts generalizing as with
  | nil => simp
  | cons part parts ih =>
    have hstart : part ++ parts.flatten = [] ++ as.flatMap enc := heq
    obtain ⟨rest', bs, cs, hrest', hmore, hconv, has⟩ := h.step (.inl rfl) hstart
    rw [List.flatMap_cons, hconv] at hall
    rcases has with ⟨rfl, hclean⟩ | ⟨a, rfl⟩
    · obtain ⟨rfl, hpart⟩ := hclean rfl
      rw [List.flatMap_append] at hall
      exact List.forall_mem_cons.mpr ⟨⟨bs, hpart⟩, ih hmore (List.append_cancel_left hall)⟩
    · have hshort := h.length_le hrest' hmore
      have hlong := congrArg List.length hall
      have hpos := List.length_pos_iff.mpr (hwide a)
      rw [List.flatMap_append, List.flatMap_cons, List.length_append, List.length_append,
        List.length_append] at hlong
      omega

/-- Parts that are converted one by one make up for the whole text exactly when each is a text. -/
theorem DropsCuts.flatMap_eq_iff (h : DropsCuts enc wide conv) (hwide : ∀ a, wide a ≠ [])
    {parts : List (List β)} {as : List α} (heq : parts.flatten = as.flatMap enc) :
    parts.flatMap conv = conv (as.flatMap enc) ↔
      ∀ part ∈ parts, ∃ bs : List α, part = bs.flatMap enc := by
  have hwhole : ∀ bs : List α, conv (bs.flatMap enc) = bs.flatMap wide := by
    intro bs
    have hbs := h.words bs []
    rwa [List.append_nil, h.nil, List.append_nil] at hbs
  constructor
  · intro hall
    exact h.texts_of_eq hwide heq (hall.trans (hwhole as))
  · intro hparts
    obtain ⟨bs, hflatten, hconv⟩ := h.texts hparts
    rw [hconv, ← hwhole bs, ← hflatten, heq]

end CutCode

end Acqua
