import Acqua.Email.FieldLines
import Acqua.Email.GeneratorText
import Acqua.Email.HeaderInjection

/-! The lines of a generated text that are a single dot. -/

namespace Acqua

namespace Email

theorem splitCrLf_ne_nil (s : List UInt8) : splitCrLf s ≠ [] := by
  induction s using splitCrLf.induct with
  | case1 => exact List.cons_ne_nil _ _
  | case2 ch => exact List.cons_ne_nil _ _
  | case3 ch ch' s h ih =>
    rw [splitCrLf, if_pos h]
    exact List.cons_ne_nil _ _
  | case4 ch ch' s h ih =>
    rw [splitCrLf, if_neg h]
    intro hnil
    exact ih (List.modifyHead_eq_nil_iff.mp hnil)

theorem splitCrLf_crlf (s t : List UInt8) :
    splitCrLf (s ++ (crlf ++ t)) = splitCrLf s ++ splitCrLf t := by
  have hcut : splitCrLf (crlf ++ t) = [] :: splitCrLf t := if_pos ⟨rfl, rfl⟩
  induction s using splitCrLf.induct with
  | case1 => exact hcut
  | case2 ch =>
    have hne : ¬ (ch = chr '\r' ∧ chr '\r' = chr '\n') := fun h => absurd h.2 (by decide)
    have hch : splitCrLf (ch :: (crlf ++ t)) =
        (splitCrLf (crlf ++ t)).modifyHead (List.cons ch) := if_neg hne
    rw [List.singleton_append, hch, hcut, List.modifyHead_cons]
    rfl
  | case3 ch ch' s h ih =>
    rw [List.cons_append, List.cons_append, splitCrLf, if_pos h, ih, splitCrLf, if_pos h,
      List.cons_append]
  | case4 ch ch' s h ih =>
    rw [List.cons_append] at ih
    rw [List.cons_append, List.cons_append, splitCrLf, if_neg h, ih, splitCrLf, if_neg h]
    cases hlines : splitCrLf (ch' :: s) with
    | nil => exact absurd hlines (splitCrLf_ne_nil _)
    | cons l ls => rfl

theorem intercalate_splitCrLf (s : List UInt8) : crlf.intercalate (splitCrLf s) = s := by
  induction s using splitCrLf.induct with
  | case1 => rfl
  | case2 ch => simp [splitCrLf, List.intercalate]
  | case3 ch ch' s h ih =>
    rw [splitCrLf, if_pos h]
    cases hlines : splitCrLf s with
    | nil => exact absurd hlines (splitCrLf_ne_nil _)
    | cons l ls =>
      rw [hlines] at ih
      rw [h.1, h.2, ← ih]
      rfl
  | case4 ch ch' s h ih =>
    rw [splitCrLf, if_neg h]
    cases hlines : splitCrLf (ch' :: s) with
    | nil => exact absurd hlines (splitCrLf_ne_nil _)
    | cons l ls =>
      rw [hlines] at ih
      rw [← ih]
      cases ls <;> rfl

theorem intercalate_append {sep : List UInt8} {ls ls' : List (List UInt8)} (h : ls ≠ [])
    (h' : ls' ≠ []) :
    sep.intercalate (ls ++ ls') = sep.intercalate ls ++ (sep ++ sep.intercalate ls') := by
  induction ls with
  | nil => exact absurd rfl h
  | cons l ls ih =>
    cases ls with
    | nil =>
      rw [List.singleton_append, List.intercalate_cons_of_ne_nil h', List.intercalate_singleton,
        List.append_assoc]
    | cons l' ls =>
      rw [List.cons_append, List.intercalate_cons_of_ne_nil (by simp), ih (List.cons_ne_nil _ _),
        List.intercalate_cons_of_ne_nil (List.cons_ne_nil l' ls)]
      simp only [List.append_assoc]

theorem splitCrLf_of_not_mem {s : List UInt8} (hs : chr '\n' ∉ s) : splitCrLf s = [s] := by
  induction s using splitCrLf.induct with
  | case1 => rfl
  | case2 ch => rfl
  | case3 ch ch' s h ih => exact absurd (h.2 ▸ by simp) hs
  | case4 ch ch' s h ih =>
    rw [splitCrLf, if_neg h, ih fun hmem => hs (List.mem_cons_of_mem _ hmem)]
    rfl

theorem eq_nil_of_splitCrLf {s : List UInt8} (h : splitCrLf s = [[]]) : s = [] := by
  rw [← intercalate_splitCrLf s, h]
  rfl

/-- The end-of-data sequence, with its line break before it, is nowhere but at the end. -/
def OnlyAtEnd (text : List UInt8) : Prop :=
  ∀ pre post, text = pre ++ GeneratorImpl.terminator ++ post → post = []

theorem terminator_eq : GeneratorImpl.terminator = crlf ++ ([chr '.'] ++ (crlf ++ [])) := by
  decide

theorem splitCrLf_terminator (pre post : List UInt8) :
    splitCrLf (pre ++ GeneratorImpl.terminator ++ post) =
      splitCrLf pre ++ [chr '.'] :: splitCrLf post := by
  have hdot : splitCrLf [chr '.'] = [[chr '.']] := rfl
  rw [terminator_eq, show pre ++ (crlf ++ ([chr '.'] ++ (crlf ++ []))) ++ post =
      pre ++ (crlf ++ ([chr '.'] ++ (crlf ++ post))) by simp, splitCrLf_crlf, splitCrLf_crlf, hdot]
  rfl

/-- A dot on a line of its own, and then the terminator: the data ends at the dot. -/
theorem exists_of_dot_mem_tail {text : List UInt8} (h : [chr '.'] ∈ (splitCrLf text).tail) :
    ∃ pre post, post ≠ [] ∧ text ++ GeneratorImpl.terminator =
      pre ++ GeneratorImpl.terminator ++ post := by
  obtain ⟨before, after, hlines⟩ := List.append_of_mem h
  obtain ⟨first, hfirst⟩ : ∃ first, splitCrLf text = first :: (splitCrLf text).tail := by
    cases hlines : splitCrLf text with
    | nil => exact absurd hlines (splitCrLf_ne_nil text)
    | cons first rest => exact ⟨first, rfl⟩
  have htext : text = crlf.intercalate (first :: before) ++
      (crlf ++ crlf.intercalate ([chr '.'] :: after)) := by
    rw [← intercalate_append (List.cons_ne_nil _ _) (List.cons_ne_nil _ _), List.cons_append,
      ← hlines, ← hfirst, intercalate_splitCrLf]
  cases hafter : after with
  | nil =>
    refine ⟨crlf.intercalate (first :: before), [chr '.'] ++ crlf, List.cons_ne_nil _ _, ?_⟩
    rw [htext, hafter, List.intercalate_singleton, terminator_eq]
    simp only [List.append_assoc, List.append_nil]
  | cons next rest =>
    refine ⟨crlf.intercalate (first :: before),
      crlf.intercalate (next :: rest) ++ GeneratorImpl.terminator, ?_, ?_⟩
    · exact List.append_ne_nil_of_right_ne_nil _ (List.cons_ne_nil _ _)
    · rw [htext, hafter, List.intercalate_cons_of_ne_nil (List.cons_ne_nil _ _), terminator_eq]
      simp only [List.append_assoc, List.append_nil]

theorem onlyAtEnd_iff (text : List UInt8) :
    OnlyAtEnd (text ++ GeneratorImpl.terminator) ↔ [chr '.'] ∉ (splitCrLf text).tail := by
  constructor
  · intro h hmem
    obtain ⟨pre, post, hpost, htext⟩ := exists_of_dot_mem_tail hmem
    exact hpost (h pre post htext)
  · intro h pre post htext
    have hlines := congrArg splitCrLf htext
    rw [splitCrLf_terminator, ← List.append_nil (text ++ GeneratorImpl.terminator),
      splitCrLf_terminator] at hlines
    -- The dot of the sequence is the terminator's own, or is in a line of `text`.
    rcases List.append_eq_append_iff.mp hlines with ⟨gap, hpre, hdot⟩ | ⟨gap, htext, hdot⟩
    · match gap, hdot with
      | [], hdot => exact eq_nil_of_splitCrLf (List.cons.inj hdot).2.symm
      | [_], hdot => exact absurd (List.cons.inj (List.cons.inj hdot).2).1 (by decide)
      | _ :: _ :: _, hdot => exact absurd (List.cons.inj (List.cons.inj hdot).2).2 (by simp)
    · match gap, hdot with
      | [], hdot => exact eq_nil_of_splitCrLf (List.cons.inj hdot).2
      | line :: gap, hdot =>
        have hline := (List.cons.inj hdot).1
        refine absurd ?_ h
        cases hfirst : splitCrLf pre with
        | nil => exact absurd hfirst (splitCrLf_ne_nil pre)
        | cons first rest =>
          rw [htext, hfirst, ← hline]
          simp

theorem Folded.tail_splitCrLf {s : List UInt8} (hs : Folded s) :
    ∀ line ∈ (splitCrLf s).tail, ∃ ws rest, line = ws :: rest ∧ (ws = chr ' ' ∨ ws = chr '\t') := by
  induction hs with
  | nil => simp [splitCrLf]
  | @char ch s hcr _ _ ih =>
    rw [splitCrLf_cons hcr, List.tail_modifyHead]
    exact ih
  | @fold ws s hws _ ih =>
    have hne : ws ≠ chr '\r' := by
      rcases hws with rfl | rfl <;> decide
    have hcut : splitCrLf (chr '\r' :: chr '\n' :: ws :: s) = [] :: splitCrLf (ws :: s) :=
      if_pos ⟨rfl, rfl⟩
    rw [hcut, List.tail_cons, splitCrLf_cons hne]
    cases hlines : splitCrLf s with
    | nil => exact absurd hlines (splitCrLf_ne_nil s)
    | cons first rest =>
      rw [hlines] at ih
      intro line hline
      rcases List.mem_cons.mp hline with rfl | hline
      · exact ⟨ws, first, rfl, hws⟩
      · exact ih line hline

theorem encodeMimeheader_name {L : Locale} {charset key val : List UInt8}
    {params : List (List UInt8 × List UInt8)} {out : List UInt8}
    (h : encodeMimeheader L charset key val params = some out) :
    isName key ∧ ∃ rest, out = key ++ rest := by
  simp only [encodeMimeheader, Option.bind_eq_bind, Option.bind_eq_some_iff,
    Option.some.injEq] at h
  obtain ⟨⟨cnt, field⟩, hfield, rest, -, rfl⟩ := h
  unfold encodeField at hfield
  split_ifs at hfield with hkey
  refine ⟨hkey, ?_⟩
  dsimp only at hfield
  split at hfield
  next =>
    obtain ⟨-, rfl⟩ := Prod.mk.inj (Option.some.inj hfield)
    exact ⟨octets ": " ++ rest, by simp only [List.append_assoc]⟩
  next front text =>
    split_ifs at hfield
    · obtain ⟨-, rfl⟩ := Prod.mk.inj (Option.some.inj hfield)
      exact ⟨octets ": " ++ (plainEncode (key.length + 2) (front :: text)).2 ++ rest,
        by simp only [List.append_assoc]⟩
    · obtain ⟨out, -, heq⟩ := Option.map_eq_some_iff.mp hfield
      obtain ⟨-, rfl⟩ := Prod.mk.inj heq
      exact ⟨octets ": " ++ out ++ rest, by simp only [List.append_assoc]⟩

theorem front_of_isName {key : List UInt8} (h : isName key) :
    ∃ front rest, key = front :: rest ∧ front ≠ chr '.' ∧ front ≠ chr '\r' := by
  cases key with
  | nil => exact absurd h (by decide)
  | cons front rest =>
    refine ⟨front, rest, rfl, ?_⟩
    have hfront : isalnum front ∨ front = chr '-' := by
      simp only [isName, List.all_cons, Bool.and_eq_true, Bool.or_eq_true, decide_eq_true_eq] at h
      exact h.2.1
    exact octet_forall (P := fun ch => isalnum ch ∨ ch = chr '-' → ch ≠ chr '.' ∧ ch ≠ chr '\r')
      (by decide +kernel) front hfront

theorem dot_notMem_encodeMimeheader {L : Locale} {key val : List UInt8}
    {params : List (List UInt8 × List UInt8)} {out : List UInt8}
    (h : encodeMimeheader L (octets "UTF-8") key val params = some out) :
    [chr '.'] ∉ splitCrLf out := by
  obtain ⟨hkey, rest, hout⟩ := encodeMimeheader_name h
  obtain ⟨front, key, rfl, hdot, hcr⟩ := front_of_isName hkey
  have htail := (folded_encodeMimeheader (clean_octets "UTF-8") h).tail_splitCrLf
  rw [hout, List.cons_append, splitCrLf_cons hcr] at htail ⊢
  cases hlines : splitCrLf (key ++ rest) with
  | nil => exact absurd hlines (splitCrLf_ne_nil _)
  | cons first lines =>
    rw [hlines] at htail
    intro hmem
    rcases List.mem_cons.mp hmem with hfirst | hmem
    · exact hdot (List.cons.inj hfirst).1.symm
    · obtain ⟨ws, rest, hline, hws⟩ := htail _ hmem
      have hws' : chr '.' = ws := (List.cons.inj hline).1
      rcases hws with rfl | rfl
      · exact absurd hws' (by decide)
      · exact absurd hws' (by decide)

theorem dot_mem_header {out : List UInt8} (hout : [chr '.'] ∉ splitCrLf out) (text : List UInt8) :
    ([chr '.'] ∈ splitCrLf (out ++ (crlf ++ text)) ↔ [chr '.'] ∈ splitCrLf text) ∧
      ([chr '.'] ∈ (splitCrLf (out ++ (crlf ++ text))).tail ↔ [chr '.'] ∈ splitCrLf text) := by
  have htail : [chr '.'] ∉ (splitCrLf out).tail := fun h => hout (List.mem_of_mem_tail h)
  rw [splitCrLf_crlf, List.tail_append_of_ne_nil (splitCrLf_ne_nil out)]
  simp [hout, htail]

theorem dot_mem_headerText {L : Locale} {headers : Headers} {head : List UInt8}
    (h : headerText L headers = some head) (text : List UInt8) :
    ([chr '.'] ∈ splitCrLf (head ++ (crlf ++ text)) ↔ [chr '.'] ∈ splitCrLf text) ∧
      ([chr '.'] ∈ (splitCrLf (head ++ (crlf ++ text))).tail ↔ [chr '.'] ∈ splitCrLf text) := by
  induction headers generalizing head with
  | nil =>
    obtain rfl := Option.some.inj h
    exact dot_mem_header (by decide) text
  | cons elem headers ih =>
    obtain ⟨name, disp⟩ := elem
    rw [headerText] at h
    obtain ⟨out, hout, hrest⟩ := Option.bind_eq_some_iff.mp h
    obtain ⟨head, hhead, rfl⟩ := Option.map_eq_some_iff.mp hrest
    have hline := dot_mem_header (dot_notMem_encodeMimeheader hout) (head ++ (crlf ++ text))
    rw [(ih hhead).1] at hline
    simpa only [List.append_assoc] using hline

/-- No line of the payload is a dot. The lines of a text are written without their ends. -/
def Message.Dotless (L : Locale) (fresh : Message → Nat → UInt8) (email : Message) : Prop :=
  if (getEncodingParams email.headers).textMode then
    (GeneratorImpl.inputOf L fresh email).lines.flatten ≠ [chr '.']
  else [chr '.'] ∉ splitCrLf email.payload

section Dotless

variable {L : Locale} {fresh : Message → Nat → UInt8} {email : Message}

theorem dotless_iff : email.Dotless L fresh ↔
    [chr '.'] ∉ splitCrLf ((GeneratorImpl.inputOf L fresh email).written
      (getEncodingParams email.headers).textMode) := by
  unfold Message.Dotless FilteringIstream.written
  split_ifs with htext
  · have hlines : chr '\n' ∉ (GeneratorImpl.inputOf L fresh email).lines.flatten := by
      intro hmem
      obtain ⟨line, hline, hln⟩ := List.mem_flatten.mp hmem
      exact FilteringIstream.not_mem_lines hline hln
    rw [splitCrLf_of_not_mem hlines, List.mem_singleton, eq_comm]
  · have hinput : (GeneratorImpl.inputOf L fresh email).text = email.payload := by
      rw [GeneratorImpl.inputOf, if_neg htext]
    rw [hinput]

theorem onlyAtEnd_generated_iff (hsingle : email.subparts = []) {text : List UInt8}
    (htext : email.generated L fresh = some text) :
    OnlyAtEnd text ↔ email.Dotless L fresh := by
  rw [generated_eq, hsingle, subpartsText] at htext
  obtain ⟨own, hown, hrest⟩ := Option.bind_eq_some_iff.mp htext
  obtain rfl := Option.some.inj hrest
  obtain ⟨head, hhead, rfl⟩ := Option.map_eq_some_iff.mp hown
  rw [onlyAtEnd_iff, List.append_assoc, (dot_mem_headerText hhead _).2, dotless_iff]

end Dotless

end Email

end Acqua
