import Acqua.Email.GeneratorText

/-! The text of a message with subparts, and what is written of it. -/

namespace Acqua

namespace Email

def lineEnds : List (List UInt8) := [[chr '\n'], crlf]

/-- `text` is `line` on a line of its own, where `before` comes before it. -/
def LineAfter (before line text : List UInt8) : Prop :=
  ∃ gap eol, (gap = [] ∧ [chr '\n'] <:+ before ∨ gap ∈ lineEnds) ∧ eol ∈ lineEnds ∧
    text = gap ++ line ++ eol

def delimiter (boundary : List UInt8) : List UInt8 := octets "--" ++ boundary

def closeDelimiter (boundary : List UInt8) : List UInt8 := octets "--" ++ boundary ++ octets "--"

section Parts

variable (L : Locale) (fresh : Message → Nat → UInt8)

/-- The text of a message as a part: its own text, and each subpart after a delimiter line up to
the closing line. -/
def Message.IsPart : Message → List UInt8 → Prop
  | ⟨headers, payload, subparts⟩, text =>
    ∃ own, Message.ownText L fresh ⟨headers, payload, subparts⟩ = some own ∧
      (subparts = [] ∧ text = own ∨
        subparts ≠ [] ∧ ∃ boundary rest, (getEncodingParams headers).boundary = some boundary ∧
          areParts boundary own subparts rest ∧ text = own ++ rest)
where
  areParts (boundary : List UInt8) : List UInt8 → List Message → List UInt8 → Prop
    | before, [], text => LineAfter before (closeDelimiter boundary) text
    | before, email :: it, text =>
      ∃ opening part rest, LineAfter before (delimiter boundary) opening ∧ email.IsPart part ∧
        areParts boundary part it rest ∧ text = opening ++ part ++ rest

/-- The whole text: a part, and the line that ends the mail. -/
def Message.Delimited (email : Message) (text : List UInt8) : Prop :=
  ∃ part rest, email.IsPart L fresh part ∧ LineAfter part (octets ".") rest ∧ text = part ++ rest

/-- Each node with subparts has a boundary. -/
def Message.HasBoundaries : Message → Prop
  | ⟨headers, _, subparts⟩ =>
    (subparts ≠ [] → (getEncodingParams headers).boundary.isSome) ∧ haveBoundaries subparts
where
  haveBoundaries : List Message → Prop
    | [] => True
    | email :: it => email.HasBoundaries ∧ haveBoundaries it

end Parts

section Suffixes

variable {L : Locale} {fresh : Message → Nat → UInt8}

theorem suffix_of_lineAfter {before line text : List UInt8} (h : LineAfter before line text) :
    ∃ eol ∈ lineEnds, line ++ eol <:+ text := by
  obtain ⟨gap, eol, -, heol, rfl⟩ := h
  exact ⟨eol, heol, gap, (List.append_assoc gap line eol).symm⟩

theorem suffix_of_areParts {boundary : List UInt8} {it : List Message} {before text : List UInt8}
    (h : Message.IsPart.areParts L fresh boundary before it text) :
    ∃ eol ∈ lineEnds, octets "--" ++ eol <:+ text := by
  induction it generalizing before text with
  | nil =>
    rw [Message.IsPart.areParts] at h
    obtain ⟨eol, heol, hsuffix⟩ := suffix_of_lineAfter h
    refine ⟨eol, heol, List.IsSuffix.trans ?_ hsuffix⟩
    rw [closeDelimiter, List.append_assoc (octets "--" ++ boundary)]
    exact List.suffix_append _ _
  | cons email it ih =>
    rw [Message.IsPart.areParts] at h
    obtain ⟨opening, part, rest, -, -, hrest, rfl⟩ := h
    obtain ⟨eol, heol, hsuffix⟩ := ih hrest
    exact ⟨eol, heol, hsuffix.trans (List.suffix_append _ rest)⟩

theorem suffix_of_delimited {email : Message} (hsubparts : email.subparts ≠ [])
    {text : List UInt8} (h : email.Delimited L fresh text) :
    ∃ eol ∈ lineEnds, ∃ gap ∈ [] :: lineEnds, ∃ eol' ∈ lineEnds,
      octets "--" ++ eol ++ gap ++ octets "." ++ eol' <:+ text := by
  obtain ⟨part, rest, hpart, hrest, rfl⟩ := h
  obtain ⟨headers, payload, subparts⟩ := email
  rw [Message.IsPart] at hpart
  obtain ⟨own, -, ⟨hnil, -⟩ | ⟨-, boundary, parts, -, hparts, rfl⟩⟩ := hpart
  · exact absurd hnil hsubparts
  · obtain ⟨eol, heol, closed, hclosed⟩ := suffix_of_areParts hparts
    obtain ⟨gap, eol', hgap, heol', rfl⟩ := hrest
    refine ⟨eol, heol, gap, ?_, eol', heol', own ++ closed, ?_⟩
    · rcases hgap with ⟨rfl, -⟩ | hgap
      · exact List.mem_cons_self
      · exact List.mem_cons_of_mem _ hgap
    · rw [← hclosed]
      simp only [List.append_assoc]

theorem suffix_of_generated {email : Message} {text : List UInt8}
    (h : email.generated L fresh = some text) : GeneratorImpl.terminator <:+ text :=
  (GeneratorImpl.bursts_endsWith L fresh).suffix rfl (show (GeneratorImpl.init email).TopLevel
    from rfl) h

theorem suffix_of_subpartsText {boundary : List UInt8} {it : List Message} {text : List UInt8}
    (hit : it ≠ []) (h : subpartsText L fresh (some boundary) it = some text) :
    GeneratorImpl.terminator ++ GeneratorImpl.terminator <:+ text := by
  induction it generalizing text with
  | nil => exact absurd rfl hit
  | cons email it ih =>
    simp only [subpartsText, Option.bind_eq_some_iff, Option.map_eq_some_iff] at h
    obtain ⟨part, hpart, rest, hrest, rfl⟩ := h
    by_cases hnil : it = []
    · rw [subpartsText_of_end (Or.inr hnil)] at hrest
      obtain rfl := Option.some.inj hrest
      obtain ⟨front, rfl⟩ := suffix_of_generated hpart
      refine ⟨openDelimiter boundary ++ front, ?_⟩
      simp only [List.append_assoc]
    · exact (ih hnil hrest).trans (List.suffix_append _ rest)

theorem suffix_of_generated_parts {email : Message} {boundary : List UInt8}
    (hboundary : (getEncodingParams email.headers).boundary = some boundary)
    (hsubparts : email.subparts ≠ []) {text : List UInt8}
    (h : email.generated L fresh = some text) :
    GeneratorImpl.terminator ++ GeneratorImpl.terminator <:+ text := by
  rw [generated_eq, hboundary] at h
  obtain ⟨own, -, hown⟩ := Option.bind_eq_some_iff.mp h
  obtain ⟨rest, hrest, rfl⟩ := Option.map_eq_some_iff.mp hown
  exact (suffix_of_subpartsText hsubparts hrest).trans (List.suffix_append own rest)

/-- Two terminators do not end in a closing line and the line that ends the mail. -/
theorem not_suffix_terminators : ∀ eol ∈ lineEnds, ∀ gap ∈ [] :: lineEnds, ∀ eol' ∈ lineEnds,
    ¬ octets "--" ++ eol ++ gap ++ octets "." ++ eol' <:+
      GeneratorImpl.terminator ++ GeneratorImpl.terminator := by
  decide

theorem length_le_terminators : ∀ eol ∈ lineEnds, ∀ gap ∈ [] :: lineEnds, ∀ eol' ∈ lineEnds,
    (octets "--" ++ eol ++ gap ++ octets "." ++ eol').length ≤
      (GeneratorImpl.terminator ++ GeneratorImpl.terminator).length := by
  decide

theorem not_delimited {email : Message} {boundary : List UInt8}
    (hboundary : (getEncodingParams email.headers).boundary = some boundary)
    (hsubparts : email.subparts ≠ []) {text : List UInt8}
    (htext : email.generated L fresh = some text) : ¬ email.Delimited L fresh text := by
  intro h
  have hwritten := suffix_of_generated_parts hboundary hsubparts htext
  obtain ⟨eol, heol, gap, hgap, eol', heol', hright⟩ := suffix_of_delimited hsubparts h
  have hle := length_le_terminators eol heol gap hgap eol' heol'
  exact not_suffix_terminators eol heol gap hgap eol' heol'
    (List.suffix_of_suffix_length_le hright hwritten hle)

end Suffixes

/-- The closing lines are never written, so the text is right only where there is none. -/
theorem delimited_iff (L : Locale) (fresh : Message → Nat → UInt8) (email : Message)
    (hboundaries : email.HasBoundaries) {text : List UInt8}
    (htext : email.generated L fresh = some text) :
    email.Delimited L fresh text ↔ email.subparts = [] := by
  constructor
  · intro h
    by_contra hsubparts
    obtain ⟨boundary, hboundary⟩ : ∃ boundary,
        (getEncodingParams email.headers).boundary = some boundary := by
      obtain ⟨headers, payload, subparts⟩ := email
      rw [Message.HasBoundaries] at hboundaries
      exact Option.isSome_iff_exists.mp (hboundaries.1 hsubparts)
    exact not_delimited hboundary hsubparts htext h
  · intro hsubparts
    rw [generated_eq, hsubparts, subpartsText] at htext
    obtain ⟨own, hown, hrest⟩ := Option.bind_eq_some_iff.mp htext
    obtain rfl := Option.some.inj hrest
    refine ⟨own, GeneratorImpl.terminator, ?_, ?_, rfl⟩
    · obtain ⟨headers, payload, subparts⟩ := email
      rw [Message.IsPart]
      exact ⟨own, hown, Or.inl ⟨hsubparts, rfl⟩⟩
    · exact ⟨crlf, crlf, Or.inr (by simp [lineEnds]), by simp [lineEnds], rfl⟩

/-- A message with one empty part. -/
def onePart : Message :=
  ⟨[(octets "Content-Type", ⟨octets "multipart/mixed", [(octets "boundary", octets "b")]⟩)], [],
    [⟨[], [], []⟩]⟩

def onePartText : List UInt8 :=
  octets "Content-Type: multipart/mixed; boundary=\"b\"\r\n\r\n" ++
    octets "--b\n\n\r\n\r\n.\r\n\r\n.\r\n"

theorem hasBoundaries_onePart : onePart.HasBoundaries := by
  simp only [onePart, Message.HasBoundaries, Message.HasBoundaries.haveBoundaries]
  exact ⟨fun _ => by decide, ⟨fun h => absurd rfl h, trivial⟩, trivial⟩

theorem generated_onePart : onePart.generated utf8Locale (fun _ _ => 0) = some onePartText := by
  have hown : onePart.ownText utf8Locale (fun _ _ => 0) =
      some (octets "Content-Type: multipart/mixed; boundary=\"b\"\r\n\r\n") := by
    decide
  have hboundary : (getEncodingParams onePart.headers).boundary = some (octets "b") := by
    decide
  rw [generated_eq, hown, hboundary]
  simp only [onePart, subpartsText, generated_empty, Option.bind_some, Option.map_some]
  decide

theorem delimited_iff_of_one_part :
    onePart.Delimited utf8Locale (fun _ _ => 0) onePartText ↔ onePart.subparts = [] :=
  delimited_iff utf8Locale (fun _ _ => 0) onePart hasBoundaries_onePart generated_onePart

/-- There are two lines that end the mail, and none that closes the part. -/
theorem not_delimited_of_one_part :
    onePart.HasBoundaries ∧ onePart.generated utf8Locale (fun _ _ => 0) = some onePartText ∧
      ¬ onePart.Delimited utf8Locale (fun _ _ => 0) onePartText := by
  have hboundary : (getEncodingParams onePart.headers).boundary = some (octets "b") := by
    decide
  exact ⟨hasBoundaries_onePart, generated_onePart,
    not_delimited hboundary (List.cons_ne_nil _ _) generated_onePart⟩

end Email

end Acqua
