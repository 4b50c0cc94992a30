import Acqua.Email.GeneratorRead

/-! The text of an email piece by piece: the header lines, the payload, and the subparts. -/

namespace Acqua

namespace FilteringIstream

/-- The lines up to the one that `getline` fails for. -/
def lines (s : FilteringIstream) : List (List UInt8) :=
  if hgood : s.good then
    match hline : s.getline with
    | (none, _) => []
    | (some line, s') =>
      have : s'.work < s.work := by
        have hlt := work_getline_lt hgood
        rwa [hline] at hlt
      line :: lines s'
  else []
termination_by s.work

/-- What is written of a payload. -/
def written (s : FilteringIstream) (textMode : Bool) : List UInt8 :=
  if textMode then s.lines.flatten else s.text

variable {s s' : FilteringIstream}

theorem lines_of_some (hgood : s.good) {line : List UInt8} (h : s.getline = (some line, s')) :
    s.lines = line :: s'.lines := by
  rw [lines, dif_pos hgood]
  split
  next heq => exact absurd (h.symm.trans heq) (by simp)
  next heq =>
    obtain ⟨hline, rfl⟩ := Prod.mk.inj (h.symm.trans heq)
    rw [Option.some.inj hline]

theorem lines_of_none (h : s.getline = (none, s')) : s.lines = [] := by
  rw [lines]
  split_ifs with hgood
  · split
    next => rfl
    next heq => exact absurd (h.symm.trans heq) (by simp)
  · rfl

theorem lines_of_not_good (hgood : ¬ s.good) : s.lines = [] := by
  rw [lines, dif_neg hgood]

theorem getline_eq_some {line : List UInt8} (h : s.getline = (some line, s')) :
    chr '\n' ∉ line := by
  unfold getline at h
  split at h
  next => cases h
  next first rest hfirst =>
    have hline : first = line := by
      split_ifs at h <;> cases h <;> rfl
    unfold Acqua.getline at hfirst
    split_ifs at hfirst
    obtain ⟨hfirst, -⟩ := Prod.mk.inj (Option.some.inj hfirst)
    rw [← hline, ← hfirst]
    intro hmem
    simpa using List.mem_takeWhile_imp hmem

theorem getline_eq_none (h : s.getline = (none, s')) : ¬ s'.good := by
  unfold getline at h
  split at h
  next =>
    cases h
    exact Bool.false_ne_true
  next =>
    split_ifs at h <;> cases h
    exact Bool.false_ne_true

/-- A stream that is read in pieces: the octets of a piece and of the rest, and no octet that is
not good. -/
theorem read_spec {size : Nat} (hsize : 0 < size) (s : FilteringIstream) :
    (s.read size).1 ++ (s.read size).2.text = s.text ∧
      ((s.read size).1 = [] → s.text = [] ∧ ¬ (s.read size).2.good) ∧
      (¬ (s.read size).2.good → (s.read size).2.text = []) := by
  refine ⟨List.take_append_drop size s.text, ?_, ?_⟩
  · intro hnil
    rcases List.take_eq_nil_iff.mp hnil with hzero | htext
    · omega
    · simp only [read, htext, List.length_nil, decide_eq_true_eq]
      exact ⟨trivial, by omega⟩
  · intro hgood
    simp only [read, decide_eq_true_eq] at hgood
    exact List.drop_of_length_le (by omega)

theorem not_mem_lines {line : List UInt8} (hmem : line ∈ s.lines) : chr '\n' ∉ line := by
  induction hn : s.work using Nat.strong_induction_on generalizing s with
  | _ n ih =>
    subst hn
    by_cases hgood : s.good
    · have hlt := work_getline_lt hgood
      rcases hline : s.getline with ⟨_ | first, s'⟩
      · simp [lines_of_none hline] at hmem
      · rw [hline] at hlt
        rw [lines_of_some hgood hline, List.mem_cons] at hmem
        rcases hmem with rfl | hmem
        · exact getline_eq_some hline
        · exact ih _ hlt hmem rfl
    · simp [lines_of_not_good hgood] at hmem

end FilteringIstream

namespace Email

section Text

variable (L : Locale) (fresh : Message → Nat → UInt8)

/-- The header lines. -/
def headerText (L : Locale) : Headers → Option (List UInt8)
  | [] => some []
  | (name, disp) :: it =>
    (encodeMimeheader L (octets "UTF-8") name disp.str disp.params).bind fun out =>
      (headerText L it).map (out ++ crlf ++ ·)

/-- A subpart with what is written before it. -/
def openDelimiter (boundary : List UInt8) : List UInt8 := octets "--" ++ boundary ++ octets "\n\n"

/-- What is written after the payload: nothing of the subparts when there is no boundary. -/
def subpartsText (childBoundary : Option (List UInt8)) : List Message → Option (List UInt8)
  | [] => some GeneratorImpl.terminator
  | email :: it =>
    match childBoundary with
    | none => some GeneratorImpl.terminator
    | some boundary =>
      (email.generated L fresh).bind fun part =>
        (subpartsText childBoundary it).map (openDelimiter boundary ++ part ++ ·)

/-- The header, the blank line and the payload. -/
def Message.ownText (email : Message) : Option (List UInt8) :=
  (headerText L email.headers).map fun head =>
    head ++ crlf ++ (GeneratorImpl.inputOf L fresh email).written
      (getEncodingParams email.headers).textMode

end Text

section Emitted

variable {L : Locale} {fresh : Message → Nat → UInt8}

theorem emitted_complete : (GeneratorImpl.bursts L fresh).emitted .complete = some [] :=
  BurstGenerator.emitted_of_complete Bool.false_ne_true

theorem complete_of_not_inProgress {g : GeneratorImpl} (h : ¬ g.inProgress) : g = .complete := by
  cases g with
  | header email it boundary => exact absurd rfl h
  | payload childBoundary parentBoundary input it textMode subpart => exact absurd rfl h
  | complete => rfl

variable {childBoundary parentBoundary : Option (List UInt8)} {input : FilteringIstream}
  {it : List Message} {textMode : Bool}

theorem generate_payload_of_subpart {g : GeneratorImpl} (hg : g.inProgress) :
    (GeneratorImpl.payload childBoundary parentBoundary input it textMode g).generate L fresh =
      (g.generate L fresh).map fun r =>
        (r.1, .payload childBoundary parentBoundary input it textMode r.2) := by
  rw [GeneratorImpl.generate, if_pos hg]

theorem not_inProgress_complete : ¬ GeneratorImpl.complete.inProgress := Bool.false_ne_true

theorem generate_of_ended (hgood : ¬ input.good) :
    (GeneratorImpl.payload childBoundary parentBoundary input it textMode
        .complete).generate L fresh =
      some (GeneratorImpl.afterInput childBoundary parentBoundary input it textMode) := by
  rw [GeneratorImpl.generate, if_neg not_inProgress_complete, if_neg hgood]

variable (childBoundary parentBoundary it fresh L) in
theorem generate_of_getline (hgood : input.good) :
    (GeneratorImpl.payload childBoundary parentBoundary input it true .complete).generate L fresh =
      some (match input.getline.1 with
        | some line =>
          (line, .payload childBoundary parentBoundary input.getline.2 it true .complete)
        | none =>
          GeneratorImpl.afterInput childBoundary parentBoundary input.getline.2 it true) := by
  rw [GeneratorImpl.generate, if_neg not_inProgress_complete, if_pos hgood, if_pos rfl]
  rcases input.getline with ⟨_ | line, input'⟩ <;> rfl

variable (childBoundary parentBoundary it fresh L) in
theorem generate_of_read (hgood : input.good) :
    (GeneratorImpl.payload childBoundary parentBoundary input it false .complete).generate L fresh =
      some (if (input.read 4096).1 = [] then
          GeneratorImpl.afterInput childBoundary parentBoundary (input.read 4096).2 it false
        else ((input.read 4096).1,
          .payload childBoundary parentBoundary (input.read 4096).2 it false .complete)) := by
  rw [GeneratorImpl.generate, if_neg not_inProgress_complete, if_pos hgood,
    if_neg Bool.false_ne_true]
  rcases input.read 4096 with ⟨_ | ⟨ch, buf⟩, input'⟩
  · rw [if_pos rfl]
  · rw [if_neg (List.cons_ne_nil _ _)]

theorem emitted_subpart (g : GeneratorImpl) :
    (GeneratorImpl.bursts L fresh).emitted
        (.payload childBoundary parentBoundary input it textMode g) =
      ((GeneratorImpl.bursts L fresh).emitted g).bind fun part =>
        ((GeneratorImpl.bursts L fresh).emitted
          (.payload childBoundary parentBoundary input it textMode .complete)).map
            (part ++ ·) := by
  induction hn : g.work L fresh using Nat.strong_induction_on generalizing g with
  | _ n ih =>
    subst hn
    by_cases hg : (GeneratorImpl.bursts L fresh).inProgress g
    · have hpayload : (GeneratorImpl.bursts L fresh).generate
          (.payload childBoundary parentBoundary input it textMode g) = _ :=
        generate_payload_of_subpart hg
      cases hburst : (GeneratorImpl.bursts L fresh).generate g with
      | none =>
        rw [show g.generate L fresh = none from hburst] at hpayload
        rw [BurstGenerator.emitted_of_stuck hg hburst,
          BurstGenerator.emitted_of_stuck rfl hpayload, Option.bind_none]
      | some r =>
        rw [show g.generate L fresh = some r from hburst] at hpayload
        have hrest := ih _ (GeneratorImpl.work_generate_lt hburst) r.2 rfl
        rw [BurstGenerator.emitted_of_burst hg hburst, BurstGenerator.emitted_of_burst rfl hpayload,
          hrest, Option.map_bind, Option.bind_map]
        refine Option.bind_congr fun part _ => ?_
        simp only [Function.comp_apply, Option.map_map]
        congr 1
        funext text
        simp only [Function.comp_apply, List.append_assoc]
    · obtain rfl := complete_of_not_inProgress hg
      simp only [emitted_complete, Option.bind_some, List.nil_append, Option.map_id']

theorem afterInput_of_end (h : childBoundary = none ∨ it = []) :
    GeneratorImpl.afterInput childBoundary none input it textMode =
      (GeneratorImpl.terminator, .complete) := by
  unfold GeneratorImpl.afterInput
  split
  next => rcases h with h | h <;> cases h
  next => rfl

theorem subpartsText_of_end (h : childBoundary = none ∨ it = []) :
    subpartsText L fresh childBoundary it = some GeneratorImpl.terminator := by
  unfold subpartsText
  split
  next => rfl
  next =>
    split
    next => rfl
    next => rcases h with h | h <;> cases h

theorem emitted_afterInput (hgood : ¬ input.good) {g : GeneratorImpl} (hg : g.inProgress)
    (h : g.generate L fresh =
      some (GeneratorImpl.afterInput childBoundary none input it textMode)) :
    (GeneratorImpl.bursts L fresh).emitted g = subpartsText L fresh childBoundary it := by
  induction it generalizing g with
  | nil =>
    rw [afterInput_of_end (Or.inr rfl)] at h
    rw [BurstGenerator.emitted_of_burst hg h, emitted_complete, subpartsText_of_end (Or.inr rfl),
      Option.map_some, List.append_nil]
  | cons email it ih =>
    cases childBoundary with
    | none =>
      rw [afterInput_of_end (Or.inl rfl)] at h
      rw [BurstGenerator.emitted_of_burst hg h, emitted_complete,
        subpartsText_of_end (Or.inl rfl), Option.map_some, List.append_nil]
    | some boundary =>
      have hrest := ih (g := .payload (some boundary) none input it textMode .complete) rfl
        (generate_of_ended hgood)
      rw [BurstGenerator.emitted_of_burst hg h, emitted_subpart, hrest, subpartsText,
        Option.map_bind]
      refine Option.bind_congr fun part _ => ?_
      simp only [Function.comp_apply, Option.map_map]
      congr 1
      funext text
      simp only [Function.comp_apply, List.append_assoc, openDelimiter]

theorem emitted_lines (hgood : input.good) :
    (GeneratorImpl.bursts L fresh).emitted
        (.payload childBoundary none input it true .complete) =
      (subpartsText L fresh childBoundary it).map (input.lines.flatten ++ ·) := by
  induction hn : input.work using Nat.strong_induction_on generalizing input with
  | _ n ih =>
    subst hn
    have hgenerate := generate_of_getline L fresh childBoundary none it hgood
    have hlt := FilteringIstream.work_getline_lt hgood
    rcases hline : input.getline with ⟨_ | line, input'⟩
    · rw [hline] at hgenerate
      rw [FilteringIstream.lines_of_none hline,
        emitted_afterInput (FilteringIstream.getline_eq_none hline) rfl hgenerate]
      simp only [List.flatten_nil, List.nil_append, Option.map_id']
    · rw [hline] at hgenerate hlt
      rw [FilteringIstream.lines_of_some hgood hline,
        BurstGenerator.emitted_of_burst rfl hgenerate]
      by_cases hgood' : input'.good
      · rw [ih _ hlt hgood' rfl]
        simp only [Option.map_map, List.flatten_cons, List.append_assoc]
        rfl
      · rw [emitted_afterInput hgood' rfl (generate_of_ended hgood'),
          FilteringIstream.lines_of_not_good hgood']
        simp only [List.flatten_cons, List.flatten_nil, List.append_nil]

theorem emitted_pieces (hgood : input.good) :
    (GeneratorImpl.bursts L fresh).emitted
        (.payload childBoundary none input it false .complete) =
      (subpartsText L fresh childBoundary it).map (input.text ++ ·) := by
  induction hn : input.work using Nat.strong_induction_on generalizing input with
  | _ n ih =>
    subst hn
    have hgenerate := generate_of_read L fresh childBoundary none it hgood
    obtain ⟨happend, hempty, hend⟩ := input.read_spec (show 0 < 4096 by decide)
    have hlt := FilteringIstream.work_read_lt (show 0 < 4096 by decide) hgood
    by_cases hnil : (input.read 4096).1 = []
    · obtain ⟨htext, hgood'⟩ := hempty hnil
      rw [if_pos hnil] at hgenerate
      rw [htext, emitted_afterInput hgood' rfl hgenerate]
      simp only [List.nil_append, Option.map_id']
    · rw [if_neg hnil] at hgenerate
      rw [BurstGenerator.emitted_of_burst rfl hgenerate, ← happend]
      by_cases hgood' : (input.read 4096).2.good
      · rw [ih _ hlt hgood' rfl]
        simp only [Option.map_map, List.append_assoc]
        rfl
      · rw [emitted_afterInput hgood' rfl (generate_of_ended hgood'), hend hgood',
          List.append_nil]

theorem emitted_payload (hgood : input.good) :
    (GeneratorImpl.bursts L fresh).emitted
        (.payload childBoundary none input it textMode .complete) =
      (subpartsText L fresh childBoundary it).map (input.written textMode ++ ·) := by
  cases textMode with
  | true => exact emitted_lines hgood
  | false => exact emitted_pieces hgood

theorem emitted_header (email : Message) (it : Headers) :
    (GeneratorImpl.bursts L fresh).emitted (.header email it none) =
      (headerText L it).bind fun head =>
        ((GeneratorImpl.bursts L fresh).emitted
          (GeneratorImpl.toPayload L fresh email none)).map (head ++ crlf ++ ·) := by
  induction it with
  | nil =>
    have hgenerate : (GeneratorImpl.bursts L fresh).generate (.header email [] none) =
        some (crlf, GeneratorImpl.toPayload L fresh email none) := rfl
    rw [BurstGenerator.emitted_of_burst rfl hgenerate]
    rfl
  | cons elem it ih =>
    obtain ⟨name, disp⟩ := elem
    have hgenerate : (GeneratorImpl.bursts L fresh).generate
        (.header email ((name, disp) :: it) none) = Option.map _ _ := rfl
    rw [headerText]
    cases hout : encodeMimeheader L (octets "UTF-8") name disp.str disp.params with
    | none =>
      rw [hout] at hgenerate
      rw [BurstGenerator.emitted_of_stuck rfl hgenerate, Option.bind_none, Option.bind_none]
    | some out =>
      rw [hout] at hgenerate
      rw [BurstGenerator.emitted_of_burst rfl hgenerate, ih, Option.bind_some, Option.map_bind,
        Option.bind_map]
      refine Option.bind_congr fun head _ => ?_
      simp only [Function.comp_apply, Option.map_map]
      congr 1
      funext text
      simp only [Function.comp_apply, List.append_assoc]

theorem generated_eq (email : Message) :
    email.generated L fresh = (email.ownText L fresh).bind fun own =>
      (subpartsText L fresh (getEncodingParams email.headers).boundary email.subparts).map
        (own ++ ·) := by
  have hgood : (GeneratorImpl.inputOf L fresh email).good := by
    unfold GeneratorImpl.inputOf
    dsimp only
    split_ifs <;> rfl
  rw [Message.generated, GeneratorImpl.init, emitted_header, GeneratorImpl.toPayload,
    emitted_payload hgood, Message.ownText, Option.bind_map]
  refine Option.bind_congr fun head _ => ?_
  simp only [Function.comp_apply, Option.map_map]
  congr 1
  funext text
  simp only [Function.comp_apply, List.append_assoc]

end Emitted

end Email

end Acqua
