import Acqua.Email.Message
import Acqua.Iostreams.IstreamCodecvt

/-! `email_generator.ipp` over `char`. There is nothing to return when a member throws. -/

namespace Acqua

namespace Email

/-- The two alternatives of the variant; `complete` is a generator that is not in progress, or
that is not there. -/
inductive GeneratorImpl
  | header (email : Message) (it : Headers) (boundary : Option (List UInt8))
  | payload (childBoundary parentBoundary : Option (List UInt8)) (input : FilteringIstream)
    (it : List Message) (textMode : Bool) (subpart : GeneratorImpl)
  | complete

namespace GeneratorImpl

def inProgress : GeneratorImpl → Bool
  | complete => false
  | _ => true

def init (email : Message) : GeneratorImpl := .header email email.headers none

-- `fresh` is what the memory of the buffer of a message holds before anything is read to it.
variable (L : Locale) (fresh : Message → Nat → UInt8)

/-- `in_` of a message: the octets as they are, or text in the charset. -/
def inputOf (email : Message) : FilteringIstream :=
  let params := getEncodingParams email.headers
  if params.textMode then
    let r := IstreamLocaleCodecvt.content (L.fromUtf params.charset) (fresh email)
      ⟨email.payload, []⟩
    ⟨r.1, r.2, true⟩
  else ⟨email.payload, false, true⟩

def toPayload (email : Message) (boundary : Option (List UInt8)) : GeneratorImpl :=
  let params := getEncodingParams email.headers
  .payload params.boundary boundary (inputOf L fresh email) email.subparts params.textMode .complete

/-- What `payload_generator` writes when `in_` is no longer good. -/
def afterInput (childBoundary parentBoundary : Option (List UInt8)) (input : FilteringIstream)
    (it : List Message) (textMode : Bool) : List UInt8 × GeneratorImpl :=
  match childBoundary, it with
  | some boundary, email :: it =>
    (octets "--" ++ boundary ++ octets "\n\n",
      .payload childBoundary parentBoundary input it textMode (init email))
  | _, _ =>
    (match parentBoundary with
      | some boundary => octets "--" ++ boundary ++ octets "--\r\n"
      | none => octets "\r\n.\r\n", .complete)

/-- `generate`. When a visit returns `false`, `in_` is not good in the next one. -/
def generate : GeneratorImpl → Option (List UInt8 × GeneratorImpl)
  | header email [] boundary => some (crlf, toPayload L fresh email boundary)
  | header email ((name, disp) :: it) boundary =>
    (encodeMimeheader L (octets "UTF-8") name disp.str disp.params).map fun out =>
      (out ++ crlf, .header email it boundary)
  | payload childBoundary parentBoundary input it textMode subpart =>
    if subpart.inProgress then
      subpart.generate.map fun r =>
        (r.1, .payload childBoundary parentBoundary input it textMode r.2)
    else if input.good then
      if textMode then
        match input.getline with
        | (some line, input) =>
          some (line, .payload childBoundary parentBoundary input it textMode subpart)
        | (none, input) =>
          some (afterInput childBoundary parentBoundary input it textMode)
      else
        match input.read 4096 with
        | ([], input) => some (afterInput childBoundary parentBoundary input it textMode)
        | (buf, input) =>
          some (buf, .payload childBoundary parentBoundary input it textMode subpart)
    else some (afterInput childBoundary parentBoundary input it textMode)
  | complete => none

end GeneratorImpl

/-- How often a message is asked for more at most. -/
def Message.work (L : Locale) (fresh : Message → Nat → UInt8) : Message → Nat
  | ⟨headers, payload, subparts⟩ =>
    headers.length + (GeneratorImpl.inputOf L fresh ⟨headers, payload, subparts⟩).work +
      works subparts + 2
where
  works : List Message → Nat
    | [] => 0
    | email :: rest => email.work L fresh + 1 + works rest

namespace GeneratorImpl

variable {L : Locale} {fresh : Message → Nat → UInt8}

def work (L : Locale) (fresh : Message → Nat → UInt8) : GeneratorImpl → Nat
  | header email it _ =>
    it.length + (inputOf L fresh email).work + Message.work.works L fresh email.subparts + 2
  | payload _ _ input it _ subpart =>
    input.work + Message.work.works L fresh it + subpart.work L fresh + 1
  | complete => 0

theorem work_init (email : Message) : (init email).work L fresh = email.work L fresh := by
  obtain ⟨headers, payload, subparts⟩ := email
  rfl

theorem work_toPayload (email : Message) (boundary : Option (List UInt8)) :
    (toPayload L fresh email boundary).work L fresh =
      (inputOf L fresh email).work + Message.work.works L fresh email.subparts + 1 := rfl

theorem work_afterInput_lt {childBoundary parentBoundary : Option (List UInt8)}
    {input : FilteringIstream} {it : List Message} {textMode : Bool} {burst : List UInt8}
    {g : GeneratorImpl}
    (h : afterInput childBoundary parentBoundary input it textMode = (burst, g)) :
    g.work L fresh < input.work + Message.work.works L fresh it + 1 := by
  unfold afterInput at h
  split at h
  next boundary email it =>
    obtain ⟨-, rfl⟩ := Prod.mk.inj h
    simp only [work, work_init, Message.work.works]
    omega
  next =>
    obtain ⟨-, rfl⟩ := Prod.mk.inj h
    simp only [work]
    omega

theorem work_generate_lt {g g' : GeneratorImpl} {burst : List UInt8}
    (h : g.generate L fresh = some (burst, g')) : g'.work L fresh < g.work L fresh := by
  induction g generalizing burst g' with
  | header email it boundary =>
    cases it with
    | nil =>
      obtain ⟨-, rfl⟩ := Prod.mk.inj (Option.some.inj h)
      simp only [work_toPayload, work, List.length_nil]
      omega
    | cons elem it =>
      obtain ⟨out, -, heq⟩ := Option.map_eq_some_iff.mp h
      obtain ⟨-, rfl⟩ := Prod.mk.inj heq
      simp only [work, List.length_cons]
      omega
  | payload childBoundary parentBoundary input it textMode subpart ih =>
    rw [generate] at h
    simp only [work]
    split_ifs at h with hsubpart hgood htext
    · obtain ⟨r, hr, heq⟩ := Option.map_eq_some_iff.mp h
      obtain ⟨-, rfl⟩ := Prod.mk.inj heq
      have hlt := ih hr
      simp only [work]
      omega
    · have hlt := FilteringIstream.work_getline_lt hgood
      split at h
      next line input' hline =>
        obtain ⟨-, rfl⟩ := Prod.mk.inj (Option.some.inj h)
        have hlt' : input'.work < input.work := by rwa [hline] at hlt
        simp only [work]
        omega
      next input' hline =>
        have hlt' : input'.work < input.work := by rwa [hline] at hlt
        have hafter : g'.work L fresh < input'.work + Message.work.works L fresh it + 1 :=
          work_afterInput_lt (Option.some.inj h)
        omega
    · have hlt := FilteringIstream.work_read_lt (show 0 < 4096 by decide) hgood
      split at h
      next input' hread =>
        have hlt' : input'.work < input.work := by rwa [hread] at hlt
        have hafter : g'.work L fresh < input'.work + Message.work.works L fresh it + 1 :=
          work_afterInput_lt (Option.some.inj h)
        omega
      next buf input' _ hread =>
        obtain ⟨-, rfl⟩ := Prod.mk.inj (Option.some.inj h)
        have hlt' : input'.work < input.work := by rwa [hread] at hlt
        simp only [work]
        omega
    · have hafter : g'.work L fresh < input.work + Message.work.works L fresh it + 1 :=
        work_afterInput_lt (Option.some.inj h)
      omega
  | complete => exact absurd h (Option.some_ne_none _).symm

end GeneratorImpl

end Email

end Acqua
