import Acqua.Email.Folding
import Acqua.Email.HeaderParser

/-! A folded field, cut into lines and read by the header parser. -/

namespace Acqua

namespace Email

/-- The lines of a text, which end at CR LF. -/
def splitCrLf : List UInt8 → List (List UInt8)
  | [] => [[]]
  | [ch] => [[ch]]
  | ch :: ch' :: s =>
    if ch = chr '\r' ∧ ch' = chr '\n' then [] :: splitCrLf s
    else (splitCrLf (ch' :: s)).modifyHead (List.cons ch)

theorem splitCrLf_cons {ch : UInt8} (hch : ch ≠ chr '\r') (s : List UInt8) :
    splitCrLf (ch :: s) = (splitCrLf s).modifyHead (List.cons ch) := by
  cases s with
  | nil => rfl
  | cons ch' s => rw [splitCrLf, if_neg fun h => hch h.1]

theorem splitCrLf_append {l : List UInt8} (hl : Clean l) (s : List UInt8) :
    splitCrLf (l ++ s) = (splitCrLf s).modifyHead (l ++ ·) := by
  induction l with
  | nil => cases h : splitCrLf s <;> simp [h]
  | cons ch l ih =>
    have hch := hl ch List.mem_cons_self
    rw [List.cons_append, splitCrLf_cons hch.1, ih fun c hc => hl c (List.mem_cons_of_mem _ hc)]
    cases splitCrLf s <;> rfl

theorem splitCrLf_line {l : List UInt8} (hl : Clean l) (s : List UInt8) :
    splitCrLf (l ++ (crlf ++ s)) = l :: splitCrLf s := by
  have hcut : splitCrLf (crlf ++ s) = [] :: splitCrLf s := if_pos ⟨rfl, rfl⟩
  rw [splitCrLf_append hl, hcut, List.modifyHead_cons, List.append_nil]

/-- Lines of which all but the first one continue a field: the blanks they begin with and the
text after the blanks. -/
def unfolded (first : List UInt8) (conts : List (List UInt8 × List UInt8)) : List (List UInt8) :=
  first :: conts.map fun cont => cont.1 ++ cont.2

def foldedText (first : List UInt8) (conts : List (List UInt8 × List UInt8)) : List UInt8 :=
  first ++ conts.flatMap fun cont => crlf ++ (cont.1 ++ cont.2)

theorem splitCrLf_foldedText {first : List UInt8} {conts : List (List UInt8 × List UInt8)}
    (hfirst : Clean first) (hconts : ∀ cont ∈ conts, Clean (cont.1 ++ cont.2)) :
    splitCrLf (foldedText first conts) = unfolded first conts := by
  induction conts generalizing first with
  | nil =>
    have hline := splitCrLf_append hfirst []
    rw [splitCrLf, List.modifyHead_cons, List.append_nil] at hline
    simpa [foldedText, unfolded] using hline
  | cons cont conts ih =>
    have htext : foldedText first (cont :: conts) =
        first ++ (crlf ++ foldedText (cont.1 ++ cont.2) conts) := by simp [foldedText]
    rw [htext, splitCrLf_line hfirst, ih (hconts _ List.mem_cons_self)
      fun c hc => hconts c (List.mem_cons_of_mem _ hc)]
    rfl

namespace HeaderParser

variable {L : Locale} {decodeParams : List UInt8 → Disposition → Option Disposition}

/-- A line that continues a field: blanks, and a text that does not begin with one. -/
structure Continues (cont : List UInt8 × List UInt8) : Prop where
  ne_nil : cont.1 ≠ []
  blank : ∀ ch ∈ cont.1, isspace ch
  head : ∀ ch ∈ cont.2.head?, ¬ isspace ch

theorem dropWhile_head {text : List UInt8} (htext : ∀ ch ∈ text.head?, ¬ isspace ch) :
    text.dropWhile isspace = text := by
  cases text with
  | nil => rfl
  | cons ch text => exact List.dropWhile_cons_of_neg (htext ch rfl)

theorem dropWhile_isspace {gap text : List UInt8} (hgap : ∀ ch ∈ gap, isspace ch)
    (htext : ∀ ch ∈ text.head?, ¬ isspace ch) : (gap ++ text).dropWhile isspace = text := by
  rw [List.dropWhile_append_of_pos hgap, dropWhile_head htext]

variable (L decodeParams) in
theorem line_blank {front : UInt8} (hfront : isspace front) (p : HeaderParser) (headers : Headers)
    (rest : List UInt8) :
    p.line L decodeParams headers (front :: rest) =
      some ⟨p.unfold (front :: rest), headers, false, true⟩ := by
  have hdot : front :: rest ≠ [chr '.'] := by
    intro h
    rw [(List.cons.inj h).1] at hfront
    exact absurd hfront (by decide)
  simp only [line, hdot, hfront, if_false, not_true_eq_false]

theorem line_continues {cont : List UInt8 × List UInt8} (hcont : Continues cont)
    (p : HeaderParser) (hp : p.params ≠ []) (headers : Headers) :
    p.line L decodeParams headers (cont.1 ++ cont.2) =
      some ⟨⟨p.name, p.params ++ chr ' ' :: cont.2⟩, headers, false, true⟩ := by
  obtain ⟨gap, text⟩ := cont
  obtain ⟨hne, hblank, hhead⟩ := hcont
  cases gap with
  | nil => exact absurd rfl hne
  | cons front gap =>
    have htext := dropWhile_isspace (fun ch hch => hblank ch (List.mem_cons_of_mem _ hch)) hhead
    have hline := line_blank L decodeParams
      (hblank front List.mem_cons_self) p headers (gap ++ text)
    rw [List.cons_append, hline]
    simp only [unfold, hp, if_false, List.tail_cons, htext, List.append_assoc, List.cons_append,
      List.nil_append]

variable (L decodeParams) in
theorem line_name {name : List UInt8} (hne : name ≠ []) (hcolon : chr ':' ∉ name)
    (hspace : ∀ ch ∈ name.head?, ¬ isspace ch) (p : HeaderParser) (headers : Headers)
    (text : List UInt8) :
    p.line L decodeParams headers (name ++ chr ':' :: text) =
      (p.append L decodeParams headers).map
        fun headers => ⟨⟨name, text.dropWhile isspace⟩, headers, false, true⟩ := by
  have hall : ∀ ch ∈ name, (decide (ch ≠ chr ':') : Bool) := by
    intro ch hch
    rw [decide_eq_true_eq]
    rintro rfl
    exact hcolon hch
  have htake : (name ++ chr ':' :: text).takeWhile (· ≠ chr ':') = name := by
    rw [List.takeWhile_append_of_pos hall, List.takeWhile_cons_of_neg (by decide), List.append_nil]
  have hdrop : (name ++ chr ':' :: text).dropWhile (· ≠ chr ':') = chr ':' :: text := by
    rw [List.dropWhile_append_of_pos hall, List.dropWhile_cons_of_neg (by decide)]
  have hdot : name ++ chr ':' :: text ≠ [chr '.'] := by
    intro h
    have hlength := congrArg List.length h
    have hpos := List.length_pos_of_ne_nil hne
    simp only [List.length_append, List.length_cons, List.length_nil] at hlength
    omega
  have hmem : chr ':' ∈ name ++ chr ':' :: text := by simp
  cases name with
  | nil => exact absurd rfl hne
  | cons front name =>
    have hfront := hspace front rfl
    unfold line
    split
    · next h => simp at h
    · next front' rest h =>
      obtain rfl : front = front' := by simpa using congrArg List.head? h
      rw [if_neg hdot, if_pos hfront, if_neg (not_not_intro hmem), htake, hdrop]
      simp [unfold]

theorem line_field {name text : List UInt8} (hname : isName name)
    (hhead : ∀ ch ∈ text.head?, ¬ isspace ch) (headers : Headers) :
    init.line L decodeParams headers (name ++ octets ": " ++ text) =
      some ⟨⟨name, text⟩, headers, false, true⟩ := by
  simp only [isName, Bool.and_eq_true, Bool.not_eq_true', List.isEmpty_eq_false_iff,
    List.all_eq_true] at hname
  obtain ⟨hne, hchars⟩ := hname
  have hcolon : chr ':' ∉ name := fun hmem => absurd (hchars _ hmem) (by decide)
  have hspace : ∀ ch ∈ name.head?, ¬ isspace ch := fun ch hch => octet_forall
    (P := fun ch => (isalnum ch || ch = chr '-') = true → ¬ isspace ch) (by decide +kernel) ch
    (hchars ch (List.mem_of_head? hch))
  have htext : (chr ' ' :: text).dropWhile isspace = text := by
    rw [List.dropWhile_cons_of_pos rfl, dropWhile_head hhead]
  have hline := line_name L decodeParams hne hcolon hspace init headers
    (chr ' ' :: text)
  rw [htext] at hline
  rw [List.append_assoc]
  exact hline

theorem parse_continues {conts : List (List UInt8 × List UInt8)}
    (hconts : ∀ cont ∈ conts, Continues cont) (p : HeaderParser) (hp : p.params ≠ [])
    (headers : Headers) :
    p.parse L decodeParams headers ((conts.map fun cont => cont.1 ++ cont.2) ++ [[]]) =
      append L decodeParams ⟨p.name, p.params ++ conts.flatMap fun cont => chr ' ' :: cont.2⟩
        headers := by
  induction conts generalizing p with
  | nil =>
    simp only [List.map_nil, List.nil_append, List.flatMap_nil, List.append_nil, parse, line]
    cases p.append L decodeParams headers <;> rfl
  | cons cont conts ih =>
    have hline : p.line L decodeParams headers (cont.1 ++ cont.2) =
        some ⟨⟨p.name, p.params ++ chr ' ' :: cont.2⟩, headers, false, true⟩ :=
      line_continues (hconts cont List.mem_cons_self) p hp headers
    simp only [List.map_cons, List.cons_append, parse, hline, Option.bind_eq_bind,
      Option.bind_some, Bool.false_eq_true, if_false]
    rw [ih (fun c hc => hconts c (List.mem_cons_of_mem _ hc)) _ (by simp)]
    simp [List.append_assoc]

theorem parse_field {name first : List UInt8} {conts : List (List UInt8 × List UInt8)}
    (hname : isName name) (hcontent : ¬ istartsWith name (octets "Content-"))
    (hfirst : first ≠ []) (hhead : ∀ ch ∈ first.head?, ¬ isspace ch)
    (hconts : ∀ cont ∈ conts, Continues cont) :
    init.parse L decodeParams [] (unfolded (name ++ octets ": " ++ first) conts ++ [[]]) =
      (rfc2047Decode L (first ++ conts.flatMap fun cont => chr ' ' :: cont.2)).map
        fun s => [(name, ⟨s, []⟩)] := by
  have hne : name ≠ [] := by
    rintro rfl
    simp [isName] at hname
  simp only [unfolded, List.cons_append, parse, line_field hname hhead, Option.bind_eq_bind,
    Option.bind_some, Bool.false_eq_true, if_false]
  rw [parse_continues hconts _ hfirst, append, if_pos ⟨hne, by simp [hfirst]⟩]
  simp only [Headers.update, hcontent]
  cases rfc2047Decode L (first ++ conts.flatMap fun cont => chr ' ' :: cont.2) <;> rfl

end HeaderParser

end Email

end Acqua
