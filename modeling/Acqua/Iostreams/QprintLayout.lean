import Acqua.Iostreams.QprintPush

/-! The push half of `qprint_decoder` on lines that are put together without their ends. -/

namespace Acqua

namespace Qprint

open QprintDecoder (Accepts accepts_escape accepts_nil accepts_plain eof offered offered_escape
  offered_nil offered_plain offered_two unescape unescaped unescaped_eq_eof_iff unescaped_iff
  written)

/-- An octet in the standard encoding: escaped, or as it is if it is a printable character, and
maybe with a soft line break behind it. -/
structure Octet where
  ch : UInt8
  escaped : Bool
  broken : Bool
  standard : ¬ escaped → (isprint ch ∨ ch = chr '\t') ∧ ch ≠ chr '='

namespace Octet

def rep (u : Octet) : List UInt8 := if u.escaped then chr '=' :: hexDigits u.ch else [u.ch]

/-- What stands behind the octet in its line. -/
def tail (u : Octet) : List UInt8 := if u.broken then [chr '='] else []

def text (u : Octet) : List UInt8 := u.rep ++ u.tail

end Octet

/-- The lines that the octets are cut into, of which the first one begins with `pre`. -/
def layoutFrom (pre : List UInt8) : List Octet → List (List UInt8)
  | [] => [pre]
  | u :: us =>
    if u.broken then (pre ++ u.text) :: layoutFrom [] us else layoutFrom (pre ++ u.text) us

def layout (us : List Octet) : List (List UInt8) := layoutFrom [] us

def layoutText (us : List Octet) : List UInt8 := us.flatMap Octet.text

def data (us : List Octet) : List UInt8 := us.map Octet.ch

/-- The characters of US-ASCII. -/
def ascii (s : List UInt8) : List UInt8 := s.filter (· < 128)

/-- No line is broken before another octet, and no digit of an escape is a letter. -/
structure Kept (us : List Octet) : Prop where
  digits : ∀ u ∈ us, u.escaped → u.ch.toNat / 16 ≤ 7 ∧ u.ch.toNat % 16 ≤ 9
  unbroken : ∀ u ∈ us.dropLast, ¬ u.broken

section Written

theorem promote_pad : (promote (chr '=')).toInt = 61 := by decide

theorem unescape_pad_left (b : UInt8) :
    unescape (promote (chr '=')).toInt (promote b).toInt = eof := by
  have hdigit : ¬ ((('0'.toNat : Nat) : Int) ≤ 61 ∧ (61 : Int) ≤ ('9'.toNat : Nat)) := by decide
  have hlower : ¬ ((('a'.toNat : Nat) : Int) ≤ 61 ∧ (61 : Int) ≤ ('f'.toNat : Nat)) := by decide
  have hupper : ¬ ((('A'.toNat : Nat) : Int) ≤ 61 ∧ (61 : Int) ≤ ('F'.toNat : Nat)) := by decide
  rw [promote_pad, unescape]
  simp only [if_neg hdigit, if_neg hlower, if_neg hupper]
  exact if_pos (by decide)

theorem unescape_pad_right (a : UInt8) :
    unescape (promote a).toInt (promote (chr '=')).toInt = eof := by
  have hdigit : ¬ ((('0'.toNat : Nat) : Int) ≤ 61 ∧ (61 : Int) ≤ ('9'.toNat : Nat)) := by decide
  have hlower : ¬ ((('a'.toNat : Nat) : Int) ≤ 61 ∧ (61 : Int) ≤ ('a'.toNat : Nat)) := by decide
  have hupper : ¬ ((('A'.toNat : Nat) : Int) ≤ 61 ∧ (61 : Int) ≤ ('A'.toNat : Nat)) := by decide
  rw [promote_pad, unescape]
  simp only [if_neg hdigit, if_neg hlower, if_neg hupper]
  exact ite_self _

theorem offered_pad_pad (b : UInt8) (s : List UInt8) :
    offered (chr '=' :: chr '=' :: b :: s) = [] := by
  rw [offered_two (by decide), if_pos (unescape_pad_left b)]

theorem offered_pad_at_pad {a : UInt8} (ha : a ≠ 0) (s : List UInt8) :
    offered (chr '=' :: a :: chr '=' :: s) = [] := by
  rw [offered_two ha, if_pos (unescape_pad_right a)]

theorem offered_pad : offered [chr '='] = [] := rfl

end Written

/-- Of the octets only a part comes out of a text, and nothing else does. -/
def Fits (out : List UInt8) (us : List Octet) : Prop :=
  ∀ q r, ascii out = q ++ data us ++ r → q = [] ∧ r = []

section Fits

variable {out : List UInt8} {u : Octet} {us : List Octet}

theorem fits_nil (us : List Octet) : Fits [] us := by
  intro q r h
  have hnil : q ++ data us ++ r = [] := h.symm
  simp only [List.append_eq_nil_iff] at hnil
  exact ⟨hnil.1.1, hnil.2⟩

/-- An octet more, of which nothing comes out. -/
theorem Fits.lost (h : Fits out us) {q r : List UInt8} :
    ascii out ≠ q ++ data (u :: us) ++ r := by
  intro heq
  have hq := (h (q ++ [u.ch]) r (by rw [heq]; simp [data])).1
  simp at hq

theorem Fits.cons (h : Fits out us) (v : UInt8) : Fits (v :: out) (u :: us) := by
  intro q r heq
  by_cases hv : v < 128
  · have hascii : ascii (v :: out) = v :: ascii out := List.filter_cons_of_pos (by simpa using hv)
    rw [hascii] at heq
    cases q with
    | nil =>
      have hrest : ascii out = [] ++ data us ++ r := by
        simpa [data] using (List.cons.inj heq).2
      exact ⟨rfl, (h [] r hrest).2⟩
    | cons c q =>
      have hrest : ascii out = q ++ data (u :: us) ++ r := by
        simpa using (List.cons.inj heq).2
      exact absurd hrest h.lost
  · have hascii : ascii (v :: out) = ascii out := List.filter_cons_of_neg (by simpa using hv)
    rw [hascii] at heq
    exact absurd heq h.lost

end Fits

section Decoder

variable {u : Octet} {us : List Octet}

theorem layoutText_cons (u : Octet) (us : List Octet) :
    layoutText (u :: us) = u.rep ++ (u.tail ++ layoutText us) := by
  rw [layoutText, List.flatMap_cons, Octet.text, List.append_assoc]
  rfl

/-- An octet as it is. -/
theorem Octet.rep_plain (h : ¬ u.escaped) :
    u.rep = [u.ch] ∧ u.ch ≠ chr '=' ∧ u.ch < 128 ∧ u.ch ≠ 0 := by
  obtain ⟨ch, escaped, broken, hstandard⟩ := u
  obtain rfl : escaped = false := by simpa using h
  obtain ⟨hprint, hpad⟩ := hstandard h
  have hrange : ∀ ch : UInt8, isprint ch ∨ ch = chr '\t' → ch < 128 ∧ ch ≠ 0 :=
    octet_forall (by decide +kernel)
  exact ⟨rfl, hpad, hrange ch hprint⟩

theorem Octet.rep_escaped (h : u.escaped) : u.rep = chr '=' :: hexDigits u.ch := if_pos h

theorem fits_behind {s : List UInt8} (h : Fits (offered s) us) {a : UInt8} (ha : a ≠ 0)
    (hplain : ¬ u.escaped) : Fits (offered (chr '=' :: a :: (u.rep ++ s))) (u :: us) := by
  rw [(Octet.rep_plain hplain).1, List.singleton_append, offered_two ha]
  split_ifs
  · exact fits_nil _
  · exact h.cons _

/-- The first character behind a soft line break is taken for a digit. -/
theorem fits_behind_break (hpadOne : ∀ a ≠ 0, Fits (offered (chr '=' :: a :: layoutText us)) us) :
    Fits (offered (chr '=' :: layoutText (u :: us))) us := by
  rw [layoutText_cons]
  by_cases hescaped : u.escaped
  · rw [Octet.rep_escaped hescaped, hexDigits, List.cons_append, List.cons_append, offered_pad_pad]
    exact fits_nil _
  · obtain ⟨hrep, -, -, hne⟩ := Octet.rep_plain hescaped
    rw [hrep, List.singleton_append, Octet.tail]
    split_ifs
    · rw [List.singleton_append, offered_pad_at_pad hne]
      exact fits_nil _
    · exact hpadOne u.ch hne

theorem fits_tail (hinit : Fits (offered (layoutText us)) us)
    (hpad : Fits (offered (chr '=' :: layoutText us)) us) :
    Fits (offered (u.tail ++ layoutText us)) us := by
  rw [Octet.tail]
  split_ifs
  · exact hpad
  · exact hinit

/-- What the decoder makes of a layout from any of its states. -/
theorem fits_offered (us : List Octet) :
    Fits (offered (layoutText us)) us ∧ Fits (offered (chr '=' :: layoutText us)) us ∧
      ∀ a ≠ 0, Fits (offered (chr '=' :: a :: layoutText us)) us := by
  induction us with
  | nil => exact ⟨fits_nil _, fits_nil _, fun a _ => fits_nil _⟩
  | cons u us ih =>
    obtain ⟨hinit, hpad, hpadOne⟩ := ih
    have hrest : Fits (offered (u.tail ++ layoutText us)) us := fits_tail hinit hpad
    refine ⟨?_, fun q r heq => absurd heq (fits_behind_break hpadOne).lost, fun a ha => ?_⟩
    · rw [layoutText_cons]
      by_cases hescaped : u.escaped
      · rw [Octet.rep_escaped hescaped, List.cons_append, offered_escape]
        split_ifs
        · exact fits_nil _
        · exact hrest.cons _
      · obtain ⟨hrep, hpad, -, -⟩ := Octet.rep_plain hescaped
        rw [hrep, List.singleton_append, offered_plain hpad]
        exact hrest.cons _
    · by_cases hescaped : u.escaped
      · rw [layoutText_cons, Octet.rep_escaped hescaped, List.cons_append, offered_pad_at_pad ha]
        exact fits_nil _
      · rw [layoutText_cons]
        exact fits_behind hrest ha hescaped

/-- Only a break behind the last octet does no harm. -/
theorem ascii_offered_tail :
    ascii (offered (u.tail ++ layoutText us)) = data us ↔
      (u.broken → us = []) ∧ ascii (offered (layoutText us)) = data us := by
  by_cases hbroken : u.broken
  · have htail : u.tail = [chr '='] := if_pos hbroken
    rw [htail, List.singleton_append]
    cases us with
    | nil => simp [hbroken, layoutText, offered_pad, offered_nil, ascii, data]
    | cons w us =>
      have hlost : ascii (offered (chr '=' :: layoutText (w :: us))) ≠ data (w :: us) := by
        have hne := (fits_behind_break (u := w) (fits_offered us).2.2).lost (u := w)
          (q := []) (r := [])
        simpa using hne
      simp [hbroken, hlost]
  · have htail : u.tail = [] := if_neg hbroken
    simp [htail, hbroken]

/-- What comes of one octet. -/
theorem ascii_offered_cons :
    ascii (offered (layoutText (u :: us))) = data (u :: us) ↔
      (u.escaped → u.ch.toNat / 16 ≤ 7 ∧ u.ch.toNat % 16 ≤ 9) ∧
        ascii (offered (u.tail ++ layoutText us)) = data us := by
  rw [layoutText_cons]
  by_cases hescaped : u.escaped
  · have hdigits := unescaped_iff u.ch
    rw [Octet.rep_escaped hescaped, List.cons_append, offered_escape]
    by_cases heof : unescaped u.ch = eof
    · have hlow := (unescaped_eq_eof_iff u.ch).mp heof
      rw [if_pos heof]
      simp only [ascii, List.filter_nil, data, List.map_cons, hescaped, true_implies]
      refine ⟨fun h => absurd h (List.cons_ne_nil _ _).symm, fun h => ?_⟩
      omega
    · rw [if_neg heof]
      by_cases hv : UInt8.ofInt (unescaped u.ch) < 128
      · rw [ascii, List.filter_cons_of_pos (by simpa using hv), data, List.map_cons,
          List.cons.injEq]
        simp only [hescaped, true_implies, ascii, data]
        refine and_congr_left fun _ => ⟨fun h => ?_, fun h => ?_⟩
        · have hok := hdigits.mp ⟨heof, h⟩
          rw [h, UInt8.lt_iff_toNat_lt] at hv
          have hlt : u.ch.toNat < 128 := hv
          omega
        · exact (hdigits.mpr ⟨by omega, h.2⟩).2
      · have hfits : Fits (offered (u.tail ++ layoutText us)) us :=
          fits_tail (fits_offered us).1 (fits_offered us).2.1
        have hlost : ascii (offered (u.tail ++ layoutText us)) ≠ data (u :: us) := by
          simpa using hfits.lost (u := u) (q := []) (r := [])
        rw [ascii, List.filter_cons_of_neg (by simpa using hv)]
        refine ⟨fun h => absurd h hlost, fun ⟨h, _⟩ => ?_⟩
        have hch := (hdigits.mpr ⟨by have := h hescaped; omega, (h hescaped).2⟩).2
        rw [hch, UInt8.lt_iff_toNat_lt] at hv
        have hge : ¬ u.ch.toNat < 128 := hv
        have hle := (h hescaped).1
        omega
  · obtain ⟨hrep, hpad, hlt, -⟩ := Octet.rep_plain hescaped
    rw [hrep, List.singleton_append, offered_plain hpad, ascii,
      List.filter_cons_of_pos (by simpa using hlt)]
    simp [hescaped, data, ascii]

theorem kept_cons :
    Kept (u :: us) ↔ (u.escaped → u.ch.toNat / 16 ≤ 7 ∧ u.ch.toNat % 16 ≤ 9) ∧
      (u.broken → us = []) ∧ Kept us := by
  have hlast : (∀ w ∈ (u :: us).dropLast, ¬ w.broken) ↔
      (u.broken → us = []) ∧ ∀ w ∈ us.dropLast, ¬ w.broken := by
    cases us with
    | nil => simp
    | cons w us =>
      rw [List.dropLast_cons_of_ne_nil (List.cons_ne_nil _ _), List.forall_mem_cons]
      simp
  constructor
  · rintro ⟨hdigits, hunbroken⟩
    obtain ⟨hu, hus⟩ := List.forall_mem_cons.mp hdigits
    exact ⟨hu, (hlast.mp hunbroken).1, hus, (hlast.mp hunbroken).2⟩
  · rintro ⟨hu, hbroken, hus, hunbroken⟩
    exact ⟨List.forall_mem_cons.mpr ⟨hu, hus⟩, hlast.mpr ⟨hbroken, hunbroken⟩⟩

/-- The octets come back exactly when no line is broken before another one and no digit of an
escape is a letter. -/
theorem ascii_offered_iff (us : List Octet) :
    ascii (offered (layoutText us)) = data us ↔ Kept us := by
  induction us with
  | nil => exact iff_of_true rfl ⟨by simp, by simp⟩
  | cons u us ih => rw [ascii_offered_cons, ascii_offered_tail, ih, kept_cons]

/-- The `=` of a break behind the last octet waits for more. -/
theorem Kept.accepts (h : Kept us) : Accepts (layoutText us) := by
  induction us with
  | nil => exact accepts_nil
  | cons u us ih =>
    obtain ⟨hdigits, hbroken, hus⟩ := kept_cons.mp h
    have htail : Accepts (u.tail ++ layoutText us) := by
      rw [Octet.tail]
      split_ifs with hbreak
      · rw [hbroken hbreak]
        rfl
      · exact ih hus
    rw [layoutText_cons]
    by_cases hescaped : u.escaped
    · have hlow : unescaped u.ch ≠ eof := by
        rw [ne_eq, unescaped_eq_eof_iff]
        have := (hdigits hescaped).2
        omega
      rw [Octet.rep_escaped hescaped, List.cons_append, accepts_escape hlow]
      exact htail
    · obtain ⟨hrep, hpad, -, -⟩ := Octet.rep_plain hescaped
      rw [hrep, List.singleton_append, accepts_plain hpad]
      exact htail

end Decoder

section Layout

variable {us : List Octet}

theorem flatten_layoutFrom (pre : List UInt8) (us : List Octet) :
    (layoutFrom pre us).flatten = pre ++ layoutText us := by
  induction us generalizing pre with
  | nil => simp [layoutFrom, layoutText]
  | cons u us ih =>
    rw [layoutFrom]
    split_ifs
    · rw [List.flatten_cons, ih]
      simp [layoutText]
    · rw [ih]
      simp [layoutText]

theorem flatten_layout (us : List Octet) : (layout us).flatten = layoutText us :=
  flatten_layoutFrom [] us

theorem layoutText_append (us vs : List Octet) :
    layoutText (us ++ vs) = layoutText us ++ layoutText vs := List.flatMap_append

theorem data_append (us vs : List Octet) : data (us ++ vs) = data us ++ data vs := List.map_append

/-- The lines before the first one that is not let through are those of fewer octets. -/
theorem exists_takeWhile_layoutFrom {good : List UInt8 → Bool} (hnil : good [])
    {pre us : List Octet} (hbad : ∃ line ∈ layoutFrom (layoutText pre) us, ¬ good line) :
    ∃ vs ws, pre ++ us = vs ++ ws ∧ ws ≠ [] ∧
      ((layoutFrom (layoutText pre) us).takeWhile good).flatten = layoutText vs := by
  induction us generalizing pre with
  | nil =>
    obtain ⟨line, hline, hgood⟩ := hbad
    rw [layoutFrom, List.mem_singleton] at hline
    subst hline
    have hne : pre ≠ [] := by
      rintro rfl
      exact hgood hnil
    refine ⟨[], pre, by simp, hne, ?_⟩
    rw [layoutFrom, List.takeWhile_cons_of_neg hgood]
    rfl
  | cons u us ih =>
    have hpre : layoutText pre ++ u.text = layoutText (pre ++ [u]) := by
      rw [layoutText_append]
      simp [layoutText]
    have hus : pre ++ u :: us = (pre ++ [u]) ++ us := by simp
    rw [layoutFrom, hpre] at hbad ⊢
    split_ifs at hbad ⊢ with hbroken
    · by_cases hgood : good (layoutText (pre ++ [u]))
      · rw [List.takeWhile_cons_of_pos hgood]
        obtain ⟨line, hline, hnot⟩ := hbad
        have hrest : ∃ line ∈ layoutFrom (layoutText []) us, ¬ good line := by
          rcases List.mem_cons.mp hline with rfl | hmem
          · exact absurd hgood hnot
          · exact ⟨line, hmem, hnot⟩
        obtain ⟨vs, ws, hsplit, hne, htake⟩ := ih hrest
        refine ⟨pre ++ [u] ++ vs, ws, ?_, hne, ?_⟩
        · rw [hus, List.append_assoc (pre ++ [u]), ← hsplit, List.nil_append]
        · rw [List.flatten_cons, layoutText_append _ vs, ← htake]
          rfl
      · refine ⟨[], pre ++ u :: us, rfl, by simp, ?_⟩
        rw [List.takeWhile_cons_of_neg hgood]
        rfl
    · obtain ⟨vs, ws, hsplit, hne, htake⟩ := ih hbad
      exact ⟨vs, ws, by rw [hus, hsplit], hne, htake⟩

/-- What comes of the lines that are let through when they are offered once. -/
theorem ascii_offered_layout_iff {good : List UInt8 → Bool} (hnil : good []) (us : List Octet) :
    ascii (offered ((layout us).takeWhile good).flatten) = data us ↔
      (∀ line ∈ layout us, good line) ∧ Kept us := by
  by_cases hall : ∀ line ∈ layout us, good line
  · rw [List.takeWhile_eq_self_iff.mpr hall, flatten_layout, ascii_offered_iff]
    exact (and_iff_right hall).symm
  · have hbad : ∃ line ∈ layoutFrom (layoutText []) us, ¬ good line := by
      simpa [layout, layoutText] using hall
    obtain ⟨vs, ws, hsplit, hne, htake⟩ := exists_takeWhile_layoutFrom hnil hbad
    obtain rfl : us = vs ++ ws := hsplit
    refine iff_of_false (fun heq => ?_) fun h => hall h.1
    rw [layout] at heq
    change ascii (offered ((layoutFrom (layoutText []) (vs ++ ws)).takeWhile good).flatten) = _
      at heq
    rw [htake, data_append] at heq
    have hws := ((fits_offered vs).1 [] (data ws) heq).2
    rw [data, List.map_eq_nil_iff] at hws
    exact hne hws

/-- The same whatever the stream in front of the decoder does. -/
theorem ascii_written_layout_iff {good : List UInt8 → Bool} (hnil : good []) (us : List Octet) :
    (∀ S, ascii (written S ((layout us).takeWhile good).flatten) = data us) ↔
      (∀ line ∈ layout us, good line) ∧ Kept us := by
  rw [← ascii_offered_layout_iff hnil]
  constructor
  · intro h
    simpa only [QprintDecoder.written_flushed_zero] using h (.flushed 0)
  · intro h S
    obtain ⟨hall, hkept⟩ := (ascii_offered_layout_iff hnil us).mp h
    have htext : ((layout us).takeWhile good).flatten = layoutText us := by
      rw [List.takeWhile_eq_self_iff.mpr hall, flatten_layout]
    rw [htext] at h ⊢
    rw [hkept.accepts.written_eq S, h]

theorem Octet.not_newline (u : Octet) : ∀ ch ∈ u.text, ch ≠ chr '\r' ∧ ch ≠ chr '\n' := by
  have hpad : chr '=' ≠ chr '\r' ∧ chr '=' ≠ chr '\n' := by decide
  have hrep : ∀ ch ∈ u.rep, ch ≠ chr '\r' ∧ ch ≠ chr '\n' := by
    by_cases hescaped : u.escaped
    · have hhex : ∀ n < 16, QprintEncoder.hexDigit (UInt8.ofNat n) ≠ chr '\r' ∧
          QprintEncoder.hexDigit (UInt8.ofNat n) ≠ chr '\n' := by decide
      have hdigits : ∀ ch ∈ hexDigits u.ch, ch ≠ chr '\r' ∧ ch ≠ chr '\n' := by
        obtain ⟨hupper, hlower⟩ := nibble_forall (P := fun n => QprintEncoder.hexDigit n ≠ chr '\r' ∧
          QprintEncoder.hexDigit n ≠ chr '\n') hhex u.ch
        exact List.forall_mem_cons.mpr ⟨hupper, by simpa using hlower⟩
      rw [Octet.rep_escaped hescaped]
      exact List.forall_mem_cons.mpr ⟨hpad, hdigits⟩
    · obtain ⟨ch, escaped, broken, hstandard⟩ := u
      obtain rfl : escaped = false := by simpa using hescaped
      have hplain : ∀ ch : UInt8, isprint ch ∨ ch = chr '\t' → ch ≠ chr '\r' ∧ ch ≠ chr '\n' :=
        octet_forall (by decide +kernel)
      intro c hc
      rw [List.mem_singleton.mp hc]
      exact hplain ch (hstandard hescaped).1
  rw [Octet.text, Octet.tail]
  split_ifs
  · exact List.forall_mem_append.mpr ⟨hrep, by simpa using hpad⟩
  · rwa [List.append_nil]

theorem not_newline_of_mem_layout {line : List UInt8} (hline : line ∈ layout us) :
    ∀ ch ∈ line, ch ≠ chr '\r' ∧ ch ≠ chr '\n' := by
  intro ch hch
  have hmem : ch ∈ layoutText us := by
    rw [← flatten_layout]
    exact List.mem_flatten.mpr ⟨line, hline, hch⟩
  obtain ⟨u, -, hu⟩ := List.mem_flatMap.mp hmem
  exact u.not_newline ch hu

/-- The low digit of what is made of an escape is a decimal one. -/
theorem unescape_not_newline {upper lower : Int} (h : ¬ unescape upper lower < 0) :
    UInt8.ofInt (unescape upper lower) ≠ chr '\r' ∧
      UInt8.ofInt (unescape upper lower) ≠ chr '\n' := by
  have hrange : unescape upper lower < 256 ∧ unescape upper lower % 16 ≤ 9 := by
    have hdigits : '0'.toNat = 48 ∧ '9'.toNat = 57 := ⟨rfl, rfl⟩
    have hlowers : 'a'.toNat = 97 ∧ 'f'.toNat = 102 := ⟨rfl, rfl⟩
    have huppers : 'A'.toNat = 65 ∧ 'F'.toNat = 70 := ⟨rfl, rfl⟩
    unfold unescape at h ⊢
    dsimp only at h ⊢
    split_ifs at h ⊢ <;> omega
  have htoNat : (UInt8.ofInt (unescape upper lower)).toNat % 16 ≤ 9 := by
    rw [UInt8.ofInt, UInt8.toNat_ofNat']
    omega
  have hends : (chr '\r').toNat % 16 = 13 ∧ (chr '\n').toNat % 16 = 10 := by decide
  refine ⟨fun heq => ?_, fun heq => ?_⟩
  · rw [heq] at htoNat
    omega
  · rw [heq] at htoNat
    omega

theorem not_newline_put (d : QprintDecoder) (c : UInt8) (hc : c ≠ chr '\r' ∧ c ≠ chr '\n') :
    ∀ out ∈ (d.put c).2, ∀ ch ∈ out, ch ≠ chr '\r' ∧ ch ≠ chr '\n' := by
  intro out hout
  unfold QprintDecoder.put at hout
  split_ifs at hout with hsecond hfirst hpad
  · dsimp only at hout
    split_ifs at hout with hneg
    · cases hout
    · cases hout
      simpa using unescape_not_newline hneg
  · cases hout
    simp
  · cases hout
    simp
  · cases hout
    simpa using hc

theorem not_newline_written (S : Buffering UInt8) {text : List UInt8}
    (h : ∀ ch ∈ text, ch ≠ chr '\r' ∧ ch ≠ chr '\n') :
    ∀ ch ∈ written S text, ch ≠ chr '\r' ∧ ch ≠ chr '\n' :=
  forall_mem_writeAll not_newline_put S .init h

end Layout

end Qprint

end Acqua
