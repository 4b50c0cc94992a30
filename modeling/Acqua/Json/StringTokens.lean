import Acqua.Json.Completeness

/-! String tokens, and which of them are read as the text they stand for. -/

namespace Acqua

namespace Json

/-- The letters that can follow a backslash, but for `u`. -/
inductive Escape
  | quote
  | backslash
  | slash
  | b
  | f
  | n
  | r
  | t

namespace Escape

def letter : Escape → Char
  | quote => '"'
  | backslash => '\\'
  | slash => '/'
  | b => 'b'
  | f => 'f'
  | n => 'n'
  | r => 'r'
  | t => 't'

def char : Escape → Char
  | quote => '"'
  | backslash => '\\'
  | slash => '/'
  | b => '\x08'
  | f => '\x0c'
  | n => '\n'
  | r => '\r'
  | t => '\t'

theorem escaped_letter (e : Escape) :
    StringParser.escaped (chr e.letter) = some (chr e.char) ∧ e.char.toNat < 0x80 := by
  cases e <;> exact ⟨by decide, by decide⟩

end Escape

/-- The digits of `\uXXXX`. -/
structure CodeUnit where
  digits : List UInt8
  length_eq : digits.length = 4
  areDigits : ∀ d ∈ digits, isxdigit d

namespace CodeUnit

def value (u : CodeUnit) : Nat := strtol u.digits

def text (u : CodeUnit) : List UInt8 := chr '\\' :: chr 'u' :: u.digits

end CodeUnit

/-- What stands for one character of a string: the character in UTF-8, an escape, or one or two
code units of UTF-16. -/
inductive StringItem
  | plain (c : Char) (h : 0x20 ≤ c.toNat ∧ c ≠ '"' ∧ c ≠ '\\')
  | escape (e : Escape)
  | unit (u : CodeUnit) (h : u.value < 0xD800 ∨ 0xE000 ≤ u.value ∧ u.value < 0x10000)
  | pair (high low : CodeUnit) (hhigh : 0xD800 ≤ high.value ∧ high.value < 0xDC00)
    (hlow : 0xDC00 ≤ low.value ∧ low.value < 0xE000)

namespace StringItem

def text : StringItem → List UInt8
  | plain c _ => String.utf8EncodeChar c
  | escape e => [chr '\\', chr e.letter]
  | unit u _ => u.text
  | pair high low _ _ => high.text ++ low.text

/-- The character that is denoted. -/
def char : StringItem → Char
  | plain c _ => c
  | escape e => e.char
  | unit u _ => Char.ofNat u.value
  | pair high low _ _ =>
    Char.ofNat (0x10000 + (high.value - 0xD800) * 0x400 + (low.value - 0xDC00))

/-- A character that is not escaped and not printable in US-ASCII. -/
def unprintable : StringItem → Bool
  | plain c _ => 0x7F ≤ c.toNat
  | _ => false

def surrogates : StringItem → Bool
  | pair .. => true
  | _ => false

end StringItem

abbrev StringToken := List StringItem

namespace StringToken

def body (t : StringToken) : List UInt8 := t.flatMap StringItem.text

def text (t : StringToken) : List UInt8 := chr '"' :: body t ++ [chr '"']

def denoted (t : StringToken) : List UInt8 := t.flatMap fun item => String.utf8EncodeChar item.char

end StringToken

/-- `utf_traits<char16_t>::decode` of one code unit, and what is encoded of it: a surrogate on its
own is illegal or incomplete, and nothing is appended for it. -/
structure DecodesUnits (utf : Nat → List UInt8) : Prop where
  char : ∀ c : Char, c.toNat < 0x10000 → utf c.toNat = String.utf8EncodeChar c
  surrogate : ∀ n, 0xD800 ≤ n → n < 0xE000 → utf n = []

/-- A token is accepted as a value and as a key, and what it denotes is delivered. -/
structure Delivers (utf : Nat → List UInt8) (t : StringToken) : Prop where
  value : write utf (.any true) .empty t.text =
    .ok (.any false, .mk [.str t.denoted] [], t.text.length)
  key : ∃ p : StringParser, p.str = t.denoted ∧
    writeLoop utf (.obj none none true) .empty t.text =
      .ok (.obj (some ⟨p, false⟩) none false, .empty, t.text.length)

section Encode

theorem utf8EncodeChar_ascii {c : Char} (h : c.toNat < 0x80) :
    String.utf8EncodeChar c = [chr c] := by
  have hval : c.val.toNat ≤ 0x7F := Nat.lt_succ_iff.mp h
  unfold String.utf8EncodeChar
  simp only [if_pos hval]
  rfl

theorem isprint_ascii {c : Char} (hlow : 0x20 ≤ c.toNat) (hhigh : c.toNat < 0x7F) :
    isprint (chr c) := by
  have hnat := toNat_chr (c := c) (by omega)
  simp only [isprint, UInt8.le_iff_toNat_le, hnat, decide_eq_true_eq]
  exact ⟨hlow, Nat.lt_succ_iff.mp hhigh⟩

/-- The first octet of what is not printable in US-ASCII. -/
theorem utf8EncodeChar_unprintable {c : Char} (h : 0x7F ≤ c.toNat) :
    ∃ lead trail, String.utf8EncodeChar c = lead :: trail ∧ 0x7F ≤ lead.toNat := by
  have hvalid : c.val.toNat < 0x110000 := by
    have h := c.valid
    simp only [UInt32.isValidChar, Nat.isValidChar] at h
    omega
  have hlow : 0x7F ≤ c.val.toNat := h
  unfold String.utf8EncodeChar
  simp only
  split_ifs
  · exact ⟨_, _, rfl, by rw [UInt8.toNat_ofNat']; omega⟩
  · exact ⟨_, _, rfl, by rw [UInt8.toNat_ofNat']; omega⟩
  · exact ⟨_, _, rfl, by rw [UInt8.toNat_ofNat']; omega⟩
  · exact ⟨_, _, rfl, by rw [UInt8.toNat_ofNat']; omega⟩

theorem not_isprint_of_le {ch : UInt8} (h : 0x7F ≤ ch.toNat) : ¬ isprint ch := by
  simp only [isprint, UInt8.le_iff_toNat_le, decide_eq_true_eq, not_and, not_le]
  intro _
  exact lt_of_lt_of_le (by decide) h

end Encode

section Scan

variable {utf : Nat → List UInt8} (hutf : DecodesUnits utf)

theorem CodeUnit.scan (u : CodeUnit) (hex str : List UInt8) :
    u.text.foldlM (StringParser.next utf) ⟨false, hex, str⟩ =
      some ⟨false, chr 'u' :: u.digits, str ++ utf u.value⟩ :=
  scan_unit (Or.inl rfl) u.length_eq u.areDigits hex str

/-- What is appended for a character. -/
def StringItem.delivered (item : StringItem) : List UInt8 :=
  if item.surrogates then [] else String.utf8EncodeChar item.char

include hutf

theorem StringItem.scan {item : StringItem} (h : ¬ item.unprintable) (hex str : List UInt8) :
    ∃ hex', item.text.foldlM (StringParser.next utf) ⟨false, hex, str⟩ =
      some ⟨false, hex', str ++ item.delivered⟩ := by
  cases item with
  | plain c hc =>
    have hascii : c.toNat < 0x7F := by simpa [unprintable] using h
    have hne : ∀ d : Char, d.toNat < 0x80 → c ≠ d → chr c ≠ chr d := by
      intro d hd hcd heq
      have hnat := congrArg UInt8.toNat heq
      rw [toNat_chr (by omega), toNat_chr (by omega)] at hnat
      exact hcd (Char.toNat_inj.mp hnat)
    have htext : String.utf8EncodeChar c = [chr c] := utf8EncodeChar_ascii (by omega)
    have hscan := @scan_plain utf _ (isprint_ascii hc.1 hascii)
      (hne _ (by decide) hc.2.1) (hne _ (by decide) hc.2.2) hex str
    exact ⟨hex, by rw [text, htext, hscan]; simp [delivered, surrogates, char, htext]⟩
  | escape e =>
    obtain ⟨hescaped, hascii⟩ := e.escaped_letter
    refine ⟨[], ?_⟩
    rw [text, scan_short hescaped]
    simp [delivered, surrogates, char, utf8EncodeChar_ascii hascii]
  | unit u hu =>
    have hvalid : (Char.ofNat u.value).toNat = u.value := by
      have hchar : u.value.isValidChar := by
        unfold Nat.isValidChar
        omega
      rw [Char.ofNat, dif_pos hchar]
      rfl
    have hchar : utf u.value = String.utf8EncodeChar (Char.ofNat u.value) := by
      have h := hutf.char (Char.ofNat u.value) (by omega)
      rwa [hvalid] at h
    refine ⟨chr 'u' :: u.digits, ?_⟩
    rw [text, u.scan, hchar]
    simp [delivered, surrogates, char]
  | pair high low hhigh hlow =>
    refine ⟨chr 'u' :: low.digits, ?_⟩
    rw [text, List.foldlM_append, high.scan, hutf.surrogate _ hhigh.1 (by omega)]
    simp only [Option.bind_eq_bind, Option.bind_some]
    rw [low.scan, hutf.surrogate _ (by omega) hlow.2]
    simp [delivered, surrogates]

theorem StringToken.scan {t : StringToken} (h : ∀ item ∈ t, ¬ item.unprintable)
    (hex str : List UInt8) :
    ∃ hex', t.body.foldlM (StringParser.next utf) ⟨false, hex, str⟩ =
      some ⟨false, hex', str ++ t.flatMap StringItem.delivered⟩ := by
  induction t generalizing hex str with
  | nil => exact ⟨hex, by simp [body]⟩
  | cons item t ih =>
    obtain ⟨hitem, hrest⟩ := List.forall_mem_cons.mp h
    obtain ⟨hex', hscan⟩ := StringItem.scan hutf hitem hex str
    obtain ⟨hex'', hbody⟩ := ih hrest hex' (str ++ item.delivered)
    refine ⟨hex'', ?_⟩
    rw [body, List.flatMap_cons, List.foldlM_append, hscan, List.flatMap_cons, ← List.append_assoc]
    exact hbody

theorem scan_items {t : StringToken} (h : ∀ item ∈ t, ¬ item.unprintable) (r : Record) :
    ∃ hex, Eats utf (.str .init) r t.body (.str ⟨false, hex, t.flatMap StringItem.delivered⟩) r := by
  obtain ⟨hex, hscan⟩ := t.scan hutf h [] []
  exact ⟨hex, eats_str hscan⟩

/-- An octet that is not printable makes the parser throw. -/
theorem fails_of_unprintable {t : StringToken} (h : ∃ item ∈ t, item.unprintable) (r : Record) :
    Fails utf (.str .init) r t.body := by
  obtain ⟨item, hfind⟩ := Option.isSome_iff_exists.mp (List.find?_isSome.mpr h)
  obtain ⟨hitem, pre, post, rfl, hpre⟩ := List.find?_eq_some_iff_append.mp hfind
  obtain ⟨hex, heats⟩ := scan_items hutf (t := pre) (by simpa using hpre) r
  cases item with
  | plain c hc =>
    obtain ⟨lead, trail, hchar, hlead⟩ := utf8EncodeChar_unprintable (by simpa [StringItem.unprintable] using hitem)
    have hprint := not_isprint_of_le hlead
    have hquote : lead ≠ chr '"' := fun heq => hprint (heq ▸ by decide)
    have hslash : lead ≠ chr '\\' := fun heq => hprint (heq ▸ by decide)
    refine ⟨StringToken.body pre, lead, trail ++ StringToken.body post, _, r, ?_, heats, rfl, ?_⟩
    · simp [StringToken.body, StringItem.text, hchar]
    · rw [feed_eq_parse1 rfl, parse1]
      simp [StringParser.closes, StringParser.next, hquote, hslash, hprint, scan]
  | escape e => simp [StringItem.unprintable] at hitem
  | unit u hu => simp [StringItem.unprintable] at hitem
  | pair high low hhigh hlow => simp [StringItem.unprintable] at hitem

end Scan

theorem length_delivered_le (t : StringToken) :
    (t.flatMap StringItem.delivered).length ≤ t.denoted.length := by
  induction t with
  | nil => exact le_rfl
  | cons item t ih =>
    have hitem : item.delivered.length ≤ (String.utf8EncodeChar item.char).length := by
      rw [StringItem.delivered]
      split_ifs
      · exact Nat.zero_le _
      · exact le_rfl
    rw [StringToken.denoted, List.flatMap_cons, List.flatMap_cons, List.length_append,
      List.length_append]
    exact Nat.add_le_add hitem ih

/-- A pair of surrogates is missing from what is delivered. -/
theorem delivered_eq_denoted_iff (t : StringToken) :
    t.flatMap StringItem.delivered = t.denoted ↔ ∀ item ∈ t, ¬ item.surrogates := by
  induction t with
  | nil => exact iff_of_true rfl (by simp)
  | cons item t ih =>
    rw [List.forall_mem_cons, StringToken.denoted, List.flatMap_cons, List.flatMap_cons, ← ih]
    by_cases hpair : item.surrogates
    · rw [StringItem.delivered, if_pos hpair, List.nil_append]
      refine iff_of_false (fun heq => ?_) fun h => h.1 hpair
      have hle := length_delivered_le t
      have hpos := List.length_pos_of_ne_nil (String.utf8EncodeChar_ne_nil (c := item.char))
      rw [heq, List.length_append, StringToken.denoted] at hle
      omega
    · rw [StringItem.delivered, if_neg hpair, List.append_right_inj, and_iff_right hpair]
      rfl

theorem writeLoop_of_eats {utf : Nat → List UInt8} {p p' : ParserImpl} {r r' : Record}
    {s : List UInt8} (h : Eats utf p r s p' r') : writeLoop utf p r s = .ok (p', r', s.length) := by
  have hloop := writeLoop_eats h []
  rw [List.append_nil] at hloop
  rw [hloop]
  simp [writeLoop, Except.map]

section Delivers

variable {utf : Nat → List UInt8} (hutf : DecodesUnits utf) {t : StringToken}
include hutf

theorem eats_value (h : ∀ item ∈ t, ¬ item.unprintable) :
    Eats utf (.any true) .empty t.text (.any false)
      (.mk [.str (t.flatMap StringItem.delivered)] []) := by
  obtain ⟨hex, heats⟩ := scan_items hutf h .empty
  have hopen : Eats utf (.any true) .empty [chr '"'] (.str .init) .empty := eats_any rfl .empty
  have hclose : Eats utf (.str ⟨false, hex, t.flatMap StringItem.delivered⟩) .empty [chr '"']
      (.any false) (.mk [.str (t.flatMap StringItem.delivered)] []) :=
    Eats.one rfl (feed_of_parse1 rfl)
  exact hopen.append (heats.append hclose)

theorem eats_key_token (h : ∀ item ∈ t, ¬ item.unprintable) :
    ∃ p : StringParser, p.str = t.flatMap StringItem.delivered ∧
      Eats utf (.obj none none true) .empty t.text (.obj (some ⟨p, false⟩) none false) .empty := by
  obtain ⟨hex, hscan⟩ := t.scan hutf h [] []
  have hopen : Eats utf (.obj none none true) .empty [chr '"']
      (.obj (some ⟨.init, true⟩) none false) .empty := by
    refine Eats.one rfl (feed_of_parse1 ?_)
    rw [parse1, if_neg (by simp [show chr '"' ≠ chr '}' by decide]), if_pos rfl]
  have hclose : Eats utf
      (.obj (some ⟨⟨false, hex, t.flatMap StringItem.delivered⟩, true⟩) none false) .empty
      [chr '"'] (.obj (some ⟨⟨false, hex, t.flatMap StringItem.delivered⟩, false⟩) none false)
      .empty := Eats.one rfl (feed_of_parse1 rfl)
  exact ⟨_, rfl, hopen.append ((eats_key hscan).append hclose)⟩

end Delivers

/-- A string is read as the text that it denotes exactly when every character in it that is not
escaped is printable in US-ASCII, and none is written as a pair of surrogates. -/
theorem string_delivered_iff {utf : Nat → List UInt8} (hutf : DecodesUnits utf) (t : StringToken) :
    Delivers utf t ↔ ∀ item ∈ t, ¬ item.unprintable ∧ ¬ item.surrogates := by
  rw [forall₂_and, ← delivered_eq_denoted_iff]
  by_cases hplain : ∀ item ∈ t, ¬ item.unprintable
  · have hvalue := writeLoop_of_eats (eats_value hutf hplain)
    rw [and_iff_right hplain]
    constructor
    · intro h
      have hwrite := h.value
      rw [write_any, hvalue] at hwrite
      simpa [Except.map] using hwrite
    · intro heq
      obtain ⟨p, hp, hkey⟩ := eats_key_token hutf hplain
      rw [heq] at hvalue hp
      exact ⟨by rw [write_any, hvalue]; rfl, p, hp, writeLoop_of_eats hkey⟩
  · refine iff_of_false (fun h => ?_) fun h => hplain h.1
    have hbad : ∃ item ∈ t, item.unprintable := by simpa using hplain
    have hopen : Eats utf (.any true) .empty [chr '"'] (.str .init) .empty := eats_any rfl .empty
    have hfails := (hopen.fails (fails_of_unprintable hutf hbad .empty)).append [chr '"']
    have hwrite := h.value
    have htext : t.text = [chr '"'] ++ t.body ++ [chr '"'] := by simp [StringToken.text]
    have hthrows := writeLoop_fails hfails []
    rw [List.append_nil] at hthrows
    rw [write_any, htext, hthrows] at hwrite
    cases hwrite

theorem utf8_decodesUnits : DecodesUnits utf8 where
  char c hc := by
    have hval : c.val.toNat = c.toNat := rfl
    have hvalid := c.valid
    simp only [UInt32.isValidChar, Nat.isValidChar, hval] at hvalid
    unfold utf8 String.utf8EncodeChar
    simp only [hval]
    by_cases hone : c.toNat < 0x80
    · rw [if_pos hone, if_pos (by omega)]
    by_cases htwo : c.toNat < 0x800
    · have hlead : c.toNat / 64 % 32 = c.toNat / 64 := by omega
      rw [if_neg hone, if_pos htwo, if_neg (by omega), if_pos (by omega), hlead, Nat.add_comm,
        Nat.add_comm (c.toNat % 64)]
    · have hlead : c.toNat / 4096 % 16 = c.toNat / 4096 := by omega
      rw [if_neg hone, if_neg htwo, if_neg (by omega), if_neg (by omega), if_neg (by omega),
        if_pos (by omega), hlead, Nat.add_comm, Nat.add_comm (c.toNat / 64 % 64),
        Nat.add_comm (c.toNat % 64)]
  surrogate n hlow hhigh := by
    rw [utf8, if_neg (by omega), if_neg (by omega), if_pos ⟨hlow, hhigh⟩]

/-- A letter and a line feed. -/
theorem string_delivered_iff_of_escape :
    Delivers utf8 [.plain 'a' (by decide), .escape .n] ↔
      ∀ item ∈ [StringItem.plain 'a' (by decide), .escape .n],
        ¬ item.unprintable ∧ ¬ item.surrogates :=
  string_delivered_iff utf8_decodesUnits _

def grinningFace : StringItem :=
  .pair ⟨octets "D83D", rfl, by decide +kernel⟩ ⟨octets "DE00", rfl, by decide +kernel⟩
    (by decide +kernel) (by decide +kernel)

/-- An accented letter is refused, and what is written as a pair of surrogates is left out. -/
theorem not_delivers_of_accent :
    DecodesUnits utf8 ∧ ¬ Delivers utf8 [.plain 'é' (by decide)] ∧
      ¬ Delivers utf8 [grinningFace] := by
  refine ⟨utf8_decodesUnits, fun h => ?_, fun h => ?_⟩
  · have hwrite : write utf8 (.any true) .empty
        (StringToken.text [.plain 'é' (by decide)]) = .error .syntaxError := rfl
    rw [h.value] at hwrite
    cases hwrite
  · have hwrite : write utf8 (.any true) .empty (StringToken.text [grinningFace]) =
        .ok (.any false, .mk [.str []] [], 14) := rfl
    rw [h.value] at hwrite
    cases hwrite

end Json

end Acqua
