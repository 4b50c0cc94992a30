import Acqua.Email.ReadableValues
import Acqua.Email.Unfolding

/-! What the header parser keeps of a block of fields. -/

namespace Acqua

namespace Email

/-- A field as it is written: the text after the colon, and the lines that continue it. -/
structure Field where
  name : List UInt8
  text : List UInt8
  conts : List (List UInt8)
  name_ne_nil : name ≠ []
  colon_notMem : chr ':' ∉ name
  name_head : ∀ ch ∈ name.head?, ¬ isspace ch
  text_clean : Clean text
  conts_clean : ∀ cont ∈ conts, Clean cont
  conts_blank : ∀ cont ∈ conts, ∃ ch rest, cont = ch :: rest ∧ isspace ch
  value_ne_nil : (unfoldText (text ++ conts.flatMap (crlf ++ ·))).dropWhile isspace ≠ []

namespace Field

def lines (field : Field) : List (List UInt8) :=
  (field.name ++ chr ':' :: field.text) :: field.conts

/-- The text after the colon without its line breaks, from the first character on that is no
blank. -/
def value (field : Field) : List UInt8 :=
  (unfoldText (field.text ++ field.conts.flatMap (crlf ++ ·))).dropWhile isspace

end Field

/-- A block of fields and the empty line after it. -/
def headerBlock (fields : List Field) : List (List UInt8) := fields.flatMap Field.lines ++ [[]]

variable (L : Locale)

/-- What is stored of a field in a disposition. -/
def storeValue (name value : List UInt8) (disp : Disposition) : Option Disposition :=
  if istartsWith name (octets "Content-") then decodeMimeheader L value disp
  else (rfc2047Decode L value).map fun s => { disp with str := disp.str ++ s }

/-- The entry of a field of its own with some value. -/
def Field.entryOf (field : Field) (value : List UInt8) : Option (List UInt8 × Disposition) :=
  (storeValue L field.name value ⟨[], []⟩).map fun disp => (field.name, disp)

def Field.entry (field : Field) : Option (List UInt8 × Disposition) :=
  field.entryOf L field.value

/-- The headers hold one entry for each field, those of one name together and in their order. -/
structure HoldsFields (entries headers : Headers) : Prop where
  perm : headers.Perm entries
  order : ∀ name, headers.filter (fun elem => iequals elem.1 name) =
    entries.filter fun elem => iequals elem.1 name
  contiguous : ∀ pre mid post e e', headers = pre ++ e :: (mid ++ e' :: post) →
    iequals e.1 e'.1 → ∀ elem ∈ mid, iequals elem.1 e'.1

/-- A block is read without loss. -/
def ReadsFields (fields : List Field) : Prop :=
  ∃ entries headers, fields.mapM (Field.entry L) = some entries ∧
    HeaderParser.init.parse L (decodeMimeheader L) [] (headerBlock fields) = some headers ∧
    HoldsFields entries headers

/-- What is appended to `params_` for a line of a field. -/
def addSegment (params segment : List UInt8) : List UInt8 :=
  (if params = [] then [] else params ++ [chr ' ']) ++ segment.dropWhile isspace

/-- What `params_` holds behind the last line of a field. -/
def Field.params (field : Field) : List UInt8 :=
  (field.text :: field.conts).foldl addSegment []

/-- The entry that the parser makes of a field of its own. -/
def Field.stored (field : Field) : Option (List UInt8 × Disposition) :=
  field.entryOf L field.params

/-- A line that continues a value and is one blank longer than its text. -/
def OneBlank (cont : List UInt8) : Prop :=
  ∃ rest, cont = chr ' ' :: rest ∧ ∀ ch ∈ rest.head?, ¬ isspace ch

/-- Behind the first line that is not blank every line begins with one blank. -/
def Field.OneBlankFolds (field : Field) : Prop :=
  ∀ cont ∈ ((field.text :: field.conts).dropWhile (·.all isspace)).tail, OneBlank cont

section Value

theorem foldl_addSegment {params : List UInt8} (hparams : params ≠ [])
    (segments : List (List UInt8)) :
    segments.foldl addSegment params =
      params ++ segments.flatMap fun segment => chr ' ' :: segment.dropWhile isspace := by
  induction segments generalizing params with
  | nil => simp
  | cons segment segments ih =>
    rw [List.foldl_cons, addSegment, if_neg hparams, ih (by simp [hparams])]
    simp

theorem addSegment_nil (segment : List UInt8) :
    addSegment [] segment = segment.dropWhile isspace := rfl

/-- A line that continues a value, as it is unfolded. -/
def unfoldLine : List UInt8 → List UInt8
  | [] => crlf
  | ch :: rest => if ch = chr ' ' ∨ ch = chr '\t' then ch :: rest else crlf ++ ch :: rest

theorem unfoldText_line {cont : List UInt8} (hclean : Clean cont) (hne : cont ≠ [])
    (text : List UInt8) :
    unfoldText (crlf ++ (cont ++ text)) = unfoldLine cont ++ unfoldText text := by
  obtain ⟨ch, rest, rfl⟩ := List.exists_cons_of_ne_nil hne
  have hrest : Clean rest := fun c hc => hclean c (List.mem_cons_of_mem ch hc)
  rw [unfoldLine]
  split_ifs with hch
  · have hgap : ∀ c ∈ [ch], c = chr ' ' ∨ c = chr '\t' := by simpa using hch
    have hfold := unfoldText_fold (List.cons_ne_nil ch []) hgap (rest ++ text)
    rw [unfoldText_clean hrest] at hfold
    exact hfold
  · have hcrlf : crlf ++ (ch :: rest ++ text) =
        chr '\r' :: chr '\n' :: ch :: (rest ++ text) := rfl
    have htext := unfoldText_clean hclean text
    rw [hcrlf, unfoldText, if_neg fun h => hch h.2.2, unfoldText_cons (by decide)]
    rw [List.cons_append] at htext
    rw [htext]
    rfl

theorem Field.conts_ne_nil (field : Field) : ∀ cont ∈ field.conts, cont ≠ [] := by
  intro cont hcont
  obtain ⟨ch, rest, rfl, -⟩ := field.conts_blank cont hcont
  exact List.cons_ne_nil ch rest

theorem unfoldText_conts {conts : List (List UInt8)} (hclean : ∀ cont ∈ conts, Clean cont)
    (hne : ∀ cont ∈ conts, cont ≠ []) :
    unfoldText (conts.flatMap (crlf ++ ·)) = conts.flatMap unfoldLine := by
  induction conts with
  | nil => rfl
  | cons cont conts ih =>
    obtain ⟨hfirst, hrest⟩ := List.forall_mem_cons.mp hclean
    obtain ⟨hcont, hconts⟩ := List.forall_mem_cons.mp hne
    rw [List.flatMap_cons, List.append_assoc, unfoldText_line hfirst hcont, ih hrest hconts,
      List.flatMap_cons]

theorem Field.value_eq (field : Field) :
    field.value = (field.text ++ field.conts.flatMap unfoldLine).dropWhile isspace := by
  rw [Field.value, unfoldText_clean field.text_clean,
    unfoldText_conts field.conts_clean field.conts_ne_nil]

/-- The blanks at the beginning of a line are more than one, or another one. -/
theorem unfoldLine_spec {cont : List UInt8} (h : ∃ ch rest, cont = ch :: rest ∧ isspace ch) :
    (chr ' ' :: cont.dropWhile isspace).length ≤ (unfoldLine cont).length ∧
      (chr ' ' :: cont.dropWhile isspace = unfoldLine cont ↔ OneBlank cont) ∧
      (unfoldLine cont).dropWhile isspace = cont.dropWhile isspace := by
  obtain ⟨ch, rest, rfl, hspace⟩ := h
  have hdrop : (ch :: rest).dropWhile isspace = rest.dropWhile isspace :=
    List.dropWhile_cons_of_pos hspace
  have hlength := List.length_dropWhile_le isspace rest
  have hone : OneBlank (ch :: rest) ↔ ch = chr ' ' ∧ rest.dropWhile isspace = rest := by
    constructor
    · rintro ⟨_, heq, hhead⟩
      obtain ⟨rfl, rfl⟩ := List.cons.inj heq
      exact ⟨rfl, HeaderParser.dropWhile_head hhead⟩
    · rintro ⟨rfl, hrest⟩
      refine ⟨rest, rfl, fun c hc hc' => ?_⟩
      obtain ⟨more, rfl⟩ := List.head?_eq_some_iff.mp hc
      have hle := List.length_dropWhile_le isspace more
      rw [List.dropWhile_cons_of_pos hc'] at hrest
      have := congrArg List.length hrest
      rw [List.length_cons] at this
      omega
  rw [hdrop, hone, unfoldLine]
  split_ifs with hch
  · refine ⟨by simpa using hlength, ?_, hdrop⟩
    rw [List.cons.injEq]
    exact and_congr_left fun _ => eq_comm
  · have hcrlf : crlf ++ ch :: rest = chr '\r' :: chr '\n' :: ch :: rest := rfl
    have hblanks : isspace (chr '\r') ∧ isspace (chr '\n') := by decide
    rw [hcrlf]
    refine ⟨?_, ?_, ?_⟩
    · simp only [List.length_cons]
      omega
    · refine iff_of_false (fun heq => ?_) fun h => hch (.inl h.1)
      exact absurd (List.cons.inj heq).1 (by decide)
    · rw [List.dropWhile_cons_of_pos hblanks.1, List.dropWhile_cons_of_pos hblanks.2, hdrop]

/-- Texts of which each piece is at least as long as another one are equal piece by piece. -/
theorem flatMap_eq_flatMap_iff {α β : Type*} {f g : α → List β} {l : List α}
    (h : ∀ a ∈ l, (f a).length ≤ (g a).length) :
    l.flatMap f = l.flatMap g ↔ ∀ a ∈ l, f a = g a := by
  induction l with
  | nil => simp
  | cons a l ih =>
    obtain ⟨hfirst, hrest⟩ := List.forall_mem_cons.mp h
    have hlength : (l.flatMap f).length ≤ (l.flatMap g).length := by
      rw [List.length_flatMap, List.length_flatMap]
      exact List.sum_le_sum hrest
    rw [List.flatMap_cons, List.flatMap_cons, List.forall_mem_cons, ← ih hrest]
    constructor
    · intro heq
      have htotal := congrArg List.length heq
      rw [List.length_append, List.length_append] at htotal
      exact List.append_inj heq (by omega)
    · rintro ⟨ha, hl⟩
      rw [ha, hl]

theorem all_isspace_iff (text : List UInt8) :
    text.all isspace = true ↔ text.dropWhile isspace = [] := by
  rw [List.dropWhile_eq_nil_iff, List.all_eq_true]

/-- What the parser keeps is the unfolded text exactly where every line is one blank longer. -/
theorem foldl_addSegment_eq_iff {text : List UInt8} {conts : List (List UInt8)}
    (hblank : ∀ cont ∈ conts, ∃ ch rest, cont = ch :: rest ∧ isspace ch) :
    ((text :: conts).foldl addSegment [] ≠ [] ↔
        (text ++ conts.flatMap unfoldLine).dropWhile isspace ≠ []) ∧
      ((text :: conts).foldl addSegment [] = (text ++ conts.flatMap unfoldLine).dropWhile isspace ↔
        ∀ cont ∈ ((text :: conts).dropWhile (·.all isspace)).tail, OneBlank cont) := by
  induction conts generalizing text with
  | nil => by_cases hall : text.all isspace = true <;> simp [addSegment_nil, hall]
  | cons cont conts ih =>
    obtain ⟨hfirst, hrest⟩ := List.forall_mem_cons.mp hblank
    by_cases hall : text.all isspace = true
    · have htext := (all_isspace_iff text).mp hall
      have hskip : (text ++ (cont :: conts).flatMap unfoldLine).dropWhile isspace =
          (cont ++ conts.flatMap unfoldLine).dropWhile isspace := by
        rw [List.dropWhile_append_of_pos (List.all_eq_true.mp hall), List.flatMap_cons,
          List.dropWhile_append, (unfoldLine_spec hfirst).2.2, ← List.dropWhile_append]
      rw [List.foldl_cons, addSegment_nil, htext, hskip,
        List.dropWhile_cons_of_pos (p := fun line : List UInt8 => line.all isspace) hall]
      exact ih hrest
    · have hne : text.dropWhile isspace ≠ [] := fun h => hall ((all_isspace_iff text).mpr h)
      have hkept : (text :: cont :: conts).foldl addSegment [] = text.dropWhile isspace ++
          (cont :: conts).flatMap fun c => chr ' ' :: c.dropWhile isspace := by
        rw [List.foldl_cons, addSegment_nil, foldl_addSegment hne]
      have hvalue : (text ++ (cont :: conts).flatMap unfoldLine).dropWhile isspace =
          text.dropWhile isspace ++ (cont :: conts).flatMap unfoldLine := by
        rw [List.dropWhile_append, if_neg (by simpa using hne)]
      have hlength : ∀ c ∈ cont :: conts,
          (chr ' ' :: c.dropWhile isspace).length ≤ (unfoldLine c).length :=
        fun c hc => (unfoldLine_spec (hblank c hc)).1
      rw [hkept, hvalue, List.append_cancel_left_eq, flatMap_eq_flatMap_iff hlength,
        List.dropWhile_cons_of_neg (p := fun line : List UInt8 => line.all isspace) hall,
        List.tail_cons]
      refine ⟨iff_of_true (List.append_ne_nil_of_left_ne_nil hne _)
        (List.append_ne_nil_of_left_ne_nil hne _), forall₂_congr fun c hc => ?_⟩
      exact (unfoldLine_spec (hblank c hc)).2.1

theorem Field.params_eq_value_iff (field : Field) :
    field.params = field.value ↔ field.OneBlankFolds := by
  rw [field.value_eq]
  exact (foldl_addSegment_eq_iff field.conts_blank).2

theorem Field.params_ne_nil (field : Field) : field.params ≠ [] := by
  have hvalue : field.value ≠ [] := field.value_ne_nil
  rw [field.value_eq] at hvalue
  exact (foldl_addSegment_eq_iff field.conts_blank).1.mpr hvalue

end Value

namespace HeaderParser

variable {L} {decodeParams : List UInt8 → Disposition → Option Disposition}

theorem parse_conts {conts : List (List UInt8)}
    (hconts : ∀ cont ∈ conts, ∃ ch rest, cont = ch :: rest ∧ isspace ch) (p : HeaderParser)
    (headers : Headers) (rest : List (List UInt8)) :
    p.parse L decodeParams headers (conts ++ rest) =
      parse L decodeParams ⟨p.name, conts.foldl addSegment p.params⟩ headers rest := by
  induction conts generalizing p with
  | nil => rfl
  | cons cont conts ih =>
    obtain ⟨ch, text, rfl, hch⟩ := hconts cont List.mem_cons_self
    have hunfold : p.unfold (ch :: text) = ⟨p.name, addSegment p.params (ch :: text)⟩ := by
      rw [unfold, addSegment, List.tail_cons, List.dropWhile_cons_of_pos hch]
    rw [List.cons_append, parse, line_blank L decodeParams hch, hunfold, Option.bind_eq_bind,
      Option.bind_some, if_neg Bool.false_ne_true, ih fun c hc => hconts c (List.mem_cons_of_mem _ hc)]
    rfl

theorem parse_field_lines (field : Field) (p : HeaderParser) (headers : Headers)
    (rest : List (List UInt8)) :
    p.parse L decodeParams headers (field.lines ++ rest) =
      (p.append L decodeParams headers).bind fun headers =>
        parse L decodeParams ⟨field.name, field.params⟩ headers rest := by
  have hparams : field.conts.foldl addSegment (field.text.dropWhile isspace) = field.params := rfl
  rw [Field.lines, List.cons_append, parse,
    line_name L decodeParams field.name_ne_nil field.colon_notMem field.name_head]
  cases p.append L decodeParams headers with
  | none => rfl
  | some headers =>
    rw [Option.map_some, Option.bind_eq_bind, Option.bind_some, if_neg Bool.false_ne_true,
      parse_conts field.conts_blank, hparams, Option.bind_some]

theorem append_field (field : Field) (headers : Headers) :
    append L (decodeMimeheader L) ⟨field.name, field.params⟩ headers =
      headers.update (storeValue L field.name field.params) field.name :=
  if_pos ⟨field.name_ne_nil, field.params_ne_nil⟩

theorem parse_headerBlock (fields : List Field) (p : HeaderParser) (headers : Headers) :
    p.parse L (decodeMimeheader L) headers (headerBlock fields) =
      (p.append L (decodeMimeheader L) headers).bind fun headers =>
        fields.foldlM (fun headers field =>
          headers.update (storeValue L field.name field.params) field.name) headers := by
  induction fields generalizing p headers with
  | nil =>
    rw [headerBlock, List.flatMap_nil, List.nil_append, parse, line]
    cases p.append L (decodeMimeheader L) headers <;> rfl
  | cons field fields ih =>
    have hblock : headerBlock (field :: fields) = field.lines ++ headerBlock fields := by
      simp [headerBlock]
    rw [hblock, parse_field_lines]
    congr 1
    funext headers
    rw [ih, append_field, List.foldlM_cons]
    rfl

end HeaderParser

section Store

theorem iequals_iff {lhs rhs : List UInt8} :
    iequals lhs rhs = true ↔ lhs.map toupper = rhs.map toupper := by
  rw [iequals, decide_eq_true_eq]

namespace Headers

variable {f : Disposition → Option Disposition} {name : List UInt8}

theorem update_of_new {headers : Headers} (h : ∀ elem ∈ headers, ¬ iequals elem.1 name) :
    headers.update f name = (f ⟨[], []⟩).map fun disp => headers ++ [(name, disp)] := by
  induction headers with
  | nil => rfl
  | cons elem headers ih =>
    rw [update, if_neg (h elem List.mem_cons_self),
      ih fun elem helem => h elem (List.mem_cons_of_mem _ helem)]
    cases f ⟨[], []⟩ <;> rfl

theorem length_update_of_found {headers headers' : Headers}
    (h : ∃ elem ∈ headers, iequals elem.1 name) (hupdate : headers.update f name = some headers') :
    headers'.length = headers.length := by
  induction headers generalizing headers' with
  | nil => simp at h
  | cons elem headers ih =>
    rw [update] at hupdate
    by_cases helem : iequals elem.1 name
    · rw [if_pos helem] at hupdate
      obtain ⟨disp, -, rfl⟩ := Option.map_eq_some_iff.mp hupdate
      rfl
    · rw [if_neg helem] at hupdate
      obtain ⟨rest, hrest, rfl⟩ := Option.map_eq_some_iff.mp hupdate
      obtain ⟨found, hfound, hname⟩ := h
      rcases List.mem_cons.mp hfound with rfl | hmem
      · exact absurd hname helem
      · rw [List.length_cons, List.length_cons, ih ⟨found, hmem, hname⟩ hrest]

end Headers

/-- Stores fields one after the other. -/
def storeFields (fields : List Field) (headers : Headers) : Option Headers :=
  fields.foldlM (fun headers field =>
    headers.update (storeValue L field.name field.params) field.name) headers

/-- No two fields have a name in common. -/
def DistinctNames (fields : List Field) : Prop :=
  fields.Pairwise fun field field' => ¬ iequals field.name field'.name

variable {L}

theorem length_storeFields {fields : List Field} {headers headers' : Headers}
    (h : storeFields L fields headers = some headers') :
    headers'.length ≤ headers.length + fields.length ∧
      (headers'.length = headers.length + fields.length →
        (∀ field ∈ fields, ∀ elem ∈ headers, ¬ iequals elem.1 field.name) ∧
          DistinctNames fields) := by
  induction fields generalizing headers with
  | nil =>
    obtain rfl := Option.some.inj h
    exact ⟨le_rfl, fun _ => ⟨by simp, List.Pairwise.nil⟩⟩
  | cons field fields ih =>
    rw [storeFields, List.foldlM_cons] at h
    obtain ⟨next, hnext, hrest⟩ := Option.bind_eq_some_iff.mp h
    obtain ⟨hle, heq⟩ := ih hrest
    rw [List.length_cons]
    by_cases hfound : ∃ elem ∈ headers, iequals elem.1 field.name
    · have hlength := Headers.length_update_of_found hfound hnext
      exact ⟨by omega, fun h => by omega⟩
    · have hnew : ∀ elem ∈ headers, ¬ iequals elem.1 field.name :=
        fun elem helem hname => hfound ⟨elem, helem, hname⟩
      rw [Headers.update_of_new hnew] at hnext
      obtain ⟨disp, -, rfl⟩ := Option.map_eq_some_iff.mp hnext
      rw [List.length_append, List.length_singleton] at hle heq
      refine ⟨by omega, fun h => ?_⟩
      obtain ⟨hothers, hdistinct⟩ := heq (by omega)
      refine ⟨fun field' hfield' elem helem => ?_, List.Pairwise.cons (fun field' hfield' => ?_)
        hdistinct⟩
      · rcases List.mem_cons.mp hfield' with rfl | hmem
        · exact hnew elem helem
        · exact hothers field' hmem elem (List.mem_append_left _ helem)
      · exact hothers field' hfield' (field.name, disp) (by simp)

theorem storeFields_of_distinct {fields : List Field} {headers : Headers}
    (hnew : ∀ field ∈ fields, ∀ elem ∈ headers, ¬ iequals elem.1 field.name)
    (hdistinct : DistinctNames fields) :
    storeFields L fields headers =
      (fields.mapM (Field.stored L)).map fun entries => headers ++ entries := by
  induction fields generalizing headers with
  | nil => simp [storeFields]
  | cons field fields ih =>
    obtain ⟨hfirst, hrest⟩ := List.pairwise_cons.mp hdistinct
    rw [storeFields, List.foldlM_cons, Headers.update_of_new (hnew field List.mem_cons_self),
      List.mapM_cons, Field.stored, Field.entryOf]
    cases storeValue L field.name field.params ⟨[], []⟩ with
    | none => rfl
    | some disp =>
      have hnext : ∀ field' ∈ fields, ∀ elem ∈ headers ++ [(field.name, disp)],
          ¬ iequals elem.1 field'.name := by
        intro field' hfield' elem helem
        rcases List.mem_append.mp helem with hmem | hmem
        · exact hnew field' (List.mem_cons_of_mem _ hfield') elem hmem
        · rw [List.mem_singleton.mp hmem]
          exact hfirst field' hfield'
      have hstore := ih hnext hrest
      rw [storeFields] at hstore
      simp only [Option.map_some, Option.bind_eq_bind, Option.bind_some, hstore]
      cases fields.mapM (Field.stored L) with
      | none => rfl
      | some entries => simp

section Entries

variable {f g : Field → Option (List UInt8 × Disposition)}

theorem mapM_fields_eq_some {fields : List Field} {entries : Headers} :
    fields.mapM f = some entries ↔
      List.Forall₂ (fun field elem => f field = some elem) fields entries := by
  induction fields generalizing entries with
  | nil => simp [eq_comm]
  | cons field fields ih =>
    rw [List.mapM_cons]
    constructor
    · intro h
      obtain ⟨elem, helem, hrest⟩ := Option.bind_eq_some_iff.mp h
      obtain ⟨entries', hentries', heq⟩ := Option.bind_eq_some_iff.mp hrest
      rw [← Option.some.inj heq]
      exact List.Forall₂.cons helem (ih.mp hentries')
    · rintro (_ | ⟨helem, hrest⟩)
      rw [helem, ih.mpr hrest]
      rfl

theorem exists_entries {fields : List Field} (h : ∀ field ∈ fields, (f field).isSome) :
    ∃ entries, fields.mapM f = some entries := by
  induction fields with
  | nil => exact ⟨[], rfl⟩
  | cons field fields ih =>
    obtain ⟨elem, helem⟩ := Option.isSome_iff_exists.mp (h field List.mem_cons_self)
    obtain ⟨entries, hentries⟩ := ih fun f hf => h f (List.mem_cons_of_mem _ hf)
    exact ⟨elem :: entries, mapM_fields_eq_some.mpr
      (List.Forall₂.cons helem (mapM_fields_eq_some.mp hentries))⟩

theorem mapM_fields_congr {fields : List Field} (h : ∀ field ∈ fields, f field = g field) :
    fields.mapM f = fields.mapM g := by
  induction fields with
  | nil => rfl
  | cons field fields ih =>
    obtain ⟨hfirst, hrest⟩ := List.forall_mem_cons.mp h
    rw [List.mapM_cons, List.mapM_cons, hfirst, ih hrest]

theorem mem_entries_of_mem {fields : List Field} {entries : Headers}
    (h : fields.mapM f = some entries) {field : Field} (hfield : field ∈ fields) :
    ∃ elem ∈ entries, f field = some elem := by
  induction mapM_fields_eq_some.mp h with
  | nil => exact absurd hfield List.not_mem_nil
  | cons hentry hrest ih =>
    rcases List.mem_cons.mp hfield with rfl | hmem
    · exact ⟨_, List.mem_cons_self, hentry⟩
    · obtain ⟨elem, helem, heq⟩ := ih (mapM_fields_eq_some.mpr hrest) hmem
      exact ⟨elem, List.mem_cons_of_mem _ helem, heq⟩

theorem exists_field_of_mem {fields : List Field} {entries : Headers}
    (h : fields.mapM f = some entries) {elem : List UInt8 × Disposition} (helem : elem ∈ entries) :
    ∃ field ∈ fields, f field = some elem := by
  induction mapM_fields_eq_some.mp h with
  | nil => exact absurd helem List.not_mem_nil
  | cons hentry hrest ih =>
    rcases List.mem_cons.mp helem with rfl | hmem
    · exact ⟨_, List.mem_cons_self, hentry⟩
    · obtain ⟨field, hfield, heq⟩ := ih (mapM_fields_eq_some.mpr hrest) hmem
      exact ⟨field, List.mem_cons_of_mem _ hfield, heq⟩

end Entries

theorem Field.name_of_entryOf {field : Field} {value : List UInt8}
    {elem : List UInt8 × Disposition} (h : field.entryOf L value = some elem) :
    elem.1 = field.name := by
  obtain ⟨disp, -, rfl⟩ := Option.map_eq_some_iff.mp h
  rfl

theorem names_of_mapM {fields : List Field} {entries : Headers}
    (h : fields.mapM (Field.entry L) = some entries) :
    entries.map Prod.fst = fields.map Field.name := by
  induction mapM_fields_eq_some.mp h with
  | nil => rfl
  | cons hentry hrest ih =>
    rw [List.map_cons, List.map_cons, ih (mapM_fields_eq_some.mpr hrest),
      Field.name_of_entryOf hentry]

theorem holdsFields_of_distinct {fields : List Field} (hdistinct : DistinctNames fields)
    {entries : Headers} (h : fields.mapM (Field.entry L) = some entries) :
    HoldsFields entries entries := by
  have hnames := names_of_mapM h
  have hpairwise : entries.Pairwise fun elem elem' => ¬ iequals elem.1 elem'.1 := by
    have hmap : (entries.map Prod.fst).Pairwise fun name name' => ¬ iequals name name' := by
      rw [hnames, List.pairwise_map]
      exact hdistinct
    exact List.pairwise_map.mp hmap
  refine ⟨List.Perm.refl _, fun _ => rfl, ?_⟩
  rintro pre mid post e e' rfl hsame
  have hsuffix := (List.pairwise_append.mp hpairwise).2.1
  exact absurd hsame ((List.pairwise_cons.mp hsuffix).1 e' (by simp))

theorem parse_headerBlock_init (fields : List Field) :
    HeaderParser.init.parse L (decodeMimeheader L) [] (headerBlock fields) =
      storeFields L fields [] := HeaderParser.parse_headerBlock fields .init []

theorem eq_of_distinct {fields : List Field} (hdistinct : DistinctNames fields)
    {field field' : Field} (hfield : field ∈ fields) (hfield' : field' ∈ fields)
    (hname : field.name = field'.name) : field = field' := by
  by_contra hne
  have hsymm : Std.Symm fun field field' : Field => ¬ iequals field.name field'.name := by
    refine ⟨fun field field' h => ?_⟩
    rw [iequals_iff] at h ⊢
    exact fun heq => h heq.symm
  exact hdistinct.forall hfield hfield' hne (iequals_iff.mpr (by rw [hname]))

/-- A block is read without loss exactly when its names are different up to their case, and what
the parser stores of each field is what is stored of its unfolded value. -/
theorem readsFields_iff_stored (fields : List Field) :
    ReadsFields L fields ↔ DistinctNames fields ∧
      ∀ field ∈ fields, (field.entry L).isSome ∧ field.stored L = field.entry L := by
  constructor
  · rintro ⟨entries, headers, hentries, hparse, hholds⟩
    rw [parse_headerBlock_init] at hparse
    have hlength : headers.length = ([] : Headers).length + fields.length := by
      rw [hholds.perm.length_eq, ← (mapM_fields_eq_some.mp hentries).length_eq]
      exact (Nat.zero_add _).symm
    have hdistinct : DistinctNames fields := ((length_storeFields hparse).2 hlength).2
    rw [storeFields_of_distinct (by simp) hdistinct] at hparse
    obtain ⟨stored, hstored, rfl⟩ := Option.map_eq_some_iff.mp hparse
    rw [List.nil_append] at hholds
    refine ⟨hdistinct, fun field hfield => ?_⟩
    obtain ⟨elem, helem, hfieldStored⟩ := mem_entries_of_mem hstored hfield
    obtain ⟨field', hfield', hentry⟩ :=
      exists_field_of_mem hentries (hholds.perm.subset helem)
    have hname : field.name = field'.name :=
      (Field.name_of_entryOf hfieldStored).symm.trans (Field.name_of_entryOf hentry)
    obtain rfl := eq_of_distinct hdistinct hfield hfield' hname
    exact ⟨Option.isSome_iff_exists.mpr ⟨elem, hentry⟩, hfieldStored.trans hentry.symm⟩
  · rintro ⟨hdistinct, hstored⟩
    obtain ⟨entries, hentries⟩ := exists_entries fun field hfield => (hstored field hfield).1
    refine ⟨entries, entries, hentries, ?_, holdsFields_of_distinct hdistinct hentries⟩
    rw [parse_headerBlock_init, storeFields_of_distinct (by simp) hdistinct,
      mapM_fields_congr fun field hfield => (hstored field hfield).2, hentries]
    rfl

end Store

section Plain

variable {L}

theorem isSome_entryOf (hL : L.toUtf [] [] = some []) {field : Field} {value : List UInt8}
    (h : ReadableValue L field.name value) : (field.entryOf L value).isSome := by
  rw [Field.entryOf, Option.isSome_map, storeValue]
  unfold ReadableValue at h
  split_ifs at h ⊢
  · exact isSome_decodeMimeheader hL h.1 h.2.1 h.2.2
  · rw [Option.isSome_map]
    exact isSome_rfc2047Decode hL h

/-- There is no encoded word in a text. -/
def HasNoWord (str : List UInt8) : Prop := (findWords str.length str).1 = []

/-- A field that is stored as it stands: no encoded word, and no parameters. -/
structure Field.Plain (field : Field) : Prop where
  name : ¬ istartsWith field.name (octets "Content-")
  params : HasNoWord field.params
  value : HasNoWord field.value

theorem rfc2047Decode_of_hasNoWord {str : List UInt8} (h : HasNoWord str) :
    rfc2047Decode L str = (L.toUtf [] []).map fun out => out ++ str := by
  have htext := findWords_text str.length str
  rw [h] at htext
  rw [rfc2047Decode, h, decodeWords]
  exact congrArg (fun last => (L.toUtf [] []).map fun out => out ++ last) htext

theorem Field.Plain.params_eq_value {field : Field} (h : field.Plain)
    (hsome : (field.entry L).isSome) (hstored : field.stored L = field.entry L) :
    field.params = field.value := by
  rw [Field.entry, Field.entryOf, storeValue, if_neg h.name,
    rfc2047Decode_of_hasNoWord h.value] at hsome hstored
  rw [Field.stored, Field.entryOf, storeValue, if_neg h.name,
    rfc2047Decode_of_hasNoWord h.params] at hstored
  cases hout : L.toUtf [] [] with
  | none =>
    rw [hout] at hsome
    exact absurd hsome Bool.false_ne_true
  | some out => simpa [hout] using hstored

/-- A block is read without loss if its names are different up to their case, every line that
continues a value begins with one blank, and the decoder comes to the end of every value; and only
then, where the values are plain. -/
theorem readsFields_of_readable (hL : L.toUtf [] [] = some []) (fields : List Field) :
    (DistinctNames fields ∧
        (∀ field ∈ fields, field.OneBlankFolds ∧ ReadableValue L field.name field.value) →
      ReadsFields L fields) ∧
      (ReadsFields L fields →
        DistinctNames fields ∧ ∀ field ∈ fields, field.Plain → field.OneBlankFolds) := by
  rw [readsFields_iff_stored]
  constructor
  · rintro ⟨hdistinct, hfields⟩
    refine ⟨hdistinct, fun field hfield => ?_⟩
    obtain ⟨hfolds, hvalue⟩ := hfields field hfield
    refine ⟨isSome_entryOf hL hvalue, ?_⟩
    rw [Field.stored, field.params_eq_value_iff.mpr hfolds, Field.entry]
  · rintro ⟨hdistinct, hstored⟩
    refine ⟨hdistinct, fun field hfield hplain => field.params_eq_value_iff.mp ?_⟩
    exact hplain.params_eq_value (hstored field hfield).1 (hstored field hfield).2

def received (text : List UInt8) (hprint : text.all isprint)
    (h : (unfoldText (text ++ [])).dropWhile isspace ≠ []) : Field where
  name := octets "Received"
  text := text
  conts := []
  name_ne_nil := by decide
  colon_notMem := by decide
  name_head := by decide +kernel
  text_clean := clean_of_isprint (List.all_eq_true.mp hprint)
  conts_clean := by simp
  conts_blank := by simp
  value_ne_nil := h

theorem readsFields_of_received :
    ReadsFields utf8Locale [received (octets " from a") (by decide) (by decide)] := by
  refine (readsFields_of_readable rfl _).1 ⟨List.pairwise_singleton _ _, fun field hfield => ?_⟩
  rw [List.mem_singleton.mp hfield]
  have hfolds : (received (octets " from a") (by decide) (by decide)).OneBlankFolds := by
    rw [Field.OneBlankFolds, received, List.dropWhile_cons_of_neg (by decide)]
    simp
  have hname : ¬ istartsWith (received (octets " from a") (by decide) (by decide)).name
      (octets "Content-") := by decide
  refine ⟨hfolds, ?_⟩
  rw [ReadableValue, if_neg hname]
  exact fun word _ str => rfl

/-- Two fields of one name become one entry. -/
theorem not_readsFields_of_received :
    ¬ ∀ (L : Locale) (fields : List Field), ReadsFields L fields := by
  intro h
  have hread := h utf8Locale [received (octets " from a") (by decide) (by decide),
    received (octets " from b") (by decide) (by decide)]
  have hnames : ¬ iequals (octets "Received") (octets "Received") :=
    (List.pairwise_cons.mp ((readsFields_iff_stored _).mp hread).1).1 _ List.mem_cons_self
  exact hnames (iequals_iff.mpr rfl)

end Plain

end Email

end Acqua
