import Acqua.Ctype
import Acqua.Email.AddressOrder
import Acqua.Library.SeparatedList
import Acqua.Library.Splits

/-! The grammars of `address.ipp`, `parse_to_addresses` and the output operator, for
`std::string`. A rule that fails leaves in the attribute what it has already written there. -/

namespace Acqua.Email

/-- The exception that `std::string::assign` throws. -/
inductive LengthError where
  | lengthError
  deriving DecidableEq

def isDomainChar (ch : UInt8) : Bool :=
  isalnum ch ∨ ch = chr '.' ∨ ch = chr '_' ∨ ch = chr '-'

def isLocalChar (ch : UInt8) : Bool := ch ≠ chr '@'

def isNameChar (ch : UInt8) : Bool := ch ≠ chr '<' ∧ ch ≠ chr ','

/-- `space_`. -/
def skipSpace (text : List UInt8) : List UInt8 := text.dropWhile isspace

def literal (c : UInt8) : List UInt8 → Option (List UInt8)
  | ch :: rest => if ch = c then some rest else none
  | [] => none

/-- `addrspec_grammar`: what it writes, and the text behind it where it matches. -/
def addrspecGrammar (text : List UInt8) : List UInt8 × Option (List UInt8) :=
  let loc := text.takeWhile isLocalChar
  match loc, text.dropWhile isLocalChar with
  | [], _ => ([], none)
  | _, [] => (loc, none)
  | _, at' :: rest =>
    let dom := rest.takeWhile isDomainChar
    (loc ++ at' :: dom, if dom = [] then none else some (rest.dropWhile isDomainChar))

/-- `trim`. The range is reversed where all of a text is blank, and then `assign` throws. -/
def trim (vec : List UInt8) : Except LengthError (List UInt8) :=
  let beg := (vec.takeWhile isspace).length
  let stop := vec.length - (vec.reverse.takeWhile isspace).length
  if beg ≤ stop then .ok ((vec.take stop).drop beg) else .error .lengthError

/-- `'<' >> space_ >> addr_ >> space_ >> '>'`. -/
def bracketed (text : List UInt8) : List UInt8 × Option (List UInt8) :=
  match literal (chr '<') text with
  | none => ([], none)
  | some rest =>
    let (written, left) := addrspecGrammar (skipSpace rest)
    (written, left.bind fun left => literal (chr '>') (skipSpace left))

/-- `address_grammar`. The second alternative writes behind what the first one has written. -/
def addressGrammar : ElementParser LengthError UInt8 (BasicAddress (List UInt8)) := fun text =>
  match trim (text.takeWhile isNameChar) with
  | .error e => .error e
  | .ok namespec =>
    match bracketed (text.dropWhile isNameChar) with
    | (written, some rest) => .ok (some (⟨namespec, written⟩, skipSpace rest))
    | (written, none) =>
      match addrspecGrammar (skipSpace text) with
      | (more, some rest) => .ok (some (⟨[], written ++ more⟩, skipSpace rest))
      | (_, none) => .ok none

namespace BasicAddress

def isValid (a : BasicAddress (List UInt8)) : Bool :=
  (addrspecGrammar a.addrspec).2 = some []

/-- `operator<<`. -/
def print (a : BasicAddress (List UInt8)) : List UInt8 :=
  if a.namespec = [] then a.addrspec
  else a.namespec ++ chr ' ' :: chr '<' :: (a.addrspec ++ [chr '>'])

end BasicAddress

/-- The blanks and the comma that `parse_to_addresses` skips. -/
def skipFirst (text : List UInt8) : List UInt8 :=
  match skipSpace text with
  | ch :: rest => if ch = chr ',' then rest else ch :: rest
  | [] => []

/-- What `parse_to_addresses` returns, and the container after it. -/
def parseToAddresses (text : List UInt8) (addrs : List (BasicAddress (List UInt8))) :
    Except LengthError (Nat × List (BasicAddress (List UInt8))) :=
  (separatedList addressGrammar (chr ',') (skipFirst text)).map fun more =>
    ((addrs ++ more).length - addrs.length, addrs ++ more)

/-- A local part and a domain. -/
structure Spec (loc dom : List UInt8) : Prop where
  loc_chars : ∀ ch ∈ loc, isLocalChar ch
  dom_chars : ∀ ch ∈ dom, isDomainChar ch
  dom_ne : dom ≠ []

section Addrspec

variable {loc dom rest : List UInt8}

/-- No character of a domain stands first in the text. -/
def BehindDomain (rest : List UInt8) : Prop := ∀ ch ∈ rest.head?, isDomainChar ch = false

theorem addrspecGrammar_eq (h : Spec loc dom) (hrest : BehindDomain rest) :
    addrspecGrammar (loc ++ chr '@' :: (dom ++ rest)) =
      if loc = [] then ([], none) else (loc ++ chr '@' :: dom, some rest) := by
  have hdom := List.takeWhile_eq_self_iff.mpr h.dom_chars
  have hleft := List.dropWhile_eq_nil_iff.mpr h.dom_chars
  have hstop : ∀ ch ∈ rest.head?, ¬ isDomainChar ch := fun ch hch => by
    rw [hrest ch hch]
    exact Bool.false_ne_true
  rw [addrspecGrammar, takeWhile_run h.loc_chars (by decide), dropWhile_run h.loc_chars (by decide)]
  cases loc with
  | nil => rfl
  | cons ch loc =>
    simp only [takeWhile_stop hstop, dropWhile_stop hstop, hdom, hleft, if_neg h.dom_ne,
      List.nil_append, if_neg (List.cons_ne_nil ch loc)]

/-- What `is_valid` takes is a local part that is not empty, and a domain. -/
theorem isValid_iff (addrspec : List UInt8) :
    (addrspecGrammar addrspec).2 = some [] ↔
      ∃ loc dom, loc ≠ [] ∧ Spec loc dom ∧ addrspec = loc ++ chr '@' :: dom := by
  constructor
  · intro h
    have hsplit := List.takeWhile_append_dropWhile (p := isLocalChar) (l := addrspec)
    rw [addrspecGrammar] at h
    cases hloc : addrspec.takeWhile isLocalChar with
    | nil =>
      simp only [hloc] at h
      cases h
    | cons ch loc =>
      cases hrest : addrspec.dropWhile isLocalChar with
      | nil =>
        simp only [hloc, hrest] at h
        cases h
      | cons at' rest =>
        simp only [hloc, hrest] at h
        split at h
        · cases h
        · rename_i hdom
          have hat : at' = chr '@' := by
            have hhead := List.head?_dropWhile_not isLocalChar addrspec
            rw [hrest] at hhead
            simpa [isLocalChar] using hhead
          have hnil := Option.some.inj h
          have hself : rest.takeWhile isDomainChar = rest := by
            rw [← List.append_nil (rest.takeWhile isDomainChar), ← hnil,
              List.takeWhile_append_dropWhile]
          refine ⟨ch :: loc, rest, List.cons_ne_nil _ _, ⟨?_, ?_, ?_⟩, ?_⟩
          · rw [← hloc]
            exact fun c hc => List.mem_takeWhile_imp hc
          · exact List.takeWhile_eq_self_iff.mp hself
          · rwa [hself] at hdom
          · rw [← hsplit, hloc, hrest, hat]
  · rintro ⟨loc, dom, hloc, hspec, rfl⟩
    have heq := @addrspecGrammar_eq _ _ [] hspec (by simp [BehindDomain])
    rw [List.append_nil, if_neg hloc] at heq
    rw [heq]

theorem Spec.of_suffix {loc' : List UInt8} (h : Spec loc dom) (hsuffix : loc' <:+ loc) :
    Spec loc' dom :=
  ⟨fun ch hch => h.loc_chars ch (hsuffix.subset hch), h.dom_chars, h.dom_ne⟩

theorem skipSpace_loc (loc text : List UInt8) :
    skipSpace (loc ++ chr '@' :: text) = skipSpace loc ++ chr '@' :: text :=
  dropWhile_stop (by simp; decide)

theorem skipSpace_suffix (text : List UInt8) : skipSpace text <:+ text := List.dropWhile_suffix _

end Addrspec

section Trim

variable {vec pre namespec post : List UInt8}

/-- No blank stands at either end. -/
def Trimmed (s : List UInt8) : Prop :=
  (∀ ch ∈ s.head?, isspace ch = false) ∧ ∀ ch ∈ s.getLast?, isspace ch = false

theorem trim_blanks (h : Trimmed namespec) (hne : namespec ≠ []) (hpre : ∀ ch ∈ pre, isspace ch)
    (hpost : ∀ ch ∈ post, isspace ch) : trim (pre ++ (namespec ++ post)) = .ok namespec := by
  have hbeg : (pre ++ (namespec ++ post)).takeWhile isspace = pre := by
    obtain ⟨ch, rest, rfl⟩ := List.exists_cons_of_ne_nil hne
    exact takeWhile_run hpre (by rw [h.1 ch rfl]; decide)
  have hend : (pre ++ (namespec ++ post)).reverse.takeWhile isspace = post.reverse := by
    obtain ⟨rest, ch, rfl⟩ := List.eq_nil_or_concat' namespec |>.resolve_left hne
    have hch : isspace ch = false := h.2 ch (by rw [List.getLast?_concat]; rfl)
    have hrev : (pre ++ (rest ++ [ch] ++ post)).reverse =
        post.reverse ++ ch :: (rest.reverse ++ pre.reverse) := by simp
    rw [hrev, takeWhile_run (by simpa using hpost) (by rw [hch]; decide)]
  have hstop : (pre ++ (namespec ++ post)).length - post.reverse.length =
      (pre ++ namespec).length := by
    simp
    omega
  rw [trim, hbeg, hend, hstop, if_pos (by simp), ← List.append_assoc, List.take_left,
    List.drop_left]

theorem trim_of_mem {ch : UInt8} (hmem : ch ∈ vec) (hch : isspace ch = false) :
    ∃ namespec, trim vec = .ok namespec := by
  obtain ⟨u, v, rfl⟩ := List.append_of_mem hmem
  have hrun : ∀ s t : List UInt8, ((s ++ ch :: t).takeWhile isspace).length ≤ s.length := by
    intro s t
    rw [takeWhile_stop (by simp [hch])]
    exact (List.takeWhile_prefix _).length_le
  have hbeg := hrun u v
  have hend := hrun v.reverse u.reverse
  have hrev : (u ++ ch :: v).reverse = v.reverse ++ ch :: u.reverse := by simp
  rw [List.length_reverse] at hend
  refine ⟨_, if_pos ?_⟩
  rw [hrev, List.length_append, List.length_cons]
  omega

theorem trim_of_all (hne : vec ≠ []) (h : ∀ ch ∈ vec, isspace ch) :
    trim vec = .error .lengthError := by
  have hbeg := List.takeWhile_eq_self_iff.mpr h
  have hend : vec.reverse.takeWhile isspace = vec.reverse :=
    List.takeWhile_eq_self_iff.mpr (by simpa using h)
  have hlen := List.length_pos_iff.mpr hne
  rw [trim, hbeg, hend, List.length_reverse, if_neg (by omega)]

end Trim

section Separator

variable {rest : List UInt8}

theorem atSeparator_cases (h : AtSeparator (chr ',') rest) :
    rest = [] ∨ ∃ tail, rest = chr ',' :: tail := by
  cases rest with
  | nil => exact Or.inl rfl
  | cons ch tail => exact Or.inr ⟨tail, by rw [h ch rfl]⟩

theorem behindDomain_separator (h : AtSeparator (chr ',') rest) : BehindDomain rest :=
  fun ch hch => by
    rw [h ch hch]
    decide

theorem skipSpace_separator (h : AtSeparator (chr ',') rest) : skipSpace rest = rest := by
  obtain rfl | ⟨tail, rfl⟩ := atSeparator_cases h <;> rfl

theorem literal_separator (h : AtSeparator (chr ',') rest) {c : UInt8} (hc : c ≠ chr ',') :
    literal c rest = none := by
  obtain rfl | ⟨tail, rfl⟩ := atSeparator_cases h
  · rfl
  · exact if_neg hc.symm

theorem isNameChar_separator (h : AtSeparator (chr ',') rest) : ∀ ch ∈ rest.head?, ¬ isNameChar ch :=
  fun ch hch => by
    rw [h ch hch]
    decide

end Separator

section Unnamed

variable {loc dom rest : List UInt8}

theorem isNameChar_space {ch : UInt8} (h : isspace ch) : isNameChar ch := by
  rw [isNameChar, decide_eq_true_eq]
  constructor
  · rintro rfl
    exact absurd h (by decide)
  · rintro rfl
    exact absurd h (by decide)

theorem isNameChar_domain {ch : UInt8} (h : isDomainChar ch) : isNameChar ch := by
  rw [isNameChar, decide_eq_true_eq]
  constructor
  · rintro rfl
    exact absurd h (by decide)
  · rintro rfl
    exact absurd h (by decide)

/-- What the first alternative has written when it fails on an address without a name. -/
def writtenTwice (loc dom : List UInt8) : List UInt8 :=
  match literal (chr '<') (loc.dropWhile isNameChar) with
  | none => []
  | some after => if skipSpace after = [] then [] else skipSpace after ++ chr '@' :: dom

theorem dropWhile_addrspec (h : Spec loc dom) :
    (loc ++ chr '@' :: dom).dropWhile isNameChar =
      if loc.dropWhile isNameChar = [] then [] else loc.dropWhile isNameChar ++ chr '@' :: dom := by
  have hdom : ∀ ch ∈ chr '@' :: dom, isNameChar ch :=
    List.forall_mem_cons.mpr ⟨by decide, fun ch hch => isNameChar_domain (h.dom_chars ch hch)⟩
  rw [List.dropWhile_append, List.dropWhile_eq_nil_iff.mpr hdom]
  cases loc.dropWhile isNameChar <;> rfl

theorem literal_cons (c : UInt8) (rest : List UInt8) : literal c (c :: rest) = some rest :=
  if_pos rfl

theorem bracketed_unnamed (h : Spec loc dom) (hrest : AtSeparator (chr ',') rest) :
    bracketed ((loc ++ chr '@' :: (dom ++ rest)).dropWhile isNameChar) =
      (writtenTwice loc dom, none) := by
  have htext : loc ++ chr '@' :: (dom ++ rest) = (loc ++ chr '@' :: dom) ++ rest := by simp
  rw [htext, dropWhile_stop (isNameChar_separator hrest), dropWhile_addrspec h, writtenTwice]
  by_cases hnil : loc.dropWhile isNameChar = []
  · rw [if_pos hnil, hnil, List.nil_append, bracketed, literal_separator hrest (by decide)]
    rfl
  · rw [if_neg hnil]
    obtain ⟨c, after, hafter⟩ := List.exists_cons_of_ne_nil hnil
    rw [hafter]
    by_cases hc : c = chr '<'
    · subst hc
      have hsuffix : skipSpace after <:+ loc :=
        (skipSpace_suffix after).trans
          ((List.suffix_cons _ after).trans (hafter ▸ List.dropWhile_suffix _))
      have hgrammar := addrspecGrammar_eq (h.of_suffix hsuffix) (behindDomain_separator hrest)
      rw [List.cons_append, List.cons_append, bracketed, literal_cons, literal_cons,
        List.append_assoc, List.cons_append]
      simp only
      rw [skipSpace_loc, hgrammar]
      split
      · rfl
      · have hclose := literal_separator hrest (show chr '>' ≠ chr ',' by decide)
        simp only [Option.bind_some, skipSpace_separator hrest, hclose]
    · have hnone : ∀ text, literal (chr '<') (c :: text) = none := fun text => if_neg hc
      rw [List.cons_append, List.cons_append, bracketed, hnone, hnone]

/-- What is trimmed before it turns out that there is no name. -/
def noName (loc dom : List UInt8) : List UInt8 := (loc ++ chr '@' :: dom).takeWhile isNameChar

theorem addressGrammar_unnamed (h : Spec loc dom) (hrest : AtSeparator (chr ',') rest) :
    addressGrammar (loc ++ chr '@' :: (dom ++ rest)) =
      (trim (noName loc dom)).map fun _ =>
        if skipSpace loc = [] then none
        else some (⟨[], writtenTwice loc dom ++ (skipSpace loc ++ chr '@' :: dom)⟩, rest) := by
  have hname : (loc ++ chr '@' :: (dom ++ rest)).takeWhile isNameChar = noName loc dom := by
    rw [noName, ← takeWhile_stop (s := loc ++ chr '@' :: dom) (isNameChar_separator hrest)]
    simp
  have hgrammar := addrspecGrammar_eq (h.of_suffix (skipSpace_suffix loc))
    (behindDomain_separator hrest)
  rw [addressGrammar, hname, bracketed_unnamed h hrest, skipSpace_loc, hgrammar]
  cases trim (noName loc dom) with
  | error e => rfl
  | ok namespec =>
    by_cases hnil : skipSpace loc = []
    · simp only [if_pos hnil]
      rfl
    · simp only [if_neg hnil, skipSpace_separator hrest]
      rfl

/-- Nothing but the address is written exactly where nothing has been written before. -/
theorem writtenTwice_append_iff {loc' : List UInt8} (h' : Spec loc' dom) :
    writtenTwice loc dom ++ (skipSpace loc ++ chr '@' :: dom) = loc' ++ chr '@' :: dom ↔
      writtenTwice loc dom = [] ∧ skipSpace loc = loc' := by
  constructor
  · intro heq
    have hloc' : chr '@' ∉ loc' := fun hmem => absurd (h'.loc_chars _ hmem) (by decide)
    have hdom : chr '@' ∉ dom := fun hmem => absurd (h'.dom_chars _ hmem) (by decide)
    by_cases hwritten : writtenTwice loc dom = []
    · rw [hwritten, List.nil_append] at heq
      exact ⟨hwritten, List.append_cancel_right heq⟩
    · obtain ⟨s, hs⟩ : ∃ s, writtenTwice loc dom = s ++ chr '@' :: dom := by
        rw [writtenTwice] at hwritten ⊢
        cases hafter : literal (chr '<') (loc.dropWhile isNameChar) with
        | none =>
          simp only [hafter, not_true] at hwritten
        | some after =>
          simp only [hafter] at hwritten ⊢
          split at hwritten
          · exact absurd rfl hwritten
          · exact ⟨_, if_neg ‹_›⟩
      -- a second `@` would stand in the domain
      rw [hs, List.append_assoc, List.cons_append] at heq
      have hsplit := (List.append_cons_inj_of_notMem hloc' hdom).mp heq.symm
      have hlen := congrArg List.length hsplit.2.2
      simp at hlen
  · rintro ⟨hwritten, hloc⟩
    rw [hwritten, hloc, List.nil_append]

theorem readsBack_unnamed {loc' : List UInt8} (h : Spec loc dom) (h' : Spec loc' dom)
    (hne : loc' ≠ []) (hrest : AtSeparator (chr ',') rest) :
    ReadsBack addressGrammar
      ((∃ namespec, trim (noName loc dom) = .ok namespec) ∧ writtenTwice loc dom = [] ∧
        skipSpace loc = loc')
      (loc ++ chr '@' :: (dom ++ rest)) ⟨[], loc' ++ chr '@' :: dom⟩ rest := by
  constructor
  · rintro ⟨⟨namespec, htrim⟩, hwritten, hloc⟩
    rw [addressGrammar_unnamed h hrest, htrim, hwritten, hloc]
    simp only [Except.map, if_neg hne, List.nil_append]
  · intro hbad x left hread hx
    rw [addressGrammar_unnamed h hrest] at hread
    cases htrim : trim (noName loc dom) with
    | error e =>
      rw [htrim] at hread
      cases hread
    | ok namespec =>
      rw [htrim] at hread
      simp only [Except.map, Except.ok.injEq] at hread
      split at hread
      · cases hread
      · obtain ⟨rfl, -⟩ := Prod.mk.inj (Option.some.inj hread)
        rw [BasicAddress.mk.injEq, writtenTwice_append_iff h'] at hx
        exact hbad ⟨⟨namespec, htrim⟩, hx.2⟩

end Unnamed

section Named

variable {loc dom rest pre namespec : List UInt8}

theorem namespec_eq_nil {text left : List UInt8} {x : BasicAddress (List UInt8)}
    (h : (bracketed (text.dropWhile isNameChar)).2 = none)
    (hread : addressGrammar text = .ok (some (x, left))) : x.namespec = [] := by
  rw [addressGrammar] at hread
  cases htrim : trim (text.takeWhile isNameChar) with
  | error e =>
    rw [htrim] at hread
    cases hread
  | ok namespec =>
    rcases hb : bracketed (text.dropWhile isNameChar) with ⟨written, close⟩
    rw [hb] at h
    obtain rfl : close = none := h
    rcases hg : addrspecGrammar (skipSpace text) with ⟨more, _ | rest⟩
    · simp only [htrim, hb, hg] at hread
      cases hread
    · simp only [htrim, hb, hg] at hread
      cases hread
      rfl

/-- A text between angle brackets behind a name. -/
theorem readsBack_named (h : Spec loc dom) (hpre : ∀ ch ∈ pre, isspace ch)
    (htrimmed : Trimmed namespec) (hne : namespec ≠ []) (hname : ∀ ch ∈ namespec, isNameChar ch)
    (hloc : loc ≠ []) (hrest : AtSeparator (chr ',') rest) :
    ReadsBack addressGrammar (skipSpace loc = loc)
      (pre ++ (namespec ++ chr ' ' :: chr '<' :: (loc ++ chr '@' :: (dom ++ chr '>' :: rest))))
      ⟨namespec, loc ++ chr '@' :: dom⟩ rest := by
  have hfront : ∀ ch ∈ pre ++ (namespec ++ [chr ' ']), isNameChar ch := by
    intro ch hch
    rcases List.mem_append.mp hch with hch | hch
    · exact isNameChar_space (hpre ch hch)
    · rcases List.mem_append.mp hch with hch | hch
      · exact hname ch hch
      · rw [List.mem_singleton.mp hch]
        decide
  have htext : pre ++ (namespec ++ chr ' ' :: chr '<' ::
        (loc ++ chr '@' :: (dom ++ chr '>' :: rest))) =
      (pre ++ (namespec ++ [chr ' '])) ++ chr '<' ::
        (loc ++ chr '@' :: (dom ++ chr '>' :: rest)) := by simp
  have htrim := @trim_blanks _ _ [chr ' '] htrimmed hne hpre
    (List.forall_mem_singleton.mpr (by decide))
  have hclose : BehindDomain (chr '>' :: rest) := by simp [BehindDomain]; decide
  have hgrammar := addrspecGrammar_eq (h.of_suffix (skipSpace_suffix loc)) hclose
  rw [htext]
  by_cases hnil : skipSpace loc = []
  · constructor
    · intro heq
      exact absurd (heq.symm.trans hnil) hloc
    · intro _ x left hread hx
      have hnone : (bracketed (((pre ++ (namespec ++ [chr ' '])) ++ chr '<' ::
          (loc ++ chr '@' :: (dom ++ chr '>' :: rest))).dropWhile isNameChar)).2 = none := by
        rw [dropWhile_run hfront (by decide), bracketed, literal_cons]
        simp only
        rw [skipSpace_loc, hgrammar, if_pos hnil]
        rfl
      have hnamespec := namespec_eq_nil hnone hread
      rw [hx] at hnamespec
      exact hne hnamespec
  · have hread : addressGrammar ((pre ++ (namespec ++ [chr ' '])) ++ chr '<' ::
        (loc ++ chr '@' :: (dom ++ chr '>' :: rest))) =
        .ok (some (⟨namespec, skipSpace loc ++ chr '@' :: dom⟩, rest)) := by
      rw [addressGrammar, takeWhile_run hfront (by decide), dropWhile_run hfront (by decide), htrim,
        bracketed, literal_cons]
      simp only
      rw [skipSpace_loc, hgrammar, if_neg hnil]
      simp only [Option.bind_some]
      rw [show skipSpace (chr '>' :: rest) = chr '>' :: rest from rfl, literal_cons]
      simp only [skipSpace_separator hrest]
    constructor
    · intro heq
      rw [hread, heq]
    · intro hbad x left hx hxa
      rw [hread] at hx
      obtain ⟨rfl, -⟩ := Prod.mk.inj (Option.some.inj (Except.ok.inj hx))
      exact hbad (List.append_cancel_right (BasicAddress.mk.inj hxa).2)

end Named

section Conditions

variable {loc dom : List UInt8}

theorem writtenTwice_eq_nil_iff (h : Spec loc dom) :
    writtenTwice loc dom = [] ↔
      ∀ after, literal (chr '<') ((loc ++ chr '@' :: dom).dropWhile isNameChar) = some after →
        (skipSpace after).head? = some (chr '@') := by
  rw [dropWhile_addrspec h, writtenTwice]
  by_cases hnil : loc.dropWhile isNameChar = []
  · simp [hnil, literal]
  · rw [if_neg hnil]
    obtain ⟨c, after, hafter⟩ := List.exists_cons_of_ne_nil hnil
    rw [hafter, List.cons_append]
    by_cases hc : c = chr '<'
    · subst hc
      simp only [literal_cons, Option.some.injEq, forall_eq', skipSpace_loc]
      have hsuffix : skipSpace after <:+ loc :=
        (skipSpace_suffix after).trans
          ((List.suffix_cons _ after).trans (hafter ▸ List.dropWhile_suffix _))
      cases hskip : skipSpace after with
      | nil => simp
      | cons c rest =>
        have hc : c ≠ chr '@' := by
          rintro rfl
          rw [hskip] at hsuffix
          exact absurd (h.loc_chars _ (hsuffix.subset List.mem_cons_self)) (by decide)
        simp [hc]
    · simp [literal, hc]

theorem exists_cons_of_skipSpace (hne : loc ≠ []) (h : skipSpace loc = loc) :
    ∃ c t, loc = c :: t ∧ isspace c = false := by
  obtain ⟨c, t, rfl⟩ := List.exists_cons_of_ne_nil hne
  refine ⟨c, t, rfl, ?_⟩
  have hhead := List.head?_dropWhile_not isspace (c :: t)
  rw [show (c :: t).dropWhile isspace = c :: t from h] at hhead
  simpa using hhead

/-- Behind a separator and a blank, the first alternative gives up without an exception only where
the address can begin a name. -/
theorem trim_noName_iff {c : UInt8} {t : List UInt8} (hc : isspace c = false) :
    (∃ namespec, trim (noName (chr ' ' :: c :: t) dom) = .ok namespec) ↔ isNameChar c := by
  have hcons : noName (chr ' ' :: c :: t) dom =
      chr ' ' :: (c :: (t ++ chr '@' :: dom)).takeWhile isNameChar := by
    rw [noName, List.cons_append, List.takeWhile_cons_of_pos (by decide), List.cons_append]
  by_cases hname : isNameChar c = true
  · refine iff_of_true ?_ hname
    rw [hcons, List.takeWhile_cons_of_pos hname]
    exact trim_of_mem (List.mem_cons_of_mem _ List.mem_cons_self) hc
  · refine iff_of_false ?_ hname
    rw [hcons, List.takeWhile_cons_of_neg hname,
      trim_of_all (List.cons_ne_nil _ _) (List.forall_mem_singleton.mpr (by decide))]
    rintro ⟨namespec, heq⟩
    cases heq

theorem trim_noName {c : UInt8} {t : List UInt8} (hc : isspace c = false) :
    ∃ namespec, trim (noName (c :: t) dom) = .ok namespec := by
  rw [noName, List.cons_append]
  by_cases hname : isNameChar c = true
  · rw [List.takeWhile_cons_of_pos hname]
    exact trim_of_mem List.mem_cons_self hc
  · rw [List.takeWhile_cons_of_neg hname]
    exact ⟨[], rfl⟩

theorem skipFirst_loc (loc text : List UInt8) :
    skipFirst (loc ++ chr '@' :: text) = skipFirst loc ++ chr '@' :: text := by
  rw [skipFirst, skipFirst, skipSpace_loc]
  cases skipSpace loc with
  | nil => rfl
  | cons c t =>
    rw [List.cons_append]
    simp only
    split <;> rfl

theorem skipFirst_suffix (text : List UInt8) : skipFirst text <:+ text := by
  have hsuffix := skipSpace_suffix text
  rw [skipFirst]
  cases hskip : skipSpace text with
  | nil => exact List.nil_suffix
  | cons c t =>
    rw [hskip] at hsuffix
    simp only
    split
    · exact (List.suffix_cons _ _).trans hsuffix
    · exact hsuffix

theorem skipFirst_of_head {text : List UInt8} {c : UInt8} (h : text.head? = some c)
    (hblank : isspace c = false) (hcomma : c ≠ chr ',') : skipFirst text = text := by
  obtain ⟨t, rfl⟩ : ∃ t, text = c :: t := by
    cases text with
    | nil => cases h
    | cons c' t => exact ⟨t, by rw [Option.some.inj h]⟩
  have hskip : skipSpace (c :: t) = c :: t := List.dropWhile_cons_of_neg (by rw [hblank]; decide)
  rw [skipFirst, hskip]
  exact if_neg hcomma

theorem skipSpace_skipFirst_iff (hne : loc ≠ []) :
    skipSpace (skipFirst loc) = loc ↔ skipSpace loc = loc ∧ loc.head? ≠ some (chr ',') := by
  constructor
  · intro h
    have hself : skipFirst loc = loc := by
      refine (skipFirst_suffix loc).eq_of_length_le ?_
      conv_lhs => rw [← h]
      exact (skipSpace_suffix _).length_le
    have hskip : skipSpace loc = loc := by rwa [hself] at h
    obtain ⟨c, t, rfl, hc⟩ := exists_cons_of_skipSpace hne hskip
    refine ⟨hskip, ?_⟩
    rintro hcomma
    rw [skipFirst, hskip] at hself
    simp only [if_pos (Option.some.inj hcomma)] at hself
    exact absurd (congrArg List.length hself) (by simp)
  · rintro ⟨hskip, hcomma⟩
    obtain ⟨c, t, rfl, hc⟩ := exists_cons_of_skipSpace hne hskip
    rw [skipFirst_of_head rfl hc fun h => hcomma (by rw [h]; rfl), hskip]

end Conditions

namespace BasicAddress

variable {a : BasicAddress (List UInt8)} {rest : List UInt8}

/-- An address whose name can be told from what stands around it. -/
structure Listed (a : BasicAddress (List UInt8)) : Prop where
  valid : a.isValid
  trimmed : Trimmed a.namespec
  name_chars : ∀ ch ∈ a.namespec, isNameChar ch

/-- What the text of an address must not be mistaken for. One without a name is tried as a name
first: it is not to begin with what follows a blank name, and not to have a local part between a
`<` and its `@`. -/
structure ComesBack (first : Bool) (a : BasicAddress (List UInt8)) : Prop where
  blank : skipSpace a.addrspec = a.addrspec
  comma : a.namespec = [] → a.addrspec.head? ≠ some (chr ',')
  angle : a.namespec = [] → first = false → a.addrspec.head? ≠ some (chr '<')
  bracket : a.namespec = [] →
    ∀ after, literal (chr '<') (a.addrspec.dropWhile isNameChar) = some after →
      (skipSpace after).head? = some (chr '@')

theorem ReadsBack.congr {good good' : Prop} {text left : List UInt8}
    (h : ReadsBack addressGrammar good text a left) (hiff : good ↔ good') :
    ReadsBack addressGrammar good' text a left :=
  ⟨fun hg => h.reads (hiff.mpr hg), fun hg => h.differs fun hg' => hg (hiff.mp hg')⟩

theorem skipSpace_addrspec_iff {loc dom : List UInt8} :
    skipSpace (loc ++ chr '@' :: dom) = loc ++ chr '@' :: dom ↔ skipSpace loc = loc := by
  rw [skipSpace_loc, List.append_left_inj]

theorem comesBack_named_iff {loc dom : List UInt8} (hne : a.namespec ≠ [])
    (heq : a.addrspec = loc ++ chr '@' :: dom) (first : Bool) :
    skipSpace loc = loc ↔ a.ComesBack first := by
  rw [← @skipSpace_addrspec_iff _ dom, ← heq]
  exact ⟨fun h => ⟨h, fun hn => absurd hn hne, fun hn => absurd hn hne, fun hn => absurd hn hne⟩,
    fun h => h.blank⟩

theorem print_named (hne : a.namespec ≠ []) {loc dom : List UInt8}
    (heq : a.addrspec = loc ++ chr '@' :: dom) (rest : List UInt8) :
    a.print ++ rest = a.namespec ++ chr ' ' :: chr '<' ::
      (loc ++ chr '@' :: (dom ++ chr '>' :: rest)) := by
  rw [print, if_neg hne, heq]
  simp

/-- An address behind a separator and a blank. -/
theorem readsBack_later (ha : a.Listed) (hrest : AtSeparator (chr ',') rest) :
    ReadsBack addressGrammar (a.ComesBack false) (chr ' ' :: a.print ++ rest) a rest := by
  obtain ⟨loc, dom, hloc, hspec, heq⟩ :=
    (isValid_iff a.addrspec).mp (of_decide_eq_true ha.valid)
  by_cases hne : a.namespec = []
  · have hprint : a.print = loc ++ chr '@' :: dom := by rw [print, if_pos hne, heq]
    have hspec' : Spec (chr ' ' :: loc) dom :=
      ⟨List.forall_mem_cons.mpr ⟨by decide, hspec.loc_chars⟩, hspec.dom_chars, hspec.dom_ne⟩
    have hread := readsBack_unnamed hspec' hspec hloc hrest
    rw [show (⟨[], loc ++ chr '@' :: dom⟩ : BasicAddress (List UInt8)) = a by
      rw [← heq, ← hne]] at hread
    rw [hprint, List.cons_append, List.append_assoc]
    refine ReadsBack.congr hread ?_
    have hwritten : writtenTwice (chr ' ' :: loc) dom = writtenTwice loc dom := by
      rw [writtenTwice, List.dropWhile_cons_of_pos (by decide), writtenTwice]
    have hskip : skipSpace (chr ' ' :: loc) = skipSpace loc :=
      List.dropWhile_cons_of_pos (by decide)
    rw [hwritten, hskip, writtenTwice_eq_nil_iff hspec, ← heq]
    constructor
    · rintro ⟨htrim, hbracket, hblank⟩
      obtain ⟨c, t, rfl, hc⟩ := exists_cons_of_skipSpace hloc hblank
      have hname := (trim_noName_iff hc).mp htrim
      rw [isNameChar, decide_eq_true_eq] at hname
      rw [List.cons_append] at heq
      refine ⟨by rw [heq]; exact skipSpace_addrspec_iff.mpr hblank, fun _ => ?_, fun _ _ => ?_,
        fun _ => hbracket⟩
      · rw [heq]
        exact fun h => hname.2 (Option.some.inj h)
      · rw [heq]
        exact fun h => hname.1 (Option.some.inj h)
    · rintro ⟨hblank, hcomma, hangle, hbracket⟩
      rw [heq, skipSpace_addrspec_iff] at hblank
      obtain ⟨c, t, rfl, hc⟩ := exists_cons_of_skipSpace hloc hblank
      have hcomma := hcomma hne
      have hangle := hangle hne rfl
      rw [heq, List.cons_append] at hcomma hangle
      refine ⟨(trim_noName_iff hc).mpr ?_, hbracket hne, hblank⟩
      rw [isNameChar, decide_eq_true_eq]
      exact ⟨fun h => hangle (by rw [h]; rfl), fun h => hcomma (by rw [h]; rfl)⟩
  · have hread := @readsBack_named _ _ _ [chr ' '] _ hspec
      (List.forall_mem_singleton.mpr (by decide)) ha.trimmed hne ha.name_chars hloc hrest
    rw [List.cons_append, print_named hne heq]
    rw [← heq] at hread
    exact ReadsBack.congr hread (comesBack_named_iff hne heq false)

/-- The first address, behind what `parse_to_addresses` skips. -/
theorem readsBack_first (ha : a.Listed) (hrest : AtSeparator (chr ',') rest) :
    ReadsBack addressGrammar (a.ComesBack true) (skipFirst (a.print ++ rest)) a rest := by
  obtain ⟨loc, dom, hloc, hspec, heq⟩ :=
    (isValid_iff a.addrspec).mp (of_decide_eq_true ha.valid)
  by_cases hne : a.namespec = []
  · have hprint : a.print = loc ++ chr '@' :: dom := by rw [print, if_pos hne, heq]
    have hread := readsBack_unnamed (hspec.of_suffix (skipFirst_suffix loc)) hspec hloc hrest
    rw [show (⟨[], loc ++ chr '@' :: dom⟩ : BasicAddress (List UInt8)) = a by
      rw [← heq, ← hne]] at hread
    rw [hprint, List.append_assoc, List.cons_append, skipFirst_loc]
    refine ReadsBack.congr hread ?_
    rw [skipSpace_skipFirst_iff hloc]
    constructor
    · rintro ⟨-, hwritten, hblank, hcomma⟩
      obtain ⟨c, t, rfl, hc⟩ := exists_cons_of_skipSpace hloc hblank
      rw [skipFirst_of_head rfl hc fun h => hcomma (by rw [h]; rfl),
        writtenTwice_eq_nil_iff hspec, ← heq] at hwritten
      refine ⟨by rw [heq]; exact skipSpace_addrspec_iff.mpr hblank, fun _ => ?_,
        fun _ h => absurd h (by decide), fun _ => hwritten⟩
      rw [heq]
      exact hcomma
    · rintro ⟨hblank, hcomma, -, hbracket⟩
      rw [heq, skipSpace_addrspec_iff] at hblank
      obtain ⟨c, t, rfl, hc⟩ := exists_cons_of_skipSpace hloc hblank
      have hcomma := hcomma hne
      rw [heq] at hcomma
      rw [skipFirst_of_head rfl hc fun h => hcomma (by rw [h]; rfl),
        writtenTwice_eq_nil_iff hspec, ← heq]
      exact ⟨trim_noName hc, hbracket hne, hblank, hcomma⟩
  · have hread := @readsBack_named _ _ _ [] _ hspec (by simp) ha.trimmed hne ha.name_chars hloc
      hrest
    obtain ⟨c, t, hname⟩ := List.exists_cons_of_ne_nil hne
    have hc : isspace c = false := ha.trimmed.1 c (by rw [hname]; rfl)
    have hcomma : c ≠ chr ',' := by
      rintro rfl
      exact absurd (ha.name_chars _ (by rw [hname]; exact List.mem_cons_self)) (by decide)
    have hhead : (a.print ++ rest).head? = some c := by rw [print_named hne heq, hname]; rfl
    rw [skipFirst_of_head hhead hc hcomma, print_named hne heq]
    rw [← heq, List.nil_append] at hread
    exact ReadsBack.congr hread (comesBack_named_iff hne heq true)

/-- The texts of the addresses with `", "` between them. -/
def printAll (as : List (BasicAddress (List UInt8))) : List UInt8 :=
  (octets ", ").intercalate (as.map print)

theorem printAll_cons (a : BasicAddress (List UInt8)) (as : List (BasicAddress (List UInt8))) :
    printAll (a :: as) = a.print ++ as.flatMap fun a => chr ',' :: (chr ' ' :: a.print) := by
  induction as generalizing a with
  | nil => simp [printAll]
  | cons b as ih =>
    rw [printAll, List.map_cons, List.map_cons, List.intercalate_cons_cons, ← List.map_cons,
      ← printAll, ih, List.flatMap_cons]
    simp [octets]

end BasicAddress

theorem parseToAddresses_eq_ok_iff {text : List UInt8}
    {addrs as : List (BasicAddress (List UInt8))} :
    parseToAddresses text addrs = .ok (as.length, addrs ++ as) ↔
      separatedList addressGrammar (chr ',') (skipFirst text) = .ok as := by
  rw [parseToAddresses]
  cases separatedList addressGrammar (chr ',') (skipFirst text) with
  | error e => simp [Except.map]
  | ok more =>
    simp only [Except.map, Except.ok.injEq, Prod.mk.injEq, List.append_cancel_left_eq,
      List.length_append, Nat.add_sub_cancel_left]
    constructor
    · exact fun h => h.2
    · rintro rfl
      exact ⟨rfl, rfl⟩

/-- A list of addresses comes back exactly where each of them does. -/
theorem parseToAddresses_iff {as : List (BasicAddress (List UInt8))} (has : ∀ a ∈ as, a.Listed)
    (addrs : List (BasicAddress (List UInt8))) :
    parseToAddresses (BasicAddress.printAll as) addrs = .ok (as.length, addrs ++ as) ↔
      (∀ a ∈ as.head?, a.ComesBack true) ∧ ∀ a ∈ as.tail, a.ComesBack false := by
  rw [parseToAddresses_eq_ok_iff]
  cases as with
  | nil => exact iff_of_true rfl (by simp)
  | cons a as =>
    rw [BasicAddress.printAll_cons]
    have htail : AtSeparator (chr ',')
        (as.flatMap fun a => chr ',' :: (chr ' ' :: BasicAddress.print a)) := by
      cases as <;> simp [AtSeparator]
    have hfirst := BasicAddress.readsBack_first (has a List.mem_cons_self) htail
    rw [separatedList_iff hfirst fun b hb rest hrest =>
      BasicAddress.readsBack_later (has b (List.mem_cons_of_mem _ hb)) hrest]
    simp

def foo : BasicAddress (List UInt8) := ⟨[], octets "foo@x.com"⟩

def bar : BasicAddress (List UInt8) := ⟨octets "c++", octets "bar@y.jp"⟩

theorem foo_listed : foo.Listed := ⟨by decide, by simp [foo, Trimmed], by simp [foo]⟩

theorem bar_listed : bar.Listed :=
  ⟨by decide, ⟨by simp [bar, octets]; decide, by simp [bar, octets]; decide⟩,
    by simp [bar, octets]; decide⟩

theorem parseToAddresses_foo_bar :
    parseToAddresses (octets "foo@x.com, c++ <bar@y.jp>") [] = .ok (2, [foo, bar]) := by
  refine (@parseToAddresses_iff [foo, bar]
    (List.forall_mem_cons.mpr ⟨foo_listed, List.forall_mem_singleton.mpr bar_listed⟩)
    []).mpr ⟨?_, List.forall_mem_singleton.mpr ?_⟩
  · rintro a ha
    obtain rfl := Option.some.inj ha
    exact ⟨by decide, by decide, by decide, fun _ after h => by cases h⟩
  · exact ⟨by decide, by decide, by decide, fun h => by cases h⟩

/-- The local part of `a<b@x` is taken for an address between brackets first. -/
example : parseToAddresses (octets "a<b@x") [] = .ok (1, [⟨[], octets "b@xa<b@x"⟩]) := rfl

end Acqua.Email
