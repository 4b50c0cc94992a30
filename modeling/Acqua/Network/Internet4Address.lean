import Acqua.Library.Decimal
import Acqua.Network.Prefix

/-! The text of an `internet4_address`. -/

namespace Acqua

inductive Errc
  | addressFamilyNotSupported
  | invalidArgument
  deriving DecidableEq

namespace Internet4Address

/-- `to_string`: `%d.%d.%d.%d`. -/
def toString (a : NetworkAddress 4) : List UInt8 :=
  [chr '.'].intercalate (a.bytes.map fun byte => octets (Nat.repr byte.toNat))

/-- A parser in the grammar of `from_string`. -/
inductive Component
  | dec
  | lit (ch : UInt8)

def grammar : List Component :=
  [.dec, .lit (chr '.'), .dec, .lit (chr '.'), .dec, .lit (chr '.'), .dec]

section FromString

-- What `dec` leaves in its attribute and where it ends, if it does not fail.
variable (dec : List UInt8 → UInt8 → UInt8 × Option (List UInt8))

/-- `qi::parse`. What was matched before a failure has been written to `bytes`. -/
def parse : List Component → List UInt8 → List UInt8 → List UInt8 × Option (List UInt8)
  | [], bytes, beg => (bytes, some beg)
  | .lit ch :: rest, bytes, beg =>
    if beg.head? = some ch then parse rest bytes beg.tail else (bytes, none)
  | .dec :: _, [], _ => ([], none)
  | .dec :: rest, byte :: bytes, beg =>
    match dec beg byte with
    | (byte, none) => (byte :: bytes, none)
    | (byte, some beg) => (byte :: (parse rest bytes beg).1, (parse rest bytes beg).2)

theorem length_parse (rest : List Component) (bytes beg : List UInt8) :
    (parse dec rest bytes beg).1.length = bytes.length := by
  fun_induction parse dec rest bytes beg <;> simp_all

/-- `from_string` of `address_impl<internet4_address>`. -/
def readInto (str bytes : List UInt8) (ec : Option Errc) :
    List UInt8 × Option Errc :=
  let r := parse dec grammar bytes str
  if r.2 = some [] then (r.1, ec)
  else ((((r.1.set 3 0).set 2 0).set 1 0).set 0 0, some .addressFamilyNotSupported)

theorem length_readInto (str bytes : List UInt8) (ec : Option Errc) :
    (readInto dec str bytes ec).1.length = bytes.length := by
  rw [readInto]
  split_ifs
  · exact length_parse dec _ _ _
  · simp only [List.length_set, length_parse]

/-- `from_string` with an error code. -/
def fromString (str : List UInt8) (ec : Option Errc) : NetworkAddress 4 × Option Errc :=
  let r := readInto dec str (NetworkAddress.any (n := 4)).bytes ec
  (⟨r.1, (length_readInto dec _ _ _).trans NetworkAddress.any.size⟩, r.2)

/-- `from_string` that throws. -/
def fromStringOrThrow (str : List UInt8) : Except Errc (NetworkAddress 4) :=
  match fromString dec str none with
  | (addr, none) => .ok addr
  | (_, some ec) => .error ec

end FromString

/-- One to three digits of a number that is an octet. -/
structure IsOctet (group : List UInt8) : Prop where
  length_pos : 1 ≤ group.length
  length_le : group.length ≤ 3
  digits : ∀ ch ∈ group, isdigit ch
  value_le : decimalValue group ≤ 255

def IsDotted (str : List UInt8) : Prop :=
  ∃ groups : List (List UInt8),
    groups.length = 4 ∧ (∀ group ∈ groups, IsOctet group) ∧ str = [chr '.'].intercalate groups

def leadingDigits (str : List UInt8) : List UInt8 := (str.take 3).takeWhile isdigit

/-- What `qi::uint_parser<unsigned char, 10, 1, 3>` does: it takes all the digits there are, up to
three, and fails when there is none or when their number is no `unsigned char`. -/
structure UintParser (dec : List UInt8 → UInt8 → UInt8 × Option (List UInt8)) : Prop where
  reads : ∀ str byte, leadingDigits str ≠ [] → decimalValue (leadingDigits str) ≤ 255 →
    dec str byte =
      (UInt8.ofNat (decimalValue (leadingDigits str)), some (str.drop (leadingDigits str).length))
  fails : ∀ str byte, leadingDigits str = [] ∨ 255 < decimalValue (leadingDigits str) →
    (dec str byte).2 = none

theorem leadingDigits_append {group rest : List UInt8} (hgroup : IsOctet group)
    (hrest : ∀ ch ∈ rest.head?, ¬ isdigit ch) : leadingDigits (group ++ rest) = group := by
  rw [leadingDigits, List.take_append, List.take_of_length_le hgroup.length_le,
    List.takeWhile_append_of_pos hgroup.digits]
  suffices h : ((rest.take (3 - group.length)).takeWhile isdigit) = [] by
    rw [h, List.append_nil]
  cases rest with
  | nil => rw [List.take_nil, List.takeWhile_nil]
  | cons ch rest =>
    cases 3 - group.length with
    | zero => rfl
    | succ k => exact List.takeWhile_cons_of_neg (hrest ch rfl)

theorem leadingDigits_append_drop (str : List UInt8) :
    leadingDigits str ++ str.drop (leadingDigits str).length = str :=
  List.prefix_iff_eq_append.mp ((List.takeWhile_prefix _).trans (List.take_prefix _ _))

theorem isOctet_leadingDigits {str : List UInt8} (hne : leadingDigits str ≠ [])
    (hvalue : decimalValue (leadingDigits str) ≤ 255) : IsOctet (leadingDigits str) where
  length_pos := List.length_pos_iff.mpr hne
  length_le := ((List.takeWhile_prefix _).length_le).trans (List.length_take_le _ _)
  digits := fun _ hch => List.mem_takeWhile_imp hch
  value_le := hvalue

/-- The octet that a group says. -/
def octetValue (group : List UInt8) : UInt8 := UInt8.ofNat (decimalValue group)

section Parse

variable {dec : List UInt8 → UInt8 → UInt8 × Option (List UInt8)} (hdec : UintParser dec)
include hdec

theorem dec_of_group {group rest : List UInt8} (hgroup : IsOctet group)
    (hrest : ∀ ch ∈ rest.head?, ¬ isdigit ch) (byte : UInt8) :
    dec (group ++ rest) byte = (octetValue group, some rest) := by
  have hlead := leadingDigits_append hgroup hrest
  have hne : leadingDigits (group ++ rest) ≠ [] := by
    rw [hlead]
    exact List.length_pos_iff.mp hgroup.length_pos
  rw [hdec.reads _ byte hne (by rw [hlead]; exact hgroup.value_le), hlead, List.drop_left,
    octetValue]

theorem group_of_dec {str rest : List UInt8} {byte : UInt8} (h : (dec str byte).2 = some rest) :
    ∃ group, IsOctet group ∧ str = group ++ rest := by
  by_cases hfails : leadingDigits str = [] ∨ 255 < decimalValue (leadingDigits str)
  · rw [hdec.fails str byte hfails] at h
    exact absurd h (Option.some_ne_none rest).symm
  · obtain ⟨hne, hvalue⟩ := not_or.mp hfails
    rw [hdec.reads str byte hne (not_lt.mp hvalue), Option.some.injEq] at h
    refine ⟨leadingDigits str, isOctet_leadingDigits hne (not_lt.mp hvalue), ?_⟩
    rw [← h]
    exact (leadingDigits_append_drop str).symm

end Parse

/-- The grammar behind its first group, when so many more groups follow. -/
def more (k : Nat) : List Component := (List.replicate k [.lit (chr '.'), .dec]).flatten

theorem more_succ (k : Nat) : more (k + 1) = .lit (chr '.') :: .dec :: more k := rfl

theorem grammar_eq : grammar = .dec :: more 3 := rfl

def dotted (groups : List (List UInt8)) : List UInt8 := groups.flatMap (chr '.' :: ·)

theorem dotted_cons (group : List UInt8) (groups : List (List UInt8)) :
    dotted (group :: groups) = chr '.' :: (group ++ dotted groups) := rfl

theorem not_isdigit_dotted (groups : List (List UInt8)) :
    ∀ ch ∈ (dotted groups).head?, ¬ isdigit ch := by
  cases groups with
  | nil => exact fun ch hch => absurd hch (by simp [dotted])
  | cons group groups =>
    intro ch hch
    obtain rfl : chr '.' = ch := by simpa [dotted] using hch
    decide

section Groups

variable {dec : List UInt8 → UInt8 → UInt8 × Option (List UInt8)} (hdec : UintParser dec)
include hdec

theorem parse_group (cs : List Component) {group rest : List UInt8} (hgroup : IsOctet group)
    (hrest : ∀ ch ∈ rest.head?, ¬ isdigit ch) (byte : UInt8) (bytes : List UInt8) :
    parse dec (.dec :: cs) (byte :: bytes) (group ++ rest) =
      (octetValue group :: (parse dec cs bytes rest).1, (parse dec cs bytes rest).2) := by
  rw [parse, dec_of_group hdec hgroup hrest]

theorem group_of_parse {cs : List Component} {byte : UInt8} {bytes str : List UInt8}
    (h : (parse dec (.dec :: cs) (byte :: bytes) str).2 = some []) :
    ∃ group rest, IsOctet group ∧ str = group ++ rest ∧ (parse dec cs bytes rest).2 = some [] := by
  rw [parse] at h
  rcases hread : dec str byte with ⟨byte', _ | rest⟩
  · rw [hread] at h
    exact absurd h (Option.some_ne_none _).symm
  · rw [hread] at h
    obtain ⟨group, hgroup, rfl⟩ := group_of_dec hdec (congrArg Prod.snd hread)
    exact ⟨group, rest, hgroup, rfl, h⟩

theorem parse_more {groups : List (List UInt8)} (hgroups : ∀ group ∈ groups, IsOctet group)
    {bytes : List UInt8} (hlength : bytes.length = groups.length) :
    parse dec (more groups.length) bytes (dotted groups) = (groups.map octetValue, some []) := by
  induction groups generalizing bytes with
  | nil =>
    obtain rfl := List.length_eq_zero_iff.mp hlength
    rfl
  | cons group groups ih =>
    obtain ⟨byte, bytes, rfl⟩ := List.exists_cons_of_length_eq_add_one hlength
    have hrest := ih (fun g hg => hgroups g (List.mem_cons_of_mem _ hg))
      (Nat.succ_injective hlength)
    rw [List.length_cons, more_succ, dotted_cons, parse, List.head?_cons, if_pos rfl,
      List.tail_cons, parse_group hdec _ (hgroups group List.mem_cons_self)
        (not_isdigit_dotted groups), hrest, List.map_cons]

theorem groups_of_parse {bytes str : List UInt8}
    (h : (parse dec (more bytes.length) bytes str).2 = some []) :
    ∃ groups : List (List UInt8), groups.length = bytes.length ∧
      (∀ group ∈ groups, IsOctet group) ∧ str = dotted groups := by
  induction bytes generalizing str with
  | nil =>
    obtain rfl : str = [] := Option.some.inj h
    exact ⟨[], rfl, fun _ hg => absurd hg List.not_mem_nil, rfl⟩
  | cons byte bytes ih =>
    rw [List.length_cons, more_succ, parse] at h
    split_ifs at h with hdot
    obtain ⟨group, rest, hgroup, htail, hrest⟩ := group_of_parse hdec h
    obtain ⟨groups, hlength, hgroups, rfl⟩ := ih hrest
    refine ⟨group :: groups, by rw [List.length_cons, List.length_cons, hlength],
      List.forall_mem_cons.mpr ⟨hgroup, hgroups⟩, ?_⟩
    obtain ⟨ch, tail, rfl⟩ := List.exists_cons_of_ne_nil (l := str) (by rintro rfl; simp at hdot)
    obtain rfl : ch = chr '.' := Option.some.inj hdot
    obtain rfl : tail = group ++ dotted groups := htail
    rfl

theorem parse_dotted {groups : List (List UInt8)} (hlength : groups.length = 4)
    (hgroups : ∀ group ∈ groups, IsOctet group) {bytes : List UInt8} (hbytes : bytes.length = 4) :
    parse dec grammar bytes ([chr '.'].intercalate groups) =
      (groups.map octetValue, some []) := by
  obtain ⟨group, groups, rfl⟩ := List.exists_cons_of_length_eq_add_one hlength
  obtain ⟨byte, bytes, rfl⟩ := List.exists_cons_of_length_eq_add_one hbytes
  obtain ⟨hgroup, hmore⟩ := List.forall_mem_cons.mp hgroups
  have hthree : groups.length = 3 := Nat.succ_injective hlength
  have hparse := parse_more hdec hmore ((Nat.succ_injective hbytes).trans hthree.symm)
  have htext : [chr '.'].intercalate (group :: groups) = group ++ dotted groups :=
    intercalate_cons _ _ _
  rw [hthree] at hparse
  rw [htext, grammar_eq, parse_group hdec _ hgroup (not_isdigit_dotted groups), hparse,
    List.map_cons]

theorem isDotted_of_parse {bytes str : List UInt8} (hbytes : bytes.length = 4)
    (h : (parse dec grammar bytes str).2 = some []) : IsDotted str := by
  obtain ⟨byte, bytes, rfl⟩ := List.exists_cons_of_length_eq_add_one hbytes
  have hthree : bytes.length = 3 := Nat.succ_injective hbytes
  rw [grammar_eq] at h
  obtain ⟨group, rest, hgroup, rfl, hrest⟩ := group_of_parse hdec h
  rw [← hthree] at hrest
  obtain ⟨groups, hlength, hgroups, rfl⟩ := groups_of_parse hdec hrest
  refine ⟨group :: groups, by rw [List.length_cons, hlength, hthree],
    List.forall_mem_cons.mpr ⟨hgroup, hgroups⟩, ?_⟩
  rw [intercalate_cons, dotted]

end Groups

theorem zeroed {bytes : List UInt8} (h : bytes.length = 4) :
    (((bytes.set 3 0).set 2 0).set 1 0).set 0 0 = (NetworkAddress.any (n := 4)).bytes :=
  match bytes, h with
  | [_, _, _, _], _ => rfl

theorem fromString_of_readInto {dec : List UInt8 → UInt8 → UInt8 × Option (List UInt8)}
    {str : List UInt8} {ec ec' : Option Errc} {a : NetworkAddress 4}
    (h : readInto dec str (NetworkAddress.any (n := 4)).bytes ec = (a.bytes, ec')) :
    fromString dec str ec = (a, ec') := by
  have hbytes := congrArg Prod.fst h
  have hec := congrArg Prod.snd h
  exact Prod.ext (NetworkAddress.ext hbytes) hec

section Text

variable {dec : List UInt8 → UInt8 → UInt8 × Option (List UInt8)} (hdec : UintParser dec)
include hdec

theorem fromString_groups {groups : List (List UInt8)} (hgroups : ∀ group ∈ groups, IsOctet group)
    {a : NetworkAddress 4} (ha : groups.map octetValue = a.bytes) (ec : Option Errc) :
    fromString dec ([chr '.'].intercalate groups) ec = (a, ec) := by
  have hlength : groups.length = 4 := by rw [← List.length_map octetValue, ha, a.size]
  apply fromString_of_readInto
  rw [readInto, parse_dotted hdec hlength hgroups NetworkAddress.any.size]
  exact (if_pos rfl).trans (congrArg (·, ec) ha)

theorem fromString_of_isDotted {str : List UInt8} (h : IsDotted str) (ec : Option Errc) :
    (fromString dec str ec).2 = ec := by
  obtain ⟨groups, hlength, hgroups, rfl⟩ := h
  rw [fromString_groups hdec hgroups (a := ⟨groups.map octetValue, by simp [hlength]⟩) rfl]

theorem fromString_of_not_isDotted {str : List UInt8} (h : ¬ IsDotted str) (ec : Option Errc) :
    fromString dec str ec = (NetworkAddress.any, some .addressFamilyNotSupported) := by
  have hparse : (parse dec grammar (NetworkAddress.any (n := 4)).bytes str).2 ≠ some [] :=
    fun hsome => h (isDotted_of_parse hdec NetworkAddress.any.size hsome)
  apply fromString_of_readInto
  rw [readInto, if_neg hparse, zeroed ((length_parse dec _ _ _).trans NetworkAddress.any.size)]

end Text

theorem isOctet_repr (byte : UInt8) : IsOctet (octets (Nat.repr byte.toNat)) where
  length_pos := List.length_pos_iff.mpr (octets_repr_ne_nil _)
  length_le := (length_repr_le (by decide)).mpr (byte.toNat_lt.trans (by decide))
  digits := isdigit_repr _
  value_le := by
    rw [decimalValue_repr]
    exact Nat.le_of_lt_succ byte.toNat_lt

theorem octetValue_repr (byte : UInt8) : octetValue (octets (Nat.repr byte.toNat)) = byte := by
  rw [octetValue, decimalValue_repr, UInt8.ofNat_toNat]

section Text

variable {dec : List UInt8 → UInt8 → UInt8 × Option (List UInt8)} (hdec : UintParser dec)
include hdec

theorem fromString_toString (a : NetworkAddress 4) (ec : Option Errc) :
    fromString dec (toString a) ec = (a, ec) := by
  have hgroups : ∀ group ∈ a.bytes.map fun byte => octets (Nat.repr byte.toNat), IsOctet group := by
    intro group hgroup
    obtain ⟨byte, -, rfl⟩ := List.mem_map.mp hgroup
    exact isOctet_repr byte
  refine fromString_groups hdec hgroups ?_ ec
  rw [List.map_map]
  exact List.map_id'' octetValue_repr a.bytes

/-- The text of an address is read back, and what is read is the text of four octets. -/
theorem internet4Text :
    (∀ a : NetworkAddress 4, fromString dec (toString a) none = (a, none) ∧
      fromStringOrThrow dec (toString a) = .ok a) ∧
    ∀ str : List UInt8, ((fromString dec str none).2 = none ↔ IsDotted str) ∧
      (¬ IsDotted str → (fromString dec str none).2 ≠ none ∧
        (fromString dec str none).1 = NetworkAddress.any) := by
  refine ⟨fun a => ?_, fun str => ⟨⟨fun hec => ?_, fun h => ?_⟩, fun h => ?_⟩⟩
  · have htext := fromString_toString hdec a none
    exact ⟨htext, by rw [fromStringOrThrow, htext]⟩
  · by_contra h
    rw [fromString_of_not_isDotted hdec h] at hec
    exact absurd hec (Option.some_ne_none _)
  · exact fromString_of_isDotted hdec h none
  · rw [fromString_of_not_isDotted hdec h]
    exact ⟨Option.some_ne_none _, rfl⟩

end Text

/-- A parser as described. -/
def uintParser (str : List UInt8) (byte : UInt8) : UInt8 × Option (List UInt8) :=
  let digits := leadingDigits str
  if digits ≠ [] ∧ decimalValue digits ≤ 255 then
    (UInt8.ofNat (decimalValue digits), some (str.drop digits.length))
  else (byte, none)

theorem uintParser_documented : UintParser uintParser where
  reads := fun _ _ hne hvalue => if_pos ⟨hne, hvalue⟩
  fails := by
    intro str byte h
    have hnot : ¬ (leadingDigits str ≠ [] ∧ decimalValue (leadingDigits str) ≤ 255) := by
      rintro ⟨hne, hvalue⟩
      exact h.elim hne hvalue.not_gt
    rw [uintParser, if_neg hnot]

theorem internet4Text_of_loopback :
    fromString uintParser (toString ⟨[127, 0, 0, 1], rfl⟩) none = (⟨[127, 0, 0, 1], rfl⟩, none) ∧
      ((fromString uintParser (octets "0.0.0.0.0") none).2 = none ↔
        IsDotted (octets "0.0.0.0.0")) := by
  obtain ⟨hread, htext⟩ := internet4Text uintParser_documented
  exact ⟨(hread _).1, (htext _).1⟩

theorem toString_injective : Function.Injective (toString : NetworkAddress 4 → List UInt8) := by
  intro a b h
  have ha := fromString_toString uintParser_documented a none
  rw [h, fromString_toString uintParser_documented b none] at ha
  exact (congrArg Prod.fst ha).symm

end Internet4Address

end Acqua
