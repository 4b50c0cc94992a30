import Acqua.Library.Hexadecimal
import Acqua.Network.Internet4Address

/-! The text of a `linklayer_address`. -/

namespace Acqua

namespace LinklayerAddress

/-- `to_string`: `%02X:%02X:%02X:%02X:%02X:%02X`. -/
def toString (a : NetworkAddress 6) : List UInt8 :=
  [chr ':'].intercalate (a.bytes.map hexPair)

/-- A parser in the grammar of `from_string`. -/
inductive Component
  | hex
  | sep

def grammar : List Component := .hex :: (List.replicate 5 [.sep, .hex]).flatten

def IsSep (ch : UInt8) : Prop := ch = chr ':' ∨ ch = chr '-'

instance (ch : UInt8) : Decidable (IsSep ch) := inferInstanceAs (Decidable (_ ∨ _))

section FromString

-- What `hex` leaves in its attribute and where it ends, if it does not fail.
variable (hex : List UInt8 → UInt8 → UInt8 × Option (List UInt8))

/-- `qi::parse`. What was matched before a failure has been written to `bytes`. -/
def parse : List Component → List UInt8 → List UInt8 → List UInt8 × Option (List UInt8)
  | [], bytes, beg => (bytes, some beg)
  | .sep :: _, bytes, [] => (bytes, none)
  | .sep :: rest, bytes, ch :: beg => if IsSep ch then parse rest bytes beg else (bytes, none)
  | .hex :: _, [], _ => ([], none)
  | .hex :: rest, byte :: bytes, beg =>
    match hex beg byte with
    | (byte, none) => (byte :: bytes, none)
    | (byte, some beg) => (byte :: (parse rest bytes beg).1, (parse rest bytes beg).2)

theorem length_parse (rest : List Component) (bytes beg : List UInt8) :
    (parse hex rest bytes beg).1.length = bytes.length := by
  fun_induction parse hex rest bytes beg <;> simp_all

/-- `from_string` of `address_impl<linklayer_address>`. Where `parse` has stopped is not asked. -/
def readInto (str bytes : List UInt8) (ec : Option Errc) : List UInt8 × Option Errc :=
  let r := parse hex grammar bytes str
  if r.2 ≠ none then (r.1, ec)
  else
    ((((((r.1.set 5 0).set 4 0).set 3 0).set 2 0).set 1 0).set 0 0,
      some .addressFamilyNotSupported)

theorem length_readInto (str bytes : List UInt8) (ec : Option Errc) :
    (readInto hex str bytes ec).1.length = bytes.length := by
  rw [readInto]
  split_ifs
  · exact length_parse hex _ _ _
  · simp only [List.length_set, length_parse]

/-- `from_string` with an error code. -/
def fromString (str : List UInt8) (ec : Option Errc) : NetworkAddress 6 × Option Errc :=
  let r := readInto hex str (NetworkAddress.any (n := 6)).bytes ec
  (⟨r.1, (length_readInto hex _ _ _).trans NetworkAddress.any.size⟩, r.2)

/-- `from_string` that throws. -/
def fromStringOrThrow (str : List UInt8) : Except Errc (NetworkAddress 6) :=
  match fromString hex str none with
  | (addr, none) => .ok addr
  | (_, some ec) => .error ec

end FromString

/-- Two hexadecimal digits. -/
def IsGroup (group : List UInt8) : Prop := group.length = 2 ∧ ∀ ch ∈ group, isxdigit ch

/-- Groups with a separator before each. -/
def separated (groups : List (UInt8 × List UInt8)) : List UInt8 :=
  groups.flatMap fun g => g.1 :: g.2

/-- Six groups with a separator between each two. -/
def IsLinklayer (str : List UInt8) : Prop :=
  ∃ (group : List UInt8) (groups : List (UInt8 × List UInt8)),
    groups.length = 5 ∧ IsGroup group ∧ (∀ g ∈ groups, IsSep g.1 ∧ IsGroup g.2) ∧
      str = group ++ separated groups

/-- What `qi::uint_parser<unsigned char, 16, 2, 2>` does: it takes two hexadecimal digits, and
fails where there are no two. -/
structure HexParser (hex : List UInt8 → UInt8 → UInt8 × Option (List UInt8)) : Prop where
  reads : ∀ str byte, IsGroup (str.take 2) →
    hex str byte = (UInt8.ofNat (hexadecimalValue (str.take 2)), some (str.drop 2))
  fails : ∀ str byte, ¬ IsGroup (str.take 2) → (hex str byte).2 = none

/-- The octet that a group says. -/
def groupValue (group : List UInt8) : UInt8 := UInt8.ofNat (hexadecimalValue group)

theorem take_group {group : List UInt8} (hgroup : IsGroup group) (rest : List UInt8) :
    (group ++ rest).take 2 = group ∧ (group ++ rest).drop 2 = rest := by
  rw [← hgroup.1]
  exact ⟨List.take_left, List.drop_left⟩

section Parse

variable {hex : List UInt8 → UInt8 → UInt8 × Option (List UInt8)} (hhex : HexParser hex)
include hhex

theorem hex_of_group {group : List UInt8} (hgroup : IsGroup group) (rest : List UInt8)
    (byte : UInt8) : hex (group ++ rest) byte = (groupValue group, some rest) := by
  obtain ⟨htake, hdrop⟩ := take_group hgroup rest
  have hread := hhex.reads (group ++ rest) byte (by rwa [htake])
  rwa [htake, hdrop] at hread

theorem group_of_hex {str rest : List UInt8} {byte : UInt8} (h : (hex str byte).2 = some rest) :
    ∃ group, IsGroup group ∧ str = group ++ rest := by
  by_cases hgroup : IsGroup (str.take 2)
  · rw [hhex.reads str byte hgroup, Option.some.injEq] at h
    refine ⟨str.take 2, hgroup, ?_⟩
    rw [← h, List.take_append_drop]
  · rw [hhex.fails str byte hgroup] at h
    exact absurd h (Option.some_ne_none rest).symm

theorem parse_group (cs : List Component) {group : List UInt8} (hgroup : IsGroup group)
    (rest : List UInt8) (byte : UInt8) (bytes : List UInt8) :
    parse hex (.hex :: cs) (byte :: bytes) (group ++ rest) =
      (groupValue group :: (parse hex cs bytes rest).1, (parse hex cs bytes rest).2) := by
  rw [parse, hex_of_group hhex hgroup]

theorem group_of_parse {cs : List Component} {byte : UInt8} {bytes str rest : List UInt8}
    (h : (parse hex (.hex :: cs) (byte :: bytes) str).2 = some rest) :
    ∃ group tail, IsGroup group ∧ str = group ++ tail ∧
      (parse hex cs bytes tail).2 = some rest := by
  rw [parse] at h
  rcases hread : hex str byte with ⟨byte', _ | tail⟩
  · rw [hread] at h
    exact absurd h (Option.some_ne_none _).symm
  · rw [hread] at h
    obtain ⟨group, hgroup, rfl⟩ := group_of_hex hhex (congrArg Prod.snd hread)
    exact ⟨group, tail, hgroup, rfl, h⟩

theorem parse_separated {groups : List (UInt8 × List UInt8)}
    (hgroups : ∀ g ∈ groups, IsSep g.1 ∧ IsGroup g.2) (rest : List UInt8) {bytes : List UInt8}
    (hlength : bytes.length = groups.length) :
    parse hex (List.replicate groups.length [.sep, .hex]).flatten bytes
        (separated groups ++ rest) =
      (groups.map fun g => groupValue g.2, some rest) := by
  induction groups generalizing bytes with
  | nil =>
    obtain rfl := List.length_eq_zero_iff.mp hlength
    rfl
  | cons g groups ih =>
    obtain ⟨byte, bytes, rfl⟩ := List.exists_cons_of_length_eq_add_one hlength
    obtain ⟨hhead, hmore⟩ := List.forall_mem_cons.mp hgroups
    have htail := ih hmore (Nat.succ_injective hlength)
    have htext : separated (g :: groups) ++ rest = g.1 :: (g.2 ++ (separated groups ++ rest)) := by
      simp [separated]
    rw [htext, List.length_cons, List.replicate_succ, List.flatten_cons, List.cons_append, parse,
      if_pos hhead.1, List.cons_append, parse_group hhex _ hhead.2, List.nil_append, htail,
      List.map_cons]

theorem separated_of_parse {bytes str rest : List UInt8}
    (h : (parse hex (List.replicate bytes.length [.sep, .hex]).flatten bytes str).2 = some rest) :
    ∃ groups : List (UInt8 × List UInt8), groups.length = bytes.length ∧
      (∀ g ∈ groups, IsSep g.1 ∧ IsGroup g.2) ∧ str = separated groups ++ rest := by
  induction bytes generalizing str with
  | nil =>
    obtain rfl : str = rest := Option.some.inj h
    exact ⟨[], rfl, fun _ hg => absurd hg List.not_mem_nil, rfl⟩
  | cons byte bytes ih =>
    rw [List.length_cons, List.replicate_succ, List.flatten_cons, List.cons_append] at h
    cases str with
    | nil => exact absurd h (Option.some_ne_none _).symm
    | cons ch str =>
      rw [parse] at h
      split_ifs at h with hsep
      obtain ⟨group, tail, hgroup, rfl, hrest⟩ := group_of_parse hhex h
      obtain ⟨groups, hlength, hgroups, rfl⟩ := ih hrest
      refine ⟨(ch, group) :: groups, by rw [List.length_cons, List.length_cons, hlength],
        List.forall_mem_cons.mpr ⟨⟨hsep, hgroup⟩, hgroups⟩, ?_⟩
      simp [separated]

end Parse

theorem length_of_isLinklayer {str : List UInt8} (h : IsLinklayer str) : str.length = 17 := by
  obtain ⟨group, groups, hlength, hgroup, hgroups, rfl⟩ := h
  have hsum : groups.map (fun g => (g.1 :: g.2).length) = groups.map fun _ => 3 :=
    List.map_congr_left fun g hg => congrArg (· + 1) (hgroups g hg).2.1
  rw [List.length_append, hgroup.1, separated, List.length_flatMap, hsum, List.map_const',
    List.sum_replicate, hlength]
  rfl

theorem isGroup_hexPair (byte : UInt8) : IsGroup (hexPair byte) := ⟨rfl, isxdigit_hexPair byte⟩

theorem isGroup_pairs (bytes : List UInt8) :
    ∀ g ∈ bytes.map fun byte => (chr ':', hexPair byte), IsSep g.1 ∧ IsGroup g.2 := by
  intro g hg
  obtain ⟨byte, -, rfl⟩ := List.mem_map.mp hg
  exact ⟨.inl rfl, isGroup_hexPair byte⟩

theorem toString_eq_separated {a : NetworkAddress 6} {byte : UInt8} {bytes : List UInt8}
    (h : a.bytes = byte :: bytes) :
    toString a = hexPair byte ++ separated (bytes.map fun byte => (chr ':', hexPair byte)) := by
  rw [toString, h, List.map_cons, intercalate_cons, separated, List.flatMap_map, List.flatMap_map]

theorem isLinklayer_toString (a : NetworkAddress 6) : IsLinklayer (toString a) := by
  obtain ⟨byte, bytes, hbytes⟩ := List.exists_cons_of_length_eq_add_one a.size
  have hlength : bytes.length = 5 := by
    have := a.size
    rw [hbytes, List.length_cons] at this
    exact Nat.succ_injective this
  exact ⟨hexPair byte, _, (List.length_map _).trans hlength, isGroup_hexPair byte,
    isGroup_pairs bytes, toString_eq_separated hbytes⟩

theorem zeroed {bytes : List UInt8} (h : bytes.length = 6) :
    (((((bytes.set 5 0).set 4 0).set 3 0).set 2 0).set 1 0).set 0 0 =
      (NetworkAddress.any (n := 6)).bytes :=
  match bytes, h with
  | [_, _, _, _, _, _], _ => rfl

theorem fromString_of_readInto {hex : List UInt8 → UInt8 → UInt8 × Option (List UInt8)}
    {str : List UInt8} {ec ec' : Option Errc} {a : NetworkAddress 6}
    (h : readInto hex str (NetworkAddress.any (n := 6)).bytes ec = (a.bytes, ec')) :
    fromString hex str ec = (a, ec') := by
  have hbytes := congrArg Prod.fst h
  have hec := congrArg Prod.snd h
  exact Prod.ext (NetworkAddress.ext hbytes) hec

section Text

variable {hex : List UInt8 → UInt8 → UInt8 × Option (List UInt8)} (hhex : HexParser hex)
include hhex

theorem fromString_groups {group : List UInt8} {groups : List (UInt8 × List UInt8)}
    (hgroup : IsGroup group) (hgroups : ∀ g ∈ groups, IsSep g.1 ∧ IsGroup g.2)
    {a : NetworkAddress 6} (ha : groupValue group :: groups.map (fun g => groupValue g.2) = a.bytes)
    (rest : List UInt8) (ec : Option Errc) :
    fromString hex (group ++ separated groups ++ rest) ec = (a, ec) := by
  have hlength : groups.length = 5 := by
    have := congrArg List.length ha
    rw [a.size, List.length_cons, List.length_map] at this
    exact Nat.succ_injective this
  have hany : (NetworkAddress.any (n := 6)).bytes = 0 :: List.replicate 5 0 := rfl
  have hreplicate : (List.replicate 5 (0 : UInt8)).length = groups.length := by
    rw [List.length_replicate, hlength]
  have hparse := parse_separated hhex hgroups rest hreplicate
  rw [hlength] at hparse
  apply fromString_of_readInto
  rw [readInto, hany, grammar, List.append_assoc, parse_group hhex _ hgroup, hparse, ha]
  exact if_pos (Option.some_ne_none rest)

/-- The text of an address is read whatever follows it. -/
theorem fromString_append {text : List UInt8} (h : IsLinklayer text) (rest : List UInt8)
    (ec : Option Errc) : (fromString hex (text ++ rest) ec).2 = ec := by
  obtain ⟨group, groups, hlength, hgroup, hgroups, rfl⟩ := h
  have hsize : (groupValue group :: groups.map fun g => groupValue g.2).length = 6 := by
    simp [hlength]
  rw [fromString_groups hhex hgroup hgroups (a := ⟨_, hsize⟩) rfl]

theorem text_of_parse {bytes str rest : List UInt8} (hbytes : bytes.length = 6)
    (h : (parse hex grammar bytes str).2 = some rest) :
    ∃ text, IsLinklayer text ∧ str = text ++ rest := by
  obtain ⟨byte, bytes, rfl⟩ := List.exists_cons_of_length_eq_add_one hbytes
  have hfive : bytes.length = 5 := Nat.succ_injective hbytes
  obtain ⟨group, tail, hgroup, rfl, htail⟩ := group_of_parse hhex h
  rw [← hfive] at htail
  obtain ⟨groups, hlength, hgroups, rfl⟩ := separated_of_parse hhex htail
  refine ⟨group ++ separated groups, ⟨group, groups, hlength.trans hfive, hgroup, hgroups, rfl⟩, ?_⟩
  rw [List.append_assoc]

theorem fromString_fails {str : List UInt8} (h : ¬ ∃ text, IsLinklayer text ∧ text <+: str)
    (ec : Option Errc) :
    fromString hex str ec = (NetworkAddress.any, some .addressFamilyNotSupported) := by
  have hparse : (parse hex grammar (NetworkAddress.any (n := 6)).bytes str).2 = none := by
    by_contra hsome
    obtain ⟨rest, hrest⟩ := Option.ne_none_iff_exists'.mp hsome
    obtain ⟨text, htext, rfl⟩ := text_of_parse hhex NetworkAddress.any.size hrest
    exact h ⟨text, htext, List.prefix_append text rest⟩
  apply fromString_of_readInto
  rw [readInto, if_neg (not_not.mpr hparse),
    zeroed ((length_parse hex _ _ _).trans NetworkAddress.any.size)]

theorem fromString_toString (a : NetworkAddress 6) (ec : Option Errc) :
    fromString hex (toString a) ec = (a, ec) := by
  obtain ⟨byte, bytes, hbytes⟩ := List.exists_cons_of_length_eq_add_one a.size
  have hvalue : ∀ byte, groupValue (hexPair byte) = byte := by
    intro byte
    rw [groupValue, hexadecimalValue_hexPair, UInt8.ofNat_toNat]
  rw [toString_eq_separated hbytes, ← List.append_nil (hexPair byte ++ _),
    fromString_groups hhex (isGroup_hexPair byte) (isGroup_pairs bytes) (a := a)]
  rw [hbytes, hvalue, List.map_map]
  exact congrArg (byte :: ·) (List.map_id'' hvalue bytes)

end Text

/-- The error code is left clear exactly for the text of an address, and set with `any()` for
everything else. -/
structure ReadsExactly (hex : List UInt8 → UInt8 → UInt8 × Option (List UInt8))
    (str : List UInt8) : Prop where
  clear_iff : (fromString hex str none).2 = none ↔ IsLinklayer str
  otherwise : ¬ IsLinklayer str →
    (fromString hex str none).2 ≠ none ∧ (fromString hex str none).1 = NetworkAddress.any

/-- The text of an address, with something behind it. -/
def HasTrailing (str : List UInt8) : Prop :=
  ∃ text rest, IsLinklayer text ∧ rest ≠ [] ∧ str = text ++ rest

theorem not_isLinklayer_of_hasTrailing {str : List UInt8} (h : HasTrailing str) :
    ¬ IsLinklayer str := by
  obtain ⟨text, rest, htext, hrest, rfl⟩ := h
  intro hstr
  have hlength := length_of_isLinklayer hstr
  rw [List.length_append, length_of_isLinklayer htext, Nat.add_eq_left] at hlength
  exact hrest (List.length_eq_zero_iff.mp hlength)

section Text

variable {hex : List UInt8 → UInt8 → UInt8 × Option (List UInt8)} (hhex : HexParser hex)
include hhex

theorem readsExactly_iff (str : List UInt8) : ReadsExactly hex str ↔ ¬ HasTrailing str := by
  constructor
  · intro hreads htrailing
    obtain ⟨text, rest, htext, hrest, rfl⟩ := id htrailing
    exact not_isLinklayer_of_hasTrailing htrailing
      (hreads.clear_iff.mp (fromString_append hhex htext rest none))
  · intro htrailing
    by_cases hstr : IsLinklayer str
    · have hclear := fromString_append hhex hstr [] none
      rw [List.append_nil] at hclear
      exact ⟨iff_of_true hclear hstr, fun h => absurd hstr h⟩
    · have hfails : ¬ ∃ text, IsLinklayer text ∧ text <+: str := by
        rintro ⟨text, htext, rest, rfl⟩
        refine htrailing ⟨text, rest, htext, ?_, rfl⟩
        rintro rfl
        exact hstr (by rwa [List.append_nil])
      have hset := fromString_fails hhex hfails none
      refine ⟨iff_of_false ?_ hstr, fun _ => ⟨?_, congrArg Prod.fst hset⟩⟩ <;>
      · rw [hset]
        exact Option.some_ne_none _

/-- The text of an address is read back. What is read is the text of an address as long as nothing
stands behind one. -/
theorem linklayerText :
    (∀ a : NetworkAddress 6, fromString hex (toString a) none = (a, none) ∧
      fromStringOrThrow hex (toString a) = .ok a) ∧
    ∀ str : List UInt8, ReadsExactly hex str ↔ ¬ HasTrailing str := by
  refine ⟨fun a => ?_, readsExactly_iff hhex⟩
  have htext := fromString_toString hhex a none
  exact ⟨htext, by rw [fromStringOrThrow, htext]⟩

end Text

instance (group : List UInt8) : Decidable (IsGroup group) := inferInstanceAs (Decidable (_ ∧ _))

/-- A parser as described. -/
def hexParser (str : List UInt8) (byte : UInt8) : UInt8 × Option (List UInt8) :=
  if IsGroup (str.take 2) then
    (UInt8.ofNat (hexadecimalValue (str.take 2)), some (str.drop 2))
  else (byte, none)

theorem hexParser_documented : HexParser hexParser where
  reads := fun _ _ hgroup => if_pos hgroup
  fails := fun str byte hgroup => by rw [hexParser, if_neg hgroup]

theorem linklayerText_of_broadcast :
    fromString hexParser (toString ⟨[255, 255, 255, 255, 255, 255], rfl⟩) none =
        (⟨[255, 255, 255, 255, 255, 255], rfl⟩, none) ∧
      (ReadsExactly hexParser (octets "01:23-45") ↔ ¬ HasTrailing (octets "01:23-45")) := by
  obtain ⟨hread, htext⟩ := linklayerText hexParser_documented
  exact ⟨(hread _).1, htext _⟩

/-- Seven groups are read as the first six, without an error. -/
theorem seven_groups_read :
    (fromString hexParser (octets "01:23:45:67:89:AB:CD") none).2 = none ∧
      ¬ ReadsExactly hexParser (octets "01:23:45:67:89:AB:CD") := by
  have hsix := isLinklayer_toString ⟨[0x01, 0x23, 0x45, 0x67, 0x89, 0xAB], rfl⟩
  have htext : octets "01:23:45:67:89:AB:CD" =
      toString ⟨[0x01, 0x23, 0x45, 0x67, 0x89, 0xAB], rfl⟩ ++ octets ":CD" := rfl
  rw [htext]
  refine ⟨fromString_append hexParser_documented hsix _ none, ?_⟩
  rw [readsExactly_iff hexParser_documented, not_not]
  exact ⟨_, octets ":CD", hsix, List.cons_ne_nil _ _, rfl⟩

end LinklayerAddress

end Acqua
