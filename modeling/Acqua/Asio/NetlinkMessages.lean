import Acqua.Asio.NetlinkListener
import Acqua.Library.Splits

/-! What a listener reports of the messages that rtnetlink sends. -/

namespace Acqua

namespace Asio

namespace Netlink

/-- An attribute with the octets that pad it to the next one. -/
structure Attr where
  type : Nat
  payload : List UInt8
  pad : List UInt8
  type_lt : type < 2 ^ 16
  length_lt : 4 + payload.length < 2 ^ 16
  aligned : align4 (4 + payload.length) = 4 + payload.length + pad.length

def Attr.bytes (a : Attr) : List UInt8 :=
  littleOctets 2 (4 + a.payload.length) ++ (littleOctets 2 a.type ++ (a.payload ++ a.pad))

/-- A message, of which `header` holds the flags, the sequence number and the port, and `head` the
structure that stands in front of the attributes. -/
structure Message where
  type : Nat
  header : List UInt8
  head : List UInt8
  attrs : List Attr
  type_lt : type < 2 ^ 16
  header_length : header.length = 10
  aligned : align4 (16 + head.length) = 16 + head.length

namespace Message

variable (m : Message)

def body : List UInt8 := m.head ++ m.attrs.flatMap Attr.bytes

def length : Nat := 16 + m.body.length

def bytes : List UInt8 :=
  littleOctets 4 m.length ++ (littleOctets 2 m.type ++ (m.header ++ m.body))

/-- A field of the structure in front of the attributes. -/
def field (offset width : Nat) : Nat := littleValue ((m.head.drop offset).take width)

def family : Nat := m.field 0 1

end Message

section Values

/-- The last of the attributes of a type, which is the one that stays. -/
def lastPayload (type : Nat) (attrs : List Attr) : Option (List UInt8) :=
  (attrs.reverse.find? fun a => a.type = type).map Attr.payload

def nameOf (type : Nat) (attrs : List Attr) : List UInt8 :=
  ((lastPayload type attrs).getD []).takeWhile (· ≠ 0)

def addrOf (type size : Nat) (attrs : List Attr) : List UInt8 :=
  ((lastPayload type attrs).map (List.take size)).getD (List.replicate size 0)

theorem lastPayload_concat (type : Nat) (attrs : List Attr) (a : Attr) :
    lastPayload type (attrs ++ [a]) =
      if a.type = type then some a.payload else lastPayload type attrs := by
  rw [lastPayload, List.reverse_append, List.reverse_singleton, List.singleton_append,
    List.find?_cons]
  by_cases htype : a.type = type
  · simp [htype]
  · simp [htype, lastPayload]

theorem nameOf_concat (type : Nat) (attrs : List Attr) (a : Attr) :
    nameOf type (attrs ++ [a]) =
      if a.type = type then a.payload.takeWhile (· ≠ 0) else nameOf type attrs := by
  rw [nameOf, lastPayload_concat]
  split <;> rfl

theorem addrOf_concat (type size : Nat) (attrs : List Attr) (a : Attr) :
    addrOf type size (attrs ++ [a]) =
      if a.type = type then a.payload.take size else addrOf type size attrs := by
  rw [addrOf, lastPayload_concat]
  split <;> rfl

end Values

namespace Attr

/-- An attribute with a name is a C string, and one with an address is long enough for it. -/
def Holds (name address size : Nat) (a : Attr) : Prop :=
  (a.type = name → 0 ∈ a.payload) ∧ (a.type = address → size ≤ a.payload.length)

def LinkHolds (a : Attr) : Prop :=
  a.Holds iflaIfname iflaAddress 6 ∧ (a.type = iflaStats → 16 ≤ a.payload.length)

def NeighborHolds (size : Nat) (a : Attr) : Prop :=
  (a.type = ndaDst → size ≤ a.payload.length) ∧ (a.type = ndaLladdr → 6 ≤ a.payload.length)

end Attr

namespace Message

/-- The structure in front has its size, the attributes hold what they are for, and an address has
an attribute at least. -/
structure Sent (m : Message) : Prop where
  link : m.type = rtmNewlink → m.head.length = 16 ∧ ∀ a ∈ m.attrs, a.LinkHolds
  ifaddr : m.type = rtmNewaddr → m.head.length = 8 ∧ m.attrs ≠ [] ∧ ∀ a ∈ m.attrs,
    (m.family = afInet → a.Holds ifaLabel ifaAddress 4) ∧
      (m.family = afInet6 → a.Holds ifaLabel ifaAddress 16)
  neighbor : m.type = rtmNewneigh → m.head.length = 12 ∧ ∀ a ∈ m.attrs,
    (m.family = afInet → a.NeighborHolds 4) ∧ (m.family = afInet6 → a.NeighborHolds 16)

def linkCalls (c : Category) (m : Message) : List Call :=
  let ifname := nameOf iflaIfname m.attrs
  let changed :=
    if c.link then
      [Call.onLink ifname (addrOf iflaAddress 6 m.attrs) (m.field 2 2) (m.field 8 4)]
    else []
  let stats :=
    match c.stats, lastPayload iflaStats m.attrs with
    | true, some p =>
      let counter offset := littleValue ((p.drop offset).take 4)
      [Call.onStats ifname (counter 4) (counter 12) (counter 0) (counter 8) (m.field 2 2)
        (m.field 8 4)]
    | _, _ => []
  changed ++ stats

def ifaddrCall (size : Nat) (m : Message) (attrs : List Attr) : Call :=
  Call.onIfaddr (addrOf ifaAddress size attrs) (nameOf ifaLabel attrs) (m.field 1 1) (m.field 2 1)

def neighborCalls (size : Nat) (m : Message) : List Call :=
  [Call.onNeighbor (addrOf ndaDst size m.attrs) (addrOf ndaLladdr 6 m.attrs) (m.field 8 2)]

/-- What a listener of a category reports of a message, of which it looks at `seen` where the
message is an address. -/
def callsWith (seen : List Attr → List Attr) (c : Category) (m : Message) : List Call :=
  if m.type = rtmNewlink ∧ m.family = afUnspec then m.linkCalls c
  else if m.type = rtmNewaddr ∧ m.family = afInet ∧ c.ifaddrV4 then [m.ifaddrCall 4 (seen m.attrs)]
  else if m.type = rtmNewaddr ∧ m.family = afInet6 ∧ c.ifaddrV6 then
    [m.ifaddrCall 16 (seen m.attrs)]
  else if m.type = rtmNewneigh ∧ m.family = afInet ∧ c.neighborV4 then m.neighborCalls 4
  else if m.type = rtmNewneigh ∧ m.family = afInet6 ∧ c.neighborV6 then m.neighborCalls 16
  else []

/-- The report with all attributes of the message. -/
def meant : Category → Message → List Call := callsWith id

/-- The report without the last attribute of an address. -/
def calls : Category → Message → List Call := callsWith List.dropLast

def Ends (m : Message) : Prop := m.type = nlmsgDone ∨ m.type = nlmsgError

end Message

section Reads

theorem uint_append {width offset : Nat} {l : List UInt8} (h : offset + width ≤ l.length)
    (rest : List UInt8) :
    uint width ((l ++ rest).drop offset) = some (littleValue ((l.drop offset).take width)) := by
  rw [List.drop_append_of_le_length (by omega), uint,
    if_pos (by rw [List.length_append, List.length_drop]; omega),
    List.take_append_of_le_length (by rw [List.length_drop]; omega)]

theorem uint_littleOctets {width n : Nat} (h : n < 256 ^ width) (rest : List UInt8) :
    uint width (littleOctets width n ++ rest) = some n := by
  have huint := @uint_append width 0 (littleOctets width n) (by simp) rest
  rw [List.drop_zero, List.drop_zero,
    List.take_of_length_le (Nat.le_of_eq (length_littleOctets width n)),
    littleValue_littleOctets h] at huint
  exact huint

theorem fromVoidptr_append {size : Nat} {l : List UInt8} (h : size ≤ l.length)
    (rest : List UInt8) : fromVoidptr size (l ++ rest) = some (l.take size) := by
  rw [fromVoidptr, if_pos (by rw [List.length_append]; omega), List.take_append_of_le_length h]

theorem cstring_append {l : List UInt8} (h : 0 ∈ l) (rest : List UInt8) :
    cstring (l ++ rest) = some (l.takeWhile (· ≠ 0)) := by
  obtain ⟨text, behind, rfl, htext⟩ := List.eq_append_cons_of_mem h
  have hrun : ∀ b ∈ text, decide (b ≠ 0) = true := by
    intro b hb
    rw [decide_eq_true_eq]
    rintro rfl
    exact htext hb
  rw [cstring, if_pos (List.mem_append_left _ h), List.append_assoc, List.cons_append,
    takeWhile_run hrun (by decide), takeWhile_run hrun (by decide)]

theorem Attr.uint_length (a : Attr) (rest : List UInt8) :
    uint 2 (a.bytes ++ rest) = some (4 + a.payload.length) := by
  rw [bytes, List.append_assoc, uint_littleOctets a.length_lt]

theorem Attr.uint_type (a : Attr) (rest : List UInt8) :
    uint 2 ((a.bytes ++ rest).drop 2) = some a.type := by
  rw [bytes, List.append_assoc, List.drop_left' (length_littleOctets 2 _), List.append_assoc,
    uint_littleOctets a.type_lt]

theorem Attr.drop_bytes (a : Attr) (rest : List UInt8) :
    (a.bytes ++ rest).drop 4 = a.payload ++ (a.pad ++ rest) := by
  rw [bytes, ← List.append_assoc, List.append_assoc, List.drop_left' (by simp), List.append_assoc]

theorem Attr.length_bytes (a : Attr) : align4 (4 + a.payload.length) = a.bytes.length := by
  rw [a.aligned, bytes]
  simp
  omega

end Reads

/-- The loop sees all attributes that the length spans, and then stops at what is no attribute. -/
theorem attributes_spec {σ : Type} {onAttribute : Nat → List UInt8 → σ → Option σ}
    {R : σ → List Attr → Prop} {attrs : List Attr}
    (hstep : ∀ a ∈ attrs, ∀ rest s done, R s done →
      ∃ s', onAttribute a.type (a.payload ++ rest) s = some s' ∧ R s' (done ++ [a]))
    {s : σ} (hR : R s []) (rest : List UInt8) (extra : Nat)
    (hend : extra < 4 ∨ ∃ l, uint 2 rest = some l ∧ ¬ (4 ≤ l ∧ l ≤ extra))
    (hlen : (attrs.flatMap Attr.bytes).length + extra < 2 ^ 64) :
    ∃ s', R s' attrs ∧ attributes onAttribute (attrs.flatMap Attr.bytes ++ rest)
      ((attrs.flatMap Attr.bytes).length + extra) s = some s' := by
  have hrecords := @recordLoop_records _ _ 4 (uint 2)
    (fun rta s => (uint 2 (rta.drop 2)).bind fun type => (onAttribute type (rta.drop 4) s).map some)
    extra ((attrs.flatMap Attr.bytes ++ rest).length + 1) s _
    Attr.bytes (fun a => 4 + a.payload.length) R attrs
    (fun a ha rest => ⟨a.uint_length rest, Nat.le_add_right _ _, a.length_bytes, fun s done hs => by
      obtain ⟨s', hs', hR'⟩ := hstep a ha (a.pad ++ rest) s done hs
      exact ⟨s', by rw [a.uint_type, a.drop_bytes, Option.bind_some, hs']; rfl, hR'⟩⟩)
    hlen rest [] hR
  obtain ⟨s', hR', hloop⟩ := hrecords
  refine ⟨s', hR', ?_⟩
  rw [attributes, ← recordLoop_fuel rfl (by decide) (Nat.lt_succ_self _) attrs.length, hloop]
  rcases hend with hshort | ⟨l, hl, hlong⟩
  · exact recordLoop_of_short hshort
  · exact recordLoop_of_long hl hlong

section Steps

variable {a : Attr} {done : List Attr} (rest : List UInt8)

/-- The fields after the attributes `done`. -/
structure LinkDone (s : LinkFields) (done : List Attr) : Prop where
  ifname : s.ifname = nameOf iflaIfname done
  addr : s.addr = addrOf iflaAddress 6 done
  stats : ∃ behind, s.stats = (lastPayload iflaStats done).map (· ++ behind)

theorem linkAttribute_step (ha : a.LinkHolds) {s : LinkFields} (hs : LinkDone s done) :
    ∃ s', linkAttribute a.type (a.payload ++ rest) s = some s' ∧ LinkDone s' (done ++ [a]) := by
  obtain ⟨⟨hname, haddr⟩, -⟩ := ha
  obtain ⟨hifname, haddress, behind, hstats⟩ := hs
  by_cases h3 : a.type = iflaIfname
  · refine ⟨{ s with ifname := a.payload.takeWhile (· ≠ 0) }, ?_, ?_, ?_, behind, ?_⟩
    · rw [linkAttribute, if_pos h3, cstring_append (hname h3)]
      rfl
    · rw [nameOf_concat, if_pos h3]
    · rw [addrOf_concat, if_neg (by rw [h3]; decide), haddress]
    · rw [lastPayload_concat, if_neg (by rw [h3]; decide), hstats]
  · by_cases h1 : a.type = iflaAddress
    · refine ⟨{ s with addr := a.payload.take 6 }, ?_, ?_, ?_, behind, ?_⟩
      · rw [linkAttribute, if_neg h3, if_pos h1, fromVoidptr_append (haddr h1)]
        rfl
      · rw [nameOf_concat, if_neg h3, hifname]
      · rw [addrOf_concat, if_pos h1]
      · rw [lastPayload_concat, if_neg (by rw [h1]; decide), hstats]
    · by_cases h7 : a.type = iflaStats
      · refine ⟨{ s with stats := some (a.payload ++ rest) }, ?_, ?_, ?_, rest, ?_⟩
        · rw [linkAttribute, if_neg h3, if_neg h1, if_pos h7]
        · rw [nameOf_concat, if_neg h3, hifname]
        · rw [addrOf_concat, if_neg h1, haddress]
        · rw [lastPayload_concat, if_pos h7]
          rfl
      · refine ⟨s, ?_, ?_, ?_, behind, ?_⟩
        · rw [linkAttribute, if_neg h3, if_neg h1, if_neg h7]
        · rw [nameOf_concat, if_neg h3, hifname]
        · rw [addrOf_concat, if_neg h1, haddress]
        · rw [lastPayload_concat, if_neg h7, hstats]

structure IfaddrDone (size : Nat) (s : IfaddrFields) (done : List Attr) : Prop where
  addr : s.addr = addrOf ifaAddress size done
  label : s.label = nameOf ifaLabel done

theorem ifaddrAttribute_step {size : Nat} (ha : a.Holds ifaLabel ifaAddress size)
    {s : IfaddrFields} (hs : IfaddrDone size s done) :
    ∃ s', ifaddrAttribute size a.type (a.payload ++ rest) s = some s' ∧
      IfaddrDone size s' (done ++ [a]) := by
  obtain ⟨hname, haddr⟩ := ha
  obtain ⟨haddress, hlabel⟩ := hs
  by_cases h1 : a.type = ifaAddress
  · refine ⟨{ s with addr := a.payload.take size }, ?_, ?_, ?_⟩
    · rw [ifaddrAttribute, if_pos h1, fromVoidptr_append (haddr h1)]
      rfl
    · rw [addrOf_concat, if_pos h1]
    · rw [nameOf_concat, if_neg (by rw [h1]; decide), hlabel]
  · by_cases h3 : a.type = ifaLabel
    · refine ⟨{ s with label := a.payload.takeWhile (· ≠ 0) }, ?_, ?_, ?_⟩
      · rw [ifaddrAttribute, if_neg h1, if_pos h3, cstring_append (hname h3)]
        rfl
      · rw [addrOf_concat, if_neg h1, haddress]
      · rw [nameOf_concat, if_pos h3]
    · refine ⟨s, ?_, ?_, ?_⟩
      · rw [ifaddrAttribute, if_neg h1, if_neg h3]
      · rw [addrOf_concat, if_neg h1, haddress]
      · rw [nameOf_concat, if_neg h3, hlabel]

structure NeighborDone (size : Nat) (s : NeighborFields) (done : List Attr) : Prop where
  inAddr : s.inAddr = addrOf ndaDst size done
  llAddr : s.llAddr = addrOf ndaLladdr 6 done

theorem neighborAttribute_step {size : Nat} (ha : a.NeighborHolds size)
    {s : NeighborFields} (hs : NeighborDone size s done) :
    ∃ s', neighborAttribute size a.type (a.payload ++ rest) s = some s' ∧
      NeighborDone size s' (done ++ [a]) := by
  obtain ⟨hdst, hlladdr⟩ := ha
  obtain ⟨hin, hll⟩ := hs
  by_cases h1 : a.type = ndaDst
  · refine ⟨{ s with inAddr := a.payload.take size }, ?_, ?_, ?_⟩
    · rw [neighborAttribute, if_pos h1, fromVoidptr_append (hdst h1)]
      rfl
    · rw [addrOf_concat, if_pos h1]
    · rw [addrOf_concat, if_neg (by rw [h1]; decide), hll]
  · by_cases h2 : a.type = ndaLladdr
    · refine ⟨{ s with llAddr := a.payload.take 6 }, ?_, ?_, ?_⟩
      · rw [neighborAttribute, if_neg h1, if_pos h2, fromVoidptr_append (hlladdr h2)]
        rfl
      · rw [addrOf_concat, if_neg h1, hin]
      · rw [addrOf_concat, if_pos h2]
    · refine ⟨s, ?_, ?_, ?_⟩
      · rw [neighborAttribute, if_neg h1, if_neg h2]
      · rw [addrOf_concat, if_neg h1, hin]
      · rw [addrOf_concat, if_neg h2, hll]

end Steps

namespace Message

variable {m : Message} (rest : List UInt8)

theorem length_bytes (m : Message) : m.bytes.length = m.length := by
  rw [bytes, length]
  simp [m.header_length]
  omega

theorem drop_bytes (m : Message) :
    (m.bytes ++ rest).drop 16 = m.head ++ (m.attrs.flatMap Attr.bytes ++ rest) := by
  have hfront : m.bytes =
      (littleOctets 4 m.length ++ littleOctets 2 m.type ++ m.header) ++ m.body := by
    simp [bytes]
  rw [hfront, List.append_assoc, List.drop_left' (by simp [m.header_length]), body,
    List.append_assoc]

theorem uint_length (h : m.length < 2 ^ 32) : uint 4 (m.bytes ++ rest) = some m.length := by
  rw [bytes, List.append_assoc, uint_littleOctets h]

theorem uint_type (m : Message) : uint 2 ((m.bytes ++ rest).drop 4) = some m.type := by
  rw [bytes, List.append_assoc, List.drop_left' (length_littleOctets 4 _), List.append_assoc,
    uint_littleOctets m.type_lt]

theorem uint_field {offset width : Nat} (h : offset + width ≤ m.head.length) (tail : List UInt8) :
    uint width ((m.head ++ tail).drop offset) = some (m.field offset width) :=
  uint_append h tail

theorem align_length (m : Message) : align4 m.length = m.bytes.length := by
  have hattrs : ∀ attrs : List Attr, 4 ∣ (attrs.flatMap Attr.bytes).length := by
    intro attrs
    induction attrs with
    | nil => exact dvd_zero 4
    | cons a attrs ih =>
      rw [List.flatMap_cons, List.length_append]
      refine dvd_add ?_ ih
      rw [← a.length_bytes, align4]
      exact dvd_mul_left 4 _
  obtain ⟨k, hk⟩ := hattrs m.attrs
  have hhead := m.aligned
  rw [length_bytes, length, body, List.length_append, hk]
  rw [align4] at hhead ⊢
  omega

theorem wrapSub_of_le {n k : Nat} (h : k ≤ n) (hn : n < 2 ^ 64) : wrapSub n k = n - k := by
  have hadd := @wrapSub_add k (n - k) (by omega)
  rwa [Nat.add_sub_cancel' h] at hadd

/-- What stands behind a message does not look like an empty attribute. A link's payload is taken
for four octets more than it has, so that one would be read. -/
def Quiet (rest : List UInt8) : Prop := ∃ l, uint 2 rest = some l ∧ l ≠ 4

theorem dispatchLinkStats_append {p : List UInt8} (h : 16 ≤ p.length) (behind : List UInt8)
    (ifname : List UInt8) (type flags : Nat) :
    dispatchLinkStats ifname (p ++ behind) type flags =
      some [Call.onStats ifname (littleValue ((p.drop 4).take 4)) (littleValue ((p.drop 12).take 4))
        (littleValue ((p.drop 0).take 4)) (littleValue ((p.drop 8).take 4)) type flags] := by
  have hfirst := @uint_append 4 0 p (by omega) behind
  rw [List.drop_zero] at hfirst
  rw [dispatchLinkStats, uint_append (by omega), uint_append (by omega), hfirst,
    uint_append (by omega)]
  rfl

theorem lastPayload_mem {type : Nat} {attrs : List Attr} {p : List UInt8}
    (h : lastPayload type attrs = some p) : ∃ a ∈ attrs, a.type = type ∧ a.payload = p := by
  obtain ⟨a, ha, rfl⟩ := Option.map_eq_some_iff.mp h
  exact ⟨a, List.mem_reverse.mp (List.mem_of_find?_eq_some ha),
    by simpa using List.find?_some ha, rfl⟩

theorem linkCalls_eq (c : Category) {s : LinkFields} (hs : LinkDone s m.attrs)
    (ha : ∀ a ∈ m.attrs, a.LinkHolds) :
    Netlink.linkCalls c (m.field 2 2) (m.field 8 4) s = some (m.linkCalls c) := by
  obtain ⟨hifname, haddr, behind, hstats⟩ := hs
  rw [Netlink.linkCalls, Message.linkCalls, hstats, hifname, haddr]
  rcases hlast : lastPayload iflaStats m.attrs with _ | p
  · cases c.stats <;> rfl
  · cases c.stats with
    | false => rfl
    | true =>
      obtain ⟨a, hmem, htype, rfl⟩ := lastPayload_mem hlast
      rw [Option.map_some]
      simp only [dispatchLinkStats_append ((ha a hmem).2 htype)]
      rfl

theorem dispatchLinkUnspec_eq (c : Category) (hsent : m.Sent) (htype : m.type = rtmNewlink)
    (hlen : m.length < 2 ^ 32) {rest : List UInt8} (hrest : Quiet rest) :
    dispatchLinkUnspec c ((m.bytes ++ rest).drop 16) (rtmPayload m.length) =
      some (m.linkCalls c) := by
  obtain ⟨hhead, hattrs⟩ := hsent.link htype
  obtain ⟨l, hl, hne⟩ := hrest
  have hpayload : rtmPayload m.length = (m.attrs.flatMap Attr.bytes).length + 4 := by
    rw [length, body, List.length_append, hhead] at hlen ⊢
    rw [rtmPayload, wrapSub_of_le (by omega) (by omega)]
    omega
  rw [length, body, List.length_append, hhead] at hlen
  obtain ⟨s', hs', hloop⟩ := attributes_spec (R := LinkDone)
    (fun a ha tail s done hs => linkAttribute_step tail (hattrs a ha) hs)
    (s := ⟨[], List.replicate 6 0, none⟩) ⟨rfl, rfl, [], rfl⟩ rest 4
    (Or.inr ⟨l, hl, by omega⟩) (by omega)
  have htypeField := @uint_field m 2 2 (by omega)
    (m.attrs.flatMap Attr.bytes ++ rest)
  have hflags := @uint_field m 8 4 (by omega)
    (m.attrs.flatMap Attr.bytes ++ rest)
  rw [drop_bytes, dispatchLinkUnspec, htypeField, hflags, List.drop_left' hhead, hpayload, hloop]
  exact linkCalls_eq c hs' hattrs

/-- All that an address says is looked at but its last attribute, as the length is too short for
it by what a `struct rtmsg` is longer than a `struct ifaddrmsg`. -/
theorem dispatchIfaddrAs_eq (hsent : m.Sent) (htype : m.type = rtmNewaddr) {size : Nat}
    (hattrs : ∀ a ∈ m.attrs, a.Holds ifaLabel ifaAddress size)
    (hlen : m.length < 2 ^ 32) (rest : List UInt8) :
    dispatchIfaddrAs size ((m.bytes ++ rest).drop 16) (rtmPayload m.length) =
      some [m.ifaddrCall size m.attrs.dropLast] := by
  obtain ⟨hhead, hne, -⟩ := hsent.ifaddr htype
  obtain ⟨seen, last, hsplit⟩ : ∃ seen last, m.attrs = seen ++ [last] :=
    ⟨m.attrs.dropLast, m.attrs.getLast hne, (List.dropLast_append_getLast hne).symm⟩
  have hbytes : m.attrs.flatMap Attr.bytes = seen.flatMap Attr.bytes ++ last.bytes := by
    rw [hsplit, List.flatMap_append, List.flatMap_singleton]
  have hlast := last.length_bytes
  have halign := le_align4 (4 + last.payload.length)
  rw [length, body, List.length_append, hhead, hbytes, List.length_append] at hlen
  have hpayload : rtmPayload m.length =
      (seen.flatMap Attr.bytes).length + (last.bytes.length - 4) := by
    rw [length, body, List.length_append, hhead, hbytes, List.length_append, rtmPayload,
      wrapSub_of_le (by omega) (by omega)]
    omega
  have hseen : ∀ a ∈ seen, a.Holds ifaLabel ifaAddress size := fun a ha =>
    hattrs a (by rw [hsplit]; exact List.mem_append_left _ ha)
  obtain ⟨s', hs', hloop⟩ := attributes_spec (R := IfaddrDone size)
    (fun a ha tail s done hs => ifaddrAttribute_step tail (hseen a ha) hs)
    (s := ⟨List.replicate size 0, []⟩) ⟨rfl, rfl⟩
    (last.bytes ++ rest) (last.bytes.length - 4)
    (Or.inr ⟨_, last.uint_length rest, by omega⟩) (by omega)
  have hprefixlen := @uint_field m 1 1 (by omega)
    (m.attrs.flatMap Attr.bytes ++ rest)
  have hflags := @uint_field m 2 1 (by omega)
    (m.attrs.flatMap Attr.bytes ++ rest)
  rw [drop_bytes, dispatchIfaddrAs, hprefixlen, hflags, List.drop_left' hhead, hpayload, hbytes,
    List.append_assoc, hloop, ifaddrCall, hsplit, List.dropLast_concat, ← hs'.addr, ← hs'.label]
  rfl

theorem dispatchNeighborAs_eq (hsent : m.Sent) (htype : m.type = rtmNewneigh) {size : Nat}
    (hattrs : ∀ a ∈ m.attrs, a.NeighborHolds size) (hlen : m.length < 2 ^ 32)
    (rest : List UInt8) :
    dispatchNeighborAs size ((m.bytes ++ rest).drop 16) (rtmPayload m.length) =
      some (m.neighborCalls size) := by
  obtain ⟨hhead, -⟩ := hsent.neighbor htype
  rw [length, body, List.length_append, hhead] at hlen
  have hpayload : rtmPayload m.length = (m.attrs.flatMap Attr.bytes).length + 0 := by
    rw [length, body, List.length_append, hhead, rtmPayload, wrapSub_of_le (by omega) (by omega)]
    omega
  obtain ⟨s', hs', hloop⟩ := attributes_spec (R := NeighborDone size)
    (fun a ha tail s done hs => neighborAttribute_step tail (hattrs a ha) hs)
    (s := ⟨List.replicate size 0, List.replicate 6 0⟩) ⟨rfl, rfl⟩ rest 0
    (Or.inl (by decide)) (by omega)
  have hstate := @uint_field m 8 2 (by omega)
    (m.attrs.flatMap Attr.bytes ++ rest)
  rw [drop_bytes, dispatchNeighborAs, hstate, List.drop_left' hhead, hpayload, hloop,
    neighborCalls, ← hs'.inAddr, ← hs'.llAddr]
  rfl

theorem uint_family (h : 1 ≤ m.head.length) :
    uint 1 ((m.bytes ++ rest).drop 16) = some m.family := by
  have hfield := @uint_field m 0 1 (by omega)
    (m.attrs.flatMap Attr.bytes ++ rest)
  rw [List.drop_zero] at hfield
  rw [drop_bytes, hfield]
  rfl

theorem dispatchLink_eq (c : Category) (hsent : m.Sent) (hlen : m.length < 2 ^ 32)
    {rest : List UInt8} (hrest : Quiet rest) :
    dispatchLink c (m.bytes ++ rest) m.type =
      some (if m.type = rtmNewlink ∧ m.family = afUnspec then m.linkCalls c else []) := by
  by_cases htype : m.type = rtmNewlink
  · have hfamily := uint_family (m := m) rest (by rw [(hsent.link htype).1]; decide)
    by_cases hcategory : (c.link || c.stats) = true
    · by_cases hunspec : m.family = afUnspec
      · rw [dispatchLink, if_pos ⟨hcategory, htype⟩, uint_length rest hlen, hfamily,
          if_pos ⟨htype, hunspec⟩, ← dispatchLinkUnspec_eq c hsent htype hlen hrest]
        exact if_pos hunspec
      · rw [dispatchLink, if_pos ⟨hcategory, htype⟩, uint_length rest hlen, hfamily,
          if_neg fun h => hunspec h.2]
        exact if_neg hunspec
    · have hoff : m.linkCalls c = [] := by
        rw [Bool.or_eq_true, not_or, Bool.not_eq_true, Bool.not_eq_true] at hcategory
        rw [Message.linkCalls, hcategory.1, hcategory.2]
        rfl
      rw [dispatchLink, if_neg fun h => hcategory h.1, hoff, ite_self]
  · rw [dispatchLink, if_neg fun h => htype h.2, if_neg fun h => htype h.1]

theorem dispatchIfaddr_eq (c : Category) (hsent : m.Sent) (hlen : m.length < 2 ^ 32)
    (rest : List UInt8) :
    dispatchIfaddr c (m.bytes ++ rest) m.type =
      some (if m.type = rtmNewaddr ∧ m.family = afInet ∧ c.ifaddrV4 then
          [m.ifaddrCall 4 m.attrs.dropLast]
        else if m.type = rtmNewaddr ∧ m.family = afInet6 ∧ c.ifaddrV6 then
          [m.ifaddrCall 16 m.attrs.dropLast]
        else []) := by
  by_cases htype : m.type = rtmNewaddr
  · obtain ⟨hhead, -, hattrs⟩ := hsent.ifaddr htype
    have hfamily := uint_family (m := m) rest (by rw [hhead]; decide)
    by_cases hcategory : (c.ifaddrV4 || c.ifaddrV6) = true
    · rw [dispatchIfaddr, if_pos ⟨hcategory, htype⟩, uint_length rest hlen, hfamily]
      simp only [htype, true_and, Option.bind_eq_bind, Option.bind_some]
      by_cases h4 : m.family = afInet ∧ c.ifaddrV4 = true
      · rw [if_pos h4, if_pos h4]
        exact dispatchIfaddrAs_eq hsent htype (fun a ha => (hattrs a ha).1 h4.1) hlen rest
      · rw [if_neg h4, if_neg h4]
        by_cases h6 : m.family = afInet6 ∧ c.ifaddrV6 = true
        · rw [if_pos h6, if_pos h6]
          exact dispatchIfaddrAs_eq hsent htype (fun a ha => (hattrs a ha).2 h6.1) hlen rest
        · rw [if_neg h6, if_neg h6]
    · have hoff := hcategory
      rw [Bool.or_eq_true, not_or] at hoff
      rw [dispatchIfaddr, if_neg fun h => hcategory h.1, if_neg fun h => hoff.1 h.2.2,
        if_neg fun h => hoff.2 h.2.2]
  · rw [dispatchIfaddr, if_neg fun h => htype h.2, if_neg fun h => htype h.1,
      if_neg fun h => htype h.1]

theorem dispatchNeighbor_eq (c : Category) (hsent : m.Sent) (hlen : m.length < 2 ^ 32)
    (rest : List UInt8) :
    dispatchNeighbor c (m.bytes ++ rest) m.type =
      some (if m.type = rtmNewneigh ∧ m.family = afInet ∧ c.neighborV4 then m.neighborCalls 4
        else if m.type = rtmNewneigh ∧ m.family = afInet6 ∧ c.neighborV6 then m.neighborCalls 16
        else []) := by
  by_cases htype : m.type = rtmNewneigh
  · obtain ⟨hhead, hattrs⟩ := hsent.neighbor htype
    have hfamily := uint_family (m := m) rest (by rw [hhead]; decide)
    by_cases hcategory : (c.neighborV4 || c.neighborV6) = true
    · rw [dispatchNeighbor, if_pos ⟨hcategory, htype⟩, uint_length rest hlen, hfamily]
      simp only [htype, true_and, Option.bind_eq_bind, Option.bind_some]
      by_cases h4 : m.family = afInet ∧ c.neighborV4 = true
      · rw [if_pos h4, if_pos h4]
        exact dispatchNeighborAs_eq hsent htype (fun a ha => (hattrs a ha).1 h4.1) hlen rest
      · rw [if_neg h4, if_neg h4]
        by_cases h6 : m.family = afInet6 ∧ c.neighborV6 = true
        · rw [if_pos h6, if_pos h6]
          exact dispatchNeighborAs_eq hsent htype (fun a ha => (hattrs a ha).2 h6.1) hlen rest
        · rw [if_neg h6, if_neg h6]
    · have hoff := hcategory
      rw [Bool.or_eq_true, not_or] at hoff
      rw [dispatchNeighbor, if_neg fun h => hcategory h.1, if_neg fun h => hoff.1 h.2.2,
        if_neg fun h => hoff.2 h.2.2]
  · rw [dispatchNeighbor, if_neg fun h => htype h.2, if_neg fun h => htype h.1,
      if_neg fun h => htype h.1]

theorem dispatchMessage_eq (c : Category) (hsent : m.Sent) (hlen : m.length < 2 ^ 32)
    {rest : List UInt8} (hrest : Quiet rest) :
    dispatchMessage c (m.bytes ++ rest) m.type = some (m.calls c) := by
  rw [dispatchMessage, dispatchLink_eq c hsent hlen hrest, dispatchIfaddr_eq c hsent hlen,
    dispatchNeighbor_eq c hsent hlen, calls, callsWith]
  by_cases hlink : m.type = rtmNewlink
  · have haddr : m.type ≠ rtmNewaddr := by rw [hlink]; decide
    have hneigh : m.type ≠ rtmNewneigh := by rw [hlink]; decide
    simp [haddr, hneigh]
  · by_cases haddr : m.type = rtmNewaddr
    · have hneigh : m.type ≠ rtmNewneigh := by rw [haddr]; decide
      simp [hlink, hneigh]
    · simp [hlink, haddr]

/-- A message does not begin like an empty attribute, as it is longer. -/
theorem quiet_bytes (hlen : m.length < 2 ^ 16) (rest : List UInt8) : Quiet (m.bytes ++ rest) := by
  have hsplit : littleOctets 4 m.length =
      littleOctets 2 m.length ++ littleOctets 2 (m.length / 256 / 256) := rfl
  refine ⟨m.length, ?_, by rw [length]; omega⟩
  rw [bytes, List.append_assoc, hsplit, List.append_assoc, uint_littleOctets hlen]

end Message

instance decidableEnds (m : Message) : Decidable m.Ends := inferInstanceAs (Decidable (_ ∨ _))

theorem dispatch_loop (c : Category) {ms : List Message} (hsent : ∀ m ∈ ms, m.Sent)
    {behind : List UInt8} (hbehind : Message.Quiet behind)
    (hlen : (ms.flatMap Message.bytes).length < 2 ^ 16) (fuel : Nat) (calls : List Call) :
    recordLoop 16 (uint 4) (dispatchNext c) (fuel + ms.length) (ms.flatMap Message.bytes ++ behind)
        (ms.flatMap Message.bytes).length calls =
      some (calls ++ (ms.takeWhile fun m => ¬ m.Ends).flatMap (Message.calls c)) := by
  induction ms generalizing calls with
  | nil => simpa using recordLoop_of_short (by decide)
  | cons m ms ih =>
    rw [List.flatMap_cons, List.length_append] at hlen
    have hm : m.length < 2 ^ 16 := by
      rw [← m.length_bytes]
      omega
    have hsize : 16 ≤ m.length := by
      rw [Message.length]
      omega
    have hrest : Message.Quiet (ms.flatMap Message.bytes ++ behind) := by
      cases ms with
      | nil => exact hbehind
      | cons m' ms =>
        rw [List.flatMap_cons, List.append_assoc]
        refine m'.quiet_bytes ?_ _
        rw [List.flatMap_cons, List.length_append, m'.length_bytes] at hlen
        omega
    rw [List.flatMap_cons, List.append_assoc, List.length_append, List.length_cons, ← Nat.add_assoc]
    have hlength := m.uint_length (ms.flatMap Message.bytes ++ behind) (by omega)
    by_cases hend : m.Ends
    · have hbody : dispatchNext c (m.bytes ++ (ms.flatMap Message.bytes ++ behind)) calls =
          some none := by
        rw [dispatchNext, m.uint_type]
        exact if_pos hend
      rw [recordLoop_of_stop hlength hsize (by rw [m.length_bytes]; omega) hbody,
        List.takeWhile_cons_of_neg (by simpa using hend), List.flatMap_nil, List.append_nil]
    · have hbody : dispatchNext c (m.bytes ++ (ms.flatMap Message.bytes ++ behind)) calls =
          some (some (calls ++ m.calls c)) := by
        rw [dispatchNext, m.uint_type, Option.bind_eq_bind, Option.bind_some,
          if_neg (show ¬ (m.type = nlmsgDone ∨ m.type = nlmsgError) from hend),
          Message.dispatchMessage_eq c (hsent m List.mem_cons_self) (by omega) hrest]
        rfl
      rw [recordLoop_of_record hlength hsize m.align_length (by omega) hbody,
        ih (fun m' hm' => hsent m' (List.mem_cons_of_mem _ hm')) (by omega),
        List.takeWhile_cons_of_pos (by simpa using hend), List.flatMap_cons, List.append_assoc]

namespace Message

/-- A report of the message is to name an address of this size. -/
def Reports (c : Category) (size : Nat) (m : Message) : Prop :=
  m.type = rtmNewaddr ∧
    (m.family = afInet ∧ c.ifaddrV4 ∧ size = 4 ∨ m.family = afInet6 ∧ c.ifaddrV6 ∧ size = 16)

/-- The last attribute, if it has the address or the label, does not change what those before it
say. -/
def LastSays (size : Nat) (m : Message) : Prop :=
  ∀ a ∈ m.attrs.getLast?,
    (a.type = ifaAddress → addrOf ifaAddress size m.attrs.dropLast = a.payload.take size) ∧
      (a.type = ifaLabel → nameOf ifaLabel m.attrs.dropLast = a.payload.takeWhile (· ≠ 0))

theorem ifaddrCall_dropLast_iff (size : Nat) (m : Message) :
    m.ifaddrCall size m.attrs.dropLast = m.ifaddrCall size m.attrs ↔ m.LastSays size := by
  rcases List.eq_nil_or_concat m.attrs with hnil | ⟨seen, last, hsplit⟩
  · simp [LastSays, hnil]
  · rw [List.concat_eq_append] at hsplit
    rw [LastSays, hsplit, List.dropLast_concat, List.getLast?_concat, ifaddrCall, ifaddrCall,
      addrOf_concat, nameOf_concat]
    by_cases haddress : last.type = ifaAddress
    · simp [haddress, show ifaAddress ≠ ifaLabel by decide]
    · by_cases hlabel : last.type = ifaLabel
      · simp [hlabel, show ifaLabel ≠ ifaAddress by decide]
      · simp [haddress, hlabel]

theorem length_callsWith (seen seen' : List Attr → List Attr) (c : Category) (m : Message) :
    (m.callsWith seen c).length = (m.callsWith seen' c).length := by
  unfold callsWith
  split
  · rfl
  · split
    · rfl
    · split <;> rfl

theorem calls_eq_meant_iff (c : Category) (m : Message) :
    m.calls c = m.meant c ↔ ∀ size, m.Reports c size → m.LastSays size := by
  rw [calls, meant, callsWith, callsWith]
  by_cases h4 : m.type = rtmNewaddr ∧ m.family = afInet ∧ c.ifaddrV4
  · have hlink : ¬ (m.type = rtmNewlink ∧ m.family = afUnspec) := fun h => by
      rw [h4.1] at h
      exact absurd h.1 (by decide)
    have hsize : ∀ size, m.Reports c size ↔ size = 4 := by
      intro size
      simp [Reports, h4, afInet, afInet6]
    rw [if_neg hlink, if_pos h4, if_neg hlink, if_pos h4, List.singleton_inj, id,
      ifaddrCall_dropLast_iff]
    simp only [hsize, forall_eq]
  · by_cases h6 : m.type = rtmNewaddr ∧ m.family = afInet6 ∧ c.ifaddrV6
    · have hlink : ¬ (m.type = rtmNewlink ∧ m.family = afUnspec) := fun h => by
        rw [h6.1] at h
        exact absurd h.1 (by decide)
      have hsize : ∀ size, m.Reports c size ↔ size = 16 := by
        intro size
        simp [Reports, h6, afInet, afInet6]
      rw [if_neg hlink, if_neg h4, if_pos h6, if_neg hlink, if_neg h4, if_pos h6,
        List.singleton_inj, id, ifaddrCall_dropLast_iff]
      simp only [hsize, forall_eq]
    · rw [if_neg h4, if_neg h6, if_neg h4, if_neg h6, eq_self_iff_true, true_iff]
      rintro size ⟨htype, ⟨hfamily, hc, -⟩ | ⟨hfamily, hc, -⟩⟩
      · exact absurd ⟨htype, hfamily, hc⟩ h4
      · exact absurd ⟨htype, hfamily, hc⟩ h6

end Message

theorem flatMap_eq_flatMap_iff {α β : Type*} {f g : α → List β}
    (h : ∀ a, (f a).length = (g a).length) (l : List α) :
    l.flatMap f = l.flatMap g ↔ ∀ a ∈ l, f a = g a := by
  induction l with
  | nil => simp
  | cons a l ih =>
    rw [List.flatMap_cons, List.flatMap_cons, List.forall_mem_cons, ← ih]
    constructor
    · exact fun heq => List.append_inj heq (h a)
    · rintro ⟨hhead, htail⟩
      rw [hhead, htail]

/-- A listener reports the messages of a datagram up to one that ends it, where the buffer does not
go on like an empty attribute behind them. The reports are complete exactly where the last
attribute of an address adds nothing to those in front of it. -/
theorem dispatch_messages (c : Category) {ms : List Message} (hsent : ∀ m ∈ ms, m.Sent)
    {behind : List UInt8} (hbehind : Message.Quiet behind)
    (hlen : (ms.flatMap Message.bytes).length < 2 ^ 16) :
    let heard := ms.takeWhile fun m => ¬ m.Ends
    let reports :=
      dispatch c (ms.flatMap Message.bytes ++ behind) (ms.flatMap Message.bytes).length
    reports = some (heard.flatMap (Message.calls c)) ∧
      (reports = some (heard.flatMap (Message.meant c)) ↔
        ∀ m ∈ heard, ∀ size, m.Reports c size → m.LastSays size) := by
  intro heard reports
  have hreports : reports = some (heard.flatMap (Message.calls c)) := by
    rw [show reports = dispatch c _ _ from rfl, dispatch,
      ← recordLoop_fuel rfl (by decide) (Nat.lt_succ_self _) ms.length,
      dispatch_loop c hsent hbehind hlen, List.nil_append]
  refine ⟨hreports, ?_⟩
  rw [hreports, Option.some.injEq,
    flatMap_eq_flatMap_iff (f := Message.calls c) (g := Message.meant c)
      fun m => m.length_callsWith _ _ c]
  exact forall₂_congr fun m _ => m.calls_eq_meant_iff c

def loopback : Message where
  type := rtmNewaddr
  header := List.replicate 10 0
  head := [2, 8, 0x80, 254, 1, 0, 0, 0]
  attrs :=
    [⟨1, [127, 0, 0, 1], [], by decide, by decide, by decide⟩,
      ⟨3, octets "lo" ++ [0], [0], by decide, by decide, by decide⟩,
      ⟨6, List.replicate 16 0, [], by decide, by decide, by decide⟩]
  type_lt := by decide
  header_length := rfl
  aligned := by decide

theorem loopback_sent : loopback.Sent where
  link := fun h => absurd h (by decide)
  ifaddr := fun _ => by
    refine ⟨rfl, List.cons_ne_nil _ _, fun a ha => ⟨fun _ => ?_, fun h => absurd h (by decide)⟩⟩
    rcases List.mem_cons.mp ha with rfl | ha
    · exact ⟨by decide, by decide⟩
    · rcases List.mem_cons.mp ha with rfl | ha
      · exact ⟨by decide, by decide⟩
      · obtain rfl := List.mem_singleton.mp ha
        exact ⟨by decide, by decide⟩
  neighbor := fun h => absurd h (by decide)

theorem dispatch_loopback :
    dispatch ⟨false, false, true, true, false, false⟩ (loopback.bytes ++ [0, 0])
        loopback.bytes.length = some [Call.onIfaddr [127, 0, 0, 1] (octets "lo") 8 0x80] := by
  have hreports := (@dispatch_messages ⟨false, false, true, true, false, false⟩ [loopback]
    (List.forall_mem_singleton.mpr loopback_sent) [0, 0] ⟨0, rfl, by decide⟩
    (by decide)).1
  rw [List.flatMap_singleton] at hreports
  exact hreports.trans (by decide)

end Netlink

end Asio

end Acqua
