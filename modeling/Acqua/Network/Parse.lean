import Acqua.Library.Run
import Acqua.Network.Header

/-! `parse.hpp`: the two forms of `parse`, and chains of calls that walk from header to
header while moving one shared `end`. -/

namespace Acqua

structure Parsed where
  hdr : Hdr
  offset : Nat
  deriving DecidableEq, Repr

def etherType (mem : Buffer) (o : Nat) : Nat := mem.ntohs (o + 12)

def ipP (mem : Buffer) (o : Nat) : Nat := (mem.byte (o + 9)).toNat

def ip6Nxt (mem : Buffer) (o : Nat) : Nat := (mem.byte (o + 6)).toNat

def icmpType (mem : Buffer) (o : Nat) : Nat := (mem.byte o).toNat

/-- The specialisations of `is_match_condition`. A pair without one does not compile. -/
def isMatchCondition (src nxt : Hdr) (mem : Buffer) (o n : Nat) : Option Bool :=
  match src, nxt with
  | .ethernetHeader, .ethernetArp => some (etherType mem o == 0x0806)
  | .ethernetHeader, .ipv4Header => some (etherType mem o == 0x0800)
  | .ethernetHeader, .ipv6Header => some (etherType mem o == 0x86dd)
  | .ipv4Header, .icmpEcho =>
    some (ipP mem o == 1 && (icmpType mem n == 8 || icmpType mem n == 0))
  | .ipv4Header, .tcpHeader => some (ipP mem o == 6)
  | .ipv4Header, .udpHeader => some (ipP mem o == 17)
  | .ipv6Header, .icmpv6Echo =>
    some (ip6Nxt mem o == 58 && (icmpType mem n == 128 || icmpType mem n == 129))
  | .ipv6Header, .icmpv6Neighbor =>
    some (ip6Nxt mem o == 58 && (icmpType mem n == 135 || icmpType mem n == 136))
  | .ipv6Header, .tcpHeader => some (ip6Nxt mem o == 6)
  | .ipv6Header, .udpHeader => some (ip6Nxt mem o == 17)
  | _, _ => none

def parseFirst (h : Hdr) (mem : Buffer) (beg : Nat) (stop : Int) : Option Parsed × Int :=
  if (beg + h.sizeof : Nat) < stop then
    if (beg + h.headerSize mem beg : Nat) < stop then
      (some ⟨h, beg⟩, h.shrinkIntoEnd mem beg stop)
    else (none, stop)
  else (none, stop)

def Parsed.next (p : Parsed) (mem : Buffer) : Nat := p.offset + p.hdr.headerSize mem p.offset

def parseNext (h : Hdr) (mem : Buffer) (p : Parsed) (stop : Int) : Option Parsed × Int :=
  let beg := p.offset
  if (beg + p.hdr.headerSize mem beg : Nat) < stop then
    let nxt := beg + p.hdr.headerSize mem beg
    -- the source measures the new header from `beg`, the start of the old one
    if (beg + h.headerSize mem nxt : Nat) < stop ∧
        isMatchCondition p.hdr h mem beg nxt = some true then
      (some ⟨h, nxt⟩, h.shrinkIntoEnd mem nxt stop)
    else (none, stop)
  else (none, stop)

/-- `next src h` continues from the header that the `src`-th latest successful call of
the chain has returned. -/
inductive Call
  | first (h : Hdr) (beg : Nat)
  | next (src : Nat) (h : Hdr)
  deriving Repr

structure Cursor where
  found : List Parsed
  stop : Int
  deriving Repr

def Call.result (mem : Buffer) (c : Cursor) : Call → Option Parsed × Int
  | .first h beg => parseFirst h mem beg c.stop
  | .next src h =>
    match c.found[src]? with
    | some p => parseNext h mem p c.stop
    | none => (none, c.stop)

def Cursor.step (mem : Buffer) (c : Cursor) (call : Call) : Cursor :=
  let r := call.result mem c
  ⟨r.1.toList ++ c.found, r.2⟩

def Cursor.run (mem : Buffer) (c : Cursor) (calls : List Call) : Cursor :=
  calls.foldl (Cursor.step mem) c

def Parsed.extent (p : Parsed) (mem : Buffer) : Nat :=
  max (p.hdr.headerSize mem p.offset) p.hdr.sizeof

def Buffer.limit (mem : Buffer) (stop : Int) : Int := min stop mem.size

/-- Every octet of the header lies in the part of the buffer before `stop`. -/
def Parsed.Inside (p : Parsed) (mem : Buffer) (stop : Int) : Prop :=
  ∀ i, p.offset ≤ i → i < p.offset + p.extent mem → (i : Int) < mem.limit stop

theorem Parsed.inside_iff (p : Parsed) (mem : Buffer) (stop : Int) :
    p.Inside mem stop ↔ ((p.offset + p.extent mem : Nat) : Int) ≤ mem.limit stop := by
  have hpos : 0 < p.extent mem := by
    unfold Parsed.extent
    cases p.hdr <;> simp [Hdr.sizeof]
  constructor
  · intro h
    have := h (p.offset + p.extent mem - 1) (by omega) (by omega)
    omega
  · intro h i _ hi
    omega

/-- The comparisons that `parseFirst` makes. -/
def FirstPasses (h : Hdr) (mem : Buffer) (beg : Nat) (stop : Int) : Prop :=
  (beg + h.sizeof : Nat) < stop ∧ (beg + h.headerSize mem beg : Nat) < stop

/-- The comparisons that `parseNext` makes. -/
def NextPasses (h : Hdr) (mem : Buffer) (p : Parsed) (stop : Int) : Prop :=
  (p.next mem : Nat) < stop ∧ (p.offset + h.headerSize mem (p.next mem) : Nat) < stop ∧
    isMatchCondition p.hdr h mem p.offset (p.next mem) = some true

theorem parseFirst_of_passes {h : Hdr} {mem : Buffer} {beg : Nat} {stop : Int}
    (hg : FirstPasses h mem beg stop) :
    parseFirst h mem beg stop = (some ⟨h, beg⟩, h.shrinkIntoEnd mem beg stop) := by
  simp only [parseFirst, if_pos hg.1, if_pos hg.2]

theorem parseFirst_of_not_passes {h : Hdr} {mem : Buffer} {beg : Nat} {stop : Int}
    (hg : ¬ FirstPasses h mem beg stop) : parseFirst h mem beg stop = (none, stop) := by
  unfold parseFirst
  by_cases hs : (beg + h.sizeof : Nat) < stop
  · rw [if_pos hs, if_neg fun hh => hg ⟨hs, hh⟩]
  · rw [if_neg hs]

theorem parseNext_of_passes {h : Hdr} {mem : Buffer} {p : Parsed} {stop : Int}
    (hg : NextPasses h mem p stop) :
    parseNext h mem p stop = (some ⟨h, p.next mem⟩, h.shrinkIntoEnd mem (p.next mem) stop) := by
  obtain ⟨hn, hr⟩ := hg
  simp only [Parsed.next] at hn hr ⊢
  simp only [parseNext, if_pos hn, if_pos hr]

theorem parseNext_of_not_passes {h : Hdr} {mem : Buffer} {p : Parsed} {stop : Int}
    (hg : ¬ NextPasses h mem p stop) : parseNext h mem p stop = (none, stop) := by
  simp only [NextPasses, Parsed.next] at hg
  unfold parseNext
  dsimp only
  by_cases hn : (p.offset + p.hdr.headerSize mem p.offset : Nat) < stop
  · rw [if_pos hn, if_neg fun hr => hg ⟨hn, hr⟩]
  · rw [if_neg hn]

/-- Where the length field of a header at `o` puts `end`. -/
def Hdr.fieldEnd (h : Hdr) (mem : Buffer) (o : Nat) (stop : Int) : Int :=
  match h with
  | .ipv4Header =>
    if 0 < ipLen mem o ∧ ((o + ipLen mem o : Nat) : Int) < stop then (o + ipLen mem o : Nat) else stop
  | .ipv6Header => (o + (ip6Plen mem o + 40) : Nat)
  | _ => stop

theorem Hdr.shrinkIntoEnd_eq (h : Hdr) (mem : Buffer) (o : Nat) (stop : Int) :
    h.shrinkIntoEnd mem o stop = h.fieldEnd mem o stop := by
  cases h with
  | ipv4Header => exact ipv4ShrinkIntoEnd_eq mem o stop
  | ipv6Header => exact ipv6ShrinkIntoEnd_eq mem o stop
  | _ => rfl

/-- No header of a chain is cut. `found` are the headers laid over the octets so far. A first header
has either no more octets up to `end` than its own length, or lies in the buffer. One that comes
behind another has either no more octets from the start of that one to `end` than the longer of the
two length fields, or both headers lie one behind the other before `end` and in the buffer. -/
def Uncut (mem : Buffer) : List Parsed → Int → List Call → Prop
  | _, _, [] => True
  | found, stop, .first h beg :: calls =>
    let len := max (h.headerSize mem beg) h.sizeof
    if ((beg + len : Nat) : Int) < stop then
      beg + len ≤ mem.size ∧ Uncut mem (⟨h, beg⟩ :: found) (h.fieldEnd mem beg stop) calls
    else Uncut mem found stop calls
  | found, stop, .next src h :: calls =>
    match found[src]? with
    | none => Uncut mem found stop calls
    | some p =>
      let nxt := p.offset + p.hdr.headerSize mem p.offset
      let longer := max (p.hdr.headerSize mem p.offset) (h.headerSize mem nxt)
      if isMatchCondition p.hdr h mem p.offset nxt = some true ∧
          ((p.offset + longer : Nat) : Int) < stop then
        ((nxt + max (h.headerSize mem nxt) h.sizeof : Nat) : Int) ≤ mem.limit stop ∧
          Uncut mem (⟨h, nxt⟩ :: found) (h.fieldEnd mem nxt stop) calls
      else Uncut mem found stop calls

/-- Every header that a chain of calls returns lies in the part of the buffer before `end`. -/
def ChainInside (mem : Buffer) (c : Cursor) (calls : List Call) : Prop :=
  EveryStep (Cursor.step mem)
    (fun c call => ∀ q, (call.result mem c).1 = some q → q.Inside mem c.stop) c calls

variable {mem : Buffer} {c : Cursor} {call : Call} {calls : List Call}

theorem chainInside_of_none (hr : call.result mem c = (none, c.stop)) :
    ChainInside mem c (call :: calls) ↔ ChainInside mem c calls := by
  have hstep : c.step mem call = c := by simp only [Cursor.step, hr, Option.toList_none, List.nil_append]
  rw [ChainInside, everyStep_cons, hstep, hr]
  simp [ChainInside]

theorem chainInside_of_some {q : Parsed} {stop : Int} (hr : call.result mem c = (some q, stop)) :
    ChainInside mem c (call :: calls) ↔
      ((q.offset + q.extent mem : Nat) : Int) ≤ mem.limit c.stop ∧
        ChainInside mem ⟨q :: c.found, stop⟩ calls := by
  have hstep : c.step mem call = ⟨q :: c.found, stop⟩ := by
    simp only [Cursor.step, hr, Option.toList_some, List.singleton_append]
  rw [ChainInside, everyStep_cons, hstep, hr, ← Parsed.inside_iff]
  simp [ChainInside]

theorem firstPasses_iff {h : Hdr} {beg : Nat} {stop : Int} :
    FirstPasses h mem beg stop ↔
      ((beg + max (h.headerSize mem beg) h.sizeof : Nat) : Int) < stop := by
  unfold FirstPasses
  omega

theorem nextPasses_iff {h : Hdr} {p : Parsed} {stop : Int} :
    NextPasses h mem p stop ↔
      isMatchCondition p.hdr h mem p.offset (p.next mem) = some true ∧
        ((p.offset + max (p.hdr.headerSize mem p.offset) (h.headerSize mem (p.next mem)) : Nat) :
          Int) < stop := by
  unfold NextPasses Parsed.next
  constructor
  · rintro ⟨hn, hr, hmatch⟩
    exact ⟨hmatch, by omega⟩
  · rintro ⟨hmatch, hroom⟩
    exact ⟨by omega, by omega, hmatch⟩

theorem chainInside_iff (c : Cursor) (calls : List Call) :
    ChainInside mem c calls ↔ Uncut mem c.found c.stop calls := by
  induction calls generalizing c with
  | nil => simp [ChainInside, Uncut]
  | cons call calls ih =>
    cases call with
    | first h beg =>
      rw [Uncut]
      by_cases hg : FirstPasses h mem beg c.stop
      · have hroom := firstPasses_iff.mp hg
        have hr : (Call.first h beg).result mem c =
            (some ⟨h, beg⟩, h.fieldEnd mem beg c.stop) := by
          rw [Call.result, parseFirst_of_passes hg, Hdr.shrinkIntoEnd_eq]
        have hfits : ((beg + Parsed.extent ⟨h, beg⟩ mem : Nat) : Int) ≤ mem.limit c.stop ↔
            beg + max (h.headerSize mem beg) h.sizeof ≤ mem.size := by
          unfold Parsed.extent Buffer.limit
          dsimp only
          omega
        rw [chainInside_of_some hr, hfits, ih, if_pos hroom]
      · have hr : (Call.first h beg).result mem c = (none, c.stop) := parseFirst_of_not_passes hg
        rw [chainInside_of_none hr, ih, if_neg (mt firstPasses_iff.mpr hg)]
    | next src h =>
      rw [Uncut]
      cases hsrc : c.found[src]? with
      | none =>
        have hr : (Call.next src h).result mem c = (none, c.stop) := by simp only [Call.result, hsrc]
        rw [chainInside_of_none hr, ih]
      | some p =>
        by_cases hg : NextPasses h mem p c.stop
        · have hr : (Call.next src h).result mem c =
              (some ⟨h, p.next mem⟩, h.fieldEnd mem (p.next mem) c.stop) := by
            simp only [Call.result, hsrc, parseNext_of_passes hg, Hdr.shrinkIntoEnd_eq]
          have hroom := nextPasses_iff.mp hg
          rw [chainInside_of_some hr, ih]
          exact iff_of_eq (if_pos hroom).symm
        · have hr : (Call.next src h).result mem c = (none, c.stop) := by
            simp only [Call.result, hsrc, parseNext_of_not_passes hg]
          have hroom := mt nextPasses_iff.mpr hg
          rw [chainInside_of_none hr, ih]
          exact iff_of_eq (if_neg hroom).symm

/-- A chain of calls returns only headers that lie inside the delimited part of the buffer exactly
when the length fields cut none of them. -/
theorem parse_chain_inside_iff (mem : Buffer) (stop : Int) (calls : List Call) :
    EveryStep (Cursor.step mem)
        (fun c call => ∀ q, (call.result mem c).1 = some q → q.Inside mem c.stop)
        ⟨[], stop⟩ calls ↔
      Uncut mem [] stop calls :=
  chainInside_iff ⟨[], stop⟩ calls

/-- A frame cut after 15 octets of its IPv4 header. -/
def truncatedFrame : Buffer :=
  ⟨29, fun i => if i = 12 then 0x08 else if i = 14 then 0x45 else 0⟩

theorem truncatedFrame_ipv4_outside :
    ¬ EveryStep (Cursor.step truncatedFrame)
        (fun c call => ∀ q, (call.result truncatedFrame c).1 = some q →
          q.Inside truncatedFrame c.stop)
        ⟨[], 29⟩ [.first .ethernetHeader 0, .next 0 .ipv4Header] := by
  intro h
  have hin := h [.first .ethernetHeader 0] (.next 0 .ipv4Header) [] rfl ⟨.ipv4Header, 14⟩ (by decide)
  rw [Parsed.inside_iff] at hin
  exact absurd hin (by decide)

end Acqua
