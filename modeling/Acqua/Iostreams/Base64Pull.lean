import Acqua.Iostreams.Base64RoundTrip
import Acqua.Library.PullFilter

/-! The pull half of the encoder of `base64_filter.hpp`, against its push half. -/

namespace Acqua

namespace Base64Encoder

/-- `EOF`. -/
def eof : BitVec 32 := 0xFFFFFFFF

/-- `to_int_type`: an octet is not taken for `EOF`. -/
def widen (ch : UInt8) : BitVec 32 := ch.toBitVec.setWidth 32

/-- `boost::iostreams::get` on a sequence of octets. -/
def sourceGet : List UInt8 → BitVec 32 × List UInt8
  | [] => (eof, [])
  | ch :: src => (widen ch, src)

def getBreak (e : Base64Encoder) : Base64Encoder × Option UInt8 :=
  match e.nl with
  | .ln => ({ e with cnt := 0 }, some (chr '\n'))
  | .cr => ({ e with cnt := 0 }, some (chr '\r'))
  | .crln =>
    if e.cnt = e.max then ({ e with cnt := e.cnt + 1 }, some (chr '\r'))
    else ({ e with cnt := 0 }, some (chr '\n'))
  | .none => ({ e with cnt := 0 }, none)

variable (T : Base64Traits)

/-- The first character of a group, after the line break. -/
def getFirst (e : Base64Encoder) (src : List UInt8) : (Base64Encoder × Option UInt8) × List UInt8 :=
  if e.prior = eof then ((e, none), src)
  else
    let (ch, src) := sourceGet src
    if ch = eof then
      let e := { e with prior := eof }
      if e.cnt = 0 then ((e, none), src) else (getBreak { e with max := e.cnt }, src)
    else (({ e with cnt := e.cnt + 1, prior := ch }, some (T.enc ((ch &&& 0xFC) >>> 2))), src)

/-- `none` is `EOF`: no character of the two traits classes is negative. -/
def get (e : Base64Encoder) (src : List UInt8) : (Base64Encoder × Option UInt8) × List UInt8 :=
  match e.cnt % 4 with
  | 0 =>
    if e.max ≤ e.cnt then
      match e.getBreak with
      | (e, some ch) => ((e, some ch), src)
      | (e, none) => getFirst T e src
    else getFirst T e src
  | 1 =>
    if e.max ≤ e.cnt then (e.getBreak, src)
    else
      let (ch, src) := sourceGet src
      let res :=
        if ch = eof then T.enc ((e.prior &&& 0x03) <<< 4)
        else T.enc ((e.prior &&& 0x03) <<< 4 ||| (ch &&& 0xF0) >>> 4)
      (({ e with cnt := e.cnt + 1, prior := ch }, some res), src)
  | 2 =>
    if e.prior = eof then
      if T.padding then (({ e with cnt := e.cnt + 1 }, some (chr '=')), src)
      else (getBreak { e with max := e.cnt }, src)
    else
      let (ch, src) := sourceGet src
      let res :=
        if ch = eof then T.enc ((e.prior &&& 0x0F) <<< 2)
        else T.enc ((e.prior &&& 0x0F) <<< 2 ||| (ch &&& 0xC0) >>> 6)
      (({ e with cnt := e.cnt + 1, prior := ch }, some res), src)
  | _ =>
    if e.prior = eof then
      if T.padding then
        let max := if 0 < e.cnt then e.cnt + 1 else e.max
        (({ e with cnt := e.cnt + 1, max := max }, some (chr '=')), src)
      else (getBreak { e with max := e.cnt }, src)
    else (({ e with cnt := e.cnt + 1 }, some (T.enc (e.prior &&& 0x3F))), src)

end Base64Encoder

namespace Base64

open Base64Encoder (eof widen sourceGet getBreak getFirst)

theorem widen_ne_eof (ch : UInt8) : widen ch ≠ eof := by
  intro h
  have hnat := congrArg BitVec.toNat h
  have hlt := ch.toNat_lt
  simp [widen, eof] at hnat
  omega

theorem widen_and (ch : UInt8) {mask : BitVec 32} (hmask : mask.toNat < 2 ^ 8) :
    widen ch &&& mask = promote ch &&& mask := by
  apply BitVec.eq_of_getLsbD_eq
  intro i hi
  rw [BitVec.getLsbD_and, BitVec.getLsbD_and]
  by_cases hlow : i < 8
  · simp [widen, promote, BitVec.getElem_signExtend, hlow, hi]
  · have hbit : mask.getLsbD i = false := by
      apply Nat.testBit_lt_two_pow
      exact hmask.trans_le (Nat.pow_le_pow_right (by decide) (Nat.le_of_not_lt hlow))
    rw [hbit, Bool.and_false, Bool.and_false]

variable (T : Base64Traits)

section Halves

variable {nl : Newline} {m c : Nat} {p : BitVec 32} (ch : UInt8) (src : List UInt8)

theorem get_first (hc : c % 4 = 0) (hm : c < m) (hp : p ≠ eof) :
    Base64Encoder.get T ⟨nl, m, c, p⟩ (ch :: src) =
      ((⟨nl, m, c + 1, widen ch⟩, some (T.enc (sextet₁ ch))), src) := by
  have hmask : widen ch &&& 252#32 = promote ch &&& 252#32 := widen_and ch (by decide)
  simp [Base64Encoder.get, hc, hm.not_ge, getFirst, hp, sourceGet, widen_ne_eof, hmask, sextet₁]

theorem get_second (hc : c % 4 = 1) (hm : c < m) (a : UInt8) :
    Base64Encoder.get T ⟨nl, m, c, widen a⟩ (ch :: src) =
      ((⟨nl, m, c + 1, widen ch⟩, some (T.enc (sextet₂ a ch))), src) := by
  have hmask : widen ch &&& 240#32 = promote ch &&& 240#32 := widen_and ch (by decide)
  have hmask' : widen a &&& 3#32 = promote a &&& 3#32 := widen_and a (by decide)
  simp [Base64Encoder.get, hc, hm.not_ge, sourceGet, widen_ne_eof, hmask, hmask', sextet₂]

theorem get_third (hc : c % 4 = 2) (b : UInt8) :
    Base64Encoder.get T ⟨nl, m, c, widen b⟩ (ch :: src) =
      ((⟨nl, m, c + 1, widen ch⟩, some (T.enc (sextet₃ b ch))), src) := by
  have hmask : widen ch &&& 192#32 = promote ch &&& 192#32 := widen_and ch (by decide)
  have hmask' : widen b &&& 15#32 = promote b &&& 15#32 := widen_and b (by decide)
  simp [Base64Encoder.get, hc, sourceGet, widen_ne_eof, hmask, hmask', sextet₃]

theorem get_fourth (hc : c % 4 = 3) :
    Base64Encoder.get T ⟨nl, m, c, widen ch⟩ src =
      ((⟨nl, m, c + 1, widen ch⟩, some (T.enc (sextet₄ ch))), src) := by
  have hmask : widen ch &&& 63#32 = promote ch &&& 63#32 := widen_and ch (by decide)
  simp [Base64Encoder.get, hc, widen_ne_eof, hmask, sextet₄]

theorem get_second_eof (hc : c % 4 = 1) (hm : c < m) (a : UInt8) :
    Base64Encoder.get T ⟨nl, m, c, widen a⟩ [] =
      ((⟨nl, m, c + 1, eof⟩, some (T.enc (sextet₂ a 0))), []) := by
  have hmask : widen a &&& 3#32 = promote a &&& 3#32 := widen_and a (by decide)
  simp [Base64Encoder.get, hc, hm.not_ge, sourceGet, hmask, sextet₂, promote]

theorem get_third_eof (hc : c % 4 = 2) (b : UInt8) :
    Base64Encoder.get T ⟨nl, m, c, widen b⟩ [] =
      ((⟨nl, m, c + 1, eof⟩, some (T.enc (sextet₃ b 0))), []) := by
  have hmask : widen b &&& 15#32 = promote b &&& 15#32 := widen_and b (by decide)
  simp [Base64Encoder.get, hc, sourceGet, widen_ne_eof, hmask, sextet₃, promote]

theorem get_third_pad (hT : T.padding = true) (hc : c % 4 = 2) :
    Base64Encoder.get T ⟨nl, m, c, eof⟩ src = ((⟨nl, m, c + 1, eof⟩, some (chr '=')), src) := by
  simp [Base64Encoder.get, hc, hT]

theorem get_fourth_pad (hT : T.padding = true) (hc : c % 4 = 3) :
    Base64Encoder.get T ⟨nl, m, c, eof⟩ src =
      ((⟨nl, c + 1, c + 1, eof⟩, some (chr '=')), src) := by
  have hpos : 0 < c := by omega
  simp [Base64Encoder.get, hc, hT, hpos]

theorem get_no_pad (hT : ¬ T.padding = true) (hc : c % 4 = 2 ∨ c % 4 = 3) :
    Base64Encoder.get T ⟨nl, m, c, eof⟩ src = (getBreak ⟨nl, c, c, eof⟩, src) := by
  rcases hc with hc | hc <;> simp [Base64Encoder.get, hc, hT]

theorem get_last (hc : c % 4 = 0) (hpos : 0 < c) (hm : c < m) (hp : p ≠ eof) :
    Base64Encoder.get T ⟨nl, m, c, p⟩ [] = (getBreak ⟨nl, c, c, eof⟩, []) := by
  simp [Base64Encoder.get, hc, hm.not_ge, getFirst, hp, sourceGet, hpos.ne']

theorem pulls_nil (hm : 0 < m) : Pulls (Base64Encoder.get T) ⟨nl, m, 0, p⟩ [] [] := by
  have hget : Base64Encoder.get T ⟨nl, m, 0, p⟩ [] = ((⟨nl, m, 0, eof⟩, none), []) := by
    by_cases hp : p = eof
    · simp [Base64Encoder.get, hm.ne', getFirst, hp]
    · simp [Base64Encoder.get, hm.ne', getFirst, hp, sourceGet]
  exact Pulls.done hget

theorem get_ln (hc : (m + 1) % 4 = 0 ∨ (m + 1) % 4 = 1) :
    Base64Encoder.get T ⟨.crln, m, m + 1, p⟩ src =
      ((⟨.crln, m, 0, p⟩, some (chr '\n')), src) := by
  rcases hc with hc | hc <;> simp [Base64Encoder.get, hc, getBreak]

variable {src}

theorem pulls_break {out : List UInt8} (hm : m % 4 = 0) (hpos : 0 < m)
    (h : Pulls (Base64Encoder.get T) ⟨nl, m, 0, p⟩ src out) :
    Pulls (Base64Encoder.get T) ⟨nl, m, m, p⟩ src (nl.chars ++ out) := by
  cases nl with
  | none =>
    refine h.congr ?_
    simp [Base64Encoder.get, hm, hpos.ne', getBreak]
  | cr => exact Pulls.more (by simp [Base64Encoder.get, hm, getBreak]) h
  | ln => exact Pulls.more (by simp [Base64Encoder.get, hm, getBreak]) h
  | crln =>
    have hget : Base64Encoder.get T ⟨.crln, m, m, p⟩ src =
        ((⟨.crln, m, m + 1, p⟩, some (chr '\r')), src) := by
      simp [Base64Encoder.get, hm, getBreak]
    exact Pulls.more hget (Pulls.more (get_ln T src (by omega)) h)

variable {s : Base64Encoder}

theorem pulls_finish (h : Base64Encoder.get T s [] = (getBreak ⟨nl, c, c, eof⟩, []))
    (hpos : 0 < c) (hc : nl = .crln → c % 4 = 0 ∨ c % 4 = 3) :
    Pulls (Base64Encoder.get T) s [] nl.chars := by
  cases nl with
  | none => exact Pulls.done h
  | cr => exact Pulls.more h (pulls_nil T hpos)
  | ln => exact Pulls.more h (pulls_nil T hpos)
  | crln =>
    have hnext := hc rfl
    have hcr : Base64Encoder.get T s [] = ((⟨.crln, c, c + 1, eof⟩, some (chr '\r')), []) := by
      rw [h, getBreak, if_pos rfl]
    exact Pulls.more hcr (Pulls.more (get_ln T [] (by omega)) (pulls_nil T hpos))

/-- After one character of the last group the counter is taken for a full group. -/
theorem pulls_finish_crln (hT : ¬ T.padding = true)
    (h : Base64Encoder.get T s [] = (getBreak ⟨.crln, c, c, eof⟩, [])) (hc : c % 4 = 2) :
    Pulls (Base64Encoder.get T) s [] (chr '\r' :: Newline.chars .crln) := by
  have hcr : Base64Encoder.get T s [] = ((⟨.crln, c, c + 1, eof⟩, some (chr '\r')), []) := by
    rw [h, getBreak, if_pos rfl]
  have hagain : Base64Encoder.get T ⟨.crln, c, c + 1, eof⟩ [] =
      ((⟨.crln, c + 1, c + 1 + 1, eof⟩, some (chr '\r')), []) := by
    rw [get_no_pad T [] hT (Or.inr (by omega))]
    simp [getBreak]
  exact Pulls.more hcr (Pulls.more hagain
    (Pulls.more (get_ln T [] (by omega)) (pulls_nil T (Nat.succ_pos c))))

section Put

theorem encode_nil (e : Base64Encoder) : e.encode T [] = (e.close T).2 := rfl

theorem encode_cons (e : Base64Encoder) (ch : UInt8) (bytes : List UInt8) :
    e.encode T (ch :: bytes) = (e.put T ch).2 ++ (e.put T ch).1.encode T bytes := by
  simp only [Base64Encoder.encode, pushAll_cons, List.append_assoc]

theorem put_within (q : BitVec 32) (hc : c % 4 = 0) (hm : c < m) :
    Base64Encoder.put T ⟨nl, m, c, q⟩ ch =
      (⟨nl, m, c + 1, promote ch⟩, [T.enc (sextet₁ ch)]) := by
  simp [Base64Encoder.put, hc, hm.not_ge, sextet₁]

theorem encode_full (q : BitVec 32) (hm : m % 4 = 0) (hpos : 0 < m) (bytes : List UInt8) :
    Base64Encoder.encode T ⟨nl, m, m, q⟩ (ch :: bytes) =
      nl.chars ++ Base64Encoder.encode T ⟨nl, m, 0, q⟩ (ch :: bytes) := by
  rw [encode_cons, encode_cons, put_within T ch q rfl hpos]
  simp [Base64Encoder.put, hm, Base64Encoder.putBreak, sextet₁]

theorem encode_group (q : BitVec 32) (hc : c % 4 = 0) (hm : c < m) (x y z : UInt8)
    (bytes : List UInt8) :
    Base64Encoder.encode T ⟨nl, m, c, q⟩ (x :: y :: z :: bytes) =
      [T.enc (sextet₁ x), T.enc (sextet₂ x y), T.enc (sextet₃ y z), T.enc (sextet₄ z)] ++
        Base64Encoder.encode T ⟨nl, m, c + 4, promote z⟩ bytes := by
  rw [encode_cons, put_within T x q hc hm, encode_cons,
    put_second T _ x y (by dsimp only; omega) rfl, encode_cons, put_third T _ y z (by dsimp only; omega) rfl]
  rfl

end Put

/-- The break after the last character of the pull half. -/
def lastBreak (nl : Newline) (length : Nat) : List UInt8 :=
  if ¬ T.padding = true ∧ nl = .crln ∧ length % 3 = 1 then chr '\r' :: nl.chars else nl.chars

/-- At the beginning of a group the two halves give the same up to the last break. -/
def Agrees (nl : Newline) (m c : Nat) (bytes : List UInt8) : Prop :=
  ∀ p q, p ≠ eof → ∃ body, Base64Encoder.encode T ⟨nl, m, c, q⟩ bytes = body ++ nl.chars ∧
    Pulls (Base64Encoder.get T) ⟨nl, m, c, p⟩ bytes (body ++ lastBreak T nl bytes.length)

theorem agrees_full {bytes : List UInt8} (hm : m % 4 = 0) (hpos : 0 < m)
    (h : bytes ≠ [] → Agrees T nl m 0 bytes) : Agrees T nl m m bytes := by
  intro p q hp
  cases bytes with
  | nil =>
    refine ⟨[], ?_, ?_⟩
    · simp [encode_nil, Base64Encoder.close, hm, hpos, Base64Encoder.putBreak]
    · have hbreak : Pulls (Base64Encoder.get T) ⟨nl, m, m, p⟩ [] (nl.chars ++ []) :=
        pulls_break T hm hpos (pulls_nil T hpos)
      simpa [lastBreak] using hbreak
  | cons ch bytes =>
    obtain ⟨body, hbody, hpulls⟩ := h (List.cons_ne_nil _ _) p q hp
    refine ⟨nl.chars ++ body, ?_, ?_⟩
    · rw [encode_full T ch q hm hpos, hbody, List.append_assoc]
    · rw [List.append_assoc]
      exact pulls_break T hm hpos hpulls

theorem agrees_one (hc : c % 4 = 0) (hm : c < m) (hm' : m % 4 = 0) (a : UInt8) :
    Agrees T nl m c [a] := by
  intro p q hp
  have hencode : Base64Encoder.encode T ⟨nl, m, c, q⟩ [a] =
      [T.enc (sextet₁ a), T.enc (sextet₂ a 0)] ++
        (if T.padding then [chr '=', chr '='] else []) ++ nl.chars := by
    rw [encode_cons, put_within T a q hc hm, encode_nil,
      close_second T _ a (by dsimp only; omega) rfl]
    simp
  have htail : Pulls (Base64Encoder.get T) ⟨nl, m, c + 1 + 1, eof⟩ []
      ((if T.padding then [chr '=', chr '='] else []) ++ lastBreak T nl 1) := by
    by_cases hT : T.padding = true
    · rw [if_pos hT, lastBreak, if_neg fun h => h.1 hT]
      have hbreak : Pulls (Base64Encoder.get T)
          ⟨nl, c + 1 + 1 + 1 + 1, c + 1 + 1 + 1 + 1, eof⟩ [] (nl.chars ++ []) :=
        pulls_break T (by omega) (Nat.succ_pos _) (pulls_nil T (Nat.succ_pos _))
      rw [List.append_nil] at hbreak
      exact Pulls.more (get_third_pad T [] hT (by omega))
        (Pulls.more (get_fourth_pad T [] hT (by omega)) hbreak)
    · have hend : Base64Encoder.get T ⟨nl, m, c + 1 + 1, eof⟩ [] =
          (getBreak ⟨nl, c + 1 + 1, c + 1 + 1, eof⟩, []) :=
        get_no_pad T [] hT (Or.inl (by omega))
      rw [if_neg hT, List.nil_append]
      by_cases hnl : nl = .crln
      · subst hnl
        rw [lastBreak, if_pos ⟨hT, rfl, rfl⟩]
        exact pulls_finish_crln T hT hend (by omega)
      · rw [lastBreak, if_neg fun h => hnl h.2.1]
        exact pulls_finish T hend (Nat.succ_pos _) fun h => absurd h hnl
  exact ⟨_, hencode, Pulls.more (get_first T a [] hc hm hp)
    (Pulls.more (get_second_eof T (by omega) (by omega) a) htail)⟩

theorem agrees_two (hc : c % 4 = 0) (hm : c < m) (hm' : m % 4 = 0) (a b : UInt8) :
    Agrees T nl m c [a, b] := by
  intro p q hp
  have hencode : Base64Encoder.encode T ⟨nl, m, c, q⟩ [a, b] =
      [T.enc (sextet₁ a), T.enc (sextet₂ a b), T.enc (sextet₃ b 0)] ++
        (if T.padding then [chr '='] else []) ++ nl.chars := by
    rw [encode_cons, put_within T a q hc hm, encode_cons,
      put_second T _ a b (by dsimp only; omega) rfl, encode_nil,
      close_third T _ b (by dsimp only; omega) rfl]
    simp
  have htail : Pulls (Base64Encoder.get T) ⟨nl, m, c + 1 + 1 + 1, eof⟩ []
      ((if T.padding then [chr '='] else []) ++ lastBreak T nl 2) := by
    have hlast : lastBreak T nl 2 = nl.chars := by simp [lastBreak]
    rw [hlast]
    by_cases hT : T.padding = true
    · have hbreak : Pulls (Base64Encoder.get T)
          ⟨nl, c + 1 + 1 + 1 + 1, c + 1 + 1 + 1 + 1, eof⟩ [] (nl.chars ++ []) :=
        pulls_break T (by omega) (Nat.succ_pos _) (pulls_nil T (Nat.succ_pos _))
      rw [List.append_nil] at hbreak
      rw [if_pos hT]
      exact Pulls.more (get_fourth_pad T [] hT (by omega)) hbreak
    · have hend : Base64Encoder.get T ⟨nl, m, c + 1 + 1 + 1, eof⟩ [] =
          (getBreak ⟨nl, c + 1 + 1 + 1, c + 1 + 1 + 1, eof⟩, []) :=
        get_no_pad T [] hT (Or.inr (by omega))
      rw [if_neg hT, List.nil_append]
      exact pulls_finish T hend (Nat.succ_pos _) fun _ => Or.inr (by omega)
  exact ⟨_, hencode, Pulls.more (get_first T a [b] hc hm hp)
    (Pulls.more (get_second T b [] (by omega) (by omega) a)
      (Pulls.more (get_third_eof T (by omega) b) htail))⟩

theorem agrees_of_lt (hm' : m % 4 = 0) : ∀ (bytes : List UInt8) (c : Nat), c % 4 = 0 → c < m →
    bytes ≠ [] ∨ 0 < c → Agrees T nl m c bytes
  | [], c, hc, hm, hne => by
    intro p q hp
    have hpos : 0 < c := hne.resolve_left fun h => h rfl
    refine ⟨[], ?_, ?_⟩
    · simp [encode_nil, Base64Encoder.close, hc, hpos, Base64Encoder.putBreak]
    · have hlast : lastBreak T nl 0 = nl.chars := by simp [lastBreak]
      rw [List.length_nil, hlast, List.nil_append]
      exact pulls_finish T (get_last T hc hpos hm hp) hpos fun _ => Or.inl hc
  | [a], c, hc, hm, _ => agrees_one T hc hm hm' a
  | [a, b], c, hc, hm, _ => agrees_two T hc hm hm' a b
  | a :: b :: z :: bytes, c, hc, hm, _ => by
    intro p q hp
    have hnext : Agrees T nl m (c + 4) bytes := by
      by_cases hlt : c + 4 < m
      · exact agrees_of_lt hm' bytes (c + 4) (by omega) hlt (Or.inr (by omega))
      · have hfull : c + 4 = m := by omega
        rw [hfull]
        exact agrees_full T hm' (by omega) fun hbytes =>
          agrees_of_lt hm' bytes 0 rfl (by omega) (Or.inl hbytes)
    obtain ⟨body, hbody, hpulls⟩ := hnext (widen z) (promote z) (widen_ne_eof z)
    refine ⟨[T.enc (sextet₁ a), T.enc (sextet₂ a b), T.enc (sextet₃ b z), T.enc (sextet₄ z)] ++
      body, ?_, ?_⟩
    · rw [encode_group T q hc hm, hbody, List.append_assoc]
    · have hlength :
          lastBreak T nl (a :: b :: z :: bytes).length = lastBreak T nl bytes.length := by
        have hmod : (a :: b :: z :: bytes).length % 3 = bytes.length % 3 := by
          simp only [List.length_cons]
          omega
        rw [lastBreak, lastBreak, hmod]
      rw [hlength]
      exact Pulls.more (get_first T a _ hc hm hp)
        (Pulls.more (get_second T b _ (by omega) (by omega) a)
          (Pulls.more (get_third T z _ (by omega) b)
            (Pulls.more (get_fourth T z _ (by omega)) hpulls)))

end Halves

theorem not_pulls_of_max_zero {nl : Newline} (hnl : nl ≠ .none) (p : BitVec 32)
    (bytes out : List UInt8) : ¬ Pulls (Base64Encoder.get T) ⟨nl, 0, 0, p⟩ bytes out := by
  apply not_pulls_of_invariant
    (P := fun e => e.nl ≠ .none ∧ e.max = 0 ∧ (e.cnt = 0 ∨ e.nl = .crln ∧ e.cnt = 1))
  · rintro ⟨nl, m, c, p⟩ src ⟨hnl, rfl, hc⟩
    dsimp only at hnl hc
    rcases hc with rfl | ⟨rfl, rfl⟩
    · cases nl with
      | none => exact absurd rfl hnl
      | cr => exact ⟨⟨.cr, 0, 0, p⟩, chr '\r', src, by simp [Base64Encoder.get, getBreak], by simp⟩
      | ln => exact ⟨⟨.ln, 0, 0, p⟩, chr '\n', src, by simp [Base64Encoder.get, getBreak], by simp⟩
      | crln =>
        exact ⟨⟨.crln, 0, 1, p⟩, chr '\r', src, by simp [Base64Encoder.get, getBreak], by simp⟩
    · exact ⟨⟨.crln, 0, 0, p⟩, chr '\n', src, by simp [Base64Encoder.get, getBreak], by simp⟩
  · exact ⟨hnl, rfl, Or.inl rfl⟩

theorem make_of_le {nl : Newline} {size : Nat} (h : 4 + nl.chars.length ≤ size) (uninit : Nat) :
    ∃ m, 0 < m ∧ m % 4 = 0 ∧ Base64Encoder.make nl size uninit = ⟨nl, m, 0, 0⟩ := by
  have hsize : ¬ size < 4 := by omega
  simp only [Base64Encoder.make, if_neg hsize]
  refine ⟨_, ?_, ?_, rfl⟩
  · cases nl <;> simp [Newline.chars, sizeMax] at h ⊢ <;> omega
  · omega

theorem make_of_not_le {nl : Newline} {size : Nat} (h : ¬ 4 + nl.chars.length ≤ size) :
    Base64Encoder.make nl size 0 = ⟨nl, 0, 0, 0⟩ := by
  by_cases hsize : size < 4
  · exact if_pos hsize
  · refine (if_neg hsize).trans ?_
    cases nl <;> simp [Newline.chars] at h ⊢ <;> omega

theorem make_none (size uninit : Nat) :
    ∃ m, Base64Encoder.make .none size uninit = ⟨.none, m, 0, 0⟩ := by
  by_cases hsize : size < 4
  · exact ⟨uninit, if_pos hsize⟩
  · exact ⟨sizeMax - sizeMax % 4, if_neg hsize⟩

theorem pulls_nil_none (m : Nat) : Pulls (Base64Encoder.get T) ⟨.none, m, 0, 0⟩ [] [] := by
  have hget : Base64Encoder.get T ⟨.none, m, 0, 0⟩ [] = ((⟨.none, m, 0, eof⟩, none), []) := by
    by_cases hm : m = 0
    · simp [Base64Encoder.get, getBreak, getFirst, sourceGet, hm]
    · simp [Base64Encoder.get, getFirst, sourceGet, hm]
  exact Pulls.done hget

theorem pulls_one_of_max_zero (ch : UInt8) (bytes : List UInt8) :
    Pulls (Base64Encoder.get T) ⟨.none, 0, 0, 0⟩ (ch :: bytes)
      [T.enc ((widen ch &&& 0xFC) >>> 2)] := by
  have hp : 0#32 ≠ eof := by decide
  have hget : Base64Encoder.get T ⟨.none, 0, 0, 0⟩ (ch :: bytes) =
      ((⟨.none, 0, 1, widen ch⟩, some (T.enc ((widen ch &&& 0xFC) >>> 2))), bytes) := by
    simp [Base64Encoder.get, getBreak, getFirst, sourceGet, widen_ne_eof, hp]
  have hend : Base64Encoder.get T ⟨.none, 0, 1, widen ch⟩ bytes =
      ((⟨.none, 0, 0, widen ch⟩, none), bytes) := by
    simp [Base64Encoder.get, getBreak]
  exact Pulls.more hget (Pulls.done hend)

theorem length_encode_ne_one (ch : UInt8) (bytes : List UInt8) :
    (Base64Encoder.encode T ⟨.none, 0, 0, 0⟩ (ch :: bytes)).length ≠ 1 := by
  have hput : Base64Encoder.put T ⟨.none, 0, 0, 0⟩ ch =
      (⟨.none, 0, 1, promote ch⟩, [T.enc (sextet₁ ch)]) := by
    simp [Base64Encoder.put, Base64Encoder.putBreak, Newline.chars, sextet₁]
  rw [encode_cons, hput]
  cases bytes with
  | nil =>
    rw [encode_nil, close_second T _ ch rfl rfl]
    simp
  | cons ch' bytes =>
    rw [encode_cons, put_second T _ ch ch' rfl rfl]
    simp

theorem of_pulls_encode {nl : Newline} {size : Nat} {bytes : List UInt8}
    (h : ∀ uninit, Pulls (Base64Encoder.get T) (.make nl size uninit) bytes
      (Base64Encoder.encode T (.make nl size uninit) bytes)) :
    bytes = [] ∧ nl = .none ∨ 4 + nl.chars.length ≤ size ∧
      (T.padding = true ∨ nl ≠ .crln ∨ bytes.length % 3 ≠ 1) := by
  have hpulls := h 0
  by_cases hsize : 4 + nl.chars.length ≤ size
  · refine Or.inr ⟨hsize, ?_⟩
    by_contra hcon
    push Not at hcon
    obtain ⟨hT, hnl, hlength⟩ := hcon
    have hbytes : bytes ≠ [] := by
      rintro rfl
      simp at hlength
    obtain ⟨m, hpos, hm, hmake⟩ := make_of_le hsize 0
    rw [hmake] at hpulls
    have hagrees : Agrees T nl m 0 bytes := agrees_of_lt T hm bytes 0 rfl hpos (Or.inl hbytes)
    obtain ⟨body, hbody, hpulls'⟩ := hagrees 0 0 (by decide)
    have hout := hpulls.unique hpulls'
    rw [hbody, lastBreak, if_pos ⟨hT, hnl, hlength⟩] at hout
    exact absurd (List.append_cancel_left hout) (List.cons_ne_self _ _).symm
  · rw [make_of_not_le hsize] at hpulls
    by_cases hnl : nl = .none
    · subst hnl
      cases bytes with
      | nil => exact Or.inl ⟨rfl, rfl⟩
      | cons ch bytes =>
        have hout := congrArg List.length (hpulls.unique (pulls_one_of_max_zero T ch bytes))
        exact absurd hout (length_encode_ne_one T ch bytes)
    · exact absurd hpulls (not_pulls_of_max_zero T hnl 0 bytes _)

end Base64

/-- The pull half of the encoder gives what the push half writes exactly when a line has room for
four characters, or there is nothing to encode and no line break, and where no CR LF follows a last
group of one octet without padding. -/
theorem base64_pull_eq_push_iff (T : Base64Traits) (nl : Newline) (size : Nat)
    (bytes : List UInt8) :
    (∀ uninit, Pulls (Base64Encoder.get T) (.make nl size uninit) bytes
      (Base64Encoder.encode T (.make nl size uninit) bytes)) ↔
    bytes = [] ∧ nl = .none ∨ 4 + nl.chars.length ≤ size ∧
      (T.padding = true ∨ nl ≠ .crln ∨ bytes.length % 3 ≠ 1) := by
  refine ⟨Base64.of_pulls_encode T, ?_⟩
  rintro (⟨rfl, rfl⟩ | ⟨hsize, hlast⟩) uninit
  · obtain ⟨m, hmake⟩ := Base64.make_none size uninit
    rw [hmake]
    exact Base64.pulls_nil_none T m
  · obtain ⟨m, hpos, hm, hmake⟩ := Base64.make_of_le hsize uninit
    rw [hmake]
    by_cases hbytes : bytes = []
    · subst hbytes
      exact Base64.pulls_nil T hpos
    · have hagrees : Base64.Agrees T nl m 0 bytes :=
        Base64.agrees_of_lt T hm bytes 0 rfl hpos (Or.inl hbytes)
      obtain ⟨body, hbody, hpulls⟩ := hagrees 0 0 (by decide)
      have hend : Base64.lastBreak T nl bytes.length = nl.chars := by
        rw [Base64.lastBreak, if_neg]
        tauto
      rw [hend] at hpulls
      rw [hbody]
      exact hpulls

theorem not_base64_pull_eq_push_of_size_four :
    ¬ ∀ (T : Base64Traits) (nl : Newline) (size uninit : Nat) (bytes : List UInt8),
      Pulls (Base64Encoder.get T) (.make nl size uninit) bytes
        (Base64Encoder.encode T (.make nl size uninit) bytes) := by
  intro h
  have hmake : Base64Encoder.make .ln 4 0 = ⟨.ln, 0, 0, 0⟩ := rfl
  have hpulls := h base64Traits .ln 4 0 (octets "000")
  rw [hmake] at hpulls
  exact Base64.not_pulls_of_max_zero _ (by decide) _ _ _ hpulls

end Acqua
