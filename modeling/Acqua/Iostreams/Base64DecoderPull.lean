import Acqua.Iostreams.Base64Pull

/-! The pull half of the decoder of `base64_filter.hpp`, against its push half. -/

namespace Acqua

namespace Base64Decoder

open Base64Encoder (eof sourceGet)

/-- What the `switch` returns. It goes on with the loop at the first character of a group. -/
def returned (d : Base64Decoder) (c : BitVec 32) : Option (BitVec 32) :=
  match d.cnt % 4 with
  | 1 => some ((d.prior &&& 0x3F) <<< 2 ||| (c &&& 0x30) >>> 4)
  | 2 => some ((d.prior &&& 0x0F) <<< 4 ||| (c &&& 0x3C) >>> 2)
  | 3 => some ((d.prior &&& 0x0F) <<< 6 ||| (c &&& 0x3F))
  | _ => none

variable (T : Base64Traits)

/-- The loop of `get` on a sequence of octets, of which `boost::iostreams::get` takes one after the
other. -/
def get (d : Base64Decoder) : List UInt8 → (Base64Decoder × BitVec 32) × List UInt8
  | [] => ((d, eof), [])
  | ch :: src =>
    let c := BitVec.ofNat 32 (T.dec ch)
    if ch = chr '\r' ∨ ch = chr '\n' ∨ ch = chr '=' ∨ c.toInt < 0 ∨ npos ≤ c.toNat then get d src
    else
      let d' : Base64Decoder := { cnt := d.cnt + 1, prior := c }
      match d.returned c with
      | some i => ((d', i), src)
      | none => get d' src

/-- One call of `get`, as the reader of the filter sees it: `EOF` ends its input. -/
def pull (d : Base64Decoder) (src : List UInt8) :
    (Base64Decoder × Option (BitVec 32)) × List UInt8 :=
  let r := get T d src
  ((r.1.1, if r.1.2 = eof then none else some r.1.2), r.2)

theorem returned_ne_eof {d : Base64Decoder} {c i : BitVec 32} (h : d.returned c = some i) :
    i ≠ eof := by
  have hmsb : i.getLsbD 31 = false := by
    unfold returned at h
    split at h
    all_goals first
      | exact absurd h (Option.some_ne_none i).symm
      | (obtain rfl := Option.some.inj h; simp)
  rintro rfl
  exact absurd hmsb (by decide)

theorem joined_eq (d : Base64Decoder) (c : BitVec 32) :
    d.joined c = ((d.returned c).toList).map narrow := by
  unfold joined returned
  generalize d.cnt % 4 = phase
  rcases phase with _ | _ | _ | _ | phase <;> rfl

theorem dec_le (ch : UInt8) : T.dec ch ≤ 64 := T.length_tbl ▸ List.idxOf_le_length

theorem promote_dec (ch : UInt8) :
    promote (UInt8.ofNat (T.dec ch)) = BitVec.ofNat 32 (T.dec ch) := by
  have hall : ∀ n < 65, promote (UInt8.ofNat n) = BitVec.ofNat 32 n := by decide
  exact hall _ (Nat.lt_succ_of_le (dec_le T ch))

theorem put_eq (d : Base64Decoder) (ch : UInt8) :
    put T d ch =
      let c := BitVec.ofNat 32 (T.dec ch)
      if ch = chr '\r' ∨ ch = chr '\n' ∨ ch = chr '=' ∨ c.toInt < 0 ∨ npos ≤ c.toNat then (d, [])
      else ({ cnt := d.cnt + 1, prior := c }, d.joined c) := by
  rw [put, promote_dec]

/-- From any state on, what is pulled out of a text is what pushing it writes. -/
theorem pulls_pushAll (d : Base64Decoder) (chars : List UInt8) :
    ∃ out, Pulls (pull T) d chars out ∧ out.map narrow = (pushAll (put T) d chars).2 := by
  induction chars generalizing d with
  | nil => exact ⟨[], Pulls.done rfl, rfl⟩
  | cons ch chars ih =>
    set c := BitVec.ofNat 32 (T.dec ch) with hc
    by_cases hskip : ch = chr '\r' ∨ ch = chr '\n' ∨ ch = chr '=' ∨ c.toInt < 0 ∨ npos ≤ c.toNat
    · have hput : put T d ch = (d, []) := by rw [put_eq, ← hc, if_pos hskip]
      have hget : get T d (ch :: chars) = get T d chars := by rw [get, ← hc, if_pos hskip]
      obtain ⟨out, hpulls, hout⟩ := ih d
      refine ⟨out, hpulls.congr (by rw [pull, hget, pull]), ?_⟩
      rw [pushAll_cons, hput, hout, List.nil_append]
    · have hput : put T d ch = (⟨d.cnt + 1, c⟩, d.joined c) := by rw [put_eq, ← hc, if_neg hskip]
      obtain ⟨out, hpulls, hout⟩ := ih ⟨d.cnt + 1, c⟩
      rw [pushAll_cons, hput, ← hout, joined_eq, ← List.map_append]
      refine ⟨_, ?_, rfl⟩
      cases hret : d.returned c with
      | none =>
        have hget : get T d (ch :: chars) = get T ⟨d.cnt + 1, c⟩ chars := by
          rw [get, ← hc, if_neg hskip, hret]
        exact hpulls.congr (by rw [pull, hget, pull])
      | some i =>
        have hget : get T d (ch :: chars) = ((⟨d.cnt + 1, c⟩, i), chars) := by
          rw [get, ← hc, if_neg hskip, hret]
        refine Pulls.more ?_ hpulls
        rw [pull, hget, if_neg (returned_ne_eof hret)]

/-- Reading all of a text through `get` gives what pushing it through `put` writes. -/
theorem get_agrees_with_put (chars : List UInt8) :
    ∃ out, Pulls (pull T) init chars out ∧ out.map narrow = decode T chars :=
  pulls_pushAll T init chars

end Base64Decoder

end Acqua
