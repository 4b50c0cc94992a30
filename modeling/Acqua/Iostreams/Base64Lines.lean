import Acqua.Iostreams.Base64Pull
import Acqua.Library.LineLayout

/-! The lines of the push half of the encoder of `base64_filter.hpp`. -/

namespace Acqua

/-- The characters of a line. -/
def Base64Traits.IsChar (T : Base64Traits) (ch : UInt8) : Prop := ch ∈ T.tbl ∨ ch = chr '='

/-- The characters of a full line for a size that is to hold the line break as well. -/
def lineLimit (nl : Newline) (size : Nat) : Nat :=
  max 4 (4 * ((max size 4 - nl.chars.length) / 4))

namespace Base64

section Lines

variable (T : Base64Traits) {nl : Newline} {m c : Nat}

theorem isChar_enc {i : BitVec 32} (hi : i.toNat < 64) : T.IsChar (T.enc i) := Or.inl (enc_mem T hi)

theorem not_isChar_break {nl : Newline} {ch : UInt8} (h : ch ∈ nl.chars) : ¬ T.IsChar ch := by
  rcases mem_newline_chars h with rfl | rfl
  · exact not_or.mpr ⟨T.cr_notMem, by decide⟩
  · exact not_or.mpr ⟨T.ln_notMem, by decide⟩

theorem isChar_group (x y z : UInt8) :
    ∀ ch ∈ [T.enc (sextet₁ x), T.enc (sextet₂ x y), T.enc (sextet₃ y z), T.enc (sextet₄ z)],
      T.IsChar ch := by
  simp only [List.forall_mem_cons, List.not_mem_nil, false_implies, implies_true, and_true]
  exact ⟨isChar_enc T (sextet₁_lt x), isChar_enc T (sextet₂_lt x y), isChar_enc T (sextet₃_lt y z),
    isChar_enc T (sextet₄_lt z)⟩

/-- A group at the end of the input. -/
theorem encode_end (nl : Newline) (q : BitVec 32) (hc : c % 4 = 0) (hm : c < m)
    (bytes : List UInt8) (hbytes : bytes.length = 1 ∨ bytes.length = 2) :
    ∃ group : List UInt8, group ≠ [] ∧ group.length ≤ 4 ∧ (∀ ch ∈ group, T.IsChar ch) ∧
      Base64Encoder.encode T ⟨nl, m, c, q⟩ bytes = group ++ nl.chars := by
  have hpad : ∀ pad : List UInt8, (∀ ch ∈ pad, ch = chr '=') →
      ∀ ch ∈ if T.padding then pad else [], T.IsChar ch := by
    intro pad hpad ch hch
    split_ifs at hch
    · exact Or.inr (hpad ch hch)
    · exact absurd hch List.not_mem_nil
  rcases hbytes with hone | htwo
  · obtain ⟨a, rfl⟩ := List.length_eq_one_iff.mp hone
    refine ⟨T.enc (sextet₁ a) :: T.enc (sextet₂ a 0) ::
      (if T.padding then [chr '=', chr '='] else []), List.cons_ne_nil _ _, ?_, ?_, ?_⟩
    · split_ifs <;> simp
    · exact List.forall_mem_cons.mpr ⟨isChar_enc T (sextet₁_lt a), List.forall_mem_cons.mpr
        ⟨isChar_enc T (sextet₂_lt a 0), hpad _ (by simp)⟩⟩
    · rw [encode_cons, put_within T a q hc hm, encode_nil,
        close_second T _ a (by dsimp only; omega) rfl]
      simp
  · obtain ⟨a, b, rfl⟩ := List.length_eq_two.mp htwo
    refine ⟨T.enc (sextet₁ a) :: T.enc (sextet₂ a b) :: T.enc (sextet₃ b 0) ::
      (if T.padding then [chr '='] else []), List.cons_ne_nil _ _, ?_, ?_, ?_⟩
    · split_ifs <;> simp
    · exact List.forall_mem_cons.mpr ⟨isChar_enc T (sextet₁_lt a), List.forall_mem_cons.mpr
        ⟨isChar_enc T (sextet₂_lt a b), List.forall_mem_cons.mpr
          ⟨isChar_enc T (sextet₃_lt b 0), hpad _ (by simp)⟩⟩⟩
    · rw [encode_cons, put_within T a q hc hm, encode_cons,
        put_second T _ a b (by dsimp only; omega) rfl, encode_nil,
        close_third T _ b (by dsimp only; omega) rfl]
      simp

theorem layout_end {line bytes : List UInt8} (q : BitVec 32) (hc : line.length % 4 = 0)
    (hm : line.length < m) (hm' : m % 4 = 0) (hline : ∀ ch ∈ line, T.IsChar ch)
    (hbytes : bytes.length = 1 ∨ bytes.length = 2) :
    LineLayout T.IsChar nl.chars m
      (line ++ Base64Encoder.encode T ⟨nl, m, line.length, q⟩ bytes) := by
  obtain ⟨group, hne, hlength, hgroup, hencode⟩ := encode_end T nl q hc hm bytes hbytes
  rw [hencode, ← List.append_assoc]
  refine LineLayout.single (List.append_ne_nil_of_right_ne_nil _ hne) ?_
    (List.forall_mem_append.mpr ⟨hline, hgroup⟩)
  rw [List.length_append]
  omega

theorem encode_close (q : BitVec 32) (hc : c % 4 = 0) (hpos : 0 < c) :
    Base64Encoder.encode T ⟨nl, m, c, q⟩ [] = nl.chars := by
  simp [encode_nil, Base64Encoder.close, hc, hpos, Base64Encoder.putBreak]

/-- What is written behind the characters `line` of a line that is not full yet. -/
theorem layout_of_lt (hm' : m % 4 = 0) : ∀ (bytes line : List UInt8) (q : BitVec 32),
    line.length % 4 = 0 → line.length < m → (∀ ch ∈ line, T.IsChar ch) → bytes ≠ [] ∨ line ≠ [] →
    LineLayout T.IsChar nl.chars m
      (line ++ Base64Encoder.encode T ⟨nl, m, line.length, q⟩ bytes)
  | [], line, q, hc, hm, hline, hne => by
    have hline' : line ≠ [] := hne.resolve_left fun h => h rfl
    rw [encode_close T q hc (List.length_pos_iff.mpr hline')]
    exact LineLayout.single hline' hm.le hline
  | [a], line, q, hc, hm, hline, _ => layout_end T q hc hm hm' hline (Or.inl rfl)
  | [a, b], line, q, hc, hm, hline, _ => layout_end T q hc hm hm' hline (Or.inr rfl)
  | x :: y :: z :: bytes, line, q, hc, hm, hline, _ => by
    set group := [T.enc (sextet₁ x), T.enc (sextet₂ x y), T.enc (sextet₃ y z), T.enc (sextet₄ z)]
      with hgroup
    have hlength : (line ++ group).length = line.length + 4 := List.length_append
    have hchars : ∀ ch ∈ line ++ group, T.IsChar ch :=
      List.forall_mem_append.mpr ⟨hline, isChar_group T x y z⟩
    rw [encode_group T q hc hm, ← hgroup, ← List.append_assoc]
    by_cases hlt : line.length + 4 < m
    · rw [← hlength]
      exact layout_of_lt hm' bytes (line ++ group) (promote z) (by omega) (by omega) hchars
        (Or.inr (List.append_ne_nil_of_right_ne_nil _ (List.cons_ne_nil _ _)))
    · have hfull : line.length + 4 = m := by omega
      rw [hfull]
      cases bytes with
      | nil =>
        rw [encode_close T _ hm' (by omega)]
        exact LineLayout.single (List.append_ne_nil_of_right_ne_nil _ (List.cons_ne_nil _ _))
          (by omega) hchars
      | cons ch bytes =>
        have hnext : LineLayout T.IsChar nl.chars m
            (Base64Encoder.encode T ⟨nl, m, 0, promote z⟩ (ch :: bytes)) :=
          layout_of_lt hm' (ch :: bytes) [] (promote z) rfl (by simp; omega) (by simp)
            (Or.inl (List.cons_ne_nil _ _))
        rw [encode_full T ch _ hm' (by omega)]
        exact LineLayout.cons (by omega) (by omega) hchars hnext

/-- A line of no characters breaks before the first one. -/
theorem not_layout_of_max_zero (hnl : nl ≠ .none) {bytes : List UInt8} (hbytes : bytes ≠ [])
    (limit : Nat) :
    ¬ LineLayout T.IsChar nl.chars limit (Base64Encoder.encode T ⟨nl, 0, 0, 0⟩ bytes) := by
  obtain ⟨ch, bytes, rfl⟩ := List.exists_cons_of_ne_nil hbytes
  have hput : (Base64Encoder.put T ⟨nl, 0, 0, 0⟩ ch).2 = nl.chars ++ [T.enc (sextet₁ ch)] := by
    simp [Base64Encoder.put, Base64Encoder.putBreak, sextet₁]
  intro h
  obtain ⟨first, rest, hfirst, htext⟩ := h.head
  rw [encode_cons, hput] at htext
  have hmem : first ∈ nl.chars := by
    cases nl with
    | none => exact absurd rfl hnl
    | cr => exact List.mem_singleton.mpr (List.cons.inj htext).1.symm
    | ln => exact List.mem_singleton.mpr (List.cons.inj htext).1.symm
    | crln => exact List.mem_cons.mpr (Or.inl (List.cons.inj htext).1.symm)
  exact not_isChar_break T hmem hfirst

theorem make_eq_lineLimit (hnl : nl ≠ .none) {size : Nat} (h : 4 + nl.chars.length ≤ size)
    (uninit : Nat) : Base64Encoder.make nl size uninit = ⟨nl, lineLimit nl size, 0, 0⟩ := by
  have hsize : ¬ size < 4 := by omega
  have hmax : max size 4 = size := Nat.max_eq_left (by omega)
  have hlimit : lineLimit nl size = 4 * ((size - nl.chars.length) / 4) := by
    rw [lineLimit, hmax]
    omega
  simp only [Base64Encoder.make, if_neg hsize, hlimit]
  cases nl with
  | none => exact absurd rfl hnl
  | cr => simp [Newline.chars]; omega
  | ln => simp [Newline.chars]; omega
  | crln => simp [Newline.chars]; omega

end Lines

end Base64

/-- The lines are full and none is empty, whatever an uninitialised `max_` holds, for the sizes that
leave room for a group and the line break. -/
theorem base64_layout_iff (T : Base64Traits) {nl : Newline} (hnl : nl ≠ .none) (size : Nat)
    {bytes : List UInt8} (hbytes : bytes ≠ []) :
    (∀ uninit, LineLayout T.IsChar nl.chars (lineLimit nl size)
        (Base64Encoder.encode T (.make nl size uninit) bytes)) ↔
      4 + nl.chars.length ≤ size := by
  constructor
  · intro h
    by_contra hsize
    have hzero := h 0
    rw [Base64.make_of_not_le hsize] at hzero
    exact Base64.not_layout_of_max_zero T hnl hbytes _ hzero
  · intro hsize uninit
    rw [Base64.make_eq_lineLimit hnl hsize uninit]
    have hfour : 4 ≤ lineLimit nl size := le_max_left _ _
    have hmod : lineLimit nl size % 4 = 0 := by
      rw [lineLimit]
      omega
    exact Base64.layout_of_lt T hmod bytes [] 0 rfl (by simp; omega) (by simp) (Or.inl hbytes)

theorem base64_layout_of_mime :
    (∀ uninit, LineLayout base64Traits.IsChar (Newline.chars .crln) (lineLimit .crln 76)
        (Base64Encoder.encode base64Traits (.make .crln 76 uninit) (octets "hello"))) ↔
      4 + (Newline.chars .crln).length ≤ 76 :=
  base64_layout_iff base64Traits (by decide) 76 (by decide)

/-- A size of four leaves no character to a line. -/
theorem base64_layout_min_size :
    ¬ LineLayout base64Traits.IsChar (Newline.chars .ln) (lineLimit .ln 4)
      (Base64Encoder.encode base64Traits (.make .ln 4 0) (octets "a")) := by
  rw [Base64.make_of_not_le (by decide)]
  exact Base64.not_layout_of_max_zero base64Traits (by decide) (by decide) _

end Acqua
