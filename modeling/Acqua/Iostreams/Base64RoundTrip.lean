import Acqua.Iostreams.Base64

/-! What the push decoder makes of the push encoder's output. The decoder always has one
octet less than the encoder was given until the encoder closes a group of four. -/

namespace Acqua

namespace Base64

-- A fact about one octet is decided for all 256 of them.
set_option maxRecDepth 4000

/-- The first sextet of a group, from its first octet. -/
def sextet₁ (a : UInt8) : BitVec 32 := (promote a &&& 0xFC) >>> 2

def sextet₂ (a b : UInt8) : BitVec 32 := (promote a &&& 0x03) <<< 4 ||| (promote b &&& 0xF0) >>> 4

def sextet₃ (b c : UInt8) : BitVec 32 := (promote b &&& 0x0F) <<< 2 ||| (promote c &&& 0xC0) >>> 6

def sextet₄ (c : UInt8) : BitVec 32 := promote c &&& 0x3F

theorem toNat_or_lt {x y : BitVec 32} (hx : x.toNat < 64) (hy : y.toNat < 64) :
    (x ||| y).toNat < 64 := by
  rw [BitVec.toNat_or]
  exact Nat.or_lt_two_pow (n := 6) hx hy

theorem sextet₁_lt (a : UInt8) : (sextet₁ a).toNat < 64 :=
  octet_forall (P := fun a => (sextet₁ a).toNat < 64) (by decide) a

theorem sextet₂_lt (a b : UInt8) : (sextet₂ a b).toNat < 64 := by
  apply toNat_or_lt
  · exact octet_forall (P := fun a => ((promote a &&& 0x03) <<< 4).toNat < 64) (by decide) a
  · exact octet_forall (P := fun b => ((promote b &&& 0xF0) >>> 4).toNat < 64) (by decide) b

theorem sextet₃_lt (b c : UInt8) : (sextet₃ b c).toNat < 64 := by
  apply toNat_or_lt
  · exact octet_forall (P := fun b => ((promote b &&& 0x0F) <<< 2).toNat < 64) (by decide) b
  · exact octet_forall (P := fun c => ((promote c &&& 0xC0) >>> 6).toNat < 64) (by decide) c

theorem sextet₄_lt (c : UInt8) : (sextet₄ c).toNat < 64 :=
  octet_forall (P := fun c => (sextet₄ c).toNat < 64) (by decide) c

theorem narrow_or (x y : BitVec 32) : narrow (x ||| y) = narrow x ||| narrow y := by
  unfold narrow
  rw [BitVec.setWidth_or]
  rfl

theorem join₁ (a b : UInt8) :
    narrow ((sextet₁ a &&& 0x3F) <<< 2 ||| (sextet₂ a b &&& 0x30) >>> 4) = a := by
  have hb : ((promote b &&& 0xF0) >>> 4 &&& 0x30) >>> 4 = 0 :=
    octet_forall (P := fun b => ((promote b &&& 0xF0) >>> 4 &&& 0x30) >>> 4 = 0)
      (by decide) b
  have ha : narrow ((sextet₁ a &&& 0x3F) <<< 2 ||| ((promote a &&& 0x03) <<< 4 &&& 0x30) >>> 4) = a :=
    octet_forall
      (P := fun a =>
        narrow ((sextet₁ a &&& 0x3F) <<< 2 ||| ((promote a &&& 0x03) <<< 4 &&& 0x30) >>> 4) = a)
      (by decide) a
  rw [sextet₂, BitVec.and_or_distrib_right, BitVec.ushiftRight_or_distrib, hb]
  simpa using ha

theorem join₂ (a b c : UInt8) :
    narrow ((sextet₂ a b &&& 0x0F) <<< 4 ||| (sextet₃ b c &&& 0x3C) >>> 2) = b := by
  have ha : narrow (((promote a &&& 0x03) <<< 4 &&& 0x0F) <<< 4) = 0 :=
    octet_forall (P := fun a => narrow (((promote a &&& 0x03) <<< 4 &&& 0x0F) <<< 4) = 0)
      (by decide) a
  have hc : ((promote c &&& 0xC0) >>> 6 &&& 0x3C) >>> 2 = 0#32 :=
    octet_forall (P := fun c => ((promote c &&& 0xC0) >>> 6 &&& 0x3C) >>> 2 = 0#32)
      (by decide) c
  have hb : narrow (((promote b &&& 0xF0) >>> 4 &&& 0x0F) <<< 4 |||
      ((promote b &&& 0x0F) <<< 2 &&& 0x3C) >>> 2) = b :=
    octet_forall
      (P := fun b => narrow (((promote b &&& 0xF0) >>> 4 &&& 0x0F) <<< 4 |||
        ((promote b &&& 0x0F) <<< 2 &&& 0x3C) >>> 2) = b)
      (by decide) b
  rw [sextet₂, sextet₃, BitVec.and_or_distrib_right, BitVec.and_or_distrib_right,
    BitVec.shiftLeft_or_distrib, BitVec.ushiftRight_or_distrib, hc, BitVec.or_zero, BitVec.or_assoc,
    narrow_or, ha, hb]
  simp

theorem join₃ (b c : UInt8) :
    narrow ((sextet₃ b c &&& 0x0F) <<< 6 ||| (sextet₄ c &&& 0x3F)) = c := by
  have hb : narrow (((promote b &&& 0x0F) <<< 2 &&& 0x0F) <<< 6) = 0 :=
    octet_forall (P := fun b => narrow (((promote b &&& 0x0F) <<< 2 &&& 0x0F) <<< 6) = 0)
      (by decide) b
  have hc : narrow (((promote c &&& 0xC0) >>> 6 &&& 0x0F) <<< 6 ||| (sextet₄ c &&& 0x3F)) = c :=
    octet_forall
      (P := fun c =>
        narrow (((promote c &&& 0xC0) >>> 6 &&& 0x0F) <<< 6 ||| (sextet₄ c &&& 0x3F)) = c)
      (by decide) c
  rw [sextet₃, BitVec.and_or_distrib_right, BitVec.shiftLeft_or_distrib, BitVec.or_assoc,
    narrow_or, hb, hc]
  simp

theorem enc_eq (T : Base64Traits) {i : BitVec 32} (hi : i.toNat < 64)
    (hlen : i.toNat < T.tbl.length) : T.enc i = T.tbl[i.toNat] := by
  rw [Base64Traits.enc, Nat.min_eq_left (by simp only [npos]; omega), List.getD_eq_getElem _ _ hlen]

theorem enc_mem (T : Base64Traits) {i : BitVec 32} (hi : i.toNat < 64) : T.enc i ∈ T.tbl := by
  have hlen : i.toNat < T.tbl.length := by rw [T.length_tbl]; exact hi
  rw [enc_eq T hi hlen]
  exact List.getElem_mem hlen

theorem put_enc (T : Base64Traits) (d : Base64Decoder) {i : BitVec 32} (hi : i.toNat < 64) :
    d.put T (T.enc i) = (⟨d.cnt + 1, i⟩, d.joined i) := by
  have hlen : i.toNat < T.tbl.length := by rw [T.length_tbl]; exact hi
  have henc := enc_eq T hi hlen
  have hmem := enc_mem T hi
  have hdec : T.dec (T.enc i) = i.toNat := by
    rw [henc, Base64Traits.dec]
    exact T.nodup_tbl.idxOf_getElem _ hlen
  have hpromote : ∀ n, n < 64 → (promote (UInt8.ofNat n)).toNat = n := by decide
  have hc : promote (UInt8.ofNat (T.dec (T.enc i))) = i := by
    rw [hdec]
    exact BitVec.eq_of_toNat_eq (hpromote _ hi)
  have hcr : T.enc i ≠ chr '\r' := fun h => T.cr_notMem (h ▸ hmem)
  have hln : T.enc i ≠ chr '\n' := fun h => T.ln_notMem (h ▸ hmem)
  have hpad : T.enc i ≠ chr '=' := fun h => T.pad_notMem (h ▸ hmem)
  have hpos : ¬ i.toInt < 0 := by
    rw [BitVec.toInt_eq_toNat_of_lt (by omega)]
    omega
  have hnpos : ¬ npos ≤ i.toNat := by
    simp only [npos]
    omega
  simp only [Base64Decoder.put, hc, hcr, hln, hpad, hpos, hnpos, or_self, if_false]

theorem put_ignored (T : Base64Traits) (d : Base64Decoder) {ch : UInt8}
    (h : ch = chr '\r' ∨ ch = chr '\n' ∨ ch = chr '=') : d.put T ch = (d, []) := by
  rw [Base64Decoder.put, if_pos (by tauto)]

theorem pushAll_newline (T : Base64Traits) (d : Base64Decoder) (nl : Newline) :
    pushAll (Base64Decoder.put T) d nl.chars = (d, []) := by
  apply pushAll_of_ignored
  intro ch hch
  apply put_ignored
  have := mem_newline_chars hch
  tauto

/-- Where the decoder stands against the encoder: in the same place of the same group, with
the sextet of the last character and without the octet that waits in the encoder. -/
def Lags (e : Base64Encoder) (d : Base64Decoder) (pending : List UInt8) : Prop :=
  (e.cnt % 4 = 0 ∧ d.cnt % 4 = 0 ∧ pending = []) ∨
  (∃ a, e.cnt % 4 = 1 ∧ d.cnt % 4 = 1 ∧
    e.prior = promote a ∧ d.prior = sextet₁ a ∧ pending = [a]) ∨
  (∃ a b, e.cnt % 4 = 2 ∧ d.cnt % 4 = 2 ∧
    e.prior = promote b ∧ d.prior = sextet₂ a b ∧ pending = [b])

variable (T : Base64Traits)

theorem put_first (e : Base64Encoder) (ch : UInt8) (he : e.cnt % 4 = 0) :
    ∃ e' : Base64Encoder, ∃ out, e'.cnt % 4 = 0 ∧ e'.nl = e.nl ∧ (out = [] ∨ out = e.nl.chars) ∧
      e.put T ch =
        ({ e' with cnt := e'.cnt + 1, prior := promote ch }, out ++ [T.enc (sextet₁ ch)]) := by
  by_cases hmax : e.max ≤ e.cnt
  · refine ⟨e.putBreak.1, e.putBreak.2, by simp [Base64Encoder.putBreak], rfl, Or.inr rfl, ?_⟩
    simp [Base64Encoder.put, he, hmax, sextet₁]
  · refine ⟨e, [], he, rfl, Or.inl rfl, ?_⟩
    simp [Base64Encoder.put, he, hmax, sextet₁]

theorem put_second (e : Base64Encoder) (a ch : UInt8) (he : e.cnt % 4 = 1)
    (hea : e.prior = promote a) : e.put T ch =
      ({ e with cnt := e.cnt + 1, prior := promote ch }, [T.enc (sextet₂ a ch)]) := by
  simp [Base64Encoder.put, he, hea, sextet₂]

theorem put_third (e : Base64Encoder) (b ch : UInt8) (he : e.cnt % 4 = 2)
    (heb : e.prior = promote b) : e.put T ch =
      ({ e with cnt := e.cnt + 2, prior := promote ch },
        [T.enc (sextet₃ b ch), T.enc (sextet₄ ch)]) := by
  simp [Base64Encoder.put, he, heb, sextet₃, sextet₄]

theorem close_second (e : Base64Encoder) (a : UInt8) (he : e.cnt % 4 = 1)
    (hea : e.prior = promote a) : (e.close T).2 = T.enc (sextet₂ a 0) ::
      ((if T.padding then [chr '=', chr '='] else []) ++ e.nl.chars) := by
  have hcnt : 0 < e.cnt := by omega
  have hsextet : (promote a &&& 0x03) <<< 4 = sextet₂ a 0 := by
    simp [sextet₂, promote]
  rw [← hsextet]
  simp [Base64Encoder.close, hcnt, he, hea, Base64Encoder.putBreak]

theorem close_third (e : Base64Encoder) (b : UInt8) (he : e.cnt % 4 = 2)
    (heb : e.prior = promote b) : (e.close T).2 = T.enc (sextet₃ b 0) ::
      ((if T.padding then [chr '='] else []) ++ e.nl.chars) := by
  have hcnt : 0 < e.cnt := by omega
  have hsextet : (promote b &&& 0x0F) <<< 2 = sextet₃ b 0 := by
    simp [sextet₃, promote]
  rw [← hsextet]
  simp [Base64Encoder.close, hcnt, he, heb, Base64Encoder.putBreak]

theorem lags_first (e : Base64Encoder) (d : Base64Decoder) (ch : UInt8)
    (he : e.cnt % 4 = 0) (hd : d.cnt % 4 = 0) :
    ∃ pending', Lags (e.put T ch).1 (pushAll (Base64Decoder.put T) d (e.put T ch).2).1 pending' ∧
      [] ++ [ch] = (pushAll (Base64Decoder.put T) d (e.put T ch).2).2 ++ pending' := by
  obtain ⟨e', out, he', -, hbreak, hput⟩ := put_first T e ch he
  have hout : pushAll (Base64Decoder.put T) d out = (d, []) := by
    obtain rfl | rfl := hbreak
    · rfl
    · exact pushAll_newline T d e.nl
  have hdec : pushAll (Base64Decoder.put T) d (e.put T ch).2 =
      (⟨d.cnt + 1, sextet₁ ch⟩, []) := by
    rw [hput, pushAll_append, hout, pushAll_singleton, put_enc T d (sextet₁_lt ch)]
    simp [Base64Decoder.joined, hd]
  refine ⟨[ch], Or.inr (Or.inl ⟨ch, ?_, ?_, ?_, ?_, rfl⟩), ?_⟩
  · rw [hput]
    simp only
    omega
  · rw [hdec]
    simp only
    omega
  · rw [hput]
  · rw [hdec]
  · rw [hdec]

theorem lags_second (e : Base64Encoder) (d : Base64Decoder) (a ch : UInt8)
    (he : e.cnt % 4 = 1) (hd : d.cnt % 4 = 1) (hea : e.prior = promote a)
    (hda : d.prior = sextet₁ a) :
    ∃ pending', Lags (e.put T ch).1 (pushAll (Base64Decoder.put T) d (e.put T ch).2).1 pending' ∧
      [a] ++ [ch] = (pushAll (Base64Decoder.put T) d (e.put T ch).2).2 ++ pending' := by
  have hput := put_second T e a ch he hea
  have hdec : pushAll (Base64Decoder.put T) d (e.put T ch).2 =
      (⟨d.cnt + 1, sextet₂ a ch⟩, [a]) := by
    rw [hput, pushAll_singleton, put_enc T d (sextet₂_lt a ch)]
    simp only [Base64Decoder.joined, hd, hda, join₁]
  refine ⟨[ch], Or.inr (Or.inr ⟨a, ch, ?_, ?_, ?_, ?_, rfl⟩), ?_⟩
  · rw [hput]
    simp only
    omega
  · rw [hdec]
    simp only
    omega
  · rw [hput]
  · rw [hdec]
  · rw [hdec]

theorem lags_third (e : Base64Encoder) (d : Base64Decoder) (a b ch : UInt8)
    (he : e.cnt % 4 = 2) (hd : d.cnt % 4 = 2) (heb : e.prior = promote b)
    (hdb : d.prior = sextet₂ a b) :
    ∃ pending', Lags (e.put T ch).1 (pushAll (Base64Decoder.put T) d (e.put T ch).2).1 pending' ∧
      [b] ++ [ch] = (pushAll (Base64Decoder.put T) d (e.put T ch).2).2 ++ pending' := by
  have hput := put_third T e b ch he heb
  have hcnt : (d.cnt + 1) % 4 = 3 := by omega
  have hdec : pushAll (Base64Decoder.put T) d (e.put T ch).2 =
      (⟨d.cnt + 1 + 1, sextet₄ ch⟩, [b] ++ [ch]) := by
    rw [hput, pushAll_cons, pushAll_singleton, put_enc T d (sextet₃_lt b ch),
      put_enc T _ (sextet₄_lt ch)]
    simp only [Base64Decoder.joined, hd, hdb, hcnt, join₂, join₃]
  refine ⟨[], Or.inl ⟨?_, ?_, rfl⟩, ?_⟩
  · rw [hput]
    simp only
    omega
  · rw [hdec]
    simp only
    omega
  · rw [hdec, List.append_nil]

theorem lags_step (e : Base64Encoder) (d : Base64Decoder) (pending : List UInt8) (ch : UInt8)
    (h : Lags e d pending) :
    ∃ pending', Lags (e.put T ch).1 (pushAll (Base64Decoder.put T) d (e.put T ch).2).1 pending' ∧
      pending ++ [ch] = (pushAll (Base64Decoder.put T) d (e.put T ch).2).2 ++ pending' := by
  obtain ⟨he, hd, rfl⟩ | ⟨a, he, hd, hea, hda, rfl⟩ | ⟨a, b, he, hd, heb, hdb, rfl⟩ := h
  · exact lags_first T e d ch he hd
  · exact lags_second T e d a ch he hd hea hda
  · exact lags_third T e d a b ch he hd heb hdb

theorem lags_close (e : Base64Encoder) (d : Base64Decoder) (pending : List UInt8)
    (h : Lags e d pending) :
    (pushAll (Base64Decoder.put T) d (e.close T).2).2 = pending := by
  have htail : ∀ (d' : Base64Decoder) (pad : List UInt8), (∀ ch ∈ pad, ch = chr '=') →
      pushAll (Base64Decoder.put T) d' (pad ++ e.nl.chars) = (d', []) := by
    intro d' pad hpad
    have hignored : pushAll (Base64Decoder.put T) d' pad = (d', []) := by
      apply pushAll_of_ignored
      intro ch hch
      exact put_ignored T d' (by simp [hpad ch hch])
    rw [pushAll_append, hignored, pushAll_newline]
    rfl
  obtain ⟨he, hd, rfl⟩ | ⟨a, he, hd, hea, hda, rfl⟩ | ⟨a, b, he, hd, heb, hdb, rfl⟩ := h
  · by_cases hcnt : 0 < e.cnt
    · simp [Base64Encoder.close, hcnt, he, Base64Encoder.putBreak, pushAll_newline]
    · simp [Base64Encoder.close, hcnt]
  · rw [close_second T e a he hea, pushAll_cons, put_enc T d (sextet₂_lt a 0), htail]
    · simp only [Base64Decoder.joined, hd, hda, join₁, List.append_nil]
    · intro ch hch
      by_cases hpadding : T.padding <;> simp [hpadding] at hch
      exact hch
  · rw [close_third T e b he heb, pushAll_cons, put_enc T d (sextet₃_lt b 0), htail]
    · simp only [Base64Decoder.joined, hd, hdb, join₂, List.append_nil]
    · intro ch hch
      by_cases hpadding : T.padding <;> simp [hpadding] at hch
      exact hch

theorem decode_encode (e : Base64Encoder) (he : e.cnt = 0) (bytes : List UInt8) :
    Base64Decoder.decode T (e.encode T bytes) = bytes := by
  have hstart : Lags e Base64Decoder.init [] := Or.inl ⟨by rw [he], rfl, rfl⟩
  obtain ⟨pending, hlags, heq⟩ := pushAll_simulation Lags (lags_step T) hstart bytes
  rw [Base64Decoder.decode, Base64Encoder.encode, pushAll_append, lags_close T _ _ pending hlags]
  exact heq.symm

/-- The octet that an encoder holds within a group. -/
def Holds (e : Base64Encoder) : Prop := e.cnt % 4 = 0 ∨ ∃ b, e.prior = promote b

theorem put_text {e : Base64Encoder} (he : Holds e) (hnl : e.nl = .none) (ch : UInt8) :
    Holds (e.put T ch).1 ∧ (e.put T ch).1.nl = .none ∧ ∀ c ∈ (e.put T ch).2, c ∈ T.tbl := by
  have hprior : (e.put T ch).1.prior = promote ch := by
    unfold Base64Encoder.put
    split <;> rfl
  refine ⟨Or.inr ⟨ch, hprior⟩, ?_⟩
  by_cases hzero : e.cnt % 4 = 0
  · obtain ⟨e', out, -, hnl', hout, hput⟩ := put_first T e ch hzero
    have hempty : out = [] := by
      obtain rfl | rfl := hout
      · rfl
      · rw [hnl]
        rfl
    rw [hput, hempty]
    refine ⟨hnl'.trans hnl, ?_⟩
    simpa using enc_mem T (sextet₁_lt ch)
  · obtain ⟨b, hb⟩ := he.resolve_left hzero
    obtain hone | htwo | hthree : e.cnt % 4 = 1 ∨ e.cnt % 4 = 2 ∨ e.cnt % 4 = 3 := by omega
    · rw [put_second T e b ch hone hb]
      exact ⟨hnl, by simpa using enc_mem T (sextet₂_lt b ch)⟩
    · rw [put_third T e b ch htwo hb]
      exact ⟨hnl, by simpa using ⟨enc_mem T (sextet₃_lt b ch), enc_mem T (sextet₄_lt ch)⟩⟩
    · simp [Base64Encoder.put, hthree, hnl]

theorem pushAll_text {e : Base64Encoder} (he : Holds e) (hnl : e.nl = .none)
    (bytes : List UInt8) : Holds (pushAll (Base64Encoder.put T) e bytes).1 ∧
      (pushAll (Base64Encoder.put T) e bytes).1.nl = .none ∧
      ∀ c ∈ (pushAll (Base64Encoder.put T) e bytes).2, c ∈ T.tbl := by
  induction bytes generalizing e with
  | nil => exact ⟨he, hnl, by simp⟩
  | cons ch bytes ih =>
    obtain ⟨he', hnl', hout⟩ := put_text T he hnl ch
    obtain ⟨he'', hnl'', hrest⟩ := ih he' hnl'
    rw [pushAll_cons]
    refine ⟨he'', hnl'', fun c hc => ?_⟩
    rcases List.mem_append.mp hc with hc | hc
    · exact hout c hc
    · exact hrest c hc

/-- Without line breaks the text is characters of the alphabet and then padding. -/
theorem encode_text (e : Base64Encoder) (he : e.cnt = 0) (hnl : e.nl = .none)
    (bytes : List UInt8) : ∃ body pad, e.encode T bytes = body ++ pad ∧
      (∀ ch ∈ body, ch ∈ T.tbl) ∧ ∀ ch ∈ pad, ch = chr '=' := by
  obtain ⟨hholds, hnl', hout⟩ :=
    pushAll_text T (e := e) (Or.inl (by rw [he])) hnl bytes
  have hclose : ∀ e' : Base64Encoder, Holds e' → e'.nl = .none →
      ∃ body pad, (e'.close T).2 = body ++ pad ∧ (∀ ch ∈ body, ch ∈ T.tbl) ∧
        ∀ ch ∈ pad, ch = chr '=' := by
    intro e' he' hnl'
    by_cases hcnt : e'.cnt % 4 = 1 ∨ e'.cnt % 4 = 2
    · obtain ⟨b, hb⟩ := he'.resolve_left (by omega)
      obtain hone | htwo := hcnt
      · refine ⟨[T.enc (sextet₂ b 0)], if T.padding then [chr '=', chr '='] else [], ?_, ?_, ?_⟩
        · rw [close_second T e' b hone hb, hnl']
          simp [Newline.chars]
        · simpa using enc_mem T (sextet₂_lt b 0)
        · by_cases hpadding : T.padding <;> simp [hpadding]
      · refine ⟨[T.enc (sextet₃ b 0)], if T.padding then [chr '='] else [], ?_, ?_, ?_⟩
        · rw [close_third T e' b htwo hb, hnl']
          simp [Newline.chars]
        · simpa using enc_mem T (sextet₃_lt b 0)
        · by_cases hpadding : T.padding <;> simp [hpadding]
    · refine ⟨[], [], ?_, by simp, by simp⟩
      have hmod : e'.cnt % 4 = 0 ∨ e'.cnt % 4 = 3 := by omega
      by_cases hpos : 0 < e'.cnt <;> obtain hzero | hthree := hmod <;>
        simp [Base64Encoder.close, Base64Encoder.putBreak, *, Newline.chars]
  obtain ⟨body, pad, heq, hbody, hpad⟩ := hclose _ hholds hnl'
  refine ⟨(pushAll (Base64Encoder.put T) e bytes).2 ++ body, pad, ?_, ?_, hpad⟩
  · rw [Base64Encoder.encode, heq, List.append_assoc]
  · intro ch hch
    rcases List.mem_append.mp hch with hch | hch
    · exact hout ch hch
    · exact hbody ch hch

theorem make_cnt (nl : Newline) (size uninit : Nat) :
    (Base64Encoder.make nl size uninit).cnt = 0 := by
  by_cases hsize : size < 4 <;> simp [Base64Encoder.make, hsize]

end Base64

/-- The push decoder reads back what the push encoder wrote, whatever the alphabet, the
line breaks and the line size. -/
theorem base64_round_trip (T : Base64Traits) (nl : Newline) (size uninit : Nat)
    (bytes : List UInt8) :
    Base64Decoder.decode T (Base64Encoder.encode T (.make nl size uninit) bytes) = bytes :=
  Base64.decode_encode T _ (Base64.make_cnt nl size uninit) bytes

end Acqua
