import Acqua.Email.Rfc2231Termination

/-! Values of header fields whose decoding comes to an end without an exception. -/

namespace Acqua

namespace Email

/-- A charset of which every text is converted. -/
def Locale.Knows (L : Locale) (charset : List UInt8) : Prop :=
  ∀ str, (L.toUtf str charset).isSome

/-- The encoded words of a text name charsets that are known. -/
def WordsKnown (L : Locale) (str : List UInt8) : Prop :=
  ∀ word ∈ (findWords str.length str).1, L.Knows word.2.charset

/-- Parameters that can be stored one after the other, where `oldkey` is the key of the last
encoded one and `pending` says that it is not written yet: the sections of an encoded parameter
stand together, the first one names a charset that is known, and no `%` leads past the end. -/
def Storable (L : Locale) : List UInt8 → Bool → List Param → Prop
  | _, _, [] => True
  | oldkey, pending, p :: ps =>
    if p.idx = none then WordsKnown L p.val ∧ Storable L oldkey false ps
    else if oldkey = p.key then
      pending ∧ (percentDecode p.val).isSome ∧ Storable L oldkey true ps
    else
      L.Knows (rfc2231ParseCharset p.val).1 ∧
        (percentDecode (rfc2231ParseCharset p.val).2).isSome ∧ Storable L p.key true ps

/-- A value that the decoder returns something for. Behind the first `;` or blank of a field whose
name begins with `Content-` there is nothing but parameters. -/
def ReadableValue (L : Locale) (name value : List UInt8) : Prop :=
  if istartsWith name (octets "Content-") then
    let params := matchParams (value.dropWhile fun ch => !isParamsStart ch).tail
    WordsKnown L (value.takeWhile fun ch => !isParamsStart ch) ∧ params.2 = [] ∧
      Storable L [] false params.1
  else WordsKnown L value

section Words

variable {L : Locale}

theorem isSome_decodeWords {words : List (List UInt8 × EncodedWord)}
    (hwords : ∀ word ∈ words, L.Knows word.2.charset) {encoded charset : List UInt8}
    (h : (L.toUtf encoded charset).isSome) (last : List UInt8) :
    (decodeWords L encoded charset words last).isSome := by
  induction words generalizing encoded charset with
  | nil => rwa [decodeWords, Option.isSome_map]
  | cons word words ih =>
    obtain ⟨gap, w⟩ := word
    obtain ⟨hw, hrest⟩ := List.forall_mem_cons.mp hwords
    rw [decodeWords]
    split_ifs
    · exact ih hrest (hw _)
    · obtain ⟨out, hout⟩ := Option.isSome_iff_exists.mp h
      obtain ⟨out', hout'⟩ := Option.isSome_iff_exists.mp (ih hrest (hw w.decoded))
      simp [hout, hout']

theorem isSome_rfc2047Decode (hL : L.toUtf [] [] = some []) {str : List UInt8}
    (h : WordsKnown L str) : (rfc2047Decode L str).isSome :=
  isSome_decodeWords h (by rw [hL]; rfl) _

end Words

section Params

variable {L : Locale} {d : ParamDecoder} {pending : Bool}

theorem key_ne_nil_of_matchParams (str : List UInt8) : ∀ p ∈ (matchParams str).1, p.key ≠ [] := by
  induction str using matchParams.induct with
  | case1 => simp [matchParams]
  | case2 ch str hskip ih => rwa [matchParams_of_skip hskip]
  | case3 ch str hskip hmatch => simp [matchParams_of_none hskip hmatch]
  | case4 ch str hskip p rest hmatch ih =>
    rw [matchParams_of_some hskip hmatch]
    refine List.forall_mem_cons.mpr ⟨?_, ih⟩
    unfold matchParam at hmatch
    dsimp only at hmatch
    split_ifs at hmatch with hkey
    split at hmatch
    next => exact absurd hmatch (Option.some_ne_none _).symm
    next =>
      split_ifs at hmatch
      obtain ⟨v, -, heq⟩ := Option.map_eq_some_iff.mp hmatch
      rw [← (Prod.mk.inj heq).1]
      exact hkey

/-- What is not written yet has a key and a known charset. -/
structure Ready (L : Locale) (pending : Bool) (d : ParamDecoder) : Prop where
  key : pending → d.oldkey ≠ [] ∧ L.Knows d.charset
  written : ¬ pending → d.encoded = [] ∧ d.charset = []

/-- There is nothing to write any more. -/
theorem Ready.writeOld (hL : L.toUtf [] [] = some []) (h : Ready L pending d) :
    ∃ d', d.writeOld L = .ok d' ∧ d'.oldkey = d.oldkey ∧ Ready L false d' := by
  by_cases hkey : d.oldkey = []
  · have hpending : ¬ pending := fun hp => (h.key hp).1 hkey
    exact ⟨d, if_pos hkey, rfl, fun hfalse => absurd hfalse Bool.false_ne_true,
      fun _ => h.written hpending⟩
  · have hconverted : (L.toUtf d.encoded d.charset).isSome := by
      by_cases hp : pending
      · exact (h.key hp).2 _
      · rw [(h.written hp).1, (h.written hp).2, hL]
        rfl
    obtain ⟨str, hstr⟩ := Option.isSome_iff_exists.mp hconverted
    refine ⟨{ d with
        encoded := []
        charset := []
        params := updateParam (fun _ => str) d.oldkey d.params }, ?_, rfl,
      fun hfalse => absurd hfalse Bool.false_ne_true, fun _ => ⟨rfl, rfl⟩⟩
    simp only [ParamDecoder.writeOld, if_neg hkey, hstr]

theorem storeAll_of_storable (hL : L.toUtf [] [] = some []) {ps : List Param}
    (hkeys : ∀ p ∈ ps, p.key ≠ []) (hready : Ready L pending d)
    (h : Storable L d.oldkey pending ps) :
    ∃ d' pending', ParamDecoder.storeAll L ps d = .ok d' ∧ Ready L pending' d' := by
  induction ps generalizing d pending with
  | nil => exact ⟨d, pending, rfl, hready⟩
  | cons p ps ih =>
    obtain ⟨hkey, hrest⟩ := List.forall_mem_cons.mp hkeys
    rw [Storable] at h
    split_ifs at h with hidx hsame
    · obtain ⟨hwords, hps⟩ := h
      obtain ⟨d₁, hold, hkey₁, hready₁⟩ := hready.writeOld hL
      obtain ⟨str, hstr⟩ := Option.isSome_iff_exists.mp (isSome_rfc2047Decode hL hwords)
      have hstore : d.store L p =
          .ok { d₁ with params := updateParam (· ++ str) p.key d₁.params } := by
        simp only [ParamDecoder.store, if_pos hidx, hold, ParamDecoder.writePlain, hstr]
        rfl
      rw [ParamDecoder.storeAll, hstore]
      exact ih hrest ⟨hready₁.key, hready₁.written⟩ (by rwa [← hkey₁] at hps)
    · obtain ⟨hpending, hpercent, hps⟩ := h
      obtain ⟨str, hstr⟩ := Option.isSome_iff_exists.mp hpercent
      have hstore : d.store L p = .ok { d with encoded := d.encoded ++ str } := by
        simp only [ParamDecoder.store, if_neg hidx, if_pos hsame, ParamDecoder.writeEncoded, hstr]
      rw [ParamDecoder.storeAll, hstore]
      exact ih hrest ⟨fun _ => hready.key hpending, fun hfalse => absurd rfl hfalse⟩ hps
    · obtain ⟨hcharset, hpercent, hps⟩ := h
      obtain ⟨d₁, hold, -, hready₁⟩ := hready.writeOld hL
      obtain ⟨hencoded, hnone⟩ := hready₁.written Bool.false_ne_true
      obtain ⟨str, hstr⟩ := Option.isSome_iff_exists.mp hpercent
      have hstore : d.store L p = .ok { d₁ with
          oldkey := p.key
          charset := (rfc2231ParseCharset p.val).1
          encoded := d₁.encoded ++ str } := by
        have hwrite : ∀ d₂ : ParamDecoder, d₂.writeEncoded (rfc2231ParseCharset p.val).2 =
            .ok { d₂ with encoded := d₂.encoded ++ str } := fun d₂ => by
          simp only [ParamDecoder.writeEncoded, hstr]
        simp only [ParamDecoder.store, if_neg hidx, if_neg hsame, hold, Except.bind, bind, hnone,
          if_true, hwrite]
      rw [ParamDecoder.storeAll, hstore]
      exact ih hrest ⟨fun _ => ⟨hkey, hcharset⟩, fun hfalse => absurd rfl hfalse⟩ hps

end Params

theorem isSome_decodeMimeheader {L : Locale} (hL : L.toUtf [] [] = some [])
    {value : List UInt8} (hwords : WordsKnown L (value.takeWhile fun ch => !isParamsStart ch))
    (hend : (matchParams (value.dropWhile fun ch => !isParamsStart ch).tail).2 = [])
    (hparams : Storable L [] false
      (matchParams (value.dropWhile fun ch => !isParamsStart ch).tail).1) :
    (decodeMimeheader L value ⟨[], []⟩).isSome := by
  obtain ⟨out, hout⟩ := Option.isSome_iff_exists.mp (isSome_rfc2047Decode hL hwords)
  rw [decodeMimeheader, hout]
  cases hrest : value.dropWhile fun ch => !isParamsStart ch with
  | nil => rfl
  | cons ch rest =>
    rw [hrest, List.tail_cons] at hend hparams
    have hinit : Ready L false (.init []) :=
      ⟨fun hfalse => absurd hfalse Bool.false_ne_true, fun _ => ⟨rfl, rfl⟩⟩
    obtain ⟨d, pending, hstore, hready⟩ :=
      storeAll_of_storable hL (key_ne_nil_of_matchParams rest) hinit hparams
    obtain ⟨d', hold, -, -⟩ := hready.writeOld hL
    have hloop := ParamDecoder.loop_of_consumed hstore (Or.inr hend) (Nat.lt_succ_self rest.length)
    have hdecode : rfc2231Decode L (rest.length + 1) rest [] = some (.ok d'.params) := by
      rw [rfc2231Decode, hloop, Option.map_some]
      simp only [hold, Except.bind, bind, pure, Except.pure]
    simp only [Option.bind_eq_bind, Option.bind_some, hdecode]
    rfl

end Email

end Acqua
