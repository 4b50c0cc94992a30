import Acqua.Email.Locale
import Acqua.Library.CutCode

/-! `basic_ostream_codecvt` of `ostream_codecvt.hpp` for `char` and `wchar_t`: a sink that converts
each write on its own. -/

namespace Acqua

/-- What the stream buffer has received. -/
structure OstreamCodecvt (ω : Type*) where
  sbuf : List ω

namespace OstreamCodecvt

section Write

variable {ω : Type*} (utfToUtf : List UInt8 → List ω)

def write (d : OstreamCodecvt ω) (s : List UInt8) : OstreamCodecvt ω × Nat :=
  let str := utfToUtf s
  (⟨d.sbuf ++ str⟩, s.length)

def writes (d : OstreamCodecvt ω) (chunks : List (List UInt8)) : OstreamCodecvt ω :=
  chunks.foldl (fun d s => (d.write utfToUtf s).1) d

variable {utfToUtf}

theorem sbuf_writes (d : OstreamCodecvt ω) (chunks : List (List UInt8)) :
    (d.writes utfToUtf chunks).sbuf = d.sbuf ++ chunks.flatMap utfToUtf := by
  induction chunks generalizing d with
  | nil => exact (List.append_nil _).symm
  | cons s chunks ih =>
    have hrest := ih (d.write utfToUtf s).1
    rw [List.flatMap_cons, ← List.append_assoc]
    exact hrest

/-- Writes forward what a single one does exactly when none of them begins or ends inside a
character. -/
theorem writes_eq_write_iff {wide : Char → List ω}
    (hconv : DropsCuts String.utf8EncodeChar wide utfToUtf) (hwide : ∀ c, wide c ≠ [])
    (d : OstreamCodecvt ω) (cs : List Char) (chunks : List (List UInt8))
    (hchunks : chunks.flatten = Email.utf8 cs) :
    d.writes utfToUtf chunks = (d.write utfToUtf (Email.utf8 cs)).1 ↔
      ∀ s ∈ chunks, ∃ ds, s = Email.utf8 ds := by
  refine Iff.trans ?_ (hconv.flatMap_eq_iff hwide hchunks)
  constructor
  · intro h
    have hsbuf := (sbuf_writes d chunks).symm.trans (congrArg OstreamCodecvt.sbuf h)
    exact List.append_cancel_left hsbuf
  · intro h
    have hsbuf : (d.writes utfToUtf chunks).sbuf = d.sbuf ++ chunks.flatMap utfToUtf :=
      sbuf_writes d chunks
    rw [h] at hsbuf
    exact congrArg OstreamCodecvt.mk hsbuf

end Write

section Utf8

open Email

def decode (s : List UInt8) : Option Char := s.toByteArray.utf8DecodeChar? 0

/-- The characters of a text in UTF-8, without the octets that none begins at. -/
def decodeAll : List UInt8 → List Char
  | [] => []
  | ch :: s =>
    match decode (ch :: s) with
    | some c => c :: decodeAll (s.drop (c.utf8Size - 1))
    | none => decodeAll s
termination_by s => s.length
decreasing_by
  · simp only [List.length_drop, List.length_cons]
    omega
  · simp

theorem decode_append (c : Char) (s : List UInt8) :
    decode (String.utf8EncodeChar c ++ s) = some c := by
  rw [decode, List.toByteArray_append]
  exact ByteArray.utf8DecodeChar?_utf8EncodeChar_append

theorem exists_of_decode {s : List UInt8} {c : Char} (h : decode s = some c) :
    ∃ t, s = String.utf8EncodeChar c ++ t := by
  obtain ⟨t, ht⟩ := ByteArray.exists_of_utf8DecodeChar?_eq_some h
  have hbytes : t.data.toList.toByteArray = t := by
    refine ByteArray.ext ?_
    rw [List.data_toByteArray, Array.toArray_toList]
  refine ⟨t.data.toList, List.toByteArray_inj.mp ?_⟩
  rw [ht, List.toByteArray_append, hbytes]

theorem trailLength_trail {c : Char} {lead : UInt8} {trail : List UInt8}
    (h : String.utf8EncodeChar c = lead :: trail) :
    trailLength lead = trail.length ∧ ∀ ch ∈ trail, trailLength ch = -1 := by
  constructor
  · obtain ⟨lead', trail', hlead, hlength⟩ := trailLength_utf8 c
    obtain ⟨rfl, rfl⟩ := List.cons.inj (h.symm.trans hlead)
    exact hlength
  · have htrail : ∀ n, trailLength (UInt8.ofNat (n % 64 + 128)) = -1 := by
      intro n
      have hmod := Nat.mod_lt n (show 0 < 64 by decide)
      rw [trailLength_ofNat (by omega), if_neg (by omega), if_pos (by omega)]
    unfold String.utf8EncodeChar at h
    simp only at h
    split_ifs at h
    all_goals obtain ⟨-, rfl⟩ := List.cons.inj h
    · simp
    · simp only [List.forall_mem_cons, htrail, List.not_mem_nil, false_imp_iff, implies_true,
        and_self]
    · simp only [List.forall_mem_cons, htrail, List.not_mem_nil, false_imp_iff, implies_true,
        and_self]
    · simp only [List.forall_mem_cons, htrail, List.not_mem_nil, false_imp_iff, implies_true,
        and_self]

theorem decodeAll_of_none {ch : UInt8} {s : List UInt8} (h : decode (ch :: s) = none) :
    decodeAll (ch :: s) = decodeAll s := by
  rw [decodeAll, h]

/-- No character begins with an octet that is in the middle of one. -/
theorem decodeAll_trail {trail : List UInt8} (htrail : ∀ ch ∈ trail, trailLength ch = -1)
    (s : List UInt8) : decodeAll (trail ++ s) = decodeAll s := by
  induction trail with
  | nil => rfl
  | cons ch trail ih =>
    obtain ⟨hch, hrest⟩ := List.forall_mem_cons.mp htrail
    rw [List.cons_append, decodeAll_of_none, ih hrest]
    by_contra hsome
    obtain ⟨c, hc⟩ := Option.ne_none_iff_exists'.mp hsome
    obtain ⟨t, ht⟩ := exists_of_decode hc
    obtain ⟨lead, trail', hlead, hlength⟩ := trailLength_utf8 c
    rw [hlead, List.cons_append] at ht
    rw [← (List.cons.inj ht).1, hch] at hlength
    omega

theorem decodeAll_dropsCuts : DropsCuts String.utf8EncodeChar (fun c => [c]) decodeAll where
  nil := by rw [decodeAll]
  word c s := by
    have hdecode := decode_append c s
    have hsize := String.length_utf8EncodeChar c
    obtain ⟨lead, trail, hlead, -⟩ := trailLength_utf8 c
    rw [hlead] at hdecode hsize ⊢
    rw [List.cons_append] at hdecode ⊢
    rw [decodeAll, hdecode]
    have htrail : trail.length = c.utf8Size - 1 := by
      rw [← hsize, List.length_cons, Nat.add_sub_cancel]
    simp only [← htrail, List.drop_left]
    rfl
  rest c pre mid post s hc hpre := by
    obtain ⟨lead, pre, rfl⟩ := List.exists_cons_of_ne_nil hpre
    have htrail := (trailLength_trail hc).2
    exact decodeAll_trail (fun ch hch => htrail ch (by simp [hch])) s
  part c pre post hc hpost := by
    cases pre with
    | nil => rw [decodeAll]
    | cons lead pre =>
      rw [List.cons_append] at hc
      obtain ⟨hlength, htrail⟩ := trailLength_trail hc
      have hpre := decodeAll_trail (fun ch hch => htrail ch (List.mem_append_left post hch)) []
      rw [List.append_nil] at hpre
      rw [decodeAll_of_none, hpre, decodeAll]
      by_contra hsome
      obtain ⟨c', hc'⟩ := Option.ne_none_iff_exists'.mp hsome
      obtain ⟨t, ht⟩ := exists_of_decode hc'
      obtain ⟨lead', trail', hlead', hlength'⟩ := trailLength_utf8 c'
      rw [hlead', List.cons_append] at ht
      obtain ⟨rfl, hpre'⟩ := List.cons.inj ht
      have hshort := congrArg List.length hpre'
      have hpos := List.length_pos_iff.mpr hpost
      rw [List.length_append] at hlength hshort
      omega

theorem writes_eq_write_iff_of_two_writes :
    (⟨[]⟩ : OstreamCodecvt Char).writes decodeAll [utf8 ['a'], utf8 ['b']] =
      ((⟨[]⟩ : OstreamCodecvt Char).write decodeAll (utf8 ['a', 'b'])).1 := by
  refine (writes_eq_write_iff decodeAll_dropsCuts (fun c => List.cons_ne_nil c []) ⟨[]⟩ ['a', 'b']
    [utf8 ['a'], utf8 ['b']] (by decide)).mpr ?_
  intro s hs
  rcases List.mem_pair.mp hs with rfl | rfl
  · exact ⟨['a'], rfl⟩
  · exact ⟨['b'], rfl⟩

/-- The first character of the tests, cut behind its first octet, is lost. -/
theorem not_chunk_independent_of_cut :
    (⟨[]⟩ : OstreamCodecvt Char).writes decodeAll [[0xe5], [0x90, 0xbe]] = ⟨[]⟩ ∧
      ((⟨[]⟩ : OstreamCodecvt Char).write decodeAll (utf8 ['吾'])).1 = ⟨['吾']⟩ ∧
      ¬ ∀ (cs : List Char) (chunks : List (List UInt8)), chunks.flatten = utf8 cs →
        (⟨[]⟩ : OstreamCodecvt Char).writes decodeAll chunks =
          ((⟨[]⟩ : OstreamCodecvt Char).write decodeAll (utf8 cs)).1 := by
  have hword : String.utf8EncodeChar '吾' = [0xe5] ++ ([0x90, 0xbe] ++ []) := by decide
  have hfirst : decodeAll [0xe5] = [] :=
    decodeAll_dropsCuts.part '吾' [0xe5] ([0x90, 0xbe] ++ []) hword (by decide)
  have hsecond : decodeAll ([0x90, 0xbe] ++ []) = decodeAll [] :=
    decodeAll_dropsCuts.rest '吾' [0xe5] [0x90, 0xbe] [] [] hword (by decide)
  have hwhole : decodeAll (utf8 ['吾'] ++ []) = ['吾'] ++ decodeAll [] :=
    decodeAll_dropsCuts.words ['吾'] []
  rw [decodeAll_dropsCuts.nil, List.append_nil] at hsecond hwhole
  have hcut : (⟨[]⟩ : OstreamCodecvt Char).writes decodeAll [[0xe5], [0x90, 0xbe]] = ⟨[]⟩ := by
    refine congrArg OstreamCodecvt.mk ?_
    change ([] ++ decodeAll [0xe5]) ++ decodeAll [0x90, 0xbe] = []
    simp only [hfirst, hsecond, List.append_nil]
  have hone : ((⟨[]⟩ : OstreamCodecvt Char).write decodeAll (utf8 ['吾'])).1 = ⟨['吾']⟩ :=
    congrArg OstreamCodecvt.mk hwhole
  refine ⟨hcut, hone, fun hall => ?_⟩
  have heq := hall ['吾'] [[0xe5], [0x90, 0xbe]] (by decide)
  rw [hcut, hone] at heq
  exact absurd (congrArg OstreamCodecvt.sbuf heq) (by decide)

end Utf8

end OstreamCodecvt

end Acqua
