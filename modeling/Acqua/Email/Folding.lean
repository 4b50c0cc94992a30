import Acqua.Email.EncodeMimeheader
import Acqua.Iostreams.Base64RoundTrip
import Acqua.Library.Decimal

/-! Text without line breaks, and what the pieces of the encoder keep of it. -/

namespace Acqua

namespace Email

def Clean (s : List UInt8) : Prop := ∀ ch ∈ s, ch ≠ chr '\r' ∧ ch ≠ chr '\n'

theorem Clean.append {s t : List UInt8} (hs : Clean s) (ht : Clean t) : Clean (s ++ t) := by
  intro ch hch
  rcases List.mem_append.mp hch with hch | hch
  · exact hs ch hch
  · exact ht ch hch

theorem Clean.of_append {s t : List UInt8} (h : Clean (s ++ t)) : Clean s ∧ Clean t :=
  ⟨fun ch hch => h ch (by simp [hch]), fun ch hch => h ch (by simp [hch])⟩

theorem clean_of_isprint {s : List UInt8} (h : ∀ ch ∈ s, isprint ch) : Clean s := by
  intro ch hch
  have hprint := h ch hch
  constructor
  · rintro rfl
    exact absurd hprint (by decide)
  · rintro rfl
    exact absurd hprint (by decide)

theorem clean_of_isName {s : List UInt8} (h : isName s) : Clean s := by
  simp only [isName, Bool.and_eq_true, List.all_eq_true, Bool.or_eq_true, decide_eq_true_eq] at h
  intro ch hch
  have hname := h.2 ch hch
  constructor
  · rintro rfl
    exact absurd hname (by decide)
  · rintro rfl
    exact absurd hname (by decide)

theorem clean_octets (s : String) (h : (octets s).all isprint := by decide) :
    Clean (octets s) :=
  clean_of_isprint (List.all_eq_true.mp h)

/-- What `plain_encode` goes through: gaps are not empty, and no word but the last one is. -/
def Segmented : List (List UInt8 × List UInt8) → Prop
  | [] => True
  | (gap, word) :: rest => gap ≠ [] ∧ (∀ ch ∈ gap, isspace ch) ∧ (∀ ch ∈ word, ¬ isspace ch) ∧
      (word = [] → rest = []) ∧ Segmented rest

/-- The string that was cut into words and gaps. -/
def joined (word : List UInt8) (segs : List (List UInt8 × List UInt8)) : List UInt8 :=
  word ++ segs.flatMap fun seg => seg.1 ++ seg.2

theorem joined_cons (word gap next : List UInt8) (segs : List (List UInt8 × List UInt8)) :
    joined word ((gap, next) :: segs) = word ++ (gap ++ joined next segs) := by
  simp [joined]

theorem segments_spec (str : List UInt8) :
    joined (segments str).1 (segments str).2 = str ∧ (∀ ch ∈ (segments str).1, ¬ isspace ch) ∧
      Segmented (segments str).2 := by
  induction str with
  | nil => exact ⟨rfl, by simp [segments], trivial⟩
  | cons ch str ih =>
    obtain ⟨hjoin, hword, hsegs⟩ := ih
    by_cases hspace : isspace ch
    · match hseg : segments str with
      | ([], (gap, word) :: rest) =>
        rw [hseg] at hjoin hsegs
        obtain ⟨hgap, hgapSpace, hwordSpace, hlast, hrest⟩ := hsegs
        have heq : segments (ch :: str) = ([], (ch :: gap, word) :: rest) := by
          simp [segments, hspace, hseg]
        rw [heq]
        refine ⟨?_, by simp, by simp, ?_, hwordSpace, hlast, hrest⟩
        · rw [← hjoin]
          simp [joined]
        · intro c hc
          rcases List.mem_cons.mp hc with rfl | hc
          · exact hspace
          · exact hgapSpace c hc
      | ([], []) =>
        rw [hseg] at hjoin
        have heq : segments (ch :: str) = ([], [([ch], [])]) := by
          simp [segments, hspace, hseg]
        rw [heq]
        refine ⟨?_, by simp, by simp, by simpa using hspace, by simp, fun _ => rfl, trivial⟩
        rw [← hjoin]
        simp [joined]
      | (c :: word, rest) =>
        rw [hseg] at hjoin hword hsegs
        have heq : segments (ch :: str) = ([], ([ch], c :: word) :: rest) := by
          simp [segments, hspace, hseg]
        rw [heq]
        refine ⟨?_, by simp, by simp, by simpa using hspace, hword, by simp, hsegs⟩
        rw [← hjoin]
        simp [joined]
    · have heq : segments (ch :: str) = (ch :: (segments str).1, (segments str).2) := by
        simp [segments, hspace]
      rw [heq]
      refine ⟨congrArg (List.cons ch) hjoin, ?_, hsegs⟩
      intro c hc
      rcases List.mem_cons.mp hc with rfl | hc
      · exact hspace
      · exact hword c hc

theorem clean_base64Encode {L : Locale} {charset str s : List UInt8}
    (h : base64Encode L charset str = some s) : Clean s := by
  obtain ⟨bytes, -, rfl⟩ := Option.map_eq_some_iff.mp h
  obtain ⟨body, pad, heq, hbody, hpad⟩ := Base64.encode_text base64Traits
    (.make .none sizeMax 0) (Base64.make_cnt _ _ _) rfl bytes
  rw [heq]
  refine Clean.append (fun ch hch => ?_) fun ch hch => ?_
  · constructor
    · rintro rfl
      exact base64Traits.cr_notMem (hbody _ hch)
    · rintro rfl
      exact base64Traits.ln_notMem (hbody _ hch)
  · rw [hpad ch hch]
    decide

theorem clean_encodedWord {L : Locale} {charset str s : List UInt8} (hcharset : Clean charset)
    (h : encodedWord L charset str = some s) : Clean s := by
  obtain ⟨t, ht, rfl⟩ := Option.map_eq_some_iff.mp h
  exact ((((clean_octets "=?").append hcharset).append (clean_octets "?B?")).append
    (clean_base64Encode ht)).append (clean_octets "?=")

theorem clean_percentEncode {L : Locale} {charset str s : List UInt8}
    (h : percentEncode L charset str = some s) : Clean s := by
  obtain ⟨bytes, -, rfl⟩ := Option.map_eq_some_iff.mp h
  intro c hc
  obtain ⟨ch, -, hch⟩ := List.mem_flatMap.mp hc
  by_cases hgraph : isgraph ch
  · simp only [percentChar, hgraph, if_true, List.mem_singleton] at hch
    subst hch
    constructor
    · rintro rfl
      exact absurd hgraph (by decide)
    · rintro rfl
      exact absurd hgraph (by decide)
  · obtain ⟨hupper, hlower⟩ := nibble_forall (P := fun n =>
      QprintEncoder.hexDigit n ≠ chr '\r' ∧ QprintEncoder.hexDigit n ≠ chr '\n') (by decide) ch
    simp only [percentChar, hgraph] at hch
    rcases List.mem_cons.mp hch with rfl | hch
    · decide
    rcases List.mem_cons.mp hch with rfl | hch
    · exact hupper
    · obtain rfl := List.mem_singleton.mp hch
      exact hlower

theorem clean_index (idx : Nat) : Clean (octets (Nat.repr idx)) := by
  intro c hc
  have hdigit := isdigit_repr idx c hc
  constructor
  · rintro rfl
    exact absurd hdigit (by decide)
  · rintro rfl
    exact absurd hdigit (by decide)

end Email

end Acqua
