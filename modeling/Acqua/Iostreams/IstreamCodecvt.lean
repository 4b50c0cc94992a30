import Acqua.Ctype

/-! `basic_istream_locale_codecvt` of `istream_codecvt.hpp`, and what a `filtering_istream` reads
of it. -/

namespace Acqua

/-- `std::getline`: a line without its end, and the rest. -/
def getline (text : List UInt8) : Option (List UInt8 × List UInt8) :=
  if text = [] then none
  else some (text.takeWhile (· ≠ chr '\n'), (text.dropWhile (· ≠ chr '\n')).tail)

theorem length_getline_lt {text line rest : List UInt8} (h : getline text = some (line, rest)) :
    rest.length < text.length := by
  unfold getline at h
  split_ifs at h with hnil
  obtain ⟨-, rfl⟩ := Prod.mk.inj (Option.some.inj h)
  have hle := List.length_dropWhile_le (fun ch => decide (ch ≠ chr '\n')) text
  have hpos := List.length_pos_of_ne_nil hnil
  rw [List.length_tail]
  omega

def trimCrln (line : List UInt8) : List UInt8 :=
  line.rdropWhile fun ch => ch = chr '\r' ∨ ch = chr '\n' ∨ ch = 0

/-- What `os_` has left, and `line_`. -/
structure IstreamLocaleCodecvt where
  text : List UInt8
  line : List UInt8

namespace IstreamLocaleCodecvt

variable (fromUtf : List UInt8 → Option (List UInt8))

/-- The loop of `read`: what is copied when `i` octets fit. -/
def copy (text line : List UInt8) (i : Nat) : Option (List UInt8 × IstreamLocaleCodecvt) :=
  if i = 0 then some ([], ⟨text, line⟩)
  else
    match _hline : getline text with
    | none => some ([], ⟨text, line⟩)
    | some (l, text) =>
      let copied :=
        if trimCrln l = [] then some ([], line)
        else (fromUtf (trimCrln l)).map fun s => ((line ++ s).take i, (line ++ s).drop i)
      match copied with
      | none => none
      | some (out, line) =>
        let i := i - out.length
        (copy text (if 0 < i then line ++ [chr '\n'] else line) i).map fun r => (out ++ r.1, r.2)
termination_by text.length
decreasing_by exact length_getline_lt _hline

/-- `read` of `n` octets into a buffer that holds `area`. What is left of `line_` is erased but not
copied, so the octets before it in the buffer are read again. -/
def read (n : Nat) (area : Nat → UInt8) (s : IstreamLocaleCodecvt) :
    Option (List UInt8 × IstreamLocaleCodecvt) :=
  if 1 < s.line.length then
    let width := min s.line.length n
    let line := s.line.drop width
    (copy fromUtf s.text (if 0 < n - width then line ++ [chr '\n'] else line) (n - width)).map
      fun r => ((List.range width).map area ++ r.1, r.2)
  else copy fromUtf s.text s.line n

theorem copy_lt_or_eq {text line out : List UInt8} {i : Nat} {s : IstreamLocaleCodecvt}
    (h : copy fromUtf text line i = some (out, s)) :
    s.text.length < text.length ∨ out = [] ∧ s = ⟨text, line⟩ := by
  induction hn : text.length using Nat.strong_induction_on generalizing text line i out with
  | _ n ih =>
    subst hn
    rw [copy] at h
    split_ifs at h with hi
    · obtain ⟨rfl, rfl⟩ := Prod.mk.inj (Option.some.inj h)
      exact Or.inr ⟨rfl, rfl⟩
    · split at h
      next =>
        obtain ⟨rfl, rfl⟩ := Prod.mk.inj (Option.some.inj h)
        exact Or.inr ⟨rfl, rfl⟩
      next l rest hline =>
        have hlt := length_getline_lt hline
        dsimp only at h
        split at h
        next => exact absurd h (Option.some_ne_none _).symm
        next =>
          obtain ⟨r, hr, heq⟩ := Option.map_eq_some_iff.mp h
          obtain ⟨-, rfl⟩ := Prod.mk.inj heq
          rcases ih rest.length hlt hr rfl with hle | ⟨-, heq'⟩
          · exact Or.inl (hle.trans hlt)
          · rw [heq']
            exact Or.inl hlt

theorem read_lt {n : Nat} {area : Nat → UInt8} {s s' : IstreamLocaleCodecvt} {out : List UInt8}
    (h : read fromUtf n area s = some (out, s')) (hout : out ≠ []) :
    s'.text.length < s.text.length ∨
      s'.text = s.text ∧ s'.line.length < s.line.length := by
  unfold read at h
  split_ifs at h with hline
  · obtain ⟨r, hr, heq⟩ := Option.map_eq_some_iff.mp h
    obtain ⟨rfl, rfl⟩ := Prod.mk.inj heq
    rcases copy_lt_or_eq fromUtf hr with hlt | ⟨hnil, heq'⟩
    · exact Or.inl hlt
    · have hsize : n ≠ 0 := by
        rintro rfl
        simp [hnil] at hout
      rw [heq']
      refine Or.inr ⟨rfl, ?_⟩
      dsimp only
      split_ifs with hroom
      · simp only [List.length_append, List.length_drop, List.length_singleton]
        omega
      · simp only [List.length_drop]
        omega
  · rcases copy_lt_or_eq fromUtf h with hlt | ⟨hnil, -⟩
    · exact Or.inl hlt
    · exact absurd hnil hout

/-- `default_device_buffer_size`. -/
def bufferSize : Nat := 4096

/-- What the buffer holds after some octets were written to its front. -/
def overwrite (area : Nat → UInt8) (out : List UInt8) (i : Nat) : UInt8 := out.getD i (area i)

/-- Everything that is read up to the end, or up to a conversion that throws: then the second
component is set. -/
def content (area : Nat → UInt8) (s : IstreamLocaleCodecvt) : List UInt8 × Bool :=
  match _hread : read fromUtf bufferSize area s with
  | none => ([], true)
  | some ([], _) => ([], false)
  | some (ch :: out, s) =>
    let r := content (overwrite area (ch :: out)) s
    (ch :: out ++ r.1, r.2)
termination_by (s.text.length, s.line.length)
decreasing_by
  rcases read_lt fromUtf _hread (List.cons_ne_nil _ _) with hlt | ⟨heq, hlt⟩
  · exact Prod.Lex.left _ _ hlt
  · rw [heq]
    exact Prod.Lex.right _ hlt

end IstreamLocaleCodecvt

/-- A `filtering_istream`: what it has still to read, and whether an exception ends it. -/
structure FilteringIstream where
  text : List UInt8
  broken : Bool
  good : Bool

namespace FilteringIstream

/-- `std::getline`. A line that an exception cuts off is lost. -/
def getline (s : FilteringIstream) : Option (List UInt8) × FilteringIstream :=
  match Acqua.getline s.text with
  | none => (none, { s with good := false })
  | some (line, rest) =>
    if chr '\n' ∈ s.text then (some line, { s with text := rest })
    else if s.broken then (none, { s with text := [], good := false })
    else (some line, { s with text := [], good := false })

/-- `read` and `gcount`. -/
def read (size : Nat) (s : FilteringIstream) : List UInt8 × FilteringIstream :=
  (s.text.take size, { s with text := s.text.drop size, good := decide (size ≤ s.text.length) })

/-- What is left to do with a stream. -/
def work (s : FilteringIstream) : Nat := s.text.length + s.good.toNat

theorem work_getline_lt {s : FilteringIstream} (hs : s.good) : s.getline.2.work < s.work := by
  unfold getline work
  rw [hs]
  split
  next => simp
  next line rest hline =>
    have hlt := length_getline_lt hline
    split_ifs
    · simp only [Bool.toNat_true]
      omega
    · simp
    · simp

theorem work_read_lt {size : Nat} (hsize : 0 < size) {s : FilteringIstream} (hs : s.good) :
    (s.read size).2.work < s.work := by
  unfold read work
  rw [hs]
  by_cases hle : size ≤ s.text.length
  · simp only [hle, decide_true, List.length_drop, Bool.toNat_true]
    omega
  · simp only [hle, decide_false, List.length_drop, Bool.toNat_false, Bool.toNat_true]
    omega

end FilteringIstream

end Acqua
