import Acqua.Ctype
import Acqua.Library.DelimitedReads

/-! `read_until.hpp` and `async_read_until` with a delimiter. A socket is the list of what its
reads return. -/

namespace Acqua

namespace Asio

def crlf : List UInt8 := octets "\r\n"

/-- The position after the first delimiter. -/
def findCrlf : List UInt8 → Option Nat := findDelimiter crlf

/-- `match_buffer_size` on `d` octets: how far it goes when it is content, and its `size_`. -/
def matchBufferSize (size d : Nat) : Option Nat × Nat :=
  if size ≤ d then (some size, size) else (none, size - d)

/-- `async_read_until` with a delimiter: the size it reports, the buffer and the reads left, or
nothing when the reads end. -/
def readUntil : List UInt8 → List (List UInt8) → Option (Nat × List UInt8 × List (List UInt8)) :=
  readDelimited crlf

/-- `async_read_until` with a size, of which `pos` octets of the buffer have been counted. -/
def readUntilSize (size pos : Nat) (buffer : List UInt8) (reads : List (List UInt8)) :
    Option (Nat × List UInt8 × List (List UInt8)) :=
  match matchBufferSize size (buffer.length - pos) with
  | (some n, _) => some (pos + n, buffer, reads)
  | (none, size) =>
    match reads with
    | [] => none
    | read :: reads => readUntilSize size buffer.length (buffer ++ read) reads

theorem crlf_ne_nil : crlf ≠ [] := List.cons_ne_nil _ _

theorem crlf_prefix_iff {a b : UInt8} {s : List UInt8} : crlf <+: a :: b :: s ↔ [a, b] = crlf := by
  refine ⟨fun h => ?_, fun h => ⟨s, by rw [← h]; rfl⟩⟩
  exact ((List.prefix_iff_eq_take.mp h).trans rfl).symm

theorem findCrlf_singleton (a : UInt8) : findCrlf [a] = none :=
  findDelimiter_cons fun hpre => Nat.not_succ_le_self 1 hpre.length_le

theorem findCrlf_cons_cons (a b : UInt8) (s : List UInt8) :
    findCrlf (a :: b :: s) =
      if [a, b] = crlf then some 2 else (findCrlf (b :: s)).map (· + 1) := by
  split_ifs with h
  · exact findDelimiter_of_prefix crlf_ne_nil (crlf_prefix_iff.mpr h)
  · exact findDelimiter_cons fun hpre => h (crlf_prefix_iff.mp hpre)

theorem findCrlf_cons {a : UInt8} (ha : a ≠ chr '\r') (s : List UInt8) :
    findCrlf (a :: s) = (findCrlf s).map (· + 1) :=
  findDelimiter_cons fun hpre => ha (List.cons_prefix_cons.mp hpre).1.symm

theorem findCrlf_run {line : List UInt8} (hcr : chr '\r' ∉ line) (tail : List UInt8) :
    findCrlf (line ++ tail) = (findCrlf tail).map (· + line.length) :=
  findDelimiter_run crlf_ne_nil fun _ hb heq => hcr (Option.some.inj heq ▸ hb)

theorem findCrlf_line {line : List UInt8} (hcr : chr '\r' ∉ line) (tail : List UInt8) :
    findCrlf (line ++ (crlf ++ tail)) = some (line.length + 2) := by
  have hcrlf : findCrlf (crlf ++ tail) = some 2 := rfl
  rw [findCrlf_run hcr, hcrlf, Option.map_some, Nat.add_comm]

theorem findCrlf_le {s : List UInt8} {n : Nat} (h : findCrlf s = some n) : n ≤ s.length ∧ 2 ≤ n :=
  (findDelimiter_le h).symm

theorem findCrlf_append {s : List UInt8} {n : Nat} (h : findCrlf s = some n) (t : List UInt8) :
    findCrlf (s ++ t) = some n := findDelimiter_append h t

theorem findCrlf_left_none {s t : List UInt8} (h : findCrlf (s ++ t) = none) :
    findCrlf s = none := findDelimiter_left_none h

theorem findCrlf_right_none {s t : List UInt8} (h : findCrlf (s ++ t) = none) :
    findCrlf t = none := findDelimiter_right_none h

/-- Nothing in front of the end of the first line ends a line. -/
theorem findCrlf_take {s : List UInt8} {n : Nat} (h : findCrlf s = some n) :
    findCrlf (s.take (n - 2)) = none := findDelimiter_take crlf_ne_nil h

/-- A delimiter does not begin in what has none and end in what does not begin with its end. -/
theorem findCrlf_append_of_none {s : List UInt8} (h : findCrlf s = none) {a : UInt8}
    (ha : a ≠ chr '\n') (t : List UInt8) :
    findCrlf (s ++ a :: t) = (findCrlf (a :: t)).map (· + s.length) := by
  induction s with
  | nil => simp
  | cons x s ih =>
    have hstep (b : UInt8) (rest : List UInt8) (hne : ¬ [x, b] = crlf) :
        findCrlf (x :: b :: rest) = (findCrlf (b :: rest)).map (· + 1) := by
      rw [findCrlf_cons_cons, if_neg hne]
    cases s with
    | nil =>
      have hne : ¬ [x, a] = crlf := fun he => ha (List.cons.inj (List.cons.inj he).2).1
      exact hstep a t hne
    | cons b s =>
      rw [findCrlf_cons_cons] at h
      split at h
      · cases h
      · have hrec := ih (Option.map_eq_none_iff.mp h)
        rw [List.cons_append, List.cons_append, hstep b _ ‹_›, ← List.cons_append, hrec,
          Option.map_map]
        congr 1

/-- What is found depends on the octets that come in and not on how they are cut into reads. -/
theorem readUntil_bytes {buffer : List UInt8} {reads : List (List UInt8)} {n : Nat}
    (h : findCrlf (buffer ++ reads.flatten) = some n) :
    ∃ buffer' reads', readUntil buffer reads = some (n, buffer', reads') ∧
      n ≤ buffer'.length ∧ buffer' ++ reads'.flatten = buffer ++ reads.flatten :=
  readDelimited_bytes h

theorem readUntil_bytes_none {buffer : List UInt8} {reads : List (List UInt8)}
    (h : findCrlf (buffer ++ reads.flatten) = none) : readUntil buffer reads = none :=
  readDelimited_bytes_none h

theorem readUntil_line {line tail : List UInt8} (hcr : chr '\r' ∉ line) {buffer : List UInt8}
    {reads : List (List UInt8)} (h : buffer ++ reads.flatten = line ++ crlf ++ tail) :
    ∃ buffer' reads', readUntil buffer reads =
        some (line.length + 2, line ++ crlf ++ buffer', reads') ∧
      buffer' ++ reads'.flatten = tail := by
  have hfind : findCrlf (buffer ++ reads.flatten) = some (line.length + 2) := by
    rw [h, List.append_assoc, findCrlf_line hcr]
  obtain ⟨buffer', reads', hread, hle, hbytes⟩ := readUntil_bytes hfind
  have hlen : (line ++ crlf).length ≤ buffer'.length := by simpa [crlf, octets] using hle
  obtain ⟨rest, rfl⟩ := List.prefix_of_prefix_length_le (List.prefix_append _ tail)
    ⟨_, hbytes.trans h⟩ hlen
  refine ⟨rest, reads', hread, ?_⟩
  rw [h, List.append_assoc] at hbytes
  exact List.append_cancel_left hbytes

theorem readUntilSize_of_le {size pos : Nat} {buffer : List UInt8} (h : pos + size ≤ buffer.length)
    (reads : List (List UInt8)) :
    readUntilSize size pos buffer reads = some (pos + size, buffer, reads) := by
  have hmatch : matchBufferSize size (buffer.length - pos) = (some size, size) :=
    if_pos (by omega)
  cases reads <;> simp only [readUntilSize, hmatch]

theorem matchBufferSize_of_lt {size d : Nat} (h : d < size) :
    matchBufferSize size d = (none, size - d) :=
  if_neg (by omega)

/-- `size_` and the position that asio goes on from have a sum that does not change. -/
theorem readUntilSize_of_lt {size pos : Nat} {buffer : List UInt8} (hpos : pos ≤ buffer.length)
    (h : buffer.length < pos + size) (read : List UInt8) (reads : List (List UInt8)) :
    ∃ size', buffer.length + size' = pos + size ∧
      readUntilSize size pos buffer (read :: reads) =
        readUntilSize size' buffer.length (buffer ++ read) reads := by
  refine ⟨size - (buffer.length - pos), by omega, ?_⟩
  rw [readUntilSize, matchBufferSize_of_lt (by omega)]

theorem readUntilSize_spec {size pos : Nat} {buffer : List UInt8} {reads : List (List UInt8)}
    (hpos : pos ≤ buffer.length) (h : pos + size ≤ (buffer ++ reads.flatten).length) :
    ∃ buffer' reads', readUntilSize size pos buffer reads = some (pos + size, buffer', reads') ∧
      pos + size ≤ buffer'.length ∧ buffer' ++ reads'.flatten = buffer ++ reads.flatten := by
  induction reads generalizing size pos buffer with
  | nil =>
    have hle : pos + size ≤ buffer.length := by simpa using h
    exact ⟨buffer, [], readUntilSize_of_le hle [], hle, rfl⟩
  | cons read reads ih =>
    by_cases hle : pos + size ≤ buffer.length
    · exact ⟨buffer, read :: reads, readUntilSize_of_le hle _, hle, rfl⟩
    · obtain ⟨size', hsum, hstep⟩ :=
        readUntilSize_of_lt hpos (Nat.lt_of_not_le hle) read reads
      rw [List.flatten_cons, ← List.append_assoc] at h ⊢
      rw [hstep, ← hsum]
      exact ih (by simp) (by rw [hsum]; exact h)

/-- What has arrived after `k` of the reads. -/
def arrived (buffer : List UInt8) (reads : List (List UInt8)) (k : Nat) : List UInt8 :=
  buffer ++ (reads.take k).flatten

theorem arrived_zero (buffer : List UInt8) (reads : List (List UInt8)) :
    arrived buffer reads 0 = buffer := by
  simp [arrived]

theorem arrived_succ (buffer read : List UInt8) (reads : List (List UInt8)) (k : Nat) :
    arrived buffer (read :: reads) (k + 1) = arrived (buffer ++ read) reads k := by
  simp [arrived]

/-- `k` reads are the first after which `n` octets have arrived. -/
structure FirstWith (n : Nat) (buffer : List UInt8) (reads : List (List UInt8)) (k : Nat) :
    Prop where
  le : k ≤ reads.length
  enough : n ≤ (arrived buffer reads k).length
  short : ∀ j < k, (arrived buffer reads j).length < n

theorem FirstWith.zero_iff {n : Nat} {buffer : List UInt8} {reads : List (List UInt8)} :
    FirstWith n buffer reads 0 ↔ n ≤ buffer.length := by
  constructor
  · intro h
    simpa only [arrived_zero] using h.enough
  · intro h
    exact ⟨Nat.zero_le _, by rwa [arrived_zero], fun j hj => absurd hj (Nat.not_lt_zero j)⟩

theorem FirstWith.succ_iff {n : Nat} {buffer read : List UInt8} {reads : List (List UInt8)}
    {k : Nat} :
    FirstWith n buffer (read :: reads) (k + 1) ↔
      buffer.length < n ∧ FirstWith n (buffer ++ read) reads k := by
  constructor
  · rintro ⟨hle, henough, hshort⟩
    rw [arrived_succ] at henough
    refine ⟨?_, Nat.le_of_succ_le_succ hle, henough, fun j hj => ?_⟩
    · simpa only [arrived_zero] using hshort 0 (Nat.succ_pos k)
    · rw [← arrived_succ]
      exact hshort (j + 1) (Nat.succ_lt_succ hj)
  · rintro ⟨hlt, hle, henough, hshort⟩
    refine ⟨Nat.succ_le_succ hle, by rwa [arrived_succ], fun j hj => ?_⟩
    cases j with
    | zero => rwa [arrived_zero]
    | succ j =>
      rw [arrived_succ]
      exact hshort j (Nat.lt_of_succ_lt_succ hj)

theorem readUntilSize_eq_some_of_le {size pos : Nat} {buffer : List UInt8}
    {reads : List (List UInt8)} (hle : pos + size ≤ buffer.length)
    (r : Nat × List UInt8 × List (List UInt8)) :
    readUntilSize size pos buffer reads = some r ↔
      ∃ k, FirstWith (pos + size) buffer reads k ∧
        r = (pos + size, arrived buffer reads k, reads.drop k) := by
  rw [readUntilSize_of_le hle, Option.some.injEq]
  constructor
  · rintro rfl
    exact ⟨0, FirstWith.zero_iff.mpr hle, by rw [arrived_zero, List.drop_zero]⟩
  · rintro ⟨k, hk, rfl⟩
    cases k with
    | zero => rw [arrived_zero, List.drop_zero]
    | succ k =>
      have hlt := hk.short 0 (Nat.succ_pos k)
      rw [arrived_zero] at hlt
      omega

theorem readUntilSize_eq_some {size pos : Nat} {buffer : List UInt8} {reads : List (List UInt8)}
    (hpos : pos ≤ buffer.length) (r : Nat × List UInt8 × List (List UInt8)) :
    readUntilSize size pos buffer reads = some r ↔
      ∃ k, FirstWith (pos + size) buffer reads k ∧
        r = (pos + size, arrived buffer reads k, reads.drop k) := by
  induction reads generalizing size pos buffer with
  | nil =>
    by_cases hle : pos + size ≤ buffer.length
    · exact readUntilSize_eq_some_of_le hle r
    · rw [readUntilSize, matchBufferSize_of_lt (by omega)]
      constructor
      · intro h
        cases h
      · rintro ⟨k, hk, -⟩
        have henough := hk.enough
        simp only [arrived, List.take_nil, List.flatten_nil, List.append_nil] at henough
        omega
  | cons read reads ih =>
    by_cases hle : pos + size ≤ buffer.length
    · exact readUntilSize_eq_some_of_le hle r
    · have hlt := Nat.lt_of_not_le hle
      obtain ⟨size', hsum, hstep⟩ := readUntilSize_of_lt hpos hlt read reads
      rw [hstep, ih (by simp), hsum]
      constructor
      · rintro ⟨k, hk, rfl⟩
        exact ⟨k + 1, FirstWith.succ_iff.mpr ⟨hlt, hk⟩, by rw [arrived_succ, List.drop_succ_cons]⟩
      · rintro ⟨k, hk, rfl⟩
        cases k with
        | zero => exact absurd (FirstWith.zero_iff.mp hk) hle
        | succ k =>
          exact ⟨k, (FirstWith.succ_iff.mp hk).2, by rw [arrived_succ, List.drop_succ_cons]⟩

theorem exists_firstWith {n : Nat} {buffer : List UInt8} {reads : List (List UInt8)} :
    (∃ k, FirstWith n buffer reads k) ↔ n ≤ (buffer ++ reads.flatten).length := by
  constructor
  · rintro ⟨k, hk⟩
    have henough := hk.enough
    have hsplit : arrived buffer reads k ++ (reads.drop k).flatten = buffer ++ reads.flatten := by
      rw [arrived, List.append_assoc, ← List.flatten_append, List.take_append_drop]
    rw [← hsplit, List.length_append]
    omega
  · intro hle
    obtain ⟨buffer', reads', hread, -, -⟩ := readUntilSize_spec (Nat.zero_le buffer.length)
      (show 0 + n ≤ (buffer ++ reads.flatten).length by omega)
    obtain ⟨k, hk, -⟩ := (readUntilSize_eq_some (Nat.zero_le _) _).mp hread
    rw [Nat.zero_add] at hk
    exact ⟨k, hk⟩

/-- However the stream is cut into reads, a match is reported after the first of them with which
`size` octets have arrived, just after the last of these octets. -/
theorem readUntilSize_iff (size : Nat) (buffer : List UInt8) (reads : List (List UInt8)) :
    (∀ n buffer' reads', readUntilSize size 0 buffer reads = some (n, buffer', reads') ↔
      n = size ∧ ∃ k, FirstWith size buffer reads k ∧ buffer' = arrived buffer reads k ∧
        reads' = reads.drop k) ∧
    (readUntilSize size 0 buffer reads ≠ none ↔
      size ≤ (buffer ++ reads.flatten).length) := by
  have hsome := @readUntilSize_eq_some size 0 buffer reads (Nat.zero_le buffer.length)
  rw [Nat.zero_add] at hsome
  constructor
  · intro n buffer' reads'
    rw [hsome]
    constructor
    · rintro ⟨k, hk, he⟩
      obtain ⟨rfl, rfl, rfl⟩ := by simpa only [Prod.mk.injEq] using he
      exact ⟨rfl, k, hk, rfl, rfl⟩
    · rintro ⟨rfl, k, hk, rfl, rfl⟩
      exact ⟨k, hk, rfl⟩
  · rw [← exists_firstWith, Option.ne_none_iff_exists']
    constructor
    · rintro ⟨r, hr⟩
      obtain ⟨k, hk, -⟩ := (hsome r).mp hr
      exact ⟨k, hk⟩
    · rintro ⟨k, hk⟩
      exact ⟨_, (hsome _).mpr ⟨k, hk, rfl⟩⟩

end Asio

end Acqua
