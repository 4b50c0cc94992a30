import Acqua.Webclient.ChunkedReader

/-! `buffer_copy` of `client_socket_base.hpp` with a decompressor, which is the list of what it
yields until its data end. -/

namespace Acqua

namespace Webclient

/-- `sgetn` of a `filtering_streambuf`: the octets and what the chain has left. -/
def sgetn : Nat → List (List UInt8) → List UInt8 × List (List UInt8)
  | _, [] => ([], [])
  | n, block :: chain =>
    if n ≤ block.length then (block.take n, block.drop n :: chain)
    else
      let rest := sgetn (n - block.length) chain
      (block ++ rest.1, rest.2)

/-- The members of `os` and the locals of `buffer_copy`. -/
structure BufferCopy where
  size : Nat
  chain : List (List UInt8)
  good : Bool
  result : List UInt8
  deriving DecidableEq

namespace BufferCopy

/-- `boost::iostreams::read`, which is -1 at the end of the data. -/
def read (chain : List (List UInt8)) (n : Nat) : Int × List UInt8 × List (List UInt8) :=
  let amt := sgetn n chain
  (if amt.1.length ≠ 0 then amt.1.length else -1, amt)

/-- `os.write`, which puts nothing for a negative count. -/
def write (buf : List UInt8) (rest : Int) (s : BufferCopy) : BufferCopy :=
  if s.good then
    { s with
      good := decide ((rest.toNat : Int) = rest)
      result := s.result ++ buf.take rest.toNat }
  else s

def round (s : BufferCopy) : BufferCopy :=
  let rest := read s.chain (min s.size 4096)
  let written := { s with chain := rest.2.2 }.write rest.2.1 rest.1
  { written with size := (((s.size : Int) - rest.1) % 2 ^ 64).toNat }

/-- The loop, if it ends within that many rounds. -/
def loop : Nat → BufferCopy → Option BufferCopy
  | 0, s => if s.size = 0 then some s else none
  | rounds + 1, s => if s.size = 0 then some s else s.round.loop rounds

end BufferCopy

theorem sgetn_fst (n : Nat) (chain : List (List UInt8)) :
    (sgetn n chain).1 = chain.flatten.take n := by
  induction chain generalizing n with
  | nil => simp [sgetn]
  | cons block chain ih =>
    rw [sgetn, List.flatten_cons, List.take_append]
    split
    · simp [Nat.sub_eq_zero_of_le ‹_›]
    · rw [List.take_of_length_le (by omega), ← ih]

theorem sgetn_snd (n : Nat) (chain : List (List UInt8)) :
    (sgetn n chain).2.flatten = chain.flatten.drop n := by
  induction chain generalizing n with
  | nil => simp [sgetn]
  | cons block chain ih =>
    rw [sgetn, List.flatten_cons, List.drop_append]
    split
    · simp [Nat.sub_eq_zero_of_le ‹_›]
    · rw [List.drop_of_length_le (by omega), List.nil_append, ← ih]

namespace BufferCopy

variable {s t : BufferCopy}

/-- What the chain still yields. -/
def data (s : BufferCopy) : List UInt8 := s.chain.flatten

/-- The stream has failed only where there is nothing left to write. -/
structure Inv (s : BufferCopy) : Prop where
  lt : s.size < 2 ^ 64
  good : s.good = true ∨ s.data = []

theorem round_data (s : BufferCopy) : s.round.data = s.data.drop (min s.size 4096) := by
  have hchain : s.round.chain = (sgetn (min s.size 4096) s.chain).2 := by
    simp only [round, read, write]
    split <;> rfl
  rw [data, hchain, sgetn_snd, data]

/-- What a round does while there are data. -/
theorem round_of_data (h : s.Inv) (hsize : s.size ≠ 0) (hdata : s.data ≠ []) :
    ∃ k, 0 < k ∧ k ≤ s.size ∧ k ≤ s.data.length ∧ s.round.size = s.size - k ∧
      s.round.data = s.data.drop k ∧ s.round.good = true ∧
      s.round.result = s.result ++ s.data.take k := by
  have hpos : 0 < s.data.length := List.length_pos_iff.mpr hdata
  have hgood : s.good = true := h.good.resolve_right hdata
  have hbuf : (sgetn (min s.size 4096) s.chain).1 = s.data.take (min s.size 4096) := sgetn_fst _ _
  have hread : read s.chain (min s.size 4096) =
      (((s.data.take (min s.size 4096)).length : Int), sgetn (min s.size 4096) s.chain) := by
    have hlen : (s.data.take (min s.size 4096)).length ≠ 0 := by
      rw [List.length_take]
      omega
    simp only [read, hbuf, if_pos hlen]
  have hlt := h.lt
  refine ⟨(s.data.take (min s.size 4096)).length, ?_, ?_, ?_, ?_, ?_, ?_, ?_⟩
  · rw [List.length_take]
    omega
  · rw [List.length_take]
    omega
  · rw [List.length_take]
    omega
  · rw [round, hread]
    simp only [List.length_take]
    omega
  · rw [round_data, List.length_take]
    rcases Nat.le_total (min s.size 4096) s.data.length with hle | hle
    · rw [Nat.min_eq_left hle]
    · rw [Nat.min_eq_right hle, List.drop_of_length_le hle, List.drop_length]
  · simp [round, hread, write, hgood]
  · simp only [round, hread, write, hgood, if_true, Int.toNat_natCast, hbuf, List.take_length]
    exact congrArg _ (List.take_eq_take_iff.mpr (by rw [List.length_take]; omega))

/-- Behind the end of the data a round counts up. -/
theorem round_of_nil (hdata : s.data = []) :
    s.round.size = (s.size + 1) % 2 ^ 64 ∧ s.round.data = [] ∧ s.round.result = s.result := by
  have hbuf : (sgetn (min s.size 4096) s.chain).1 = [] := by
    rw [sgetn_fst, ← data, hdata, List.take_nil]
  have hread : read s.chain (min s.size 4096) = (-1, sgetn (min s.size 4096) s.chain) := by
    simp [read, hbuf]
  refine ⟨?_, by rw [round_data, hdata, List.drop_nil], ?_⟩
  · rw [round, hread]
    simp only
    omega
  · simp only [round, hread, write]
    split
    · simp
    · rfl

theorem Inv.round (h : s.Inv) (hsize : s.size ≠ 0) : s.round.Inv := by
  by_cases hdata : s.data = []
  · obtain ⟨hs, hd, -⟩ := round_of_nil hdata
    exact ⟨by rw [hs]; exact Nat.mod_lt _ (by decide), .inr hd⟩
  · obtain ⟨k, -, -, -, hs, -, hg, -⟩ := round_of_data h hsize hdata
    have hlt := h.lt
    exact ⟨by omega, .inl hg⟩

theorem loop_of_zero (h : s.size = 0) (rounds : Nat) : s.loop rounds = some s := by
  cases rounds <;> simp only [loop, h, if_pos]

theorem loop_succ (h : s.size ≠ 0) (rounds : Nat) :
    s.loop (rounds + 1) = s.round.loop rounds := by
  rw [loop, if_neg h]

/-- The part of the data that the first `size` octets are is appended, if the loop ends. -/
theorem loop_result {rounds : Nat} (h : s.Inv) (hloop : s.loop rounds = some t) :
    t.result = s.result ++ s.data.take s.size := by
  induction rounds generalizing s with
  | zero =>
    by_cases hsize : s.size = 0
    · rw [loop_of_zero hsize] at hloop
      cases hloop
      simp [hsize]
    · rw [loop, if_neg hsize] at hloop
      cases hloop
  | succ rounds ih =>
    by_cases hsize : s.size = 0
    · rw [loop_of_zero hsize] at hloop
      cases hloop
      simp [hsize]
    · rw [loop_succ hsize] at hloop
      rw [ih (h.round hsize) hloop]
      by_cases hdata : s.data = []
      · obtain ⟨-, hd, hr⟩ := round_of_nil hdata
        simp [hd, hr, hdata]
      · obtain ⟨k, -, hk, -, hs, hd, -, hr⟩ := round_of_data h hsize hdata
        obtain ⟨rest, hrest⟩ := Nat.exists_eq_add_of_le hk
        rw [hr, hs, hd, hrest, Nat.add_sub_cancel_left, List.take_add, List.append_assoc]

/-- While the chain has what is left to copy, a round copies an octet at least. -/
theorem loop_ends (h : s.Inv) (hlen : s.data.length = s.size) {rounds : Nat}
    (hrounds : s.size ≤ rounds) : ∃ t, s.loop rounds = some t := by
  induction rounds generalizing s with
  | zero => exact ⟨s, loop_of_zero (Nat.le_zero.mp hrounds) 0⟩
  | succ rounds ih =>
    by_cases hsize : s.size = 0
    · exact ⟨s, loop_of_zero hsize _⟩
    · have hdata : s.data ≠ [] := List.ne_nil_of_length_pos (by omega)
      obtain ⟨k, hpos, hk, -, hs, hd, -, -⟩ := round_of_data h hsize hdata
      have hnext : s.round.data.length = s.round.size := by
        rw [hd, hs, List.length_drop, hlen]
      rw [loop_succ hsize]
      exact ih (h.round hsize) hnext (by omega)

/-- Where the data are shorter than the size, the loop goes on until the size has gone through
all numbers of 64 bits. -/
theorem loop_eq_none (h : s.Inv) (hlt : s.data.length < s.size) {rounds : Nat}
    (hrounds : rounds < 2 ^ 64 - (s.size - s.data.length)) : s.loop rounds = none := by
  have hsize : s.size ≠ 0 := by omega
  induction rounds generalizing s with
  | zero => rw [loop, if_neg hsize]
  | succ rounds ih =>
    rw [loop_succ hsize]
    by_cases hdata : s.data = []
    · obtain ⟨hs, hd, -⟩ := round_of_nil hdata
      have hlen : s.data.length = 0 := by rw [hdata, List.length_nil]
      have hlen' : s.round.data.length = 0 := by rw [hd, List.length_nil]
      rw [Nat.mod_eq_of_lt (by omega)] at hs
      exact ih (h.round hsize) (by omega) (by omega) (by omega)
    · obtain ⟨k, hpos, hk, hk', hs, hd, -, -⟩ := round_of_data h hsize hdata
      have hlen : s.round.data.length = s.data.length - k := by rw [hd, List.length_drop]
      exact ih (h.round hsize) (by omega) (by omega) (by omega)

end BufferCopy

section Appends

variable (size : Nat) (chain : List (List UInt8)) (result : List UInt8)

/-- `buffer_copy` ends, after a round for each octet at most, and appends all that the chain
yields. -/
def BufferCopyAppends : Prop :=
  ∃ t, BufferCopy.loop chain.flatten.length ⟨size, chain, true, result⟩ = some t ∧
    t.result = result ++ chain.flatten

variable {size}

theorem bufferCopyAppends_iff (hsize : size < 2 ^ 64) :
    BufferCopyAppends size chain result ↔ chain.flatten.length = size := by
  have hinv : (⟨size, chain, true, result⟩ : BufferCopy).Inv := ⟨hsize, .inl rfl⟩
  constructor
  · rintro ⟨t, hloop, ht⟩
    have hresult := BufferCopy.loop_result hinv hloop
    have htake : chain.flatten = chain.flatten.take size :=
      List.append_cancel_left (ht.symm.trans hresult)
    have hle : chain.flatten.length ≤ size := by
      rw [htake]
      exact List.length_take_le _ _
    by_contra hne
    -- the size that is left would have to go through all numbers of 64 bits
    have hrounds : chain.flatten.length < 2 ^ 64 - (size - chain.flatten.length) := by omega
    rw [BufferCopy.loop_eq_none hinv (lt_of_le_of_ne hle hne) hrounds] at hloop
    cases hloop
  · intro hlen
    obtain ⟨t, hloop⟩ := BufferCopy.loop_ends hinv hlen hlen.ge
    refine ⟨t, hloop, ?_⟩
    rw [BufferCopy.loop_result hinv hloop]
    exact congrArg _ (List.take_of_length_le hlen.le)

theorem bufferCopyAppends_iff_of_gzip :
    24 < 2 ^ 64 ∧ (BufferCopyAppends 24 [List.replicate 100 (chr 'a')] [] ↔
      [List.replicate 100 (chr 'a')].flatten.length = 24) :=
  ⟨by decide, bufferCopyAppends_iff _ _ (by decide)⟩

theorem not_bufferCopyAppends_of_gzip :
    ¬ BufferCopyAppends 24 [List.replicate 100 (chr 'a')] [] := by
  rintro ⟨t, hloop, ht⟩
  rw [BufferCopy.loop_result ⟨by decide, .inl rfl⟩ hloop] at ht
  exact absurd (congrArg List.length ht) (by decide)

end Appends

end Webclient

end Acqua
