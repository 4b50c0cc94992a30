import Acqua.Asio.ReadUntil
import Acqua.Json.Parser

/-! `client_socket.hpp` and `client_socket_base.hpp`: how a response body of chunks is read. -/

namespace Acqua

namespace Webclient

open Asio
open Json (strtol)

/-- `std::strtol` to the base 16 of the octets before a NUL. -/
def strtol16 (s : List UInt8) : Int :=
  let s := (s.takeWhile fun ch => ch ≠ 0).dropWhile isspace
  let sign := s.take 1
  let s := if sign = octets "-" ∨ sign = octets "+" then s.drop 1 else s
  let s := if (s.take 2 = octets "0x" ∨ s.take 2 = octets "0X") ∧ (s.drop 2).head?.any isxdigit
    then s.drop 2 else s
  let n : Int := strtol (s.takeWhile isxdigit)
  if sign = octets "-" then max (-n) (-2 ^ 63) else min n (2 ^ 63 - 1)

/-- How the handler is called, and what is in the buffer of the result then. -/
inductive BodyEnd
  | callback (result : List UInt8)
  | error (result : List UInt8)
  deriving DecidableEq

/-- `buffer_copy` without a filter: the octets and the rest of the buffer. -/
def bufferCopy (buffer : List UInt8) (size : Nat) : List UInt8 × List UInt8 :=
  (buffer.take size, buffer.drop size)

/-- `on_read_chunked_size` and `on_read_chunked_content` in turn. A round takes a line. -/
def onReadChunked : Nat → List UInt8 → List (List UInt8) → List UInt8 → Option BodyEnd
  | 0, _, _, _ => none
  | fuel + 1, buffer, reads, result =>
    match readUntil buffer reads with
    | none => some (.error result)
    | some (size, buffer, reads) =>
      if size > 2 then
        let chunkSize := (strtol16 (buffer.set (size - 2) 0) % 2 ^ 64).toNat
        let buffer := buffer.drop size
        if chunkSize ≠ 0 then
          match readUntilSize ((chunkSize + 2) % 2 ^ 64) 0 buffer reads with
          | none => some (.error result)
          | some (size, buffer, reads) =>
            let copied := bufferCopy buffer size
            onReadChunked fuel copied.2 reads (result ++ copied.1)
        else some (.callback result)
      else some (.error result)

/-- From the end of the headers on, where the buffer has what was read beyond them. -/
def readChunked (buffer : List UInt8) (reads : List (List UInt8)) : Option BodyEnd :=
  onReadChunked (buffer.length + reads.flatten.length + 1) buffer reads []

/-- A chunk with its size line. A chunk is in memory at once, with its line end. -/
structure Chunk where
  line : List UInt8
  data : List UInt8
  digits : ∀ ch ∈ line, isxdigit ch = true
  size : strtol line = data.length
  nonempty : data ≠ []
  fits : data.length + 2 < 2 ^ 63

def Chunk.encode (c : Chunk) : List UInt8 := c.line ++ crlf ++ c.data ++ crlf

/-- The last line has one zero or more. -/
def lastLine (n : Nat) : List UInt8 := List.replicate (n + 1) (chr '0') ++ crlf

theorem isxdigit_facts (ch : UInt8) (h : isxdigit ch = true) :
    ch ≠ 0 ∧ isspace ch = false ∧ ch ≠ chr '-' ∧ ch ≠ chr '+' ∧ ch ≠ chr 'x' ∧ ch ≠ chr 'X' ∧
      ch ≠ chr '\r' := by
  revert ch
  refine octet_forall ?_
  decide +kernel

theorem strtol16_line {line : List UInt8} (hdigits : ∀ ch ∈ line, isxdigit ch = true)
    (hlt : strtol line < 2 ^ 63) (tail : List UInt8) :
    strtol16 ((line ++ crlf ++ tail).set line.length 0) = strtol line := by
  have hset : (line ++ crlf ++ tail).set line.length 0 = line ++ 0 :: (crlf.drop 1 ++ tail) := by
    rw [List.append_assoc, List.set_append_right _ _ (Nat.le_refl _), Nat.sub_self]
    rfl
  have htake : (line ++ 0 :: (crlf.drop 1 ++ tail)).takeWhile (fun ch => decide (ch ≠ 0)) = line := by
    rw [List.takeWhile_append_of_pos fun ch hch => by simp [(isxdigit_facts ch (hdigits ch hch)).1]]
    simp
  have hspace : line.dropWhile isspace = line := by
    cases line with
    | nil => rfl
    | cons a line =>
      rw [List.dropWhile_cons_of_neg]
      simp [(isxdigit_facts a (hdigits a (by simp))).2.1]
  have hsign : line.take 1 ≠ octets "-" ∧ line.take 1 ≠ octets "+" := by
    cases line with
    | nil => exact ⟨by decide, by decide⟩
    | cons a line =>
      have ha := isxdigit_facts a (hdigits a (by simp))
      exact ⟨fun he => ha.2.2.1 (List.cons.inj he).1, fun he => ha.2.2.2.1 (List.cons.inj he).1⟩
  have hhead : line.take 2 ≠ octets "0x" ∧ line.take 2 ≠ octets "0X" := by
    match line with
    | [] => exact ⟨by decide, by decide⟩
    | [a] => exact ⟨by simp [octets], by simp [octets]⟩
    | a :: b :: line =>
      have hb := isxdigit_facts b (hdigits b (by simp))
      exact ⟨fun he => hb.2.2.2.2.1 (List.cons.inj (List.cons.inj he).2).1,
        fun he => hb.2.2.2.2.2.1 (List.cons.inj (List.cons.inj he).2).1⟩
  have hall : line.takeWhile isxdigit = line := List.takeWhile_eq_self_iff.mpr hdigits
  rw [hset, strtol16, htake, hspace]
  simp only [hsign.1, hsign.2, hhead.1, hhead.2, or_self, false_and, if_false, hall]
  omega

theorem Chunk.line_ne_nil (c : Chunk) : c.line ≠ [] := by
  intro hnil
  have hsize := c.size
  rw [hnil] at hsize
  exact c.nonempty (List.length_eq_zero_iff.mp hsize.symm)

theorem not_mem_of_digits {line : List UInt8} (h : ∀ ch ∈ line, isxdigit ch = true) :
    chr '\r' ∉ line :=
  fun hm => (isxdigit_facts _ (h _ hm)).2.2.2.2.2.2 rfl

theorem onReadChunked_chunk (c : Chunk) {tail : List UInt8} {buffer : List UInt8}
    {reads : List (List UInt8)} (h : buffer ++ reads.flatten = c.encode ++ tail) (fuel : Nat)
    (result : List UInt8) :
    ∃ buffer' reads', buffer' ++ reads'.flatten = tail ∧
      onReadChunked (fuel + 1) buffer reads result =
        onReadChunked fuel buffer' reads' (result ++ (c.data ++ crlf)) := by
  have hline : buffer ++ reads.flatten = c.line ++ crlf ++ (c.data ++ crlf ++ tail) := by
    rw [h, Chunk.encode]
    simp only [List.append_assoc]
  have hfits := c.fits
  have hpos : 0 < c.data.length := List.length_pos_of_ne_nil c.nonempty
  have hcrlf : (c.data ++ crlf).length = c.data.length + 2 := List.length_append
  obtain ⟨buffer₁, reads₁, hread, hrest⟩ := readUntil_line (not_mem_of_digits c.digits) hline
  have hcount : 0 + (c.data.length + 2) ≤ (buffer₁ ++ reads₁.flatten).length := by
    rw [hrest, List.length_append, hcrlf]
    omega
  obtain ⟨buffer₂, reads₂, hsized, hle, hsame⟩ := readUntilSize_spec (Nat.zero_le _) hcount
  obtain ⟨buffer₃, rfl⟩ : c.data ++ crlf <+: buffer₂ := by
    have hp : buffer₂ <+: c.data ++ crlf ++ tail := ⟨_, hsame.trans hrest⟩
    refine List.prefix_of_prefix_length_le (List.prefix_append _ _) hp ?_
    rw [hcrlf]
    omega
  have hnext : buffer₃ ++ reads₂.flatten = tail := by
    have heq := hsame.trans hrest
    rw [List.append_assoc] at heq
    exact List.append_cancel_left heq
  refine ⟨buffer₃, reads₂, hnext, ?_⟩
  have hlong : c.line.length + 2 > 2 :=
    Nat.lt_add_of_pos_left (List.length_pos_of_ne_nil c.line_ne_nil)
  have hset : (strtol16 ((c.line ++ crlf ++ buffer₁).set (c.line.length + 2 - 2) 0) % 2 ^ 64).toNat =
      c.data.length := by
    rw [Nat.add_sub_cancel, strtol16_line c.digits (by rw [c.size]; omega), c.size]
    omega
  have hdrop : (c.line ++ crlf ++ buffer₁).drop (c.line.length + 2) = buffer₁ :=
    List.drop_left' List.length_append
  have hmod : (c.data.length + 2) % 2 ^ 64 = c.data.length + 2 := Nat.mod_eq_of_lt (by omega)
  rw [Nat.zero_add] at hsized
  have htake : (c.data ++ crlf ++ buffer₃).take (c.data.length + 2) = c.data ++ crlf :=
    List.take_left' hcrlf
  have hdrop' : (c.data ++ crlf ++ buffer₃).drop (c.data.length + 2) = buffer₃ :=
    List.drop_left' hcrlf
  simp only [onReadChunked, hread, if_pos hlong, hset, hdrop, if_pos hpos.ne', hmod, hsized,
    bufferCopy, htake, hdrop']

theorem strtol_replicate_zero (n : Nat) : strtol (List.replicate n (chr '0')) = 0 := by
  unfold Json.strtol
  induction n with
  | zero => rfl
  | succ n ih => exact ih

theorem onReadChunked_last (n : Nat) {tail : List UInt8} {buffer : List UInt8}
    {reads : List (List UInt8)} (h : buffer ++ reads.flatten = lastLine n ++ tail) (fuel : Nat)
    (result : List UInt8) :
    onReadChunked (fuel + 1) buffer reads result = some (.callback result) := by
  have hdigits : ∀ ch ∈ List.replicate (n + 1) (chr '0'), isxdigit ch = true := by
    intro ch hch
    rw [(List.mem_replicate.mp hch).2]
    decide
  obtain ⟨buffer₁, reads₁, hread, -⟩ := readUntil_line (not_mem_of_digits hdigits) h
  rw [List.length_replicate] at hread
  have hset : strtol16 ((List.replicate (n + 1) (chr '0') ++ crlf ++ buffer₁).set (n + 1 + 2 - 2) 0) =
      0 := by
    have hline := strtol16_line hdigits (by rw [strtol_replicate_zero]; decide) buffer₁
    rw [List.length_replicate, strtol_replicate_zero] at hline
    exact hline
  have hlong : n + 1 + 2 > 2 := by omega
  simp only [onReadChunked, hread, if_pos hlong, hset]
  rfl

/-- The body of a response, from its first size line to its last. -/
def encodeBody (chunks : List Chunk) (n : Nat) : List UInt8 :=
  chunks.flatMap Chunk.encode ++ lastLine n

theorem onReadChunked_body {chunks : List Chunk} {n fuel : Nat} (hfuel : chunks.length < fuel)
    {tail buffer : List UInt8} {reads : List (List UInt8)}
    (h : buffer ++ reads.flatten = encodeBody chunks n ++ tail) (result : List UInt8) :
    onReadChunked fuel buffer reads result =
      some (.callback (result ++ chunks.flatMap fun c => c.data ++ crlf)) := by
  induction chunks generalizing fuel buffer reads result with
  | nil =>
    obtain ⟨fuel, rfl⟩ := Nat.exists_eq_succ_of_ne_zero (Nat.ne_of_gt hfuel)
    rw [onReadChunked_last n h, List.flatMap_nil, List.append_nil]
  | cons c chunks ih =>
    obtain ⟨fuel, rfl⟩ := Nat.exists_eq_succ_of_ne_zero (Nat.ne_zero_of_lt hfuel)
    have hsplit : buffer ++ reads.flatten = c.encode ++ (encodeBody chunks n ++ tail) := by
      rw [h, encodeBody, encodeBody, List.flatMap_cons]
      simp only [List.append_assoc]
    obtain ⟨buffer', reads', hnext, hstep⟩ := onReadChunked_chunk c hsplit fuel result
    rw [hstep, ih (by simpa using hfuel) hnext, List.flatMap_cons, List.append_assoc]

theorem length_le_encodeBody (chunks : List Chunk) (n : Nat) :
    chunks.length ≤ (encodeBody chunks n).length := by
  unfold encodeBody
  rw [List.length_append]
  refine Nat.le_add_right_of_le ?_
  induction chunks with
  | nil => exact Nat.zero_le _
  | cons c chunks ih =>
    have hpos : 0 < c.encode.length := by
      unfold Chunk.encode
      rw [List.length_append]
      exact Nat.add_pos_right _ (by decide)
    rw [List.flatMap_cons, List.length_append, List.length_cons]
    omega

theorem readChunked_body {chunks : List Chunk} {n : Nat} {tail buffer : List UInt8}
    {reads : List (List UInt8)} (h : buffer ++ reads.flatten = encodeBody chunks n ++ tail) :
    readChunked buffer reads = some (.callback (chunks.flatMap fun c => c.data ++ crlf)) := by
  have hlen := congrArg List.length h
  rw [List.length_append, List.length_append] at hlen
  have hle := length_le_encodeBody chunks n
  exact onReadChunked_body (by omega) h []

/-- However a body comes in, the result is what its chunks hold exactly when it has none. -/
theorem readChunked_eq_data_iff (chunks : List Chunk) (n : Nat) (tail buffer : List UInt8)
    (reads : List (List UInt8)) (h : buffer ++ reads.flatten = encodeBody chunks n ++ tail) :
    readChunked buffer reads = some (.callback (chunks.flatMap Chunk.data)) ↔ chunks = [] := by
  rw [readChunked_body h]
  constructor
  · intro heq
    have hlen := congrArg List.length (BodyEnd.callback.inj (Option.some.inj heq))
    cases chunks with
    | nil => rfl
    | cons c chunks =>
      have hle : (chunks.flatMap Chunk.data).length ≤
          (chunks.flatMap fun c => c.data ++ crlf).length := by
        rw [List.length_flatMap, List.length_flatMap]
        refine List.sum_le_sum fun c _ => ?_
        rw [List.length_append]
        exact Nat.le_add_right _ _
      have hcrlf : crlf.length = 2 := rfl
      rw [List.flatMap_cons, List.flatMap_cons, List.length_append, List.length_append,
        List.length_append] at hlen
      omega
  · rintro rfl
    rfl

def abcChunk : Chunk :=
  ⟨octets "3", octets "abc", List.all_eq_true.mp (by decide), by decide, by decide, by decide⟩

theorem readChunked_eq_data_iff_of_abc :
    ¬ readChunked (octets "3\r\nab") [octets "c\r", octets "\n0\r\n\r\n"] =
      some (.callback ([abcChunk].flatMap Chunk.data)) := by
  rw [readChunked_eq_data_iff [abcChunk] 0 (octets "\r\n") _ _ (by decide)]
  decide

theorem not_readChunked_eq_data_of_abc :
    readChunked (octets "3\r\nabc\r\n0\r\n") [] = some (.callback (octets "abc\r\n")) ∧
      ¬ ∀ (chunks : List Chunk) (buffer : List UInt8) (reads : List (List UInt8)),
        buffer ++ reads.flatten = encodeBody chunks 0 →
          readChunked buffer reads = some (.callback (chunks.flatMap Chunk.data)) := by
  have hbody : octets "3\r\nabc\r\n0\r\n" ++ ([] : List (List UInt8)).flatten =
      encodeBody [abcChunk] 0 ++ [] := by decide
  have hread : readChunked (octets "3\r\nabc\r\n0\r\n") [] =
      some (.callback (octets "abc\r\n")) := readChunked_body hbody
  refine ⟨hread, fun h => ?_⟩
  have heq := h [abcChunk] (octets "3\r\nabc\r\n0\r\n") [] (by decide)
  rw [hread] at heq
  exact absurd heq (by decide)

end Webclient

end Acqua
