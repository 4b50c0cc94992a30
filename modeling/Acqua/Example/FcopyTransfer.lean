import Acqua.Email.ParamMatching
import Acqua.Example.Fcopy
import Acqua.Iostreams.Base64RoundTrip

/-! What the server makes of a file that the client sends, however the stream is cut into reads. -/

namespace Acqua

namespace Fcopy

open Asio

section Parse

/-- All of the first line that does not depend on the file. -/
def fixedPart : List UInt8 := octets " PERM=000 COMPRESS=none CHECKSUM=sha256\r\n"

theorem fixedPart_literal : literal " PERM=" fixedPart =
    some (octets "000" ++ (octets " COMPRESS=" ++ (octets "none" ++ (octets " CHECKSUM=" ++
      (octets "sha256" ++ octets "\r\n"))))) := literal_append " PERM=" _

theorem fixedPart_permission (rest : List UInt8) :
    parseInt (octets "000" ++ (octets " COMPRESS=" ++ rest)) =
      some (0, octets " COMPRESS=" ++ rest) := by
  refine parseInt_digits (by decide) (List.all_eq_true.mp (by decide)) (by decide) ?_
  intro ch hch
  obtain rfl : chr ' ' = ch := Option.some.inj hch
  decide

theorem fixedPart_compress (rest : List UInt8) :
    symbol compress (octets "none" ++ rest) = some (.none, rest) := rfl

theorem fixedPart_checksum (rest : List UInt8) :
    symbol checksum (octets "sha256" ++ rest) = some (.sha256, rest) := rfl

theorem base64Encode_chars (file : List UInt8) :
    ∀ ch ∈ base64Encode file, ch ≠ chr ' ' ∧ ch ≠ chr '\r' := by
  obtain ⟨body, pad, heq, hbody, hpad⟩ := Base64.encode_text base64UrlTraits
    (.make .none (2 ^ 64 - 1) 0) (Base64.make_cnt _ _ _) rfl file
  have htbl : base64UrlTraits.tbl.all fun ch => ch ≠ chr ' ' ∧ ch ≠ chr '\r' := by decide
  intro ch hch
  rw [base64Encode, heq, List.mem_append] at hch
  rcases hch with hch | hch
  · exact of_decide_eq_true (List.all_eq_true.mp htbl ch (hbody ch hch))
  · rw [hpad ch hch]
    decide

theorem parseFileinfo_generate (file : List UInt8) (n : Nat) :
    parseFileinfo ((generateFileinfo file n).drop 4) =
      if n < 2 ^ 32 then some ⟨file, n, 0, .none, .sha256⟩ else none := by
  have htext : (generateFileinfo file n).drop 4 = octets "FILE=" ++ (base64Encode file ++
      (octets " SIZE=" ++ (octets (Nat.repr n) ++ fixedPart))) := by
    have hsplit : generateFileinfo file n = octets "PUT " ++ (octets "FILE=" ++
        (base64Encode file ++ (octets " SIZE=" ++ (octets (Nat.repr n) ++ fixedPart)))) := by
      simp [generateFileinfo, octets, fixedPart]
    rw [hsplit]
    exact List.drop_left' rfl
  have hfile : ∀ ch ∈ base64Encode file, decide (ch ≠ chr ' ') = true := fun ch hch =>
    decide_eq_true (base64Encode_chars file ch hch).1
  have hblank : ∀ ch ∈ (octets " SIZE=" ++ (octets (Nat.repr n) ++ fixedPart)).head?,
      ¬ decide (ch ≠ chr ' ') = true := by
    intro ch hch
    obtain rfl : chr ' ' = ch := Option.some.inj hch
    decide
  have hround : Base64Decoder.decode base64UrlTraits (base64Encode file) = file :=
    base64_round_trip base64UrlTraits .none _ _ file
  have hrest : ∀ ch ∈ fixedPart.head?, ¬ isdigit ch := by
    intro ch hch
    obtain rfl : chr ' ' = ch := Option.some.inj hch
    decide
  rw [htext, parseFileinfo, literal_append]
  simp only [Option.bind_eq_bind, Option.bind_some]
  rw [takeWhile_stop hblank, List.takeWhile_eq_self_iff.mpr hfile, dropWhile_stop hblank,
    List.dropWhile_eq_nil_iff.mpr hfile, List.nil_append, literal_append, Option.bind_some,
    parseUint_repr n hrest]
  split_ifs
  · rw [Option.bind_some, fixedPart_literal, Option.bind_some, fixedPart_permission,
      Option.bind_some, literal_append, Option.bind_some, fixedPart_compress, Option.bind_some,
      literal_append, Option.bind_some, fixedPart_checksum, Option.bind_some, hround]
    rfl
  · rfl

end Parse

section Runs

variable {F : Filters} {behind : Nat → List UInt8} {handler handler' handler'' : Handler}
  {text text' text'' : List UInt8}

/-- However the octets to come are cut into reads, the handler is followed by another one with
these octets left. No more completions are needed than octets are taken. -/
def Leads (F : Filters) (behind : Nat → List UInt8) (handler : Handler) (text : List UInt8)
    (handler' : Handler) (text' : List UInt8) : Prop :=
  ∀ buffer reads, buffer ++ List.flatten reads = text → ∃ k buffer' reads',
    buffer' ++ List.flatten reads' = text' ∧ k + text'.length ≤ text.length ∧
      ∀ fuel, run F behind (fuel + k) handler buffer reads =
        run F behind fuel handler' buffer' reads'

/-- However the octets to come are cut into reads, the next completion ends the connection. -/
def Ends (F : Filters) (handler : Handler) (text : List UInt8) (outcome : Outcome) : Prop :=
  ∀ buffer reads, buffer ++ List.flatten reads = text →
    ∀ mem, step F mem handler buffer reads = .inl outcome

theorem Leads.refl (handler : Handler) (text : List UInt8) :
    Leads F behind handler text handler text :=
  fun buffer reads h => ⟨0, buffer, reads, h, by omega, fun _ => rfl⟩

theorem Leads.trans (h : Leads F behind handler text handler' text')
    (h' : Leads F behind handler' text' handler'' text'') :
    Leads F behind handler text handler'' text'' := by
  intro buffer reads htext
  obtain ⟨k, buffer', reads', htext', hk, hrun⟩ := h buffer reads htext
  obtain ⟨k', buffer'', reads'', htext'', hk', hrun'⟩ := h' buffer' reads' htext'
  refine ⟨k' + k, buffer'', reads'', htext'', by omega, fun fuel => ?_⟩
  rw [← Nat.add_assoc, hrun, hrun']

theorem Leads.of_step (hlt : text'.length < text.length)
    (h : ∀ buffer reads, buffer ++ List.flatten reads = text → ∃ buffer' reads',
      buffer' ++ List.flatten reads' = text' ∧
        ∀ mem, step F mem handler buffer reads = .inr (handler', buffer', reads')) :
    Leads F behind handler text handler' text' := by
  intro buffer reads htext
  obtain ⟨buffer', reads', htext', hstep⟩ := h buffer reads htext
  refine ⟨1, buffer', reads', htext', by omega, fun fuel => ?_⟩
  rw [run, hstep]

theorem Leads.ends {outcome : Outcome} (h : Leads F behind handler text handler' text')
    (hends : Ends F handler' text' outcome) {buffer : List UInt8} {reads : List (List UInt8)}
    (htext : buffer ++ reads.flatten = text) {fuel : Nat} (hfuel : text.length < fuel) :
    run F behind fuel handler buffer reads = some outcome := by
  obtain ⟨k, buffer', reads', htext', hk, hrun⟩ := h buffer reads htext
  obtain ⟨rest, rfl⟩ := Nat.exists_eq_add_of_le (show k + 1 ≤ fuel by omega)
  have hshift : k + 1 + rest = rest + 1 + k := by omega
  rw [hshift, hrun, run, hends buffer' reads' htext']

end Runs

section Transfer

variable {F : Filters} (behind : Nat → List UInt8) {s : Transfer}

theorem exists_infoLine (file : List UInt8) (n : Nat) :
    ∃ line, generateFileinfo file n = line ++ crlf ∧ chr '\r' ∉ line := by
  refine ⟨_, rfl, ?_⟩
  have hfile : chr '\r' ∉ base64Encode file := fun hmem => (base64Encode_chars file _ hmem).2 rfl
  have hsize : chr '\r' ∉ octets (Nat.repr n) := fun hmem =>
    absurd (isdigit_repr n _ hmem) (by decide)
  simp only [List.mem_append, not_or]
  exact ⟨⟨⟨⟨⟨⟨⟨by decide, by decide⟩, hfile⟩, by decide⟩, hsize⟩, by decide⟩, by decide⟩, by decide⟩

/-- The first line. -/
theorem step1_line {file : List UInt8} {n : Nat} {text buffer : List UInt8}
    {reads : List (List UInt8)} (h : buffer ++ reads.flatten = generateFileinfo file n ++ text) :
    ∃ buffer' reads', buffer' ++ List.flatten reads' = text ∧
      ∀ mem, step F mem .onStep1 buffer reads =
        if n < 2 ^ 32 then
          .inr (.onStep2 ⟨⟨file, n, 0, .none, .sha256⟩, [], 0, 0⟩, buffer', reads')
        else .inl (.disconnect "parse_fileinfo") := by
  have hparse := parseFileinfo_generate file n
  obtain ⟨line, hline, hcr⟩ := exists_infoLine file n
  rw [hline] at h hparse
  obtain ⟨buffer', reads', hread, hrest⟩ := readUntil_line hcr h
  refine ⟨buffer', reads', hrest, fun mem => ?_⟩
  have hlong : (line ++ crlf).length = line.length + 2 := List.length_append
  have hfour : ¬ line.length + 2 < 4 := by
    have hlength := congrArg List.length hline
    have hput : (octets "PUT").length = 3 := rfl
    have hfile : (octets " FILE=").length = 6 := rfl
    have hcrlf : crlf.length = 2 := rfl
    simp only [generateFileinfo, List.length_append, hput, hfile, hcrlf] at hlength
    omega
  simp only [step, hread, hfour, if_false, List.take_left' hlong, List.drop_left' hlong, hparse]
  split_ifs <;> rfl

theorem leads_step1 (file : List UInt8) {n : Nat} (hn : n < 2 ^ 32) (text : List UInt8) :
    Leads F behind .onStep1 (generateFileinfo file n ++ text)
      (.onStep2 ⟨⟨file, n, 0, .none, .sha256⟩, [], 0, 0⟩) text := by
  refine Leads.of_step ?_ fun buffer reads h => ?_
  · obtain ⟨line, hline, -⟩ := exists_infoLine file n
    rw [hline]
    simp only [List.length_append]
    have hcrlf : crlf.length = 2 := rfl
    omega
  · obtain ⟨buffer', reads', hrest, hstep⟩ := step1_line (F := F) h
    rw [if_pos hn] at hstep
    exact ⟨buffer', reads', hrest, hstep⟩

/-- The line of a chunk, or of the end. -/
theorem step2_size {n : Nat} (hn : n < 2 ^ 63) (hsize : n ≤ s.info.filesize) {text : List UInt8}
    {buffer : List UInt8} {reads : List (List UInt8)}
    (h : buffer ++ reads.flatten = octets (Nat.repr n) ++ crlf ++ text) :
    ∃ buffer' reads', buffer' ++ List.flatten reads' = text ∧
      ∀ mem, step F mem (.onStep2 s) buffer reads =
        .inr (if n = 0 then .onStep4 { s with
            chunkedSize := n, total := s.total + ((octets (Nat.repr n)).length + 2) }
          else .onStep3 { s with
            chunkedSize := n, total := s.total + ((octets (Nat.repr n)).length + 2) },
          buffer', reads') := by
  have hcr : chr '\r' ∉ octets (Nat.repr n) := fun hmem =>
    absurd (isdigit_repr n _ hmem) (by decide)
  obtain ⟨buffer', reads', hread, hrest⟩ := readUntil_line hcr h
  refine ⟨buffer', reads', hrest, fun mem => ?_⟩
  have hlong : (octets (Nat.repr n) ++ crlf).length = (octets (Nat.repr n)).length + 2 :=
    List.length_append
  have hend : ∀ ch ∈ (crlf ++ (buffer' ++ mem)).head?, ¬ isdigit ch := by
    intro ch hch
    obtain rfl : chr '\r' = ch := Option.some.inj hch
    decide
  have hvalue : (atol (octets (Nat.repr n) ++ crlf ++ buffer' ++ mem) % 2 ^ 64).toNat = n := by
    rw [List.append_assoc, List.append_assoc, atol_size hn hend]
  simp only [step, hread, hvalue, List.drop_left' hlong, gt_iff_lt, not_lt.mpr hsize, if_false]
  split_ifs <;> rfl

theorem leads_end (text : List UInt8) :
    Leads F behind (.onStep2 s) (octets (Nat.repr 0) ++ crlf ++ text)
      (.onStep4 { s with chunkedSize := 0, total := s.total + 3 }) text := by
  refine Leads.of_step ?_ fun buffer reads h => ?_
  · simp only [List.length_append]
    have hcrlf : crlf.length = 2 := rfl
    omega
  · exact step2_size (F := F) (s := s) (by decide) (Nat.zero_le _) h

theorem step3_data {data : List UInt8} (hchunk : s.chunkedSize = data.length)
    (hpassed : F.passed s.info.compress (s.out ++ data.take 65536) ≤
      s.info.filesize) {text : List UInt8}
    {buffer : List UInt8} {reads : List (List UInt8)} (h : buffer ++ reads.flatten = data ++ text) :
    ∃ buffer' reads', buffer' ++ List.flatten reads' = data.drop 65536 ++ text ∧
      ∀ mem, step F mem (.onStep3 s) buffer reads =
        .inr (if data.drop 65536 = [] then .onStep2 { s with
            out := s.out ++ data, chunkedSize := 0, total := s.total + data.length }
          else .onStep3 { s with
            out := s.out ++ data.take 65536
            chunkedSize := (data.drop 65536).length
            total := s.total + (data.take 65536).length },
          buffer', reads') := by
  have hsize : min 65536 s.chunkedSize = (data.take 65536).length := by
    rw [hchunk, List.length_take]
  have hcount : 0 + (data.take 65536).length ≤ (buffer ++ reads.flatten).length := by
    rw [h, List.length_append, List.length_take]
    omega
  obtain ⟨buffer', reads', hread, hle, hsame⟩ := readUntilSize_spec (Nat.zero_le _) hcount
  rw [Nat.zero_add] at hread hle
  have hbytes : buffer' ++ reads'.flatten =
      data.take 65536 ++ (data.drop 65536 ++ text) := by
    rw [hsame, h, ← List.append_assoc, List.take_append_drop]
  obtain ⟨rest, rfl⟩ : data.take 65536 <+: buffer' :=
    List.prefix_of_prefix_length_le (List.prefix_append _ _) ⟨_, hbytes⟩ hle
  rw [List.append_assoc] at hbytes
  refine ⟨rest, reads', List.append_cancel_left hbytes, fun mem => ?_⟩
  have hleft : s.chunkedSize - (data.take 65536).length = (data.drop 65536).length := by
    rw [hchunk, List.length_take, List.length_drop]
    omega
  simp only [step, hsize, hread, List.take_left, List.drop_left, gt_iff_lt, not_lt.mpr hpassed,
    if_false, hleft, List.length_eq_zero_iff]
  split_ifs with hend
  · rw [List.take_of_length_le (List.drop_eq_nil_iff.mp hend), hend]
    rfl
  · rfl

variable (hnone : ∀ text, F.passed .none text ≤ text.length)
include hnone

/-- A chunk is taken in as many reads as it needs. -/
theorem leads_data {data : List UInt8} (hcompress : s.info.compress = .none)
    (hchunk : s.chunkedSize = data.length) (hdata : data ≠ [])
    (hsize : (s.out ++ data).length ≤ s.info.filesize) (text : List UInt8) :
    Leads F behind (.onStep3 s) (data ++ text)
      (.onStep2 { s with
        out := s.out ++ data, chunkedSize := 0, total := s.total + data.length }) text := by
  induction hn : data.length using Nat.strong_induction_on generalizing s data with
  | _ n ih =>
    subst hn
    have hpos := List.length_pos_of_ne_nil hdata
    have hpassed : F.passed s.info.compress (s.out ++ data.take 65536) ≤ s.info.filesize := by
      have hle := hnone (s.out ++ data.take 65536)
      rw [List.length_append, List.length_take] at hle
      rw [List.length_append] at hsize
      rw [hcompress]
      omega
    by_cases hend : data.drop 65536 = []
    · refine Leads.of_step (by rw [List.length_append]; omega) fun buffer reads h => ?_
      obtain ⟨buffer', reads', hrest, hstep⟩ := step3_data hchunk hpassed h
      rw [hend, List.nil_append] at hrest
      rw [if_pos hend] at hstep
      exact ⟨buffer', reads', hrest, hstep⟩
    · have hsplit : s.out ++ data.take 65536 ++ data.drop 65536 = s.out ++ data := by
        rw [List.append_assoc, List.take_append_drop]
      have hlt : (data.drop 65536).length < data.length := by
        rw [List.length_drop]
        omega
      have hfirst : Leads F behind (.onStep3 s) (data ++ text) (.onStep3 { s with
          out := s.out ++ data.take 65536
          chunkedSize := (data.drop 65536).length
          total := s.total + (data.take 65536).length }) (data.drop 65536 ++ text) := by
        refine Leads.of_step (by simp only [List.length_append]; omega) fun buffer reads h => ?_
        obtain ⟨buffer', reads', hrest, hstep⟩ := step3_data hchunk hpassed h
        rw [if_neg hend] at hstep
        exact ⟨buffer', reads', hrest, hstep⟩
      have hnext := ih _ hlt (s := { s with
        out := s.out ++ data.take 65536
        chunkedSize := (data.drop 65536).length
        total := s.total + (data.take 65536).length }) hcompress rfl hend
        (by rw [hsplit]; exact hsize) rfl
      have htotal : s.total + (data.take 65536).length + (data.drop 65536).length =
          s.total + data.length := by
        rw [Nat.add_assoc, ← List.length_append, List.take_append_drop]
      rw [hsplit, htotal] at hnext
      exact hfirst.trans hnext

theorem leads_chunk {data : List UInt8} (hcompress : s.info.compress = .none) (hdata : data ≠ [])
    (hsize : (s.out ++ data).length ≤ s.info.filesize) (hlarge : s.info.filesize < 2 ^ 63)
    (text : List UInt8) :
    Leads F behind (.onStep2 s) (chunk data ++ text)
      (.onStep2 { s with
        out := s.out ++ data, chunkedSize := 0, total := s.total + (chunk data).length }) text := by
  have hle : data.length ≤ s.info.filesize := by
    rw [List.length_append] at hsize
    omega
  have hpos : data.length ≠ 0 := fun h => hdata (List.length_eq_zero_iff.mp h)
  have hline : Leads F behind (.onStep2 s) (chunk data ++ text) (.onStep3 { s with
      chunkedSize := data.length
      total := s.total + ((octets (Nat.repr data.length)).length + 2) }) (data ++ text) := by
    refine Leads.of_step ?_ fun buffer reads h => ?_
    · simp only [chunk, List.length_append]
      have hcrlf : (octets "\r\n").length = 2 := rfl
      omega
    · have hsplit : chunk data ++ text =
          octets (Nat.repr data.length) ++ crlf ++ (data ++ text) := by
        rw [chunk, List.append_assoc]
        rfl
      rw [hsplit] at h
      obtain ⟨buffer', reads', hrest, hstep⟩ := step2_size (F := F) (s := s) (by omega) hle h
      rw [if_neg hpos] at hstep
      exact ⟨buffer', reads', hrest, hstep⟩
  have hnext := leads_data behind hnone (s := { s with
    chunkedSize := data.length
    total := s.total + ((octets (Nat.repr data.length)).length + 2) })
    hcompress rfl hdata hsize text
  have htotal : s.total + ((octets (Nat.repr data.length)).length + 2) + data.length =
      s.total + (chunk data).length := by
    rw [chunk, List.length_append, List.length_append, Nat.add_assoc]
    rfl
  rw [htotal] at hnext
  exact hline.trans hnext

theorem leads_chunks {datas : List (List UInt8)} (hcompress : s.info.compress = .none)
    (hchunk : s.chunkedSize = 0) (hdatas : ∀ data ∈ datas, data ≠ [])
    (hsize : (s.out ++ datas.flatten).length ≤ s.info.filesize)
    (hlarge : s.info.filesize < 2 ^ 63) (text : List UInt8) :
    Leads F behind (.onStep2 s) (datas.flatMap chunk ++ text)
      (.onStep2 { s with
        out := s.out ++ datas.flatten, total := s.total + (datas.flatMap chunk).length })
      text := by
  induction datas generalizing s with
  | nil =>
    have hsame : { s with
        out := s.out ++ ([] : List (List UInt8)).flatten
        total := s.total + (([] : List (List UInt8)).flatMap chunk).length } = s := by
      simp
    rw [hsame]
    exact Leads.refl _ _
  | cons data datas ih =>
    obtain ⟨hdata, hrest⟩ := List.forall_mem_cons.mp hdatas
    rw [List.flatten_cons, ← List.append_assoc] at hsize
    have hfirst := leads_chunk behind hnone hcompress hdata
      (le_trans (by simp only [List.length_append]; omega) hsize) hlarge
      (datas.flatMap chunk ++ text)
    have hnext := ih (s := { s with
      out := s.out ++ data, chunkedSize := 0, total := s.total + (chunk data).length })
      hcompress rfl hrest hsize hlarge
    have htext : (data :: datas).flatMap chunk ++ text =
        chunk data ++ (datas.flatMap chunk ++ text) := by simp
    have hout : s.out ++ (data :: datas).flatten = s.out ++ data ++ datas.flatten := by simp
    have htotal : s.total + ((data :: datas).flatMap chunk).length =
        s.total + (chunk data).length + (datas.flatMap chunk).length := by
      rw [List.flatMap_cons, List.length_append, Nat.add_assoc]
    rw [htext, hout, htotal, hchunk]
    exact hfirst.trans hnext

end Transfer

section Serve

theorem findCrlf_isSome (sum : List UInt8) : ∃ n, findCrlf (sum ++ crlf) = some n := by
  induction sum with
  | nil => exact ⟨2, rfl⟩
  | cons a sum ih =>
    obtain ⟨n, hn⟩ := ih
    obtain ⟨b, rest, hrest⟩ : ∃ b rest, sum ++ crlf = b :: rest :=
      List.exists_cons_of_ne_nil (by simp [crlf, octets])
    rw [hrest] at hn
    rw [List.cons_append, hrest, findCrlf_cons_cons]
    split_ifs
    · exact ⟨2, rfl⟩
    · exact ⟨n + 1, by rw [hn, Option.map_some]⟩

theorem blocks_spec (content : List UInt8) :
    (blocks content).flatten = content ∧ ∀ block ∈ blocks content, block ≠ [] := by
  induction content using blocks.induct with
  | case1 => simp [blocks]
  | case2 content hne ih =>
    obtain ⟨hflatten, hblocks⟩ := ih
    rw [blocks, if_neg hne]
    refine ⟨by rw [List.flatten_cons, hflatten, List.take_append_drop],
      List.forall_mem_cons.mpr ⟨?_, hblocks⟩⟩
    simpa [List.take_eq_nil_iff] using hne

/-- Whatever is sent as a checksum is taken for the right one. -/
theorem verifyCheck_true (checksum : ChecksumType) (s verify : List UInt8) :
    verifyCheck checksum s verify = true := by
  cases checksum <;> simp [verifyCheck]

variable {F : Filters} {s : Transfer}

theorem ends_step4 (hdecompress : F.decompress s.info.compress s.out = s.out)
    (hsize : s.out.length ≤ s.info.filesize) {sum : List UInt8} {n : Nat}
    (hn : findCrlf (sum ++ crlf) = some n) :
    Ends F (.onStep4 s) (sum ++ crlf) (.verified s.info s.out (s.total + n) true) := by
  intro buffer reads h mem
  rw [← h] at hn
  obtain ⟨buffer', reads', hread, -, -⟩ := readUntil_bytes hn
  simp only [step, hread, hdecompress, gt_iff_lt, not_lt.mpr hsize, if_false, verifyCheck_true]

/-- How much of a transfer is counted: up to the first end of a line in the checksum or behind
it. -/
def countedSize (content sum : List UInt8) : Nat :=
  ((blocks content).flatMap chunk).length + 3 + (findCrlf (sum ++ crlf)).getD 0

/-- A file is stored as it is and under its name, unless it is too large for an `unsigned`. The
checksum is of no account. -/
theorem serve_client (hdecompress : ∀ text, F.decompress .none text = text)
    (hpassed : ∀ text, F.passed .none text ≤ text.length) (file content sum : List UInt8)
    (behind : Nat → List UInt8) {reads : List (List UInt8)}
    (hreads : reads.flatten = client file content sum) :
    serve F behind reads = some (if content.length < 2 ^ 32 then
      .verified ⟨file, content.length, 0, .none, .sha256⟩ content (countedSize content sum) true
      else .disconnect "parse_fileinfo") := by
  have hclient : client file content sum = generateFileinfo file content.length ++
      ((blocks content).flatMap chunk ++ (octets (Nat.repr 0) ++ crlf ++ (sum ++ crlf))) := by
    simp only [client, List.append_assoc]
    rfl
  rw [hclient] at hreads
  have hfuel : (generateFileinfo file content.length ++
      ((blocks content).flatMap chunk ++ (octets (Nat.repr 0) ++ crlf ++ (sum ++ crlf)))).length <
        reads.flatten.length + 1 := by
    rw [hreads]
    exact Nat.lt_succ_self _
  split_ifs with hlarge
  · obtain ⟨hflatten, hblocks⟩ := blocks_spec content
    obtain ⟨n, hn⟩ := findCrlf_isSome sum
    have hline := leads_step1 (F := F) behind file hlarge
      ((blocks content).flatMap chunk ++ (octets (Nat.repr 0) ++ crlf ++ (sum ++ crlf)))
    have hchunks := leads_chunks behind hpassed
      (s := ⟨⟨file, content.length, 0, .none, .sha256⟩, [], 0, 0⟩) rfl rfl hblocks
      (by rw [hflatten]; exact le_rfl) (by dsimp only; omega)
      (octets (Nat.repr 0) ++ crlf ++ (sum ++ crlf))
    rw [hflatten, List.nil_append, Nat.zero_add] at hchunks
    have hend := leads_end (F := F) behind
      (s := ⟨⟨file, content.length, 0, .none, .sha256⟩, content, 0,
        ((blocks content).flatMap chunk).length⟩) (sum ++ crlf)
    have hlast := ends_step4 (F := F)
      (s := ⟨⟨file, content.length, 0, .none, .sha256⟩, content, 0,
        ((blocks content).flatMap chunk).length + 3⟩) (hdecompress content) le_rfl hn
    rw [countedSize, hn, Option.getD_some]
    exact ((hline.trans hchunks).trans hend).ends hlast hreads hfuel
  · obtain ⟨buffer', reads', -, hstep⟩ := @step1_line F file content.length _ [] reads hreads
    rw [serve, run, hstep _, if_neg hlarge]

/-- Without anything between `out_` and the file. -/
def plainFilters : Filters := ⟨fun _ text => text, fun _ text => text.length, fun _ _ => []⟩

theorem serve_hello :
    serve plainFilters (fun _ => [])
        [octets "PUT FILE=YQ SIZE=5 PERM=000 COMPRESS=none CHECKSUM=sha256\r",
          octets "\n5\r\nhel", octets "lo0\r\n\r\n"] =
      some (.verified ⟨octets "a", 5, 0, .none, .sha256⟩ (octets "hello") 13 true) := by
  have hblocks : blocks (octets "hello") = [octets "hello"] := by
    rw [blocks, if_neg (by decide), List.take_of_length_le (by decide),
      List.drop_eq_nil_of_le (by decide), blocks, if_pos rfl]
  have hserve := @serve_client plainFilters (fun _ => rfl) (fun _ => le_rfl) (octets "a")
    (octets "hello") [] (fun _ => [])
    [octets "PUT FILE=YQ SIZE=5 PERM=000 COMPRESS=none CHECKSUM=sha256\r",
      octets "\n5\r\nhel", octets "lo0\r\n\r\n"] (by rw [client, hblocks]; decide)
  rw [countedSize, hblocks] at hserve
  exact hserve

end Serve

section Bounds

variable {F : Filters} {mem : List UInt8} {handler handler' : Handler} {buffer buffer' : List UInt8}
  {reads reads' : List (List UInt8)} {all : List UInt8}

theorem readUntil_spec {n : Nat} (h : readUntil buffer reads = some (n, buffer', reads')) :
    2 ≤ n ∧ n ≤ buffer'.length ∧ buffer' ++ reads'.flatten = buffer ++ reads.flatten := by
  cases hfind : findCrlf (buffer ++ reads.flatten) with
  | none => rw [readUntil_bytes_none hfind] at h; cases h
  | some m =>
    obtain ⟨b, r, hread, hle, hbytes⟩ := readUntil_bytes hfind
    obtain ⟨rfl, rfl, rfl⟩ : m = n ∧ b = buffer' ∧ r = reads' := by
      simpa only [Option.some.injEq, Prod.mk.injEq] using hread.symm.trans h
    exact ⟨(findCrlf_le hfind).2, hle, hbytes⟩

theorem readUntilSize_bytes {size n : Nat}
    (h : readUntilSize size 0 buffer reads = some (n, buffer', reads')) :
    n = size ∧ n ≤ buffer'.length ∧ buffer' ++ reads'.flatten = buffer ++ reads.flatten := by
  obtain ⟨k, hk, heq⟩ := (readUntilSize_eq_some (Nat.zero_le buffer.length) _).mp h
  obtain ⟨rfl, rfl, rfl⟩ := by simpa only [Nat.zero_add, Prod.mk.injEq] using heq
  have henough := hk.enough
  rw [Nat.zero_add] at henough
  refine ⟨rfl, henough, ?_⟩
  rw [arrived, List.append_assoc, ← List.flatten_append, List.take_append_drop]

def Handler.transfer : Handler → Option Transfer
  | .onStep1 => none
  | .onStep2 s => some s
  | .onStep3 s => some s
  | .onStep4 s => some s

/-- What holds of a transfer when `consumed` was received of it. -/
structure Transfer.Bounded (s : Transfer) (consumed : List UInt8) : Prop where
  filesize : s.info.filesize < 2 ^ 32
  out : s.out.Sublist consumed
  total : s.total ≤ consumed.length

/-- What holds of a connection before each completion. A chunk that is waited for is not empty. -/
structure Handler.Bounded (handler : Handler) (consumed : List UInt8) : Prop where
  transfer : ∀ s ∈ handler.transfer, s.Bounded consumed
  pending : ∀ s, handler = .onStep3 s → s.chunkedSize ≠ 0

theorem filesize_of_parseFileinfo {text : List UInt8} {info : Fileinfo}
    (h : parseFileinfo text = some info) : info.filesize < 2 ^ 32 := by
  simp only [parseFileinfo, Option.bind_eq_bind, Option.bind_eq_some_iff] at h
  obtain ⟨_, -, _, -, size, hsize, _, -, _, -, _, -, _, -, _, -, _, -, _, -, hinfo⟩ := h
  rw [← Option.some.inj hinfo]
  rw [parseUint] at hsize
  split_ifs at hsize with hdigits
  rw [← Option.some.inj hsize]
  exact hdigits.2

theorem taken_spec {n : Nat} (hpos : 0 < n) (hle : n ≤ buffer'.length)
    (hbytes : buffer' ++ reads'.flatten = buffer ++ reads.flatten) :
    buffer'.take n ≠ [] ∧ (buffer'.take n).length = n ∧
      buffer'.take n ++ (buffer'.drop n ++ reads'.flatten) = buffer ++ reads.flatten := by
  have hlength : (buffer'.take n).length = n := List.length_take_of_le hle
  refine ⟨fun hnil => ?_, hlength, ?_⟩
  · rw [hnil] at hlength
    exact absurd hlength hpos.ne
  · rw [← List.append_assoc, List.take_append_drop, hbytes]

theorem Transfer.Bounded.received {s : Transfer} {consumed : List UInt8} (h : s.Bounded consumed)
    {out taken : List UInt8} (hout : out.Sublist taken) (chunkedSize : Nat) :
    Transfer.Bounded ⟨s.info, s.out ++ out, chunkedSize, s.total + taken.length⟩
      (consumed ++ taken) :=
  ⟨h.filesize, h.out.append hout, by
    rw [List.length_append]
    exact Nat.add_le_add_right h.total _⟩

/-- A completion takes octets off what is still to come. -/
theorem Handler.Bounded.step {consumed : List UInt8} (h : handler.Bounded consumed)
    (hstep : Fcopy.step F mem handler buffer reads = .inr (handler', buffer', reads')) :
    ∃ taken, taken ≠ [] ∧ taken ++ (buffer' ++ reads'.flatten) = buffer ++ reads.flatten ∧
      handler'.Bounded (consumed ++ taken) := by
  cases handler with
  | onStep1 =>
    simp only [Fcopy.step] at hstep
    split at hstep
    next => cases hstep
    next size b r hread =>
      obtain ⟨hpos, hle, hbytes⟩ := readUntil_spec hread
      obtain ⟨hne, -, htaken⟩ := taken_spec (by omega) hle hbytes
      split at hstep
      next => cases hstep
      next info hinfo =>
        cases hstep
        refine ⟨_, hne, htaken, ?_, fun s heq => by cases heq⟩
        rintro s hs
        obtain rfl := Option.some.inj hs
        exact ⟨filesize_of_parseFileinfo hinfo, List.nil_sublist _, Nat.zero_le _⟩
  | onStep2 s =>
    have hbounded := h.transfer s rfl
    simp only [Fcopy.step] at hstep
    split at hstep
    next => cases hstep
    next size b r hread =>
      obtain ⟨hpos, hle, hbytes⟩ := readUntil_spec hread
      obtain ⟨hne, hlength, htaken⟩ := taken_spec (by omega) hle hbytes
      have hnext := hbounded.received (List.nil_sublist (b.take size))
        (atol (b ++ mem) % 2 ^ 64).toNat
      rw [List.append_nil, hlength] at hnext
      split_ifs at hstep with hlong hzero
      · cases hstep
        refine ⟨_, hne, htaken, fun s' hs => ?_, fun s' heq => by cases heq⟩
        obtain rfl := Option.some.inj hs
        exact hnext
      · cases hstep
        refine ⟨_, hne, htaken, fun s' hs => ?_, fun s' heq => ?_⟩
        · obtain rfl := Option.some.inj hs
          exact hnext
        · obtain rfl := Handler.onStep3.inj heq
          exact hzero
  | onStep3 s =>
    have hbounded := h.transfer s rfl
    have hpending := h.pending s rfl
    simp only [Fcopy.step] at hstep
    split at hstep
    next => cases hstep
    next size b r hread =>
      obtain ⟨hpos, hle, hbytes⟩ := readUntilSize_bytes hread
      obtain ⟨hne, hlength, htaken⟩ := taken_spec (by omega) hle hbytes
      have hnext := hbounded.received (List.Sublist.refl (b.take size)) (s.chunkedSize - size)
      rw [hlength] at hnext
      split_ifs at hstep with hlong hzero
      · cases hstep
        refine ⟨_, hne, htaken, fun s' hs => ?_, fun s' heq => by cases heq⟩
        obtain rfl := Option.some.inj hs
        exact hnext
      · cases hstep
        refine ⟨_, hne, htaken, fun s' hs => ?_, fun s' heq => ?_⟩
        · obtain rfl := Option.some.inj hs
          exact hnext
        · obtain rfl := Handler.onStep3.inj heq
          exact hzero
  | onStep4 s =>
    simp only [Fcopy.step] at hstep
    split at hstep
    next => cases hstep
    next => split_ifs at hstep

/-- What is said of a transfer that was verified. -/
structure Accepted (F : Filters) (all : List UInt8) (info : Fileinfo) (stored : List UInt8)
    (total : Nat) : Prop where
  filesize : info.filesize < 2 ^ 32
  stored_le : stored.length ≤ info.filesize
  received : ∃ out, out.Sublist all ∧ stored = F.decompress info.compress out
  total_le : total ≤ all.length

theorem Handler.Bounded.ends {consumed : List UInt8} (h : handler.Bounded consumed)
    {info : Fileinfo} {stored : List UInt8} {total : Nat} {verify : Bool}
    (hstep : Fcopy.step F mem handler buffer reads = .inl (.verified info stored total verify)) :
    Accepted F (consumed ++ (buffer ++ reads.flatten)) info stored total ∧ verify = true := by
  cases handler with
  | onStep1 =>
    simp only [Fcopy.step] at hstep
    split at hstep
    next => cases hstep
    next => split at hstep <;> cases hstep
  | onStep2 s =>
    simp only [Fcopy.step] at hstep
    split at hstep
    next => cases hstep
    next =>
      split_ifs at hstep
      cases hstep
  | onStep3 s =>
    simp only [Fcopy.step] at hstep
    split at hstep
    next => cases hstep
    next =>
      split_ifs at hstep
      cases hstep
  | onStep4 s =>
    obtain ⟨hfilesize, hout, htotal⟩ := h.transfer s rfl
    simp only [Fcopy.step, verifyCheck_true] at hstep
    split at hstep
    next => cases hstep
    next size b r hread =>
      obtain ⟨-, hle, hbytes⟩ := readUntil_spec hread
      split_ifs at hstep with hlong
      · cases hstep
      · cases hstep
        refine ⟨⟨hfilesize, not_lt.mp hlong,
          ⟨_, hout.trans (List.sublist_append_left _ _), rfl⟩, ?_⟩, rfl⟩
        rw [← hbytes]
        simp only [List.length_append]
        omega

theorem Handler.Bounded.run {consumed : List UInt8} (h : handler.Bounded consumed)
    (behind : Nat → List UInt8) {fuel : Nat} (hfuel : (buffer ++ reads.flatten).length < fuel) :
    ∃ outcome, Fcopy.run F behind fuel handler buffer reads = some outcome ∧
      ∀ info stored total verify, outcome = .verified info stored total verify →
        Accepted F (consumed ++ (buffer ++ reads.flatten)) info stored total ∧ verify = true := by
  induction fuel generalizing handler buffer reads consumed with
  | zero => exact absurd hfuel (Nat.not_lt_zero _)
  | succ fuel ih =>
    rw [Fcopy.run]
    rcases hstep : Fcopy.step F (behind fuel) handler buffer reads with
      outcome | ⟨handler', buffer', reads'⟩
    · refine ⟨outcome, rfl, ?_⟩
      rintro info stored total verify rfl
      exact h.ends hstep
    · obtain ⟨taken, hne, htaken, hnext⟩ := h.step hstep
      have hpos := List.length_pos_of_ne_nil hne
      have hless : (buffer' ++ reads'.flatten).length < fuel := by
        rw [← htaken, List.length_append] at hfuel
        omega
      have hrest := ih hnext hless
      rwa [List.append_assoc, htaken] at hrest

/-- Whatever a client sends, and whatever the memory behind the buffer holds, a connection ends, and
no more is stored than was announced. What is stored comes of octets that were received, in their
order. -/
theorem serve_bounded (F : Filters) (behind : Nat → List UInt8) (reads : List (List UInt8)) :
    ∃ outcome, serve F behind reads = some outcome ∧
      ∀ info stored total verify, outcome = .verified info stored total verify →
        Accepted F reads.flatten info stored total ∧ verify = true := by
  have hinit : Handler.onStep1.Bounded [] :=
    ⟨fun s hs => absurd hs (Option.not_mem_none s), fun s heq => by cases heq⟩
  exact hinit.run behind (Nat.lt_succ_self _)

end Bounds

end Fcopy

end Acqua
