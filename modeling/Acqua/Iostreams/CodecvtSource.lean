import Acqua.Iostreams.CodecvtSink
import Acqua.Library.PieceFill

/-! `basic_istream_codecvt` of `istream_codecvt.hpp`: a source that converts one code point after
the other. -/

namespace Acqua

/-- `utf_traits` of a character type, and what the end of a stream of it is read as where
`static_cast<int>` does not make it `EOF`. An illegal or incomplete character is not decoded. -/
structure UtfTraits (α : Type*) where
  trailLength : α → Int
  decode : List α → Option Char
  encode : Char → List α
  atEnd : Option α
  encode_eq : ∀ c, ∃ lead trail, encode c = lead :: trail ∧ trailLength lead = trail.length
  decode_encode : ∀ c, decode (encode c) = some c
  decode_atEnd : ∀ ch, atEnd = some ch → trailLength ch ≤ 0 ∧ ∃ c, decode [ch] = some c

namespace UtfTraits

variable {α β : Type*} (source : UtfTraits α) (target : UtfTraits β)

/-- `sbumpc`. -/
def sbumpc : List α → Option (α × List α)
  | [] => source.atEnd.map fun ch => (ch, [])
  | ch :: text => some (ch, text)

/-- The inner loop of `read`. -/
def readTrail : Nat → List α → Option (List α × List α)
  | 0, text => some ([], text)
  | width + 1, text =>
    match source.sbumpc text with
    | none => none
    | some (ch, text) => (readTrail width text).map fun r => (ch :: r.1, r.2)

theorem length_sbumpc_le {text rest : List α} {ch : α}
    (h : source.sbumpc text = some (ch, rest)) : rest.length ≤ text.length := by
  cases text with
  | nil =>
    obtain ⟨v, -, hv⟩ := Option.map_eq_some_iff.mp h
    rw [← (Prod.mk.inj hv).2]
  | cons ch' text =>
    rw [← (Prod.mk.inj (Option.some.inj h)).2]
    exact Nat.le_succ text.length

theorem length_readTrail_le {width : Nat} {text trail rest : List α}
    (h : source.readTrail width text = some (trail, rest)) : rest.length ≤ text.length := by
  induction width generalizing text trail with
  | zero => rw [← (Prod.mk.inj (Option.some.inj h)).2]
  | succ width ih =>
    rw [readTrail] at h
    split at h
    next => exact absurd h (Option.some_ne_none _).symm
    next ch text' hbump =>
      obtain ⟨r, hr, heq⟩ := Option.map_eq_some_iff.mp h
      obtain ⟨-, rfl⟩ := Prod.mk.inj heq
      exact (ih hr).trans (source.length_sbumpc_le hbump)

theorem encode_ne_nil (c : Char) : target.encode c ≠ [] := by
  obtain ⟨lead, trail, h, -⟩ := target.encode_eq c
  rw [h]
  exact List.cons_ne_nil lead trail

/-- At the end of the stream a turn of the loop decodes a character that is not there. -/
theorem exists_decode_atEnd {ch : α} {text trail rest : List α}
    (hbump : source.sbumpc [] = some (ch, text))
    (htrail : source.readTrail (source.trailLength ch).toNat text = some (trail, rest)) :
    rest = [] ∧ trail = [] ∧ ∃ c, source.decode [ch] = some c := by
  obtain ⟨v, hv, heq⟩ := Option.map_eq_some_iff.mp hbump
  obtain ⟨rfl, rfl⟩ := Prod.mk.inj heq
  obtain ⟨hlength, hdecode⟩ := source.decode_atEnd v hv
  rw [Int.toNat_of_nonpos hlength] at htrail
  obtain ⟨rfl, rfl⟩ := Prod.mk.inj (Option.some.inj htrail)
  exact ⟨rfl, rfl, hdecode⟩

theorem length_turn_lt {ch : α} {text text' trail rest : List α}
    (hbump : source.sbumpc text = some (ch, text'))
    (htrail : source.readTrail (source.trailLength ch).toNat text' = some (trail, rest))
    (htext : text ≠ []) : rest.length < text.length := by
  obtain ⟨ch', text, rfl⟩ := List.exists_cons_of_ne_nil htext
  obtain ⟨rfl, rfl⟩ := Prod.mk.inj (Option.some.inj hbump)
  exact Nat.lt_succ_of_le (source.length_readTrail_le htrail)

/-- The loop of `read` with `i` characters written: what it writes, what `read` returns and what
is left of the stream. An end inside a character returns `i` as it is. -/
def readLoop (n i : Nat) (text : List α) : List β × Int × List α :=
  if i < n then
    match _hbump : source.sbumpc text with
    | none => ([], if 0 < i then i else -1, text)
    | some (ch, text') =>
      match _htrail : source.readTrail (source.trailLength ch).toNat text' with
      | none => ([], i, [])
      | some (trail, rest) =>
        match _hdecode : source.decode (ch :: trail) with
        | none => readLoop n i rest
        | some cp =>
          let t := target.encode cp
          let r := readLoop n (i + t.length) rest
          (t ++ r.1, r.2)
  else ([], if 0 < i then i else -1, text)
termination_by (n - i) + text.length
decreasing_by
  · refine Nat.add_lt_add_left (source.length_turn_lt _hbump _htrail ?_) _
    rintro rfl
    obtain ⟨-, rfl, c, hc⟩ := source.exists_decode_atEnd _hbump _htrail
    exact Option.some_ne_none c (hc.symm.trans _hdecode)
  · have hbump := source.length_sbumpc_le _hbump
    have htrail := source.length_readTrail_le _htrail
    have hpos := List.length_pos_iff.mpr (target.encode_ne_nil cp)
    omega

def read (n : Nat) (text : List α) : List β × Int × List α := source.readLoop target n 0 text

/-- The code points of a text, without what is no character. -/
def chars (text : List α) : List Char :=
  match text with
  | [] => []
  | ch :: text =>
    match _htrail : source.readTrail (source.trailLength ch).toNat text with
    | none => []
    | some (trail, rest) => (source.decode (ch :: trail)).toList ++ chars rest
termination_by text.length
decreasing_by exact Nat.lt_succ_of_le (source.length_readTrail_le _htrail)

/-- What is read behind the end of a text. -/
def pads (k : Nat) : List Char :=
  (List.replicate k (source.atEnd.bind fun ch => source.decode [ch])).flatMap Option.toList

def pieces (text : List α) (k : Nat) : List (List β) :=
  (source.chars text ++ source.pads k).map target.encode

theorem sbumpc_eq_none {text : List α} (h : source.sbumpc text = none) :
    text = [] ∧ source.atEnd = none := by
  cases text with
  | nil => exact ⟨rfl, Option.map_eq_none_iff.mp h⟩
  | cons ch text => exact absurd h (Option.some_ne_none _)

theorem atEnd_of_readTrail {width : Nat} {text : List α}
    (h : source.readTrail width text = none) : source.atEnd = none := by
  induction width generalizing text with
  | zero => exact absurd h (Option.some_ne_none _)
  | succ width ih =>
    rw [readTrail] at h
    split at h
    next hbump => exact (source.sbumpc_eq_none hbump).2
    next ch text' hbump => exact ih (Option.map_eq_none_iff.mp h)

theorem chars_nil : source.chars [] = [] := by rw [chars]

theorem chars_cons (ch : α) (text : List α) : source.chars (ch :: text) =
    match source.readTrail (source.trailLength ch).toNat text with
    | none => []
    | some (trail, rest) => (source.decode (ch :: trail)).toList ++ source.chars rest := by
  rw [chars]
  split
  next htrail => rw [htrail]
  next trail rest htrail => rw [htrail]

theorem pads_of_none (h : source.atEnd = none) (k : Nat) : source.pads k = [] := by
  rw [pads, h]
  exact List.flatMap_eq_nil_iff.mpr fun c hc => by rw [List.eq_of_mem_replicate hc]; rfl

theorem pads_succ {ch : α} {c : Char} (h : source.atEnd = some ch)
    (hc : source.decode [ch] = some c) (k : Nat) : source.pads (k + 1) = c :: source.pads k := by
  rw [pads, pads, h, Option.bind_some, hc, List.replicate_succ]
  rfl

theorem readLoop_of_le {n i : Nat} (h : n ≤ i) (text : List α) :
    source.readLoop target n i text = ([], if 0 < i then (i : Int) else -1, text) := by
  rw [readLoop, if_neg (Nat.not_lt.mpr h)]

theorem readLoop_of_eof {n i : Nat} (hi : i < n) {text : List α}
    (hbump : source.sbumpc text = none) :
    source.readLoop target n i text = ([], if 0 < i then (i : Int) else -1, text) := by
  rw [readLoop, if_pos hi]
  split
  next => rfl
  next hsome => exact absurd (hbump.symm.trans hsome) (Option.some_ne_none _).symm

theorem readLoop_of_cut {n i : Nat} (hi : i < n) {text text' : List α} {ch : α}
    (hbump : source.sbumpc text = some (ch, text'))
    (htrail : source.readTrail (source.trailLength ch).toNat text' = none) :
    source.readLoop target n i text = ([], (i : Int), []) := by
  rw [readLoop, if_pos hi]
  split
  next hnone => exact absurd (hbump.symm.trans hnone) (Option.some_ne_none _)
  next hsome =>
    obtain ⟨rfl, rfl⟩ := Prod.mk.inj (Option.some.inj (hbump.symm.trans hsome))
    split
    next => rfl
    next hrest => exact absurd (htrail.symm.trans hrest) (Option.some_ne_none _).symm

theorem readLoop_of_turn {n i : Nat} (hi : i < n) {text text' trail rest : List α} {ch : α}
    (hbump : source.sbumpc text = some (ch, text'))
    (htrail : source.readTrail (source.trailLength ch).toNat text' = some (trail, rest)) :
    source.readLoop target n i text =
      match source.decode (ch :: trail) with
      | none => source.readLoop target n i rest
      | some cp =>
        let r := source.readLoop target n (i + (target.encode cp).length) rest
        (target.encode cp ++ r.1, r.2) := by
  rw [readLoop, if_pos hi]
  split
  next hnone => exact absurd (hbump.symm.trans hnone) (Option.some_ne_none _)
  next hsome =>
    obtain ⟨rfl, rfl⟩ := Prod.mk.inj (Option.some.inj (hbump.symm.trans hsome))
    split
    next hnone => exact absurd (htrail.symm.trans hnone) (Option.some_ne_none _)
    next hsome' =>
      obtain ⟨rfl, rfl⟩ := Prod.mk.inj (Option.some.inj (htrail.symm.trans hsome'))
      split
      next hdecode => rw [hdecode]
      next hdecode => rw [hdecode]

/-- A turn of the loop takes a character of the text, or of what is read behind it. -/
theorem exists_turn {k : Nat} (hk : 0 < k) {text text' trail rest : List α} {ch : α}
    (hbump : source.sbumpc text = some (ch, text'))
    (htrail : source.readTrail (source.trailLength ch).toNat text' = some (trail, rest)) :
    ∃ k', k ≤ k' + 1 ∧ (source.decode (ch :: trail) = none → k' = k) ∧
      source.chars text ++ source.pads k =
        (source.decode (ch :: trail)).toList ++ (source.chars rest ++ source.pads k') := by
  cases text with
  | nil =>
    obtain ⟨rfl, rfl, c, hc⟩ := source.exists_decode_atEnd hbump htrail
    obtain ⟨v, hv, heq⟩ := Option.map_eq_some_iff.mp hbump
    obtain ⟨k, rfl⟩ := Nat.exists_eq_succ_of_ne_zero (Nat.ne_of_gt hk)
    refine ⟨k, Nat.le_refl _, fun hnone => absurd (hc.symm.trans hnone) (Option.some_ne_none c),
      ?_⟩
    rw [source.pads_succ (hv.trans (congrArg some (Prod.mk.inj heq).1)) hc, hc, source.chars_nil]
    rfl
  | cons ch' text =>
    obtain ⟨rfl, rfl⟩ := Prod.mk.inj (Option.some.inj hbump)
    refine ⟨k, Nat.le_succ k, fun _ => rfl, ?_⟩
    rw [source.chars_cons, htrail, ← List.append_assoc]

/-- A read answers with whole pieces. -/
theorem readLoop_fill (n i : Nat) (text : List α) (k : Nat) (hk : n - i ≤ k) :
    ∃ k', k ≤ k' + (n - i) ∧
      fill (n - i) (source.pieces target text k) =
        ((source.readLoop target n i text).1,
          source.pieces target (source.readLoop target n i text).2.2 k') ∧
      (source.readLoop target n i text).2.1 ≤ i + (source.readLoop target n i text).1.length := by
  induction i, text using UtfTraits.readLoop.induct source target n generalizing k with
  | case1 i text hi hbump =>
    obtain ⟨rfl, hend⟩ := source.sbumpc_eq_none hbump
    have hpieces : source.pieces target [] k = [] := by
      rw [pieces, source.chars_nil, source.pads_of_none hend]
      rfl
    rw [source.readLoop_of_eof target hi hbump]
    refine ⟨k, Nat.le_add_right k _, by rw [hpieces]; rfl, ?_⟩
    simp only [List.length_nil]
    split_ifs
    · omega
    · omega
  | case2 i text hi ch text' hbump htrail =>
    have hend := source.atEnd_of_readTrail htrail
    obtain ⟨ch', text, rfl⟩ : ∃ ch' rest, text = ch' :: rest := by
      refine List.exists_cons_of_ne_nil ?_
      rintro rfl
      obtain ⟨v, hv, -⟩ := Option.map_eq_some_iff.mp hbump
      exact Option.some_ne_none v (hv.symm.trans hend)
    have hbump' := Prod.mk.inj (Option.some.inj hbump)
    have hpieces : source.pieces target (ch' :: text) k = [] := by
      rw [pieces, source.chars_cons, hbump'.1, hbump'.2, htrail, source.pads_of_none hend]
      rfl
    have hpieces' : source.pieces target [] k = [] := by
      rw [pieces, source.chars_nil, source.pads_of_none hend]
      rfl
    rw [source.readLoop_of_cut target hi hbump htrail]
    refine ⟨k, Nat.le_add_right k _, by rw [hpieces, hpieces']; rfl, ?_⟩
    exact le_of_eq (add_zero _).symm
  | case3 i text hi ch text' hbump trail rest htrail hdecode ih =>
    obtain ⟨k', -, heq, hchars⟩ := source.exists_turn (k := k) (by omega) hbump htrail
    rw [hdecode] at hchars
    rw [source.readLoop_of_turn target hi hbump htrail, hdecode, pieces, hchars, heq hdecode]
    exact ih k hk
  | case4 i text hi ch text' hbump trail rest htrail cp hdecode t ih =>
    obtain ⟨k', hk', -, hchars⟩ := source.exists_turn (k := k) (by omega) hbump htrail
    have hpos := List.length_pos_iff.mpr (target.encode_ne_nil cp)
    dsimp only [t] at ih
    obtain ⟨k'', hk'', hfill, hret⟩ := ih k' (by omega)
    rw [hdecode] at hchars
    rw [source.readLoop_of_turn target hi hbump htrail, hdecode, pieces, hchars]
    have hsub : n - i - (target.encode cp).length = n - (i + (target.encode cp).length) := by omega
    refine ⟨k'', by omega, ?_, ?_⟩
    · rw [Option.toList_some, List.singleton_append, List.map_cons, fill, if_neg (by omega), hsub]
      exact congrArg (fun r => (target.encode cp ++ r.1, r.2)) hfill
    · simp only [List.length_append]
      omega
  | case5 i text hi =>
    have hle := Nat.le_of_not_lt hi
    rw [source.readLoop_of_le target hle]
    refine ⟨k, Nat.le_add_right k _, ?_, ?_⟩
    · rw [Nat.sub_eq_zero_of_le hle]
      cases source.pieces target text k with
      | nil => rfl
      | cons p ps => rfl
    · simp only [List.length_nil]
      split_ifs
      · omega
      · omega

theorem readTrail_append (trail s : List α) :
    source.readTrail trail.length (trail ++ s) = some (trail, s) := by
  induction trail with
  | nil => rfl
  | cons ch trail ih =>
    rw [List.length_cons, readTrail, List.cons_append, sbumpc]
    dsimp only
    rw [ih]
    rfl

theorem chars_encode (cs : List Char) : source.chars (cs.flatMap source.encode) = cs := by
  induction cs with
  | nil => exact source.chars_nil
  | cons c cs ih =>
    obtain ⟨lead, trail, hencode, hlength⟩ := source.encode_eq c
    have hdecode := source.decode_encode c
    rw [hencode] at hdecode
    rw [List.flatMap_cons, hencode, List.cons_append, chars_cons, hlength, Int.toNat_natCast,
      readTrail_append]
    dsimp only
    rw [hdecode, ih]
    rfl

theorem le_length_pads {ch : α} (h : source.atEnd = some ch) (k : Nat) :
    k ≤ ((source.pads k).flatMap target.encode).length := by
  obtain ⟨c, hc⟩ := (source.decode_atEnd ch h).2
  induction k with
  | zero => exact Nat.zero_le _
  | succ k ih =>
    have hpos := List.length_pos_iff.mpr (target.encode_ne_nil c)
    rw [source.pads_succ h hc, List.flatMap_cons, List.length_append]
    omega

end UtfTraits

section Reads

variable {α β : Type*}

/-- One read after the other, each with its size, what it writes and what it returns. -/
def reads (read : Nat → List α → List β × Int × List α) :
    List Nat → List α → List (Nat × List β × Int)
  | [], _ => []
  | n :: ns, text =>
    let r := read n text
    (n, r.1, r.2.1) :: reads read ns r.2.2

/-- No read exceeds its size, and what the reads of a valid text write is the first of its
conversion. -/
structure ReadsRight (read : Nat → List α → List β × Int × List α) (from' : Char → List α)
    (to' : Char → List β) (ns : List Nat) (text : List α) : Prop where
  bounded : ∀ r ∈ reads read ns text, r.2.1.length ≤ r.1 ∧ r.2.2 ≤ r.1
  converted : ∀ cs : List Char, text = cs.flatMap from' →
    ((reads read ns text).flatMap fun r => r.2.1) = (cs.flatMap to').take ns.sum

/-- `read` where the two character types are the same. -/
def sgetn (n : Nat) (text : List α) : List α × Int × List α :=
  (text.take n, (text.take n).length, text.drop n)

theorem sgetn_right (enc : Char → List α) (ns : List Nat) (text : List α) :
    ReadsRight sgetn enc enc ns text := by
  have hrun : (∀ r ∈ reads sgetn ns text, r.2.1.length ≤ r.1 ∧ r.2.2 ≤ r.1) ∧
      ((reads sgetn ns text).flatMap fun r => r.2.1) = text.take ns.sum := by
    induction ns generalizing text with
    | nil => exact ⟨fun r hr => absurd hr List.not_mem_nil, rfl⟩
    | cons n ns ih =>
      obtain ⟨hbounded, htext⟩ := ih (text.drop n)
      have hle := List.length_take_le n text
      rw [reads]
      refine ⟨List.forall_mem_cons.mpr ⟨⟨hle, Int.ofNat_le.mpr hle⟩, hbounded⟩, ?_⟩
      rw [List.flatMap_cons, List.sum_cons, List.take_add]
      exact congrArg (text.take n ++ ·) htext
  refine ⟨hrun.1, ?_⟩
  rintro cs rfl
  exact hrun.2

end Reads

namespace UtfTraits

variable {α β : Type*} (source : UtfTraits α) (target : UtfTraits β)

theorem reads_fills (ns : List Nat) (text : List α) (k : Nat) (hk : ns.sum ≤ k) :
    ((reads (source.read target) ns text).map fun r => (r.1, r.2.1)) =
        fills ns (source.pieces target text k) ∧
      ∀ r ∈ reads (source.read target) ns text, r.2.2 ≤ r.2.1.length := by
  induction ns generalizing text k with
  | nil => exact ⟨rfl, fun r hr => absurd hr List.not_mem_nil⟩
  | cons n ns ih =>
    rw [List.sum_cons] at hk
    obtain ⟨k', hk', hfill, hret⟩ := source.readLoop_fill target n 0 text k (by omega)
    rw [Nat.sub_zero] at hk' hfill
    obtain ⟨hrest, hrets⟩ := ih (source.read target n text).2.2 k' (by omega)
    rw [reads, fills, hfill]
    refine ⟨congrArg _ hrest, List.forall_mem_cons.mpr ⟨?_, hrets⟩⟩
    simpa [read] using hret

/-- Reads of a valid text that end with its characters write the first of its conversion, and of
what is read behind it. -/
theorem written_eq {ns : List Nat} {text : List α} {cs : List Char}
    (hboundary : ∀ pre, pre <+: ns → AtBoundary (source.pieces target text ns.sum) pre.sum)
    (htext : text = cs.flatMap source.encode) :
    ((reads (source.read target) ns text).flatMap fun r => r.2.1) =
      ((cs ++ source.pads ns.sum).flatMap target.encode).take ns.sum := by
  obtain ⟨hfills, -⟩ := source.reads_fills target ns text ns.sum (Nat.le_refl _)
  have hall := flatMap_fills ((fills_bounded_iff ns _).mpr hboundary)
  rw [← hfills, List.flatMap_map] at hall
  rw [hall, pieces, htext, source.chars_encode, List.flatMap]

theorem take_pads_iff (cs : List Char) (n : Nat) :
    ((cs ++ source.pads n).flatMap target.encode).take n = (cs.flatMap target.encode).take n ↔
      source.atEnd = none ∨ n ≤ (cs.flatMap target.encode).length := by
  rw [List.flatMap_append]
  constructor
  · intro htake
    cases hend : source.atEnd with
    | none => exact .inl rfl
    | some ch =>
      have hpads := source.le_length_pads target hend n
      have hlength := congrArg List.length htake
      rw [List.length_take, List.length_take, List.length_append] at hlength
      exact .inr (by omega)
  · rintro (hend | hle)
    · rw [source.pads_of_none hend, List.flatMap_nil, List.append_nil]
    · exact List.take_append_of_le_length hle

/-- The reads of a converting source are right exactly when the size asked for up to the end of
each of them is that of whole characters, or of all there is, and the end of the stream is read as
the end if the reads come to it. -/
theorem istream_codecvt_right_iff (ns : List Nat) (text : List α) :
    (∀ text : List β, ReadsRight sgetn target.encode target.encode ns text) ∧
      (ReadsRight (source.read target) source.encode target.encode ns text ↔
        (∀ pre, pre <+: ns → AtBoundary (source.pieces target text ns.sum) pre.sum) ∧
          (source.atEnd = none ∨ ∀ cs : List Char, text = cs.flatMap source.encode →
            ns.sum ≤ (cs.flatMap target.encode).length)) := by
  refine ⟨sgetn_right target.encode ns, ?_⟩
  obtain ⟨hfills, hrets⟩ := source.reads_fills target ns text ns.sum (Nat.le_refl _)
  have hbounded : (∀ r ∈ reads (source.read target) ns text, r.2.1.length ≤ r.1 ∧ r.2.2 ≤ r.1) ↔
      ∀ pre, pre <+: ns → AtBoundary (source.pieces target text ns.sum) pre.sum := by
    rw [← fills_bounded_iff, ← hfills, List.forall_mem_map]
    refine forall₂_congr fun r hr => ⟨And.left, fun hle => ⟨hle, ?_⟩⟩
    exact (hrets r hr).trans (Int.ofNat_le.mpr hle)
  constructor
  · intro hright
    have hboundary := hbounded.mp hright.bounded
    refine ⟨hboundary, ?_⟩
    by_cases hend : source.atEnd = none
    · exact .inl hend
    · refine .inr fun cs htext => ?_
      have hall := hright.converted cs htext
      rw [source.written_eq target hboundary htext] at hall
      exact ((source.take_pads_iff target cs ns.sum).mp hall).resolve_left hend
  · rintro ⟨hboundary, hend⟩
    refine ⟨hbounded.mpr hboundary, fun cs htext => ?_⟩
    rw [source.written_eq target hboundary htext]
    exact (source.take_pads_iff target cs ns.sum).mpr (hend.imp_right fun h => h cs htext)

section Widths

open Email

/-- `char`. -/
def utf8Traits : UtfTraits UInt8 where
  trailLength := Email.trailLength
  decode := OstreamCodecvt.decode
  encode := String.utf8EncodeChar
  atEnd := none
  encode_eq := trailLength_utf8
  decode_encode c := by simpa using OstreamCodecvt.decode_append c []
  decode_atEnd _ h := absurd h (Option.some_ne_none _).symm

/-- `wchar_t` and `char32_t`. `WEOF` is no character. -/
abbrev WideChar : Type := {ch : UInt32 // ch ≠ 0xffffffff}

theorem val_ne_eof (c : Char) : c.val ≠ 0xffffffff := by
  intro h
  have hvalid := c.valid
  rw [h] at hvalid
  exact absurd hvalid (by decide)

def utf32Traits : UtfTraits WideChar where
  trailLength ch := if ch.1.isValidChar then 0 else -1
  decode
    | [] => none
    | ch :: _ => if h : ch.1.isValidChar then some ⟨ch.1, h⟩ else none
  encode c := [⟨c.val, val_ne_eof c⟩]
  atEnd := none
  encode_eq c := ⟨_, [], rfl, if_pos c.valid⟩
  decode_encode c := dif_pos c.valid
  decode_atEnd _ h := absurd h (Option.some_ne_none _).symm

def utf16Encode (c : Char) : List UInt16 :=
  let cp := c.val.toNat
  if cp ≤ 0xffff then [UInt16.ofNat cp]
  else
    let cp := cp - 0x10000
    [UInt16.ofNat (0xd800 + cp / 0x400), UInt16.ofNat (0xdc00 + cp % 0x400)]

def utf16TrailLength (ch : UInt16) : Int :=
  if 0xd800 ≤ ch.toNat ∧ ch.toNat ≤ 0xdbff then 1
  else if 0xdc00 ≤ ch.toNat ∧ ch.toNat ≤ 0xdfff then -1
  else 0

def utf16Decode : List UInt16 → Option Char
  | [] => none
  | w1 :: ws =>
    if w1.toNat < 0xd800 ∨ 0xdfff < w1.toNat then some (Char.ofNat w1.toNat)
    else if 0xdbff < w1.toNat then none
    else
      match ws with
      | [] => none
      | w2 :: _ =>
        if w2.toNat < 0xdc00 ∨ 0xdfff < w2.toNat then none
        else some (Char.ofNat (w1.toNat % 0x400 * 0x400 + w2.toNat % 0x400 + 0x10000))

theorem toNat_ofNat16 {n : Nat} (h : n < 0x10000) : (UInt16.ofNat n).toNat = n := by
  rw [UInt16.toNat_ofNat', Nat.mod_eq_of_lt h]

theorem utf16_eq (c : Char) : ∃ lead trail, utf16Encode c = lead :: trail ∧
    utf16TrailLength lead = trail.length ∧ utf16Decode (lead :: trail) = some c := by
  have hchar : Char.ofNat c.val.toNat = c := Char.ofNat_toNat c
  have hvalid : c.val.toNat < 0xd800 ∨ 0xdfff < c.val.toNat ∧ c.val.toNat < 0x110000 := c.valid
  by_cases hsmall : c.val.toNat ≤ 0xffff
  · have hunit := toNat_ofNat16 (n := c.val.toNat) (by omega)
    refine ⟨_, _, if_pos hsmall, ?_, ?_⟩
    · rw [utf16TrailLength, hunit, if_neg (by omega), if_neg (by omega)]
      rfl
    · rw [utf16Decode, hunit, if_pos (by omega), hchar]
  · have hhigh := toNat_ofNat16 (n := 0xd800 + (c.val.toNat - 0x10000) / 0x400) (by omega)
    have hlow := toNat_ofNat16 (n := 0xdc00 + (c.val.toNat - 0x10000) % 0x400) (by omega)
    refine ⟨_, _, if_neg hsmall, ?_, ?_⟩
    · rw [utf16TrailLength, hhigh, if_pos (by omega)]
      rfl
    · have hsum : (0xd800 + (c.val.toNat - 0x10000) / 0x400) % 0x400 * 0x400 +
          (0xdc00 + (c.val.toNat - 0x10000) % 0x400) % 0x400 + 0x10000 = c.val.toNat := by omega
      rw [utf16Decode, hhigh, if_neg (by omega), if_neg (by omega), hlow, if_neg (by omega),
        hsum, hchar]

/-- `char16_t`. The end of its streams is read as `0xffff`. -/
def utf16Traits : UtfTraits UInt16 where
  trailLength := utf16TrailLength
  decode := utf16Decode
  encode := utf16Encode
  atEnd := some 0xffff
  encode_eq c := by
    obtain ⟨lead, trail, hencode, hlength, -⟩ := utf16_eq c
    exact ⟨lead, trail, hencode, hlength⟩
  decode_encode c := by
    obtain ⟨lead, trail, hencode, -, hdecode⟩ := utf16_eq c
    rw [hencode, hdecode]
  decode_atEnd ch h := by
    obtain rfl := Option.some.inj h
    exact ⟨by decide, _, rfl⟩

/-- One octet is asked for, and the three of the first character of the tests are written. An
empty stream of `char16_t` does not end. -/
theorem not_right_of_one_octet :
    utf32Traits.read utf8Traits 1 (utf32Traits.encode '吾') = ([0xe5, 0x90, 0xbe], 3, []) ∧
      utf16Traits.read utf32Traits 1 [] = (utf32Traits.encode '\uffff', 1, []) ∧
      ¬ ∀ ns : List Nat, (∀ n ∈ ns, 0 < n) → ∀ text : List WideChar,
        ReadsRight (utf32Traits.read utf8Traits) utf32Traits.encode utf8Traits.encode ns text := by
  have hread : utf32Traits.read utf8Traits 1 (utf32Traits.encode '吾') =
      ([0xe5, 0x90, 0xbe], 3, []) := by
    have hbump : utf32Traits.sbumpc (utf32Traits.encode '吾') =
        some (⟨'吾'.val, val_ne_eof '吾'⟩, []) := rfl
    have htrail : utf32Traits.readTrail
        (utf32Traits.trailLength ⟨'吾'.val, val_ne_eof '吾'⟩).toNat [] = some ([], []) := rfl
    have hdecode : utf32Traits.decode [⟨'吾'.val, val_ne_eof '吾'⟩] = some '吾' :=
      utf32Traits.decode_encode '吾'
    rw [read, readLoop_of_turn _ _ Nat.one_pos hbump htrail, hdecode]
    dsimp only
    rw [readLoop_of_le _ _ (by decide)]
    rfl
  have hend : utf16Traits.read utf32Traits 1 [] = (utf32Traits.encode '\uffff', 1, []) := by
    have hbump : utf16Traits.sbumpc [] = some (0xffff, []) := rfl
    have htrail : utf16Traits.readTrail (utf16Traits.trailLength 0xffff).toNat [] =
        some ([], []) := rfl
    have hdecode : utf16Traits.decode [0xffff] = some '\uffff' :=
      utf16Traits.decode_encode '\uffff'
    rw [read, readLoop_of_turn _ _ Nat.one_pos hbump htrail, hdecode]
    dsimp only
    rw [readLoop_of_le _ _ (by decide)]
    rfl
  refine ⟨hread, hend, fun hall => ?_⟩
  have hright := hall [1] (by decide) (utf32Traits.encode '吾')
  have hfirst := hright.bounded (1, [0xe5, 0x90, 0xbe], 3) (by rw [reads, hread]; simp)
  exact absurd hfirst.1 (by decide)

end Widths

end UtfTraits

end Acqua
