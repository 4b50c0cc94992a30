import Mathlib

/-! Formatted output: text that a stream pads to its width, other output that it does not, and the
settings that are left for what follows. -/

namespace Acqua

/-- `buffer` is what is left in a stream buffer whose contents can be inserted. -/
structure OutputState (α : Type*) where
  fill : α
  left : Bool
  width : Nat
  good : Bool
  buffer : List α

/-- `write` is unformatted, `insert` is formatted, and `copy` goes past the stream to what is under
it. `drain` inserts the stream buffer, and fails where that is empty. -/
inductive StreamOp (α : Type*)
  | write (text : List α)
  | insert (text : List α)
  | copy (text : List α)
  | setfill (ch : α)
  | setw (n : Nat)
  | left
  | drain

section OutputStream

variable {α : Type*}

def StreamOp.inserted : StreamOp α → Option (List α)
  | .insert text => some text
  | _ => none

def OutputState.pad (s : OutputState α) (text : List α) : List α :=
  if s.left then text ++ List.replicate (s.width - text.length) s.fill
  else List.replicate (s.width - text.length) s.fill ++ text

/-- What is written, and the settings behind it. -/
def StreamOp.emit (op : StreamOp α) (s : OutputState α) : List α × OutputState α :=
  match op with
  | .write text => (if s.good then text else [], s)
  | .insert text => if s.good then (s.pad text, { s with width := 0 }) else ([], s)
  | .copy text => (text, s)
  | .setfill ch => ([], { s with fill := ch })
  | .setw n => ([], { s with width := n })
  | .left => ([], { s with left := true })
  | .drain =>
    if s.good then (s.buffer, { s with buffer := [], good := !s.buffer.isEmpty }) else ([], s)

/-- What each operation writes. -/
def texts : List (StreamOp α) → OutputState α → List (List α)
  | [], _ => []
  | op :: ops, s => (op.emit s).1 :: texts ops (op.emit s).2

def after (ops : List (StreamOp α)) (s : OutputState α) : OutputState α :=
  ops.foldl (fun s op => (op.emit s).2) s

def output (ops : List (StreamOp α)) (s : OutputState α) : List α := (texts ops s).flatten

/-- What is written where the stream has failed. -/
def copies (ops : List (StreamOp α)) : List α :=
  ops.flatMap fun op =>
    match op with
    | .copy text => text
    | _ => []

theorem texts_append (ops ops' : List (StreamOp α)) (s : OutputState α) :
    texts (ops ++ ops') s = texts ops s ++ texts ops' (after ops s) := by
  induction ops generalizing s with
  | nil => rfl
  | cons op ops ih =>
    rw [List.cons_append, texts, ih, texts]
    rfl

theorem length_texts (ops : List (StreamOp α)) (s : OutputState α) :
    (texts ops s).length = ops.length := by
  induction ops generalizing s with
  | nil => rfl
  | cons op ops ih => rw [texts, List.length_cons, List.length_cons, ih]

theorem texts_append_eq_iff (ops ops' : List (StreamOp α)) (s s' : OutputState α) :
    texts (ops ++ ops') s = texts (ops ++ ops') s' ↔
      texts ops s = texts ops s' ∧ texts ops' (after ops s) = texts ops' (after ops s') := by
  rw [texts_append, texts_append]
  refine ⟨fun h => List.append_inj h ?_, fun ⟨h, h'⟩ => congrArg₂ _ h h'⟩
  rw [length_texts, length_texts]

theorem after_append (ops ops' : List (StreamOp α)) (s : OutputState α) :
    after (ops ++ ops') s = after ops' (after ops s) := List.foldl_append

theorem output_append (ops ops' : List (StreamOp α)) (s : OutputState α) :
    output (ops ++ ops') s = output ops s ++ output ops' (after ops s) := by
  rw [output, texts_append, List.flatten_append]
  rfl

theorem output_cons (op : StreamOp α) (ops : List (StreamOp α)) (s : OutputState α) :
    output (op :: ops) s = (op.emit s).1 ++ output ops (op.emit s).2 := by
  rw [output, texts, List.flatten_cons]
  rfl

theorem length_pad (s : OutputState α) (text : List α) :
    (s.pad text).length = max text.length s.width := by
  rw [OutputState.pad]
  split_ifs
  · rw [List.length_append, List.length_replicate]
    omega
  · rw [List.length_append, List.length_replicate]
    omega

theorem pad_eq_nil_iff (s : OutputState α) (text : List α) :
    s.pad text = [] ↔ text = [] ∧ s.width = 0 := by
  rw [← List.length_eq_zero_iff, length_pad, Nat.max_eq_zero_iff, List.length_eq_zero_iff]

theorem append_replicate_eq_iff {n : Nat} (hn : 0 < n) {ch ch' : α} {text : List α} :
    text ++ List.replicate n ch = List.replicate n ch' ++ text ↔
      ch = ch' ∧ ∀ x ∈ text, x = ch := by
  obtain ⟨k, rfl⟩ := Nat.exists_eq_add_one.mpr hn
  induction text with
  | nil =>
    rw [List.nil_append, List.append_nil, List.replicate_succ, List.replicate_succ,
      List.cons.injEq]
    refine ⟨fun h => ⟨h.1, List.forall_mem_nil _⟩, fun h => ⟨h.1, congrArg _ h.1⟩⟩
  | cons x text ih =>
    have hturn : List.replicate k ch' ++ ch' :: text = List.replicate (k + 1) ch' ++ text := by
      rw [List.replicate_succ', List.append_assoc, List.singleton_append]
    have hhead : (x :: text) ++ List.replicate (k + 1) ch =
        List.replicate (k + 1) ch' ++ x :: text ↔
          x = ch' ∧ text ++ List.replicate (k + 1) ch = List.replicate (k + 1) ch' ++ text := by
      rw [List.replicate_succ (a := ch'), List.cons_append, List.cons_append, List.cons.injEq]
      refine and_congr_right fun hx => ?_
      rw [hx, hturn, List.replicate_succ (a := ch'), List.cons_append]
    rw [hhead, ih, List.forall_mem_cons]
    constructor
    · rintro ⟨hx, hch, hall⟩
      exact ⟨hch, hx.trans hch.symm, hall⟩
    · rintro ⟨hch, hx, hall⟩
      exact ⟨hx.trans hch, hch, hall⟩

/-- Where there is something to fill up, the fill characters are the same, and so are the sides
unless the text is made of them. -/
theorem pad_eq_iff (s s' : OutputState α) (text : List α) :
    s.pad text = s'.pad text ↔ max text.length s.width = max text.length s'.width ∧
      (s.width ≤ text.length ∨
        s.fill = s'.fill ∧ (s.left = s'.left ∨ ∀ ch ∈ text, ch = s.fill)) := by
  by_cases hmax : max text.length s.width = max text.length s'.width
  · have hsub : s'.width - text.length = s.width - text.length := by omega
    rw [and_iff_right hmax, OutputState.pad, OutputState.pad, hsub]
    rcases Nat.eq_zero_or_pos (s.width - text.length) with hzero | hpos
    · simp only [hzero, List.replicate_zero, List.append_nil, List.nil_append, ite_self, true_iff]
      exact .inl (Nat.sub_eq_zero_iff_le.mp hzero)
    · have hrepeat : List.replicate (s.width - text.length) s.fill =
          List.replicate (s.width - text.length) s'.fill ↔ s.fill = s'.fill := by
        rw [List.replicate_inj]
        exact ⟨fun h => h.2.resolve_left hpos.ne', fun h => ⟨rfl, .inr h⟩⟩
      rw [or_iff_right (Nat.not_le.mpr (Nat.lt_of_sub_pos hpos))]
      cases s.left <;> cases s'.left
      · simp [hrepeat]
      · rw [if_neg Bool.false_ne_true, if_pos rfl, eq_comm, append_replicate_eq_iff hpos]
        rw [or_iff_right Bool.false_ne_true]
        exact ⟨fun ⟨hfill, hall⟩ => ⟨hfill.symm, fun ch hch => (hall ch hch).trans hfill⟩,
          fun ⟨hfill, hall⟩ => ⟨hfill.symm, fun ch hch => (hall ch hch).trans hfill⟩⟩
      · rw [if_pos rfl, if_neg Bool.false_ne_true, append_replicate_eq_iff hpos]
        simp
      · simp [hrepeat]
  · refine iff_of_false (fun h => hmax ?_) fun h => hmax h.1
    rw [← length_pad, ← length_pad, h]

theorem pad_of_zero {s : OutputState α} (hs : s.width = 0) (text : List α) : s.pad text = text := by
  rw [OutputState.pad, hs, Nat.zero_sub, List.replicate_zero, List.append_nil, List.nil_append,
    ite_self]

theorem emit_insert_of_zero {s : OutputState α} (hgood : s.good = true) (hwidth : s.width = 0)
    (text : List α) : (StreamOp.insert text).emit s = (text, s) := by
  obtain ⟨fill, left, width, good, buffer⟩ := s
  obtain rfl : width = 0 := hwidth
  rw [StreamOp.emit, if_pos hgood, pad_of_zero rfl]

/-- A text that is inserted uses the width up. -/
theorem width_after_insert (text : List α) (s : OutputState α)
    (hgood : ((StreamOp.insert text).emit s).2.good = true) :
    ((StreamOp.insert text).emit s).2.width = 0 := by
  rw [StreamOp.emit] at hgood ⊢
  split_ifs at hgood ⊢ with hs
  · rfl
  · exact absurd hgood hs

section Pointwise

variable {ps qs : List (List α)}

theorem length_flatten_le (h : List.Forall₂ (fun p q => p.length ≤ q.length) ps qs) :
    ps.flatten.length ≤ qs.flatten.length := by
  induction h with
  | nil => exact Nat.le_refl 0
  | cons hle _ ih =>
    rw [List.flatten_cons, List.flatten_cons, List.length_append, List.length_append]
    omega

/-- Texts of which none is longer than the one beside it join to the same only if they are the
same. -/
theorem flatten_eq_iff (h : List.Forall₂ (fun p q => p.length ≤ q.length) ps qs) :
    ps.flatten = qs.flatten ↔ ps = qs := by
  refine ⟨fun heq => ?_, congrArg List.flatten⟩
  induction h with
  | nil => rfl
  | cons hle hrest ih =>
    rw [List.flatten_cons, List.flatten_cons] at heq
    have hlength := congrArg List.length heq
    have hrestle := length_flatten_le hrest
    rw [List.length_append, List.length_append] at hlength
    obtain ⟨rfl, hflatten⟩ := List.append_inj heq (by omega)
    rw [ih hflatten]

end Pointwise

theorem emit_of_failed {s : OutputState α} (hs : s.good = false) (op : StreamOp α) :
    (op.emit s).1 = copies [op] ∧ (op.emit s).2.good = false := by
  cases op with
  | copy text => exact ⟨(List.append_nil text).symm, hs⟩
  | setfill ch => exact ⟨rfl, hs⟩
  | setw n => exact ⟨rfl, hs⟩
  | left => exact ⟨rfl, hs⟩
  | _ => simp [StreamOp.emit, copies, hs]

theorem output_of_failed {s : OutputState α} (hs : s.good = false) (ops : List (StreamOp α)) :
    output ops s = copies ops := by
  induction ops generalizing s with
  | nil => rfl
  | cons op ops ih =>
    obtain ⟨htext, hgood⟩ := emit_of_failed hs op
    rw [output_cons, ih hgood, htext]
    exact List.flatMap_append.symm

theorem texts_of_failed {s : OutputState α} (hs : s.good = false) (ops : List (StreamOp α)) :
    texts ops s = ops.map fun op => copies [op] := by
  induction ops generalizing s with
  | nil => rfl
  | cons op ops ih =>
    obtain ⟨htext, hgood⟩ := emit_of_failed hs op
    rw [texts, ih hgood, htext, List.map_cons]

/-- A stream that has failed writes no more than another. -/
theorem texts_le_of_failed {s : OutputState α} (hs : s.good = false) (s' : OutputState α)
    (ops : List (StreamOp α)) :
    List.Forall₂ (fun p q => p.length ≤ q.length) (texts ops s) (texts ops s') := by
  induction ops generalizing s s' with
  | nil => exact .nil
  | cons op ops ih =>
    obtain ⟨htext, hgood⟩ := emit_of_failed hs op
    refine .cons ?_ (ih hgood _)
    rw [htext]
    cases op with
    | copy text => exact le_of_eq (congrArg List.length (List.append_nil text))
    | _ => exact Nat.zero_le _

/-- A greater width makes no text shorter. -/
theorem texts_le_of_width {s s' : OutputState α} {ops : List (StreamOp α)}
    (hgood : s'.good = s.good) (hwidth : s'.width ≤ s.width)
    (hbuffer : s'.buffer = s.buffer ∨ .drain ∉ ops) :
    List.Forall₂ (fun p q => p.length ≤ q.length) (texts ops s') (texts ops s) := by
  induction ops generalizing s s' with
  | nil => exact .nil
  | cons op ops ih =>
    have hrest : s'.buffer = s.buffer ∨ .drain ∉ ops :=
      hbuffer.imp_right fun h hmem => h (List.mem_cons_of_mem op hmem)
    cases op with
    | write text =>
      refine .cons ?_ (ih hgood hwidth hrest)
      simp only [StreamOp.emit, hgood, Nat.le_refl]
    | insert text =>
      cases hs : s.good with
      | false =>
        simp only [texts, StreamOp.emit, hgood, hs, Bool.false_eq_true, if_false]
        exact .cons (Nat.le_refl _) (ih hgood hwidth hrest)
      | true =>
        simp only [texts, StreamOp.emit, hgood, hs, if_true]
        refine .cons ?_ (ih rfl (Nat.le_refl 0) hrest)
        rw [length_pad, length_pad]
        omega
    | copy text => exact .cons (Nat.le_refl _) (ih hgood hwidth hrest)
    | setfill ch => exact .cons (Nat.le_refl _) (ih hgood hwidth hrest)
    | setw n => exact .cons (Nat.le_refl _) (ih hgood (Nat.le_refl n) hrest)
    | left => exact .cons (Nat.le_refl _) (ih hgood hwidth hrest)
    | drain =>
      have hsame := hbuffer.resolve_right fun h => h List.mem_cons_self
      cases hs : s.good with
      | false =>
        simp only [texts, StreamOp.emit, hgood, hs, Bool.false_eq_true, if_false]
        exact .cons (Nat.le_refl _) (ih hgood hwidth hrest)
      | true =>
        simp only [texts, StreamOp.emit, hgood, hs, if_true, hsame]
        exact .cons (Nat.le_refl _) (ih rfl hwidth (.inl rfl))

theorem good_after {ops : List (StreamOp α)} (hops : .drain ∉ ops) (s : OutputState α) :
    (after ops s).good = s.good ∧ (after ops s).buffer = s.buffer := by
  induction ops generalizing s with
  | nil => exact ⟨rfl, rfl⟩
  | cons op ops ih =>
    obtain ⟨hop, hrest⟩ := not_or.mp (mt List.mem_cons.mpr hops)
    have hstep : (op.emit s).2.good = s.good ∧ (op.emit s).2.buffer = s.buffer := by
      cases op with
      | insert text =>
        rw [StreamOp.emit]
        split_ifs
        · exact ⟨rfl, rfl⟩
        · exact ⟨rfl, rfl⟩
      | drain => exact absurd rfl hop
      | _ => exact ⟨rfl, rfl⟩
    obtain ⟨hgood, hbuffer⟩ := ih hrest (op.emit s).2
    exact ⟨hgood.trans hstep.1, hbuffer.trans hstep.2⟩

theorem output_drain {s : OutputState α} (hs : s.good = true) {first : List (StreamOp α)}
    (hfirst : .drain ∉ first) (rest : List (StreamOp α)) :
    output (first ++ .drain :: rest) s =
      output first s ++ (s.buffer ++ output rest (after (first ++ [.drain]) s)) := by
  obtain ⟨hgood, hbuffer⟩ := good_after hfirst s
  have htext : (StreamOp.drain.emit (after first s)).1 = s.buffer := by
    simp only [StreamOp.emit, hgood, hs, if_true, hbuffer]
  rw [output_append, output_cons, after_append, htext]
  rfl

/-- The second time there is nothing to insert, and the stream fails. -/
theorem output_drain_empty {s : OutputState α} (hs : s.good = true) (hempty : s.buffer = [])
    {first : List (StreamOp α)} (hfirst : .drain ∉ first) (rest : List (StreamOp α)) :
    output (first ++ .drain :: rest) s = output first s ++ copies rest := by
  obtain ⟨hgood, hbuffer⟩ := good_after hfirst s
  have hfailed : (after (first ++ [.drain]) s).good = false := by
    rw [after_append]
    change (StreamOp.drain.emit (after first s)).2.good = false
    simp [StreamOp.emit, hgood, hs, hbuffer, hempty]
  rw [output_drain hs hfirst, hempty, List.nil_append, output_of_failed hfailed]

/-- A stream with settings or a failure from before writes what a fresh one does exactly when each
of its texts is the same, if no width is left to make up for a buffer that is gone. -/
theorem output_eq_iff {s s' : OutputState α} {ops : List (StreamOp α)} (hgood : s'.good = true)
    (hwidth : s'.width = 0)
    (hbuffer : s.good = true → s.buffer = s'.buffer ∨ s.buffer = [])
    (h : s.good = true → s.width = 0 ∨ s.buffer = s'.buffer ∨ .drain ∉ ops) :
    output ops s = output ops s' ↔ texts ops s = texts ops s' := by
  cases hs : s.good with
  | false => exact flatten_eq_iff (texts_le_of_failed hs s' ops)
  | true =>
    by_cases hsame : s'.buffer = s.buffer ∨ .drain ∉ ops
    · have htexts := flatten_eq_iff
        (texts_le_of_width (hgood.trans hs.symm) (hwidth.trans_le (Nat.zero_le _)) hsame)
      exact eq_comm.trans (htexts.trans eq_comm)
    · refine ⟨fun heq => absurd heq ?_, congrArg List.flatten⟩
      obtain ⟨hother, hmem⟩ := not_or.mp hsame
      have hempty := (hbuffer hs).resolve_left (Ne.symm hother)
      have hfull : s'.buffer ≠ [] := fun h => hother (h.trans hempty.symm)
      have hzero : s.width = 0 := by
        rcases h hs with hzero | heq | hnone
        · exact hzero
        · exact absurd heq.symm hother
        · exact absurd hnone hmem
      obtain ⟨first, rest, rfl, hfirst⟩ := List.eq_append_cons_of_mem (not_not.mp hmem)
      -- Nothing of the first part is longer, and the buffer is missing.
      have hle : (output first s).length ≤ (output first s').length :=
        length_flatten_le (texts_le_of_width (hs.trans hgood.symm)
          (hzero.trans_le (Nat.zero_le _)) (.inr hfirst))
      have hcopies : (copies rest).length ≤
          (output rest (after (first ++ [.drain]) s')).length := by
        have hfailed : ({ s with good := false } : OutputState α).good = false := rfl
        rw [← output_of_failed hfailed]
        exact length_flatten_le (texts_le_of_failed hfailed _ rest)
      have hpos := List.length_pos_iff.mpr hfull
      rw [output_drain_empty hs hempty hfirst, output_drain hgood hfirst]
      intro heq
      have hlength := congrArg List.length heq
      simp only [List.length_append] at hlength
      omega

end OutputStream

end Acqua
