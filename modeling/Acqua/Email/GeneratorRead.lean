import Acqua.Email.EmailGenerator

/-! `basic_email_generator::impl::read`, and how the sizes of the reads show in what is read. -/

namespace Acqua

namespace Email

/-- A `generator_impl`. Every burst brings it nearer to the end. -/
structure BurstGenerator (σ : Type*) where
  generate : σ → Option (List UInt8 × σ)
  inProgress : σ → Bool
  work : σ → Nat
  work_lt : ∀ {s burst s'}, generate s = some (burst, s') → work s' < work s

def GeneratorImpl.bursts (L : Locale) (fresh : Message → Nat → UInt8) :
    BurstGenerator GeneratorImpl :=
  ⟨generate L fresh, inProgress, work L fresh, work_generate_lt⟩

structure EmailGenerator (σ : Type*) where
  impl : σ
  buf : List UInt8

section Read

variable {σ : Type*} (G : BurstGenerator σ)

/-- Everything that is generated from a state on. -/
def BurstGenerator.emitted (s : σ) : Option (List UInt8) :=
  if G.inProgress s then
    match _hburst : G.generate s with
    | none => none
    | some (burst, s') => (emitted s').map (burst ++ ·)
  else some []
termination_by G.work s
decreasing_by exact G.work_lt _hburst

namespace EmailGenerator

/-- The loop of `read`. -/
def loop (rest : Nat) (s : EmailGenerator σ) : Option (List UInt8 × EmailGenerator σ) :=
  if _hrest : G.inProgress s.impl ∧ 0 < rest then
    if _hbuf : s.buf = [] then
      match _hburst : G.generate s.impl with
      | none => none
      | some (burst, impl) =>
        (loop (rest - min burst.length rest) ⟨impl, burst.drop rest⟩).map fun r =>
          (burst.take rest ++ r.1, r.2)
    else
      (loop (rest - min s.buf.length rest) { s with buf := s.buf.drop rest }).map fun r =>
        (s.buf.take rest ++ r.1, r.2)
  else some ([], s)
termination_by (G.work s.impl, rest)
decreasing_by
  · exact Prod.Lex.left _ _ (G.work_lt _hburst)
  · have hpos := List.length_pos_of_ne_nil _hbuf
    exact Prod.Lex.right _ (by omega)

/-- `read`: the octets, or `EOF`. -/
def read (size : Nat) (s : EmailGenerator σ) :
    Option (Option (List UInt8) × EmailGenerator σ) :=
  if ¬ G.inProgress s.impl ∨ size = 0 then some (none, s)
  else (loop G size s).map fun r => (some r.1, r.2)

/-- What calls of `read` return up to `EOF`, when they get there. -/
def readUntilEof : List Nat → EmailGenerator σ → Option (List UInt8)
  | [], _ => none
  | size :: sizes, s =>
    match read G size s with
    | none => none
    | some (none, _) => some []
    | some (some out, s) => (readUntilEof sizes s).map (out ++ ·)

end EmailGenerator

end Read

section Bursts

variable {σ : Type*} {G : BurstGenerator σ}

theorem BurstGenerator.emitted_of_complete {s : σ} (hs : ¬ G.inProgress s) :
    G.emitted s = some [] := by
  rw [emitted, if_neg hs]

theorem BurstGenerator.emitted_of_burst {s s' : σ} {burst : List UInt8} (hs : G.inProgress s)
    (h : G.generate s = some (burst, s')) : G.emitted s = (G.emitted s').map (burst ++ ·) := by
  rw [emitted, if_pos hs]
  split
  next heq => exact absurd (h.symm.trans heq) (Option.some_ne_none _)
  next heq =>
    obtain ⟨rfl, rfl⟩ := Prod.mk.inj (Option.some.inj (h.symm.trans heq))
    rfl

theorem BurstGenerator.emitted_of_stuck {s : σ} (hs : G.inProgress s) (h : G.generate s = none) :
    G.emitted s = none := by
  rw [emitted, if_pos hs]
  split
  next => rfl
  next heq => exact absurd (h.symm.trans heq) (Option.some_ne_none _).symm

/-- The burst that completes a message is `last`, as long as `Inv` holds. -/
structure EndsWith (G : BurstGenerator σ) (Inv : σ → Prop) (last : List UInt8) : Prop where
  step : ∀ {s burst s'}, Inv s → G.generate s = some (burst, s') → Inv s'
  last : ∀ {s burst s'}, Inv s → G.generate s = some (burst, s') → ¬ G.inProgress s' → burst = last

theorem EndsWith.suffix {Inv : σ → Prop} {last : List UInt8} (hG : EndsWith G Inv last) {s : σ}
    (hs : G.inProgress s) (hinv : Inv s) {text : List UInt8} (htext : G.emitted s = some text) :
    last <:+ text := by
  induction hn : G.work s using Nat.strong_induction_on generalizing s text with
  | _ n ih =>
    subst hn
    cases hburst : G.generate s with
    | none =>
      rw [BurstGenerator.emitted_of_stuck hs hburst] at htext
      exact absurd htext (Option.some_ne_none _).symm
    | some r =>
      obtain ⟨burst, s'⟩ := r
      rw [BurstGenerator.emitted_of_burst hs hburst] at htext
      obtain ⟨text', htext', rfl⟩ := Option.map_eq_some_iff.mp htext
      by_cases hs' : G.inProgress s'
      · exact (ih _ (G.work_lt hburst) hs' (hG.step hinv hburst) htext' rfl).trans
          (List.suffix_append burst text')
      · rw [hG.last hinv hburst hs']
        rw [BurstGenerator.emitted_of_complete hs'] at htext'
        rw [← Option.some.inj htext', List.append_nil]

theorem BurstGenerator.exists_burst {s : σ} (hs : G.inProgress s) {text : List UInt8}
    (htext : G.emitted s = some text) : ∃ burst s' text', G.generate s = some (burst, s') ∧
      G.emitted s' = some text' ∧ text = burst ++ text' := by
  cases hburst : G.generate s with
  | none =>
    rw [emitted_of_stuck hs hburst] at htext
    exact absurd htext (Option.some_ne_none _).symm
  | some r =>
    rw [emitted_of_burst hs hburst] at htext
    obtain ⟨text', htext', rfl⟩ := Option.map_eq_some_iff.mp htext
    exact ⟨r.1, r.2, text', rfl, htext', rfl⟩

namespace EmailGenerator

variable {Inv : σ → Prop} {last : List UInt8}

theorem take_append_take (buf text : List UInt8) (rest : Nat) :
    buf.take rest ++ (buf.drop rest ++ text).take (rest - min buf.length rest) =
      (buf ++ text).take rest := by
  rcases le_total rest buf.length with hle | hle
  · rw [min_eq_right hle, Nat.sub_self, List.take_zero, List.append_nil,
      List.take_append_of_le_length hle]
  · rw [min_eq_left hle, List.drop_eq_nil_of_le hle, List.take_of_length_le hle, List.nil_append,
      List.take_append, List.take_of_length_le hle]

theorem drop_append_drop (buf text : List UInt8) (rest : Nat) :
    (buf.drop rest ++ text).drop (rest - min buf.length rest) = (buf ++ text).drop rest := by
  rcases le_total rest buf.length with hle | hle
  · rw [min_eq_right hle, Nat.sub_self, List.drop_zero, List.drop_append_of_le_length hle]
  · rw [min_eq_left hle, List.drop_eq_nil_of_le hle, List.nil_append, List.drop_append,
      List.drop_eq_nil_of_le hle, List.nil_append]

theorem room_iff (buf text last : List UInt8) (rest : Nat) :
    rest - min buf.length rest + last.length ≤ (buf.drop rest ++ text).length ↔
      rest + last.length ≤ (buf ++ text).length := by
  simp only [List.length_append, List.length_drop]
  omega

/-- Where a read of `rest` octets ends when `s.buf ++ text` is left to be read. -/
structure Reads (G : BurstGenerator σ) (Inv : σ → Prop) (last text : List UInt8) (rest : Nat)
    (s' : EmailGenerator σ) : Prop where
  inv : Inv s'.impl
  left : rest + last.length ≤ text.length → G.inProgress s'.impl ∧
    ∃ text', G.emitted s'.impl = some text' ∧ s'.buf ++ text' = text.drop rest
  complete : text.length < rest + last.length → ¬ G.inProgress s'.impl

theorem Reads.of_take {buf text : List UInt8} {rest : Nat} {s' : EmailGenerator σ}
    (h : Reads G Inv last (buf.drop rest ++ text) (rest - min buf.length rest) s') :
    Reads G Inv last (buf ++ text) rest s' := by
  refine ⟨h.inv, ?_, ?_⟩
  · intro hroom
    rw [← drop_append_drop]
    exact h.left ((room_iff buf text last rest).mpr hroom)
  · intro hroom
    refine h.complete (lt_of_not_ge fun hle => ?_)
    exact absurd ((room_iff buf text last rest).mp hle) (by omega)

theorem loop_of_complete {s : EmailGenerator σ} (hs : ¬ G.inProgress s.impl) (rest : Nat) :
    loop G rest s = some ([], s) := by
  rw [loop, dif_neg fun h => hs h.1]

theorem loop_spec (hG : EndsWith G Inv last) {s : EmailGenerator σ} (hs : G.inProgress s.impl)
    (hinv : Inv s.impl) {text : List UInt8} (htext : G.emitted s.impl = some text) (rest : Nat) :
    ∃ s', loop G rest s = some ((s.buf ++ text).take rest, s') ∧
      Reads G Inv last (s.buf ++ text) rest s' := by
  induction hn : G.work s.impl + rest using Nat.strong_induction_on
    generalizing s text rest with
  | _ n ih =>
    subst hn
    rw [loop]
    by_cases hrest : 0 < rest
    · rw [dif_pos ⟨hs, hrest⟩]
      by_cases hbuf : s.buf = []
      · rw [dif_pos hbuf]
        obtain ⟨burst, impl, text', hburst, htext', rfl⟩ := BurstGenerator.exists_burst hs htext
        have hlt := G.work_lt hburst
        have hinv' := hG.step hinv hburst
        split
        next heq => exact absurd (hburst.symm.trans heq) (Option.some_ne_none _)
        next heq =>
          obtain ⟨rfl, rfl⟩ := Prod.mk.inj (Option.some.inj (hburst.symm.trans heq))
          rw [hbuf, List.nil_append]
          by_cases hs' : G.inProgress impl
          · obtain ⟨s', hloop, hreads⟩ := ih _ (by dsimp only; omega)
              (s := ⟨impl, burst.drop rest⟩) hs' hinv' htext' (rest - min burst.length rest) rfl
            refine ⟨s', ?_, hreads.of_take⟩
            rw [hloop, ← take_append_take burst]
            rfl
          · obtain rfl := hG.last hinv hburst hs'
            rw [BurstGenerator.emitted_of_complete hs'] at htext'
            obtain rfl := Option.some.inj htext'
            refine ⟨⟨impl, burst.drop rest⟩, ?_, hinv', ?_, fun _ => hs'⟩
            · rw [loop_of_complete hs', List.append_nil, Option.map_some, List.append_nil]
            · intro hroom
              rw [List.append_nil] at hroom
              omega
      · rw [dif_neg hbuf]
        have hpos := List.length_pos_of_ne_nil hbuf
        obtain ⟨s', hloop, hreads⟩ := ih _ (by dsimp only; omega)
          (s := { s with buf := s.buf.drop rest }) hs hinv htext (rest - min s.buf.length rest) rfl
        refine ⟨s', ?_, hreads.of_take⟩
        rw [hloop, ← take_append_take s.buf]
        rfl
    · obtain rfl : rest = 0 := by omega
      rw [dif_neg fun h => hrest h.2]
      refine ⟨s, by simp, hinv, fun _ => ⟨hs, text, htext, by simp⟩, ?_⟩
      have hle := (hG.suffix hs hinv htext).length_le
      intro hlt
      rw [List.length_append] at hlt
      omega

theorem readUntilEof_of_complete {s : EmailGenerator σ} (hs : ¬ G.inProgress s.impl)
    {sizes : List Nat} {out : List UInt8} (h : readUntilEof G sizes s = some out) : out = [] := by
  cases sizes with
  | nil => exact absurd h (Option.some_ne_none _).symm
  | cons size sizes =>
    rw [readUntilEof, read, if_pos (Or.inl hs)] at h
    exact (Option.some.inj h).symm

/-- No read ends inside the last `n` of `size` octets. -/
def NoneEndsWithin (n size : Nat) (sizes : List Nat) : Prop :=
  ∀ k, ¬ (size < (sizes.take k).sum + n ∧ (sizes.take k).sum < size)

theorem noneEndsWithin_cons {n size first : Nat} (hsize : n ≤ size) {sizes : List Nat} :
    NoneEndsWithin n size (first :: sizes) ↔
      if first + n ≤ size then NoneEndsWithin n (size - first) sizes else size ≤ first := by
  constructor
  · intro h
    split_ifs with hroom
    · intro k hk
      refine h (k + 1) ?_
      rw [List.take_succ_cons, List.sum_cons]
      omega
    · have h1 := h 1
      simp only [List.take_succ_cons, List.take_zero, List.sum_cons, List.sum_nil] at h1
      omega
  · intro h k
    cases k with
    | zero =>
      rw [List.take_zero, List.sum_nil]
      omega
    | succ k =>
      rw [List.take_succ_cons, List.sum_cons]
      split_ifs at h with hroom
      · have hk := h k
        omega
      · omega

/-- Reading up to `EOF` gives everything exactly if no read ends inside the last burst. -/
theorem readUntilEof_iff (hG : EndsWith G Inv last) {s : EmailGenerator σ}
    (hs : G.inProgress s.impl) (hinv : Inv s.impl) {text : List UInt8}
    (htext : G.emitted s.impl = some text) {sizes : List Nat} (hsizes : ∀ size ∈ sizes, 0 < size)
    {out : List UInt8} (h : readUntilEof G sizes s = some out) :
    out = s.buf ++ text ↔ NoneEndsWithin last.length (s.buf ++ text).length sizes := by
  induction sizes generalizing s text out with
  | nil => exact absurd h (Option.some_ne_none _).symm
  | cons size sizes ih =>
    have hsize := hsizes size (by simp)
    have hlast : last.length ≤ (s.buf ++ text).length := by
      have hle := (hG.suffix hs hinv htext).length_le
      rw [List.length_append]
      omega
    obtain ⟨s', hloop, hreads⟩ := loop_spec hG hs hinv htext size
    rw [readUntilEof, read, if_neg (by simp [hs]; omega), hloop] at h
    obtain ⟨out', hout', rfl⟩ := Option.map_eq_some_iff.mp h
    rw [noneEndsWithin_cons hlast]
    by_cases hroom : size + last.length ≤ (s.buf ++ text).length
    · rw [if_pos hroom]
      obtain ⟨hs', text', htext', heq⟩ := hreads.left hroom
      have ih := ih hs' hreads.inv htext' (fun size hmem => hsizes size (by simp [hmem])) hout'
      rw [heq, List.length_drop] at ih
      have hlen : ((s.buf ++ text).take size).length = size :=
        List.length_take_of_le (by omega)
      rw [← ih]
      constructor
      · intro heq'
        have hdrop := congrArg (List.drop size) heq'
        rwa [List.drop_append_of_le_length hlen.ge, List.drop_of_length_le hlen.le,
          List.nil_append] at hdrop
      · intro heq'
        rw [heq', List.take_append_drop]
    · rw [if_neg hroom]
      obtain rfl := readUntilEof_of_complete (hreads.complete (by omega)) hout'
      rw [List.append_nil, List.take_eq_self_iff]

theorem readUntilEof_prefix (hG : EndsWith G Inv last) {s : EmailGenerator σ}
    (hs : G.inProgress s.impl) (hinv : Inv s.impl) {text : List UInt8}
    (htext : G.emitted s.impl = some text) {sizes : List Nat} {out : List UInt8}
    (h : readUntilEof G sizes s = some out) : out <+: s.buf ++ text := by
  induction sizes generalizing s text out with
  | nil => exact absurd h (Option.some_ne_none _).symm
  | cons size sizes ih =>
    obtain ⟨s', hloop, hreads⟩ := loop_spec hG hs hinv htext size
    by_cases hsize : size = 0
    · rw [readUntilEof, read, if_pos (Or.inr hsize)] at h
      obtain rfl := Option.some.inj h
      exact List.nil_prefix
    · rw [readUntilEof, read, if_neg (by simp [hs, hsize]), hloop] at h
      obtain ⟨out', hout', rfl⟩ := Option.map_eq_some_iff.mp h
      by_cases hroom : size + last.length ≤ (s.buf ++ text).length
      · obtain ⟨hs', text', htext', heq⟩ := hreads.left hroom
        have hstart := ih hs' hreads.inv htext' hout'
        rw [heq] at hstart
        have happend := (List.prefix_append_right_inj ((s.buf ++ text).take size)).mpr hstart
        rwa [List.take_append_drop] at happend
      · obtain rfl := readUntilEof_of_complete (hreads.complete (by omega)) hout'
        rw [List.append_nil]
        exact List.take_prefix _ _

theorem readUntilEof_of_last (hG : EndsWith G Inv last) {s : EmailGenerator σ}
    (hs : G.inProgress s.impl) (hinv : Inv s.impl) {text : List UInt8}
    (htext : G.emitted s.impl = some text) {size : Nat} (hsize : 0 < size)
    (hlast : (s.buf ++ text).length < size + last.length) (next : Nat) (sizes : List Nat) :
    readUntilEof G (size :: next :: sizes) s = some ((s.buf ++ text).take size) := by
  obtain ⟨s', hloop, hreads⟩ := loop_spec hG hs hinv htext size
  rw [readUntilEof, read, if_neg (by simp [hs]; omega), hloop]
  dsimp only [Option.map_some]
  rw [readUntilEof, read, if_pos (Or.inl (hreads.complete hlast)), Option.map_some,
    List.append_nil]

theorem emitted_of_loop {rest : Nat} {s s' : EmailGenerator σ} {out text : List UInt8}
    (h : loop G rest s = some (out, s')) (htext : G.emitted s'.impl = some text) :
    ∃ text', G.emitted s.impl = some text' := by
  induction hn : G.work s.impl + rest using Nat.strong_induction_on
    generalizing s rest out with
  | _ n ih =>
    subst hn
    rw [loop] at h
    split_ifs at h with hrest hbuf
    · split at h
      next => exact absurd h (Option.some_ne_none _).symm
      next burst impl hburst =>
        obtain ⟨r, hr, heq⟩ := Option.map_eq_some_iff.mp h
        obtain ⟨-, rfl⟩ := Prod.mk.inj heq
        have hlt := G.work_lt hburst
        obtain ⟨text', htext'⟩ := ih _ (by dsimp only; omega) hr rfl
        rw [BurstGenerator.emitted_of_burst hrest.1 hburst, htext']
        exact ⟨_, rfl⟩
    · obtain ⟨r, hr, heq⟩ := Option.map_eq_some_iff.mp h
      obtain ⟨-, rfl⟩ := Prod.mk.inj heq
      have hpos := List.length_pos_of_ne_nil hbuf
      exact ih (G.work s.impl + (rest - min s.buf.length rest)) (by omega)
        (s := { s with buf := s.buf.drop rest }) hr rfl
    · obtain ⟨-, rfl⟩ := Prod.mk.inj (Option.some.inj h)
      exact ⟨text, htext⟩

theorem emitted_of_readUntilEof {s : EmailGenerator σ} {sizes : List Nat}
    (hsizes : ∀ size ∈ sizes, 0 < size) {out : List UInt8}
    (h : readUntilEof G sizes s = some out) : ∃ text, G.emitted s.impl = some text := by
  induction sizes generalizing s out with
  | nil => exact absurd h (Option.some_ne_none _).symm
  | cons size sizes ih =>
    by_cases hs : G.inProgress s.impl
    · have hsize := hsizes size (by simp)
      rw [readUntilEof, read, if_neg (by simp [hs]; omega)] at h
      cases hloop : loop G size s with
      | none =>
        rw [hloop] at h
        exact absurd h (Option.some_ne_none _).symm
      | some r =>
        rw [hloop] at h
        obtain ⟨out', hout', -⟩ := Option.map_eq_some_iff.mp h
        obtain ⟨text, htext⟩ := ih (fun size hmem => hsizes size (by simp [hmem])) hout'
        exact emitted_of_loop hloop htext
    · exact ⟨[], BurstGenerator.emitted_of_complete hs⟩

end EmailGenerator

end Bursts

namespace GeneratorImpl

variable (L : Locale) (fresh : Message → Nat → UInt8)

/-- No boundary ends the message. -/
def TopLevel : GeneratorImpl → Prop
  | header _ _ boundary => boundary = none
  | payload _ parentBoundary _ _ _ _ => parentBoundary = none
  | complete => True

def terminator : List UInt8 := octets "\r\n.\r\n"

theorem topLevel_afterInput (childBoundary : Option (List UInt8)) (input : FilteringIstream)
    (it : List Message) (textMode : Bool) :
    let r := afterInput childBoundary none input it textMode
    r.2.TopLevel ∧ (¬ r.2.inProgress → r.1 = terminator) := by
  unfold afterInput
  split
  next => exact ⟨rfl, fun h => absurd rfl h⟩
  next => exact ⟨trivial, fun _ => rfl⟩

theorem topLevel_generate {g g' : GeneratorImpl} {burst : List UInt8} (hg : g.TopLevel)
    (h : g.generate L fresh = some (burst, g')) :
    g'.TopLevel ∧ (¬ g'.inProgress → burst = terminator) := by
  cases g with
  | header email it boundary =>
    cases it with
    | nil =>
      obtain ⟨-, rfl⟩ := Prod.mk.inj (Option.some.inj h)
      exact ⟨hg, fun h => absurd rfl h⟩
    | cons elem it =>
      obtain ⟨out, -, heq⟩ := Option.map_eq_some_iff.mp h
      obtain ⟨-, rfl⟩ := Prod.mk.inj heq
      exact ⟨hg, fun h => absurd rfl h⟩
  | payload childBoundary parentBoundary input it textMode subpart =>
    obtain rfl : parentBoundary = none := hg
    have hafter := fun input => topLevel_afterInput childBoundary input it textMode
    rw [generate] at h
    split_ifs at h with hsubpart hgood htext
    · obtain ⟨r, -, heq⟩ := Option.map_eq_some_iff.mp h
      obtain ⟨-, rfl⟩ := Prod.mk.inj heq
      exact ⟨rfl, fun h => absurd rfl h⟩
    · split at h
      next =>
        obtain ⟨-, rfl⟩ := Prod.mk.inj (Option.some.inj h)
        exact ⟨rfl, fun h => absurd rfl h⟩
      next input' _ =>
        have hinput := hafter input'
        rwa [Option.some.inj h] at hinput
    · split at h
      next input' _ =>
        have hinput := hafter input'
        rwa [Option.some.inj h] at hinput
      next =>
        obtain ⟨-, rfl⟩ := Prod.mk.inj (Option.some.inj h)
        exact ⟨rfl, fun h => absurd rfl h⟩
    · have hinput := hafter input
      rwa [Option.some.inj h] at hinput
  | complete => exact absurd h (Option.some_ne_none _).symm

theorem bursts_endsWith : EndsWith (bursts L fresh) TopLevel terminator :=
  ⟨fun hg h => (topLevel_generate L fresh hg h).1,
    fun hg h hend => (topLevel_generate L fresh hg h).2 hend⟩

end GeneratorImpl

section Message

variable (L : Locale) (fresh : Message → Nat → UInt8)

/-- All octets of an email. -/
def Message.generated (email : Message) : Option (List UInt8) :=
  (GeneratorImpl.bursts L fresh).emitted (.init email)

/-- What reads of some sizes return up to `EOF`. -/
def Message.readUntilEof (email : Message) (sizes : List Nat) : Option (List UInt8) :=
  EmailGenerator.readUntilEof (GeneratorImpl.bursts L fresh) sizes ⟨.init email, []⟩

/-- Two sequences of reads return the same complete message exactly if no read of either ends
inside the terminator. -/
theorem readUntilEof_complete_iff (email : Message) {sizes sizes' : List Nat}
    (hsizes : ∀ size ∈ sizes, 0 < size) (hsizes' : ∀ size ∈ sizes', 0 < size)
    {out out' : List UInt8} (h : email.readUntilEof L fresh sizes = some out)
    (h' : email.readUntilEof L fresh sizes' = some out') :
    ∃ message, email.generated L fresh = some message ∧ GeneratorImpl.terminator <:+ message ∧
      (out = message ∧ out' = message ↔
        EmailGenerator.NoneEndsWithin 5 message.length sizes ∧
          EmailGenerator.NoneEndsWithin 5 message.length sizes') := by
  have hG := GeneratorImpl.bursts_endsWith L fresh
  have hprogress : (GeneratorImpl.bursts L fresh).inProgress (.init email) := rfl
  have htop : (GeneratorImpl.init email).TopLevel := rfl
  obtain ⟨message, hmessage⟩ := EmailGenerator.emitted_of_readUntilEof hsizes h
  refine ⟨message, hmessage, hG.suffix hprogress htop hmessage, ?_⟩
  have hiff := EmailGenerator.readUntilEof_iff hG hprogress htop hmessage hsizes h
  have hiff' := EmailGenerator.readUntilEof_iff hG hprogress htop hmessage hsizes' h'
  exact and_congr hiff hiff'

theorem generated_empty : Message.generated L fresh ⟨[], [], []⟩ =
    some (octets "\r\n\r\n.\r\n") := by
  let g : GeneratorImpl := .payload none none ⟨[], false, true⟩ [] false .complete
  have hheader : (GeneratorImpl.bursts L fresh).generate (.init ⟨[], [], []⟩) = some (crlf, g) :=
    rfl
  have hpayload : (GeneratorImpl.bursts L fresh).generate g =
      some (GeneratorImpl.terminator, .complete) := rfl
  rw [Message.generated, BurstGenerator.emitted_of_burst rfl hheader,
    BurstGenerator.emitted_of_burst rfl hpayload,
    BurstGenerator.emitted_of_complete Bool.false_ne_true]
  rfl

theorem readUntilEof_empty {size : Nat} (hsize : 2 < size) :
    Message.readUntilEof L fresh ⟨[], [], []⟩ [size, 1] =
      some ((octets "\r\n\r\n.\r\n").take size) := by
  have hprogress : (GeneratorImpl.bursts L fresh).inProgress (.init ⟨[], [], []⟩) := rfl
  have htop : (GeneratorImpl.init ⟨[], [], []⟩).TopLevel := rfl
  have hlast : (octets "\r\n\r\n.\r\n").length < size + GeneratorImpl.terminator.length := by
    have hmessage : (octets "\r\n\r\n.\r\n").length = 7 := by decide
    have hterminator : GeneratorImpl.terminator.length = 5 := by decide
    omega
  exact EmailGenerator.readUntilEof_of_last (GeneratorImpl.bursts_endsWith L fresh)
    (s := ⟨.init ⟨[], [], []⟩, []⟩) hprogress htop (generated_empty L fresh) (by omega) hlast 1 []

end Message

theorem readUntilEof_complete_iff_of_empty :
    ∃ message, Message.generated utf8Locale (fun _ _ => 0) ⟨[], [], []⟩ = some message ∧
      GeneratorImpl.terminator <:+ message ∧
      ((octets "\r\n\r\n.\r\n").take 8 = message ∧ (octets "\r\n\r\n.\r\n").take 4 = message ↔
        EmailGenerator.NoneEndsWithin 5 message.length [8, 1] ∧
          EmailGenerator.NoneEndsWithin 5 message.length [4, 1]) :=
  readUntilEof_complete_iff utf8Locale (fun _ _ => 0) ⟨[], [], []⟩ (by decide) (by decide)
    (readUntilEof_empty _ _ (by decide)) (readUntilEof_empty _ _ (by decide))

/-- A buffer of four octets ends inside the terminator, and the rest of it is lost. -/
theorem readUntilEof_loses_terminator :
    ∃ out out', Message.readUntilEof utf8Locale (fun _ _ => 0) ⟨[], [], []⟩ [4, 1] = some out ∧
      Message.readUntilEof utf8Locale (fun _ _ => 0) ⟨[], [], []⟩ [8, 1] = some out' ∧
      out ≠ out' ∧ ¬ GeneratorImpl.terminator <:+ out :=
  ⟨_, _, readUntilEof_empty _ _ (by decide), readUntilEof_empty _ _ (by decide), by decide,
    by decide⟩

end Email

end Acqua
