import Mathlib

/-! Loops over records that begin with their length and are laid one behind the other. Memory is
the list of what stands from the pointer to the end of the buffer. The length that is left is
unsigned, and it wraps when a record is padded over the end. -/

namespace Acqua

/-- The length of a record with its padding. -/
def align4 (n : Nat) : Nat := (n + 3) / 4 * 4

def wrapSub (len n : Nat) : Nat := (len + 2 ^ 64 - n) % 2 ^ 64

theorem wrapSub_add {n extra : Nat} (h : n + extra < 2 ^ 64) : wrapSub (n + extra) n = extra := by
  rw [wrapSub]
  omega

theorem le_align4 (n : Nat) : n ≤ align4 n ∧ align4 n < n + 4 := by
  rw [align4]
  omega

variable {α σ : Type*} (header : Nat) (lengthOf : List α → Option Nat)
  (body : List α → σ → Option (Option σ))

/-- A round reads a length and runs the body, which stops the loop where it returns `some none`.
There is no result once something outside of the buffer is read. -/
def recordLoop : Nat → List α → Nat → σ → Option σ
  | 0, _, _, s => some s
  | fuel + 1, mem, len, s =>
    if header ≤ len then
      match lengthOf mem with
      | none => none
      | some l =>
        if header ≤ l ∧ l ≤ len then
          match body mem s with
          | none => none
          | some none => some s
          | some (some s) => recordLoop fuel (mem.drop (align4 l)) (wrapSub len (align4 l)) s
        else some s
    else some s

variable {header lengthOf body} {mem r rest : List α} {len l extra fuel : Nat} {s s' : σ}

theorem recordLoop_of_short (h : len < header) :
    recordLoop header lengthOf body fuel mem len s = some s := by
  cases fuel with
  | zero => rfl
  | succ fuel => rw [recordLoop, if_neg (Nat.not_le_of_lt h)]

/-- A record that is longer than what is left is not looked at. -/
theorem recordLoop_of_long (hlength : lengthOf mem = some l) (h : ¬ (header ≤ l ∧ l ≤ len)) :
    recordLoop header lengthOf body (fuel + 1) mem len s = some s := by
  by_cases hheader : header ≤ len
  · simp only [recordLoop, if_pos hheader, hlength, if_neg h]
  · rw [recordLoop, if_neg hheader]

theorem recordLoop_of_stop (hlength : lengthOf mem = some l) (hl : header ≤ l) (hlen : l ≤ len)
    (hbody : body mem s = some none) :
    recordLoop header lengthOf body (fuel + 1) mem len s = some s := by
  simp only [recordLoop, if_pos (hl.trans hlen), hlength, if_pos (And.intro hl hlen), hbody]

theorem recordLoop_of_record (hlength : lengthOf (r ++ rest) = some l) (hl : header ≤ l)
    (hsize : align4 l = r.length) (hlen : r.length + extra < 2 ^ 64)
    (hbody : body (r ++ rest) s = some (some s')) :
    recordLoop header lengthOf body (fuel + 1) (r ++ rest) (r.length + extra) s =
      recordLoop header lengthOf body fuel rest extra s' := by
  have hle : l ≤ r.length + extra := by
    have := (le_align4 l).1
    omega
  simp only [recordLoop, if_pos (hl.trans hle), hlength, if_pos (And.intro hl hle), hbody, hsize,
    wrapSub_add hlen, List.drop_left]

/-- More fuel than there is memory changes nothing, as each round goes on behind a header. -/
theorem recordLoop_fuel (hempty : lengthOf [] = none) (hheader : 0 < header)
    (hfuel : mem.length < fuel) (more : Nat) :
    recordLoop header lengthOf body (fuel + more) mem len s =
      recordLoop header lengthOf body fuel mem len s := by
  induction fuel generalizing mem len s with
  | zero => omega
  | succ fuel ih =>
    rw [Nat.add_right_comm, recordLoop, recordLoop]
    by_cases hlen : header ≤ len
    · rw [if_pos hlen, if_pos hlen]
      rcases hlength : lengthOf mem with _ | l
      · rfl
      · have hmem : mem ≠ [] := by
          rintro rfl
          rw [hempty] at hlength
          cases hlength
        by_cases hl : header ≤ l ∧ l ≤ len
        · have hdrop : (mem.drop (align4 l)).length < fuel := by
            have hpos := List.length_pos_iff.mpr hmem
            have hle := (le_align4 l).1
            rw [List.length_drop]
            omega
          simp only [if_pos hl, ih hdrop]
        · simp only [if_neg hl]
    · rw [if_neg hlen, if_neg hlen]

/-- A loop over records keeps what its body keeps, where `R` tells of the records that are done. -/
theorem recordLoop_records {ρ : Type*} (render : ρ → List α) (size : ρ → Nat)
    {R : σ → List ρ → Prop} (rs : List ρ)
    (hrs : ∀ r ∈ rs, ∀ rest, lengthOf (render r ++ rest) = some (size r) ∧ header ≤ size r ∧
      align4 (size r) = (render r).length ∧
      ∀ s done, R s done → ∃ s', body (render r ++ rest) s = some (some s') ∧ R s' (done ++ [r]))
    (hlen : (rs.flatMap render).length + extra < 2 ^ 64) (rest : List α) {done : List ρ}
    (hR : R s done) :
    ∃ s', R s' (done ++ rs) ∧
      recordLoop header lengthOf body (fuel + rs.length) (rs.flatMap render ++ rest)
        ((rs.flatMap render).length + extra) s = recordLoop header lengthOf body fuel rest extra s' := by
  induction rs generalizing s done with
  | nil =>
    refine ⟨s, by rwa [List.append_nil], ?_⟩
    simp only [List.flatMap_nil, List.nil_append, List.length_nil, Nat.zero_add, Nat.add_zero]
  | cons r rs ih =>
    rw [List.flatMap_cons, List.length_append, Nat.add_assoc] at hlen
    obtain ⟨hlength, hheader, hsize, hbody⟩ :=
      hrs r List.mem_cons_self (rs.flatMap render ++ rest)
    obtain ⟨s₁, hstep, hR₁⟩ := hbody s done hR
    obtain ⟨s', hR', hloop⟩ :=
      ih (fun r' hr' => hrs r' (List.mem_cons_of_mem _ hr')) (by omega) hR₁
    rw [List.append_assoc, List.singleton_append] at hR'
    refine ⟨s', hR', ?_⟩
    rw [List.flatMap_cons, List.append_assoc, List.length_append, Nat.add_assoc, List.length_cons,
      ← Nat.add_assoc, recordLoop_of_record hlength hheader hsize hlen hstep, hloop]

end Acqua
