import Acqua.Email.Rfc2231Decode

/-! Which parameters make `rfc2231_decode` loop for ever. -/

namespace Acqua

namespace Email

theorem length_parseInt_le {str rest : List UInt8} {n : Int} (h : parseInt str = some (n, rest)) :
    rest.length ≤ str.length := by
  unfold parseInt at h
  dsimp only at h
  generalize hdigits : (if str.head? = some (chr '-') ∨ str.head? = some (chr '+') then str.tail
    else str) = digits at h
  split_ifs at h
  all_goals
    obtain ⟨-, rfl⟩ := Prod.mk.inj (Option.some.inj h)
    refine (List.length_dropWhile_le _ digits).trans ?_
    rw [← hdigits]
    split_ifs
    · rw [List.length_tail]
      omega
    · exact le_rfl

theorem length_matchIdx_le (str : List UInt8) : (matchIdx str).2.length ≤ str.length := by
  cases str with
  | nil => exact le_rfl
  | cons ch str =>
    rw [matchIdx]
    split_ifs with hstar
    · split
      next n ch' rest hint =>
        have hle := length_parseInt_le hint
        rw [List.length_cons] at hle
        split_ifs
        · simp only [List.length_cons]
          omega
        · simp only [List.length_cons]
          omega
      next =>
        simp only [List.length_cons]
        omega
    · exact le_rfl

theorem length_matchPlain_le {val str out rest : List UInt8}
    (h : matchPlain val str = some (out, rest)) : rest.length ≤ str.length := by
  unfold matchPlain at h
  dsimp only at h
  split_ifs at h
  obtain ⟨-, rfl⟩ := Prod.mk.inj (Option.some.inj h)
  exact List.length_dropWhile_le _ str

theorem length_matchVal_le {str val rest : List UInt8} (h : matchVal str = some (val, rest)) :
    rest.length ≤ str.length := by
  cases str with
  | nil => exact absurd h (Option.some_ne_none _).symm
  | cons ch str =>
    rw [matchVal] at h
    split_ifs at h with hquote
    · split at h
      next ch' rest' hrest =>
        obtain ⟨-, rfl⟩ := Prod.mk.inj (Option.some.inj h)
        have hle := List.length_dropWhile_le (fun ch => decide (ch ≠ chr '"')) str
        rw [hrest, List.length_cons] at hle
        rw [List.length_cons]
        omega
      next => exact length_matchPlain_le h
    · exact length_matchPlain_le h

theorem length_matchParam_lt {str rest : List UInt8} {p : Param}
    (h : matchParam str = some (p, rest)) : rest.length < str.length := by
  unfold matchParam at h
  dsimp only at h
  split_ifs at h with hkey
  have hidx := length_matchIdx_le (str.dropWhile isKeyChar)
  have hsplit := congrArg List.length (List.takeWhile_append_dropWhile (p := isKeyChar) (l := str))
  have hpos := List.length_pos_of_ne_nil hkey
  rw [List.length_append] at hsplit
  split at h
  next => exact absurd h (Option.some_ne_none _).symm
  next ch rest' hrest =>
    split_ifs at h
    obtain ⟨v, hv, heq⟩ := Option.map_eq_some_iff.mp h
    obtain ⟨-, rfl⟩ := Prod.mk.inj heq
    have hle := length_matchVal_le hv
    rw [hrest, List.length_cons] at hidx
    omega

/-- The parameters that the loop finds, and where it finds none although there is something. -/
def matchParams (str : List UInt8) : List Param × List UInt8 :=
  match str with
  | [] => ([], [])
  | ch :: str =>
    if isspace ch ∨ ch = chr ';' then matchParams str
    else
      match _hmatch : matchParam (ch :: str) with
      | none => ([], ch :: str)
      | some (p, rest) =>
        let r := matchParams rest
        (p :: r.1, r.2)
termination_by str.length
decreasing_by
  · exact Nat.lt_succ_self _
  · exact length_matchParam_lt _hmatch

section Loop

variable {L : Locale} {ch : UInt8} {str : List UInt8} {fuel : Nat} {d : ParamDecoder}

theorem matchParams_of_skip (hskip : isspace ch ∨ ch = chr ';') :
    matchParams (ch :: str) = matchParams str := by
  rw [matchParams, if_pos hskip]

theorem matchParams_of_none (hskip : ¬ (isspace ch ∨ ch = chr ';'))
    (hmatch : matchParam (ch :: str) = none) : matchParams (ch :: str) = ([], ch :: str) := by
  rw [matchParams, if_neg hskip]
  split
  next => rfl
  next heq => exact absurd (hmatch.symm.trans heq) (Option.some_ne_none _).symm

theorem matchParams_of_some (hskip : ¬ (isspace ch ∨ ch = chr ';')) {p : Param}
    {rest : List UInt8} (hmatch : matchParam (ch :: str) = some (p, rest)) :
    matchParams (ch :: str) = (p :: (matchParams rest).1, (matchParams rest).2) := by
  rw [matchParams, if_neg hskip]
  split
  next heq => exact absurd (hmatch.symm.trans heq) (Option.some_ne_none _)
  next heq =>
    obtain ⟨rfl, rfl⟩ := Prod.mk.inj (Option.some.inj (hmatch.symm.trans heq))
    rfl

namespace ParamDecoder

theorem loop_of_skip (hskip : isspace ch ∨ ch = chr ';') :
    loop L (fuel + 1) (ch :: str) d = loop L fuel str d := by
  rw [loop, if_pos hskip]

theorem loop_of_none (hskip : ¬ (isspace ch ∨ ch = chr ';'))
    (hmatch : matchParam (ch :: str) = none) :
    loop L (fuel + 1) (ch :: str) d = loop L fuel (ch :: str) d := by
  rw [loop, if_neg hskip, hmatch]

theorem loop_of_error (hskip : ¬ (isspace ch ∨ ch = chr ';')) {p : Param} {rest : List UInt8}
    (hmatch : matchParam (ch :: str) = some (p, rest)) {fault : Fault}
    (hstore : d.store L p = .error fault) :
    loop L (fuel + 1) (ch :: str) d = some (.error fault) := by
  rw [loop, if_neg hskip, hmatch]
  simp only [hstore]

theorem loop_of_ok (hskip : ¬ (isspace ch ∨ ch = chr ';')) {p : Param} {rest : List UInt8}
    (hmatch : matchParam (ch :: str) = some (p, rest)) {d' : ParamDecoder}
    (hstore : d.store L p = .ok d') :
    loop L (fuel + 1) (ch :: str) d = loop L fuel rest d' := by
  rw [loop, if_neg hskip, hmatch]
  simp only [hstore]

theorem loop_stuck (hskip : ¬ (isspace ch ∨ ch = chr ';'))
    (hmatch : matchParam (ch :: str) = none) (fuel : Nat) : loop L fuel (ch :: str) d = none := by
  induction fuel with
  | zero => rfl
  | succ fuel ih => rw [loop_of_none hskip hmatch, ih]

/-- Everything that is to be stored. -/
def storeAll (L : Locale) : List Param → ParamDecoder → Except Fault ParamDecoder
  | [], d => .ok d
  | p :: ps, d =>
    match d.store L p with
    | .error fault => .error fault
    | .ok d => storeAll L ps d

theorem loop_of_consumed {r : Except Fault ParamDecoder}
    (hstore : storeAll L (matchParams str).1 d = r)
    (hend : (∃ fault, r = .error fault) ∨ (matchParams str).2 = [])
    (hfuel : str.length < fuel) : loop L fuel str d = some r := by
  obtain ⟨fuel, rfl⟩ : ∃ n, fuel = n + 1 := ⟨fuel - 1, by omega⟩
  induction str using matchParams.induct generalizing d fuel with
  | case1 =>
    rw [← hstore]
    simp [loop, matchParams, storeAll]
  | case2 ch str hskip ih =>
    rw [matchParams_of_skip hskip] at hstore hend
    rw [List.length_cons] at hfuel
    obtain ⟨fuel, rfl⟩ : ∃ n, fuel = n + 1 := ⟨fuel - 1, by omega⟩
    rw [loop_of_skip hskip]
    exact ih hstore hend fuel (by omega)
  | case3 ch str hskip hmatch =>
    rw [matchParams_of_none hskip hmatch] at hstore hend
    rcases hend with ⟨fault, rfl⟩ | hend
    · exact absurd hstore (by simp [storeAll])
    · exact absurd hend (List.cons_ne_nil _ _)
  | case4 ch str hskip p rest hmatch ih =>
    rw [matchParams_of_some hskip hmatch] at hstore hend
    rw [storeAll] at hstore
    cases hp : d.store L p with
    | error fault =>
      rw [hp] at hstore
      rw [loop_of_error hskip hmatch hp, ← hstore]
    | ok d' =>
      rw [hp] at hstore
      have hlt := length_matchParam_lt hmatch
      obtain ⟨fuel, rfl⟩ : ∃ n, fuel = n + 1 := ⟨fuel - 1, by rw [List.length_cons] at hfuel; omega⟩
      rw [loop_of_ok hskip hmatch hp]
      exact ih hstore hend fuel (by omega)

/-- However often it goes round, the loop does not get to the end of such a string. -/
theorem loop_of_stuck {d' : ParamDecoder} (hstore : storeAll L (matchParams str).1 d = .ok d')
    (hend : (matchParams str).2 ≠ []) (fuel : Nat) : loop L fuel str d = none := by
  induction str using matchParams.induct generalizing d fuel with
  | case1 => exact absurd (by rw [matchParams]) hend
  | case2 ch str hskip ih =>
    rw [matchParams_of_skip hskip] at hstore hend
    cases fuel with
    | zero => rfl
    | succ fuel =>
      rw [loop_of_skip hskip]
      exact ih hstore hend fuel
  | case3 ch str hskip hmatch => exact loop_stuck hskip hmatch fuel
  | case4 ch str hskip p rest hmatch ih =>
    rw [matchParams_of_some hskip hmatch] at hstore hend
    rw [storeAll] at hstore
    cases hp : d.store L p with
    | error fault =>
      rw [hp] at hstore
      exact absurd hstore (by simp)
    | ok next =>
      rw [hp] at hstore
      cases fuel with
      | zero => rfl
      | succ fuel =>
        rw [loop_of_ok hskip hmatch hp]
        exact ih hstore hend fuel

theorem loop_succ {r : Except Fault ParamDecoder} (h : loop L fuel str d = some r) :
    loop L (fuel + 1) str d = some r := by
  induction fuel generalizing str d with
  | zero => exact absurd h (Option.some_ne_none _).symm
  | succ fuel ih =>
    cases str with
    | nil => exact h
    | cons ch str =>
      by_cases hskip : isspace ch ∨ ch = chr ';'
      · rw [loop_of_skip hskip] at h ⊢
        exact ih h
      · cases hmatch : matchParam (ch :: str) with
        | none =>
          rw [loop_of_none hskip hmatch] at h ⊢
          exact ih h
        | some m =>
          cases hp : d.store L m.1 with
          | error fault =>
            rw [loop_of_error hskip hmatch hp] at h ⊢
            exact h
          | ok d' =>
            rw [loop_of_ok hskip hmatch hp] at h ⊢
            exact ih h

theorem loop_mono {r : Except Fault ParamDecoder} (h : loop L fuel str d = some r) {fuel' : Nat}
    (hfuel : fuel ≤ fuel') : loop L fuel' str d = some r := by
  induction fuel', hfuel using Nat.le_induction with
  | base => exact h
  | succ fuel' _ ih => exact loop_succ ih

end ParamDecoder

end Loop

section Terminates

variable (L : Locale) (str : List UInt8) (params : List (List UInt8 × List UInt8))

/-- `rfc2231_decode` comes to its end, or to an exception. -/
def Terminates : Prop :=
  ∃ fuel r, rfc2231Decode L fuel str params = some r ∧ r ≠ .error .overrun

theorem writeOld_ne_overrun (d : ParamDecoder) : d.writeOld L ≠ .error .overrun := by
  unfold ParamDecoder.writeOld
  split_ifs
  · simp
  · cases L.toUtf d.encoded d.charset <;> simp

theorem finish_ne_overrun (d : ParamDecoder) :
    (do let d ← (.ok d : Except Fault ParamDecoder)
        let d ← d.writeOld L
        return d.params) ≠ (.error .overrun : Except Fault (List (List UInt8 × List UInt8))) := by
  change (do let d ← d.writeOld L; return d.params) ≠ _
  have hold := writeOld_ne_overrun L d
  cases hr : d.writeOld L with
  | error fault =>
    rw [hr] at hold
    exact fun h => hold (by rw [← Except.error.inj h])
  | ok d' => exact fun h => nomatch h

/-- The loop ends exactly if the grammar matches wherever there is something left, or if an
exception comes first, and if no value is left by a `%`. -/
theorem terminates_iff :
    Terminates L str params ↔
      let stored := ParamDecoder.storeAll L (matchParams str).1 (.init params)
      stored = .error .throws ∨ (∃ d, stored = .ok d) ∧ (matchParams str).2 = [] := by
  dsimp only
  constructor
  · rintro ⟨fuel, r, hdecode, hr⟩
    obtain ⟨looped, hloop, rfl⟩ := Option.map_eq_some_iff.mp hdecode
    cases hstore : ParamDecoder.storeAll L (matchParams str).1 (.init params) with
    | error fault =>
      cases fault with
      | throws => exact Or.inl rfl
      | overrun =>
        have henough := ParamDecoder.loop_of_consumed hstore (Or.inl ⟨_, rfl⟩)
          (show str.length < max fuel (str.length + 1) by omega)
        have hmore := ParamDecoder.loop_mono hloop (le_max_left fuel (str.length + 1))
        obtain rfl := Option.some.inj (hmore.symm.trans henough)
        exact absurd rfl hr
    | ok d =>
      refine Or.inr ⟨⟨d, rfl⟩, ?_⟩
      by_contra hend
      have hstuck := ParamDecoder.loop_of_stuck hstore hend fuel
      exact absurd (hstuck.symm.trans hloop) (Option.some_ne_none _).symm
  · rintro (hstore | ⟨⟨d, hstore⟩, hend⟩)
    · have hloop := ParamDecoder.loop_of_consumed hstore (Or.inl ⟨_, rfl⟩)
        (Nat.lt_succ_self str.length)
      refine ⟨str.length + 1, .error .throws, ?_, fun h => nomatch h⟩
      rw [rfc2231Decode, hloop]
      rfl
    · have hloop := ParamDecoder.loop_of_consumed hstore (Or.inr hend)
        (Nat.lt_succ_self str.length)
      exact ⟨_, _, by rw [rfc2231Decode, hloop, Option.map_some], finish_ne_overrun L d⟩

/-- A parameter without `=`, and the continuation of one that is not encoded. -/
theorem not_terminates_of_bare_key :
    ¬ Terminates utf8Locale (octets "a") [] ∧ ¬ Terminates utf8Locale (octets "a*1=b") [] := by
  constructor
  · rintro ⟨fuel, r, h, -⟩
    have hstuck : ParamDecoder.loop utf8Locale fuel (octets "a") (.init []) = none :=
      ParamDecoder.loop_stuck (by decide) (by decide) fuel
    rw [rfc2231Decode, hstuck] at h
    exact absurd h (Option.some_ne_none _).symm
  · rintro ⟨fuel, r, h, -⟩
    have hstuck : ParamDecoder.loop utf8Locale fuel (octets "a*1=b") (.init []) = none :=
      ParamDecoder.loop_stuck (by decide) (by decide) fuel
    rw [rfc2231Decode, hstuck] at h
    exact absurd h (Option.some_ne_none _).symm

end Terminates

end Email

end Acqua
