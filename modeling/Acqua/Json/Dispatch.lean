import Acqua.Json.Parser

/-! The loop of `write` around `parse_1`. A character is handed back at most once, by the
literal or number that it ends. -/

namespace Acqua

namespace Json

theorem map_eq_ok {α β : Type} {f : α → β} {e : Except Fault α} {y : β}
    (h : e.map f = .ok y) : ∃ x, e = .ok x ∧ f x = y := by
  cases e with
  | error _ => simp [Except.map] at h
  | ok x => exact ⟨x, rfl, by simpa [Except.map] using h⟩

theorem eq_any_of_not_inProgress {p : ParserImpl} (hp : ¬ p.inProgress) : p = .any false := by
  cases p <;> simp_all [ParserImpl.inProgress]

/-- Whether the innermost parser is one of a literal or a number. -/
def ParserImpl.scanning : ParserImpl → Bool
  | .lit _ => true
  | .num _ => true
  | .arr (some data) _ => data.scanning
  | .obj _ (some val) _ => val.scanning
  | _ => false

def ParserImpl.container : ParserImpl → Bool
  | .arr _ _ => true
  | .obj _ _ _ => true
  | _ => false

theorem ParserImpl.inProgress_of_container {p : ParserImpl} (hp : p.container) :
    p.inProgress := by
  cases p <;> simp_all [ParserImpl.container, ParserImpl.inProgress]

section Dispatch

variable (utf : Nat → List UInt8)

theorem scan_cases {σ : Type} {wrap : σ → ParserImpl} {next : Option σ} {result : Option Scalar}
    {r r' : Record} {b : Bool} {p' : ParserImpl}
    (h : scan wrap next result r = .ok (b, p', r')) :
    (b = true ∧ ∃ p, next = some p ∧ p' = wrap p ∧ r' = r) ∨
      (b = false ∧ p' = .any false ∧ ∃ s, result = some s ∧ r' = r.addData s) := by
  cases next with
  | some p =>
    simp only [scan, Except.ok.injEq, Prod.mk.injEq] at h
    exact Or.inl ⟨h.1.symm, p, rfl, h.2.1.symm, h.2.2.symm⟩
  | none =>
    cases result with
    | some s =>
      simp only [scan, completeWith, Except.ok.injEq, Prod.mk.injEq] at h
      exact Or.inr ⟨h.1.symm, h.2.1.symm, s, rfl, h.2.2.symm⟩
    | none => simp [scan] at h

theorem skip_eq {p p' : ParserImpl} {r r' : Record} {b : Bool} {ch : UInt8}
    (h : skip p r ch = .ok (b, p', r')) : isSpace ch ∧ b = true ∧ p' = p ∧ r' = r := by
  unfold skip at h
  split_ifs at h with hch
  simp only [Except.ok.injEq, Prod.mk.injEq] at h
  exact ⟨hch, h.1.symm, h.2.1.symm, h.2.2.symm⟩

theorem arr_own {data : Option ParserImpl} {index : Nat}
    (hdata : ∀ d, data = some d → ¬ d.inProgress) {r r' : Record} {b : Bool} {p' : ParserImpl}
    {ch : UInt8} (h : parse1 utf (.arr data index) r ch = .ok (b, p', r')) :
    b = true ∧ (p' = .any false ∨ p'.container) := by
  cases data with
  | none =>
    rw [parse1] at h
    split_ifs at h with hclose
    · simp only [Except.ok.injEq, Prod.mk.injEq] at h
      exact ⟨h.1.symm, Or.inl h.2.1.symm⟩
    · obtain ⟨q, -, heq⟩ := map_eq_ok h
      simp only [Prod.mk.injEq] at heq
      obtain ⟨rfl, rfl, -⟩ := heq
      exact ⟨rfl, Or.inr rfl⟩
  | some d =>
    rw [parse1, if_neg (hdata d rfl)] at h
    split_ifs at h with hclose hcomma
    · simp only [Except.ok.injEq, Prod.mk.injEq] at h
      exact ⟨h.1.symm, Or.inl h.2.1.symm⟩
    · simp only [Except.ok.injEq, Prod.mk.injEq] at h
      obtain ⟨rfl, rfl, -⟩ := h
      exact ⟨rfl, Or.inr rfl⟩
    · obtain ⟨-, rfl, rfl, -⟩ := skip_eq h
      exact ⟨rfl, Or.inr rfl⟩

theorem obj_own {key : Option StringImpl} {val : Option ParserImpl} {first : Bool}
    (hval : ∀ v, val = some v → ¬ v.inProgress) {r r' : Record} {b : Bool} {p' : ParserImpl}
    {ch : UInt8} (h : parse1 utf (.obj key val first) r ch = .ok (b, p', r')) :
    b = true ∧ (p' = .any false ∨ p'.container) := by
  have htake : ∀ {q : ParserImpl} {s : Record}, (q = .any false ∨ q.container) →
      (.ok (true, q, s) : Outcome) = .ok (b, p', r') → b = true ∧ (p' = .any false ∨ p'.container) := by
    intro q s hq heq
    simp only [Except.ok.injEq, Prod.mk.injEq] at heq
    obtain ⟨rfl, rfl, -⟩ := heq
    exact ⟨rfl, hq⟩
  have hskip : ∀ {q : ParserImpl} {s : Record}, q.container →
      skip q s ch = .ok (b, p', r') → b = true ∧ (p' = .any false ∨ p'.container) := by
    intro q s hq heq
    obtain ⟨-, rfl, rfl, -⟩ := skip_eq heq
    exact ⟨rfl, Or.inr hq⟩
  cases val with
  | some v =>
    rw [parse1, if_neg (hval v rfl)] at h
    split_ifs at h with hclose hcomma
    · exact htake (Or.inl rfl) h
    · exact htake (Or.inr rfl) h
    · exact hskip rfl h
  | none =>
    cases key with
    | none =>
      rw [parse1] at h
      split_ifs at h with hclose hquote
      · exact htake (Or.inl rfl) h
      · exact htake (Or.inr rfl) h
      · exact hskip rfl h
    | some key =>
      rw [parse1] at h
      split_ifs at h with hprogress hcloses hcolon
      · exact htake (Or.inr rfl) h
      · obtain ⟨rfl, q, -, rfl, -⟩ | ⟨-, -, s, hs, -⟩ := scan_cases h
        · exact ⟨rfl, Or.inr rfl⟩
        · simp at hs
      · exact htake (Or.inr rfl) h
      · exact hskip rfl h

theorem arr_child {data : ParserImpl} {index : Nat} (hdata : data.inProgress) {r r' : Record}
    {b : Bool} {p' : ParserImpl} {ch : UInt8}
    (h : parse1 utf (.arr (some data) index) r ch = .ok (b, p', r')) :
    ∃ data' child, parse1 utf data r.last ch = .ok (b, data', child) ∧
      p' = .arr (some data') index ∧ r' = r.setLast child := by
  rw [parse1, if_pos hdata] at h
  obtain ⟨⟨b', data', child⟩, hstep, heq⟩ := map_eq_ok h
  simp only [Prod.mk.injEq] at heq
  obtain ⟨rfl, rfl, rfl⟩ := heq
  exact ⟨data', child, hstep, rfl, rfl⟩

theorem obj_child {key : Option StringImpl} {val : ParserImpl} {first : Bool}
    (hval : val.inProgress) {r r' : Record} {b : Bool} {p' : ParserImpl} {ch : UInt8}
    (h : parse1 utf (.obj key (some val) first) r ch = .ok (b, p', r')) :
    ∃ val' child, parse1 utf val r.last ch = .ok (b, val', child) ∧
      p' = .obj key (some val') first ∧ r' = r.setLast child := by
  rw [parse1, if_pos hval] at h
  obtain ⟨⟨b', val', child⟩, hstep, heq⟩ := map_eq_ok h
  simp only [Prod.mk.injEq] at heq
  obtain ⟨rfl, rfl, rfl⟩ := heq
  exact ⟨val', child, hstep, rfl, rfl⟩

theorem parse1_returns (p : ParserImpl) {r r' : Record} {b : Bool} {p' : ParserImpl} {ch : UInt8}
    (h : parse1 utf p r ch = .ok (b, p', r')) :
    (p.scanning = false → b = true) ∧ (b = false → p'.scanning = false) := by
  match p with
  | .any _ =>
    obtain ⟨q, -, heq⟩ := map_eq_ok h
    simp only [Prod.mk.injEq] at heq
    simp [← heq.1]
  | .lit p =>
    obtain ⟨rfl, -⟩ | ⟨rfl, rfl, -⟩ := scan_cases h <;> simp [ParserImpl.scanning]
  | .num p =>
    obtain ⟨rfl, -⟩ | ⟨rfl, rfl, -⟩ := scan_cases h <;> simp [ParserImpl.scanning]
  | .str p =>
    rw [parse1] at h
    split_ifs at h with hcloses
    · simp only [completeWith, Except.ok.injEq, Prod.mk.injEq] at h
      simp [← h.1]
    · obtain ⟨rfl, -⟩ | ⟨-, -, s, hs, -⟩ := scan_cases h
      · simp
      · simp at hs
  | .arr none index =>
    obtain ⟨rfl, -⟩ := arr_own utf (by simp) h
    simp
  | .arr (some data) index =>
    by_cases hdata : data.inProgress
    · obtain ⟨data', child, hstep, rfl, -⟩ := arr_child utf hdata h
      have ih := parse1_returns data hstep
      simpa only [ParserImpl.scanning] using ih
    · obtain ⟨rfl, -⟩ := arr_own utf (by simpa using hdata) h
      simp
  | .obj key none first =>
    obtain ⟨rfl, -⟩ := obj_own utf (by simp) h
    simp
  | .obj key (some val) first =>
    by_cases hval : val.inProgress
    · obtain ⟨val', child, hstep, rfl, -⟩ := obj_child utf hval h
      have ih := parse1_returns val hstep
      simpa only [ParserImpl.scanning] using ih
    · obtain ⟨rfl, -⟩ := obj_own utf (by simpa using hval) h
      simp
termination_by p

theorem parse1_container {p : ParserImpl} (hp : p.container) {r r' : Record} {b : Bool}
    {p' : ParserImpl} {ch : UInt8} (h : parse1 utf p r ch = .ok (b, p', r')) :
    p'.container ∨ (b = true ∧ p' = .any false) := by
  cases p with
  | arr data index =>
    by_cases hdata : ∀ d, data = some d → ¬ d.inProgress
    · obtain ⟨rfl, rfl | hp'⟩ := arr_own utf hdata h
      · exact Or.inr ⟨rfl, rfl⟩
      · exact Or.inl hp'
    · push Not at hdata
      obtain ⟨d, rfl, hd⟩ := hdata
      obtain ⟨_, _, -, rfl, -⟩ := arr_child utf hd h
      exact Or.inl rfl
  | obj key val first =>
    by_cases hval : ∀ v, val = some v → ¬ v.inProgress
    · obtain ⟨rfl, rfl | hp'⟩ := obj_own utf hval h
      · exact Or.inr ⟨rfl, rfl⟩
      · exact Or.inl hp'
    · push Not at hval
      obtain ⟨v, rfl, hv⟩ := hval
      obtain ⟨_, _, -, rfl, -⟩ := obj_child utf hv h
      exact Or.inl rfl
  | _ => simp [ParserImpl.container] at hp

theorem map_eq_error {α β : Type} {f : α → β} {e : Except Fault α} {fault : Fault}
    (h : e.map f = .error fault) : e = .error fault := by
  cases e with
  | error _ => simpa [Except.map] using h
  | ok x => simp [Except.map] at h

theorem anyParser_error {ch : UInt8} {e : Fault} (h : anyParser ch = .error e) :
    e = .syntaxError := by
  unfold anyParser at h
  split_ifs at h
  injection h with h
  exact h.symm

theorem scan_error {σ : Type} {wrap : σ → ParserImpl} {next : Option σ} {result : Option Scalar}
    {r : Record} {e : Fault} (h : scan wrap next result r = .error e) : e = .syntaxError := by
  cases next <;> cases result <;> simp_all [scan, completeWith]

theorem skip_error {p : ParserImpl} {r : Record} {ch : UInt8} {e : Fault}
    (h : skip p r ch = .error e) : e = .syntaxError := by
  unfold skip at h
  split_ifs at h
  injection h with h
  exact h.symm

theorem parse1_error (p : ParserImpl) {r : Record} {ch : UInt8} {e : Fault}
    (h : parse1 utf p r ch = .error e) : e = .syntaxError := by
  match p with
  | .any _ => exact anyParser_error (map_eq_error h)
  | .lit p => exact scan_error h
  | .num p => exact scan_error h
  | .str p =>
    rw [parse1] at h
    split_ifs at h
    · simp [completeWith] at h
    · exact scan_error h
  | .arr none index =>
    rw [parse1] at h
    split_ifs at h
    exact anyParser_error (map_eq_error h)
  | .arr (some data) index =>
    rw [parse1] at h
    split_ifs at h
    · exact parse1_error data (map_eq_error h)
    · exact skip_error h
  | .obj none none first =>
    rw [parse1] at h
    split_ifs at h
    exact skip_error h
  | .obj (some key) none first =>
    rw [parse1] at h
    split_ifs at h
    · exact scan_error h
    · exact skip_error h
  | .obj key (some val) first =>
    rw [parse1] at h
    split_ifs at h
    · exact parse1_error val (map_eq_error h)
    · exact skip_error h
termination_by p

/-- A parser that is neither in a literal nor in a number takes the character at once. -/
theorem feed_of_not_scanning {p : ParserImpl} (hp : p.scanning = false) (fuel : Nat) (r : Record)
    (ch : UInt8) : feed utf (fuel + 1) p r ch = parse1 utf p r ch := by
  rw [feed]
  cases hstep : parse1 utf p r ch with
  | error e => rfl
  | ok result =>
    obtain ⟨b, p', r'⟩ := result
    have hb := (parse1_returns utf p hstep).1 hp
    simp only [hb, true_or, if_true]

theorem feed_add_two (fuel : Nat) (p : ParserImpl) (r : Record) (ch : UInt8) :
    feed utf (fuel + 2) p r ch =
      match parse1 utf p r ch with
      | .error e => .error e
      | .ok (b, p', r') => if b ∨ ¬ p'.inProgress then .ok (b, p', r') else parse1 utf p' r' ch := by
  rw [feed]
  cases hstep : parse1 utf p r ch with
  | error e => rfl
  | ok result =>
    obtain ⟨b, p', r'⟩ := result
    by_cases hdone : b ∨ ¬ p'.inProgress
    · simp only [hdone, if_true]
    · have hb : b = false := by simpa using (not_or.mp hdone).1
      simp only [hdone, if_false]
      exact feed_of_not_scanning utf ((parse1_returns utf p hstep).2 hb) fuel r' ch

theorem feed_two (p : ParserImpl) (r : Record) (ch : UInt8) :
    feed utf 2 p r ch =
      match parse1 utf p r ch with
      | .error e => .error e
      | .ok (b, p', r') => if b ∨ ¬ p'.inProgress then .ok (b, p', r') else parse1 utf p' r' ch :=
  feed_add_two utf 0 p r ch

theorem feed_error {p : ParserImpl} {r : Record} {ch : UInt8} {e : Fault}
    (h : feed utf 2 p r ch = .error e) : e = .syntaxError := by
  rw [feed_two] at h
  cases hstep : parse1 utf p r ch with
  | error e' =>
    rw [hstep] at h
    injection h with h
    exact h ▸ parse1_error utf p hstep
  | ok result =>
    obtain ⟨b, p', r'⟩ := result
    simp only [hstep] at h
    split_ifs at h
    exact parse1_error utf p' h

/-- A container takes every character, and ends only with a character that it takes. -/
theorem feed_container {p : ParserImpl} (hp : p.container) {r r' : Record} {b : Bool}
    {p' : ParserImpl} {ch : UInt8} (h : feed utf 2 p r ch = .ok (b, p', r')) :
    b = true ∧ (p'.container ∨ p' = .any false) := by
  rw [feed_two] at h
  cases hstep : parse1 utf p r ch with
  | error e => simp [hstep] at h
  | ok result =>
    obtain ⟨b₁, p₁, r₁⟩ := result
    simp only [hstep] at h
    obtain hp₁ | ⟨rfl, rfl⟩ := parse1_container utf hp hstep
    · by_cases hb₁ : b₁
      · simp only [hb₁, true_or, if_true, Except.ok.injEq, Prod.mk.injEq] at h
        obtain ⟨rfl, rfl, -⟩ := h
        exact ⟨rfl, Or.inl hp₁⟩
      · have hprogress := ParserImpl.inProgress_of_container hp₁
        simp only [hb₁, hprogress, not_true_eq_false] at h
        have hscanning := (parse1_returns utf p hstep).2 (by simpa using hb₁)
        have hb := (parse1_returns utf p₁ h).1 hscanning
        obtain hp' | ⟨-, rfl⟩ := parse1_container utf hp₁ h
        · exact ⟨hb, Or.inl hp'⟩
        · exact ⟨hb, Or.inr rfl⟩
    · simp only [true_or, if_true, Except.ok.injEq, Prod.mk.injEq] at h
      obtain ⟨rfl, rfl, -⟩ := h
      exact ⟨rfl, Or.inr rfl⟩

end Dispatch

end Json

end Acqua
