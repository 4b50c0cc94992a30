import Acqua.Library.Run

/-! `sequenced_map` of `sequenced_map.hpp` over `sequenced_map_base.hpp`. An iterator is its
distance from `begin()`, and `eq` is what a `Pred()` computes. -/

namespace Acqua

structure SequencedMap (κ ν : Type*) where
  data : List (κ × ν)
  deriving DecidableEq

namespace SequencedMap

variable {κ ν : Type*} (eq : κ → κ → Bool)

def empty : SequencedMap κ ν := ⟨[]⟩

def size (m : SequencedMap κ ν) : Nat := m.data.length

def find (m : SequencedMap κ ν) (key : κ) : Nat :=
  (m.data.takeWhile fun elem => !eq elem.1 key).length

/-- `insert` with a hint that it does not look at. -/
def insertHint (m : SequencedMap κ ν) (val : κ × ν) : SequencedMap κ ν × Nat :=
  let it := m.find eq val.1
  if it ≠ m.size then (m, it) else (⟨m.data ++ [val]⟩, m.size)

def insert (m : SequencedMap κ ν) (val : κ × ν) : SequencedMap κ ν × Nat × Bool :=
  let it := m.find eq val.1
  if it ≠ m.size then (m, it, false) else (⟨m.data ++ [val]⟩, m.size, true)

def emplaceHint (m : SequencedMap κ ν) (key : κ) (val : ν) : SequencedMap κ ν × Nat :=
  let it := m.find eq key
  if it ≠ m.size then (m, it) else (⟨m.data ++ [(key, val)]⟩, m.size)

def emplace (m : SequencedMap κ ν) (key : κ) (val : ν) : SequencedMap κ ν × Nat × Bool :=
  let it := m.find eq key
  if it ≠ m.size then (m, it, false) else (⟨m.data ++ [(key, val)]⟩, m.size, true)

/-- `operator[]`, which returns a reference to the value at the position. -/
def subscript [Inhabited ν] (m : SequencedMap κ ν) (key : κ) : SequencedMap κ ν × Nat :=
  let it := m.find eq key
  if it = m.size then (⟨m.data ++ [(key, default)]⟩, m.size) else (m, it)

/-- A value is changed through a reference to it. -/
def update (m : SequencedMap κ ν) (it : Nat) (f : ν → ν) : SequencedMap κ ν :=
  ⟨m.data.modify it (Prod.map id f)⟩

/-- `insert(beg, end)`. There is no iterator to return when the range is empty. -/
def insertRange (m : SequencedMap κ ν) : List (κ × ν) → SequencedMap κ ν × Option Nat
  | [] => (m, none)
  | [val] =>
    let r := m.insertHint eq val
    (r.1, some (r.2 + 1))
  | val :: vals => insertRange (m.insertHint eq val).1 vals

def erase (m : SequencedMap κ ν) (it : Nat) : SequencedMap κ ν := ⟨m.data.eraseIdx it⟩

def eraseRange (m : SequencedMap κ ν) (beg stop : Nat) : SequencedMap κ ν :=
  ⟨m.data.take beg ++ m.data.drop stop⟩

def clear (_ : SequencedMap κ ν) : SequencedMap κ ν := ⟨[]⟩

def assign (m : SequencedMap κ ν) (vals : List (κ × ν)) : SequencedMap κ ν × Option Nat :=
  m.clear.insertRange eq vals

inductive Op (κ ν : Type*)
  | insert (val : κ × ν)
  | insertHint (val : κ × ν)
  | emplace (key : κ) (val : ν)
  | emplaceHint (key : κ) (val : ν)
  | subscript (key : κ)
  | store (it : Nat) (val : ν)
  | insertRange (vals : List (κ × ν))
  | erase (it : Nat)
  | eraseRange (beg n : Nat)
  | clear
  | assign (vals : List (κ × ν))

def step [Inhabited ν] (m : SequencedMap κ ν) : Op κ ν → SequencedMap κ ν
  | .insert val => (m.insert eq val).1
  | .insertHint val => (m.insertHint eq val).1
  | .emplace key val => (m.emplace eq key val).1
  | .emplaceHint key val => (m.emplaceHint eq key val).1
  | .subscript key => (m.subscript eq key).1
  | .store it val => m.update it fun _ => val
  | .insertRange vals => (m.insertRange eq vals).1
  | .erase it => m.erase it
  | .eraseRange beg n => m.eraseRange beg (beg + n)
  | .clear => m.clear
  | .assign vals => (m.assign eq vals).1

def run [Inhabited ν] (ops : List (Op κ ν)) : SequencedMap κ ν := ops.foldl (step eq) empty

/-- No two entries are of one key. -/
def Unique (m : SequencedMap κ ν) : Prop := m.data.Pairwise fun a b => eq a.1 b.1 = false

section Put

variable {eq} {m : SequencedMap κ ν} {key : κ}

theorem find_of_absent (h : ∀ a ∈ m.data, eq a.1 key = false) : m.find eq key = m.size := by
  unfold find size
  rw [List.takeWhile_eq_self_iff.mpr]
  intro a ha
  simpa using h a ha

theorem find_of_present (h : ∃ a ∈ m.data, eq a.1 key = true) :
    ∃ x, m.data[m.find eq key]? = some x ∧ eq x.1 key = true := by
  obtain ⟨data⟩ := m
  simp only [find] at h ⊢
  induction data with
  | nil => simp at h
  | cons y data ih =>
    by_cases hy : eq y.1 key = true
    · exact ⟨y, by simp [hy], hy⟩
    · obtain ⟨x, hx, hkey⟩ := ih (by simpa [hy] using h)
      exact ⟨x, by simpa [hy] using hx, hkey⟩

theorem find_ne_size (h : ∃ a ∈ m.data, eq a.1 key = true) : m.find eq key ≠ m.size := by
  obtain ⟨x, hx, -⟩ := find_of_present h
  exact (List.getElem?_eq_some_iff.mp hx).1.ne

theorem insert_eq (val : κ × ν) :
    m.insert eq val = ((m.insertHint eq val).1, (m.insertHint eq val).2,
      decide (m.find eq val.1 = m.size)) := by
  unfold insert insertHint
  by_cases h : m.find eq val.1 = m.size <;> simp [h]

theorem subscript_eq [Inhabited ν] : m.subscript eq key = m.insertHint eq (key, default) := by
  unfold subscript insertHint
  by_cases h : m.find eq key = m.size <;> simp [h]

theorem insertHint_of_absent {val : κ × ν} (h : ∀ a ∈ m.data, eq a.1 val.1 = false) :
    m.insertHint eq val = (⟨m.data ++ [val]⟩, m.size) := by
  unfold insertHint
  rw [if_neg (by simp [find_of_absent h])]

theorem insertHint_of_present {val : κ × ν} (h : ∃ a ∈ m.data, eq a.1 val.1 = true) :
    m.insertHint eq val = (m, m.find eq val.1) := by
  unfold insertHint
  rw [if_pos (find_ne_size h)]

theorem absent_or_present (m : SequencedMap κ ν) (key : κ) :
    (∀ a ∈ m.data, eq a.1 key = false) ∨ ∃ a ∈ m.data, eq a.1 key = true := by
  by_cases h : ∃ a ∈ m.data, eq a.1 key = true
  · exact .inr h
  · exact .inl (by simpa using h)

theorem insertRange_eq (m : SequencedMap κ ν) (vals : List (κ × ν)) :
    (m.insertRange eq vals).1 = vals.foldl (fun m val => (m.insertHint eq val).1) m := by
  induction vals generalizing m with
  | nil => rfl
  | cons val vals ih =>
    cases vals with
    | nil => rfl
    | cons val' vals => exact ih (m.insertHint eq val).1

end Put

/-- The value that the call offers to the map. -/
def Op.offer [Inhabited ν] : Op κ ν → Option (κ × ν)
  | .insert val => some val
  | .insertHint val => some val
  | .emplace key val => some (key, val)
  | .emplaceHint key val => some (key, val)
  | .subscript key => some (key, default)
  | .store _ _ | .insertRange _ | .erase _ | .eraseRange _ _ | .clear | .assign _ => none

/-- A key that was put in and not erased since, with its value and the number of values that had
been offered before it. -/
structure Survivor (κ ν : Type*) where
  key : κ
  val : ν
  stamp : Nat

def Survivor.entry (a : Survivor κ ν) : κ × ν := (a.key, a.val)

/-- What was put in and erased, written down beside the map. -/
structure Record (κ ν : Type*) where
  alive : List (Survivor κ ν)
  offers : Nat

namespace Record

/-- A value is put in last, unless its key is there. -/
def offer (r : Record κ ν) (val : κ × ν) : Record κ ν :=
  if r.alive.any fun a => eq a.key val.1 then { r with offers := r.offers + 1 }
  else ⟨r.alive ++ [⟨val.1, val.2, r.offers⟩], r.offers + 1⟩

def step [Inhabited ν] (r : Record κ ν) : Op κ ν → Record κ ν
  | .insert val => r.offer eq val
  | .insertHint val => r.offer eq val
  | .emplace key val => r.offer eq (key, val)
  | .emplaceHint key val => r.offer eq (key, val)
  | .subscript key => r.offer eq (key, default)
  | .store it val => { r with alive := r.alive.modify it fun a => { a with val := val } }
  | .insertRange vals => vals.foldl (offer eq) r
  | .erase it => { r with alive := r.alive.eraseIdx it }
  | .eraseRange beg n => { r with alive := r.alive.take beg ++ r.alive.drop (beg + n) }
  | .clear => { r with alive := [] }
  | .assign vals => vals.foldl (offer eq) { r with alive := [] }

end Record

def record [Inhabited ν] (ops : List (Op κ ν)) : Record κ ν := ops.foldl (Record.step eq) ⟨[], 0⟩

section Survivors

variable {eq}

/-- The map lists what has survived. -/
def Lists (m : SequencedMap κ ν) (r : Record κ ν) : Prop := m.data = r.alive.map Survivor.entry

theorem Lists.offer {m : SequencedMap κ ν} {r : Record κ ν} (h : Lists m r) (val : κ × ν) :
    Lists (m.insertHint eq val).1 (r.offer eq val) := by
  unfold Lists at h ⊢
  unfold Record.offer
  rcases @absent_or_present _ _ eq m val.1 with hno | hyes
  · have hany : r.alive.any (fun a => eq a.key val.1) = false := by
      rw [h, List.forall_mem_map] at hno
      simpa [Survivor.entry] using hno
    rw [insertHint_of_absent hno, hany, if_neg Bool.false_ne_true, h, List.map_append]
    rfl
  · have hany : r.alive.any (fun a => eq a.key val.1) = true := by
      obtain ⟨a, ha, hkey⟩ := hyes
      rw [h] at ha
      obtain ⟨b, hb, rfl⟩ := List.mem_map.mp ha
      exact List.any_eq_true.mpr ⟨b, hb, hkey⟩
    rw [insertHint_of_present hyes, hany, if_pos rfl, h]

theorem Lists.offerAll {m : SequencedMap κ ν} {r : Record κ ν} (h : Lists m r)
    (vals : List (κ × ν)) :
    Lists (m.insertRange eq vals).1 (vals.foldl (Record.offer eq) r) := by
  rw [insertRange_eq]
  induction vals generalizing m r with
  | nil => exact h
  | cons val vals ih => exact ih (h.offer val)

variable [Inhabited ν]

theorem step_offer (m : SequencedMap κ ν) {op : Op κ ν} {val : κ × ν} (h : op.offer = some val) :
    m.step eq op = (m.insertHint eq val).1 := by
  cases op with
  | insert val =>
    cases h
    exact congrArg Prod.fst (insert_eq val)
  | emplace key val =>
    cases h
    exact congrArg Prod.fst (insert_eq (key, val))
  | insertHint _ | emplaceHint _ _ =>
    cases h
    rfl
  | subscript _ =>
    cases h
    exact congrArg Prod.fst subscript_eq
  | store _ _ | insertRange _ | erase _ | eraseRange _ _ | clear | assign _ => cases h

theorem Lists.step {m : SequencedMap κ ν} {r : Record κ ν} (h : Lists m r) (op : Op κ ν) :
    Lists (m.step eq op) (r.step eq op) := by
  have hdata : m.data = r.alive.map Survivor.entry := h
  cases op with
  | insert _ | insertHint _ | emplace _ _ | emplaceHint _ _ | subscript _ =>
    rw [step_offer _ rfl]
    exact h.offer _
  | store it val =>
    refine List.ext_getElem? fun i => ?_
    simp only [SequencedMap.step, update, Record.step, hdata, List.getElem?_modify,
      List.getElem?_map]
    cases r.alive[i]? with
    | none => rfl
    | some a => by_cases hi : it = i <;> simp [hi, Survivor.entry]
  | insertRange vals => exact h.offerAll vals
  | erase it => simp only [Lists, SequencedMap.step, erase, Record.step, hdata, List.eraseIdx_map]
  | eraseRange beg n =>
    simp only [Lists, SequencedMap.step, eraseRange, Record.step, hdata, List.map_append,
      List.map_take, List.map_drop]
  | clear => rfl
  | assign vals =>
    have hclear : Lists m.clear { r with alive := [] } := rfl
    exact hclear.offerAll vals

theorem lists_run (ops : List (Op κ ν)) : Lists (run eq ops) (record eq ops) := by
  induction ops using List.reverseRecOn with
  | nil => rfl
  | append_singleton ops op ih =>
    unfold run record at ih ⊢
    rw [List.foldl_append, List.foldl_append, List.foldl_cons, List.foldl_nil, List.foldl_cons,
      List.foldl_nil]
    exact ih.step op

/-- An earlier key is another one and was put in before. -/
def Before (eq : κ → κ → Bool) (a b : Survivor κ ν) : Prop :=
  eq a.key b.key = false ∧ a.stamp < b.stamp

structure Record.Ordered (eq : κ → κ → Bool) (r : Record κ ν) : Prop where
  before : r.alive.Pairwise (Before eq)
  past : ∀ a ∈ r.alive, a.stamp < r.offers

omit [Inhabited ν] in
theorem Record.Ordered.sublist {r : Record κ ν} (h : r.Ordered eq) {alive : List (Survivor κ ν)}
    (hsub : alive.Sublist r.alive) : Record.Ordered eq { r with alive := alive } :=
  ⟨h.before.sublist hsub, fun a ha => h.past a (hsub.subset ha)⟩

omit [Inhabited ν] in
theorem Record.Ordered.offer {r : Record κ ν} (h : r.Ordered eq) (val : κ × ν) :
    (r.offer eq val).Ordered eq := by
  unfold Record.offer
  by_cases hany : r.alive.any (fun a => eq a.key val.1) = true
  · rw [if_pos hany]
    exact ⟨h.before, fun a ha => (h.past a ha).trans (Nat.lt_succ_self _)⟩
  · rw [if_neg hany]
    constructor
    · refine List.pairwise_append.mpr ⟨h.before, List.pairwise_singleton _ _, ?_⟩
      intro a ha b hb
      obtain rfl := List.mem_singleton.mp hb
      exact ⟨by simpa using fun hkey => hany (List.any_eq_true.mpr ⟨a, ha, hkey⟩), h.past a ha⟩
    · intro a ha
      rcases List.mem_append.mp ha with ha | ha
      · exact (h.past a ha).trans (Nat.lt_succ_self _)
      · obtain rfl := List.mem_singleton.mp ha
        exact Nat.lt_succ_self _

omit [Inhabited ν] in
theorem Record.Ordered.offerAll {r : Record κ ν} (h : r.Ordered eq) (vals : List (κ × ν)) :
    (vals.foldl (Record.offer eq) r).Ordered eq :=
  foldl_invariant (show ∀ r val, Record.Ordered eq r → (Record.offer eq r val).Ordered eq from
    fun _ val hr => hr.offer val) h vals

omit [Inhabited ν] in
theorem Record.Ordered.store {r : Record κ ν} (h : r.Ordered eq) (it : Nat)
    {f : Survivor κ ν → Survivor κ ν} (hkey : ∀ a, (f a).key = a.key)
    (hstamp : ∀ a, (f a).stamp = a.stamp) :
    Record.Ordered eq { r with alive := r.alive.modify it f } := by
  have hsame : (r.alive.modify it f).map (fun a => (a.key, a.stamp)) =
      r.alive.map fun a => (a.key, a.stamp) := by
    refine List.ext_getElem? fun i => ?_
    simp only [List.getElem?_map, List.getElem?_modify]
    cases r.alive[i]? with
    | none => rfl
    | some a => by_cases hi : it = i <;> simp [hi, hkey, hstamp]
  constructor
  · have hbefore : (r.alive.map fun a => (a.key, a.stamp)).Pairwise
        fun a b => eq a.1 b.1 = false ∧ a.2 < b.2 := List.pairwise_map.mpr h.before
    rw [← hsame] at hbefore
    have hback := List.pairwise_map.mp hbefore
    exact hback
  · have hpast : ∀ a ∈ r.alive.map fun a => (a.key, a.stamp), a.2 < r.offers :=
      List.forall_mem_map.mpr h.past
    rw [← hsame] at hpast
    have hback := List.forall_mem_map.mp hpast
    exact hback

theorem Record.Ordered.step {r : Record κ ν} (h : r.Ordered eq) (op : Op κ ν) :
    (r.step eq op).Ordered eq := by
  cases op with
  | insert _ | insertHint _ | emplace _ _ | emplaceHint _ _ | subscript _ => exact h.offer _
  | store it val => exact h.store it (fun _ => rfl) fun _ => rfl
  | insertRange vals => exact h.offerAll vals
  | erase it => exact h.sublist (List.eraseIdx_sublist _ _)
  | eraseRange beg n =>
    refine h.sublist ?_
    calc
      (r.alive.take beg ++ r.alive.drop (beg + n)).Sublist (r.alive.take beg ++ r.alive.drop beg) :=
        (List.drop_sublist_drop_left _ (Nat.le_add_right beg n)).append_left _
      _ = r.alive := List.take_append_drop _ _
  | clear => exact h.sublist (List.nil_sublist _)
  | assign vals => exact (h.sublist (List.nil_sublist _)).offerAll vals

theorem ordered_record (ops : List (Op κ ν)) : (record eq ops).Ordered eq :=
  foldl_invariant (show ∀ r op, Record.Ordered eq r → (Record.step eq r op).Ordered eq from
    fun _ op hr => hr.step op) ⟨.nil, by simp⟩ ops

omit [Inhabited ν] in
/-- A call that offers a value for a key of the map leaves it alone and finds the entry. -/
theorem offer_existing (m : SequencedMap κ ν) {key : κ} (h : ∃ a ∈ m.data, eq a.1 key = true) :
    ∃ it x, m.data[it]? = some x ∧ eq x.1 key = true ∧ ∀ val,
      m.insert eq (key, val) = (m, it, false) ∧ m.insertHint eq (key, val) = (m, it) ∧
      m.emplace eq key val = (m, it, false) ∧ m.emplaceHint eq key val = (m, it) := by
  obtain ⟨x, hx, hkey⟩ := find_of_present h
  refine ⟨m.find eq key, x, hx, hkey, fun val => ?_⟩
  have hhint : m.insertHint eq (key, val) = (m, m.find eq key) := insertHint_of_present h
  have hinsert : m.insert eq (key, val) = (m, m.find eq key, false) := by
    simp [insert_eq, hhint, find_ne_size h]
  exact ⟨hinsert, hhint, hinsert, hhint⟩

/-- The map lists exactly the keys that were put in and not erased since, with no key twice and in
the order in which they were put in first, and a value offered for a key of the map changes
nothing. -/
theorem sequenced_map_ordered (ops : List (Op κ ν)) :
    let m := run eq ops
    let r := record eq ops
    m.data = r.alive.map Survivor.entry ∧ Unique eq m ∧
    r.alive.Pairwise (fun a b => a.stamp < b.stamp) ∧
    ∀ key, (∃ a ∈ m.data, eq a.1 key = true) →
      ∃ it x, m.data[it]? = some x ∧ eq x.1 key = true ∧ m.subscript eq key = (m, it) ∧ ∀ val,
        m.insert eq (key, val) = (m, it, false) ∧ m.insertHint eq (key, val) = (m, it) ∧
        m.emplace eq key val = (m, it, false) ∧ m.emplaceHint eq key val = (m, it) := by
  intro m r
  have hord : r.Ordered eq := ordered_record ops
  have hlists : m.data = r.alive.map Survivor.entry := lists_run ops
  refine ⟨hlists, ?_, hord.before.imp fun h => h.2, ?_⟩
  · rw [Unique, hlists]
    exact List.pairwise_map.mpr (hord.before.imp fun h => h.1)
  · intro key hkey
    obtain ⟨it, x, hx, hxkey, hoffer⟩ := offer_existing m hkey
    exact ⟨it, x, hx, hxkey, subscript_eq.trans (hoffer default).2.1, hoffer⟩

end Survivors

end SequencedMap

end Acqua
