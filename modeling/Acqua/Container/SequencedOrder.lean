import Acqua.Container.SequencedMultimap
import Acqua.Library.Run

/-! The order of a `sequenced_multimap` in terms of the insertions made so far. -/

namespace Acqua

namespace SequencedMultimap

variable {κ ν μ : Type*} (eq : κ → κ → Bool)

def run (ops : List (Op κ ν)) : SequencedMultimap κ ν := ops.foldl (step eq) empty

/-- The values that the call puts in beside what is there. -/
def Op.inserts : Op κ ν → Option (List (κ × ν))
  | .insert val => some [val]
  | .insertHint val => some [val]
  | .emplace key val => some [(key, val)]
  | .emplaceHint key val => some [(key, val)]
  | .insertRange vals => some vals
  | .erase _ | .eraseRange _ _ | .clear | .assign _ => none

def map (f : ν → μ) (m : SequencedMultimap κ ν) : SequencedMultimap κ μ :=
  ⟨m.data.map (Prod.map id f)⟩

/-- A value with the number of insertions before its own, and with the number of insertions
before the one that put the first entry of its group into a map without one. -/
structure Stamped (ν : Type*) where
  val : ν
  stamp : Nat
  start : Nat

/-- A map together with the number of insertions made. -/
structure Trace (κ ν : Type*) where
  map : SequencedMultimap κ (Stamped ν)
  now : Nat

namespace Trace

def start (t : Trace κ ν) (key : κ) : Nat :=
  match t.map.data.find? fun elem => eq elem.1 key with
  | some elem => elem.2.start
  | none => t.now

def insert (t : Trace κ ν) (val : κ × ν) : Trace κ ν :=
  ⟨(t.map.insertHint eq (val.1, ⟨val.2, t.now, t.start eq val.1⟩)).1, t.now + 1⟩

def step (t : Trace κ ν) : Op κ ν → Trace κ ν
  | .insert val => t.insert eq val
  | .insertHint val => t.insert eq val
  | .emplace key val => t.insert eq (key, val)
  | .emplaceHint key val => t.insert eq (key, val)
  | .insertRange vals => vals.foldl (insert eq) t
  | .erase it => ⟨t.map.erase it, t.now⟩
  | .eraseRange beg n => ⟨t.map.eraseRange beg (beg + n), t.now⟩
  | .clear => ⟨t.map.clear, t.now⟩
  | .assign vals => vals.foldl (insert eq) ⟨t.map.clear, t.now⟩

end Trace

def trace (ops : List (Op κ ν)) : Trace κ ν := ops.foldl (Trace.step eq) ⟨empty, 0⟩

section Insert

variable {eq}

/-- The first part holds no entry of the key, the second one starts with one and goes on with
entries of its key, and the third one starts with another key. -/
theorem exists_parts {l : List (κ × ν)} {key : κ} (h : l.any (fun elem => eq elem.1 key) = true) :
    ∃ pre x run post, l = pre ++ x :: (run ++ post) ∧ (∀ a ∈ pre, eq a.1 key = false) ∧
      eq x.1 key = true ∧ (∀ a ∈ run, eq x.1 a.1 = true) ∧
      (∀ b ∈ post.head?, eq x.1 b.1 = false) := by
  induction l with
  | nil => simp at h
  | cons y l ih =>
    by_cases hy : eq y.1 key = true
    · refine ⟨[], y, l.takeWhile fun elem => eq y.1 elem.1, l.dropWhile fun elem => eq y.1 elem.1,
        ?_, by simp, hy, ?_, ?_⟩
      · rw [List.takeWhile_append_dropWhile, List.nil_append]
      · intro a ha
        have := List.mem_takeWhile_imp ha
        simpa using this
      · intro b hb
        have hnot := List.head?_dropWhile_not (fun elem : κ × ν => eq y.1 elem.1) l
        rw [Option.mem_def.mp hb] at hnot
        simpa using hnot
    · obtain ⟨pre, x, run, post, hl, hpre, hx, hrun, hpost⟩ := ih (by simpa [hy] using h)
      refine ⟨y :: pre, x, run, post, by rw [hl, List.cons_append], ?_, hx, hrun, hpost⟩
      intro a ha
      rcases List.mem_cons.mp ha with rfl | ha
      · simpa using hy
      · exact hpre a ha

theorem insertHint_of_absent {m : SequencedMultimap κ ν} {val : κ × ν}
    (h : m.data.any (fun elem => eq elem.1 val.1) = false) :
    (m.insertHint eq val).1 = ⟨m.data ++ [val]⟩ := by
  have hfind : m.find eq val.1 = m.data.length := by
    unfold find
    rw [List.takeWhile_eq_self_iff.mpr]
    intro a ha
    simpa using List.any_eq_false.mp h a ha
  simp only [insertHint, hfind, List.getElem?_eq_none (Nat.le_refl _)]

theorem insertHint_of_parts {m : SequencedMultimap κ ν} {val x : κ × ν} {pre run post : List (κ × ν)}
    (h : m.data = pre ++ x :: (run ++ post)) (hpre : ∀ a ∈ pre, eq a.1 val.1 = false)
    (hx : eq x.1 val.1 = true) (hrun : ∀ a ∈ run, eq x.1 a.1 = true)
    (hpost : ∀ b ∈ post.head?, eq x.1 b.1 = false) :
    (m.insertHint eq val).1 = ⟨pre ++ x :: (run ++ val :: post)⟩ := by
  have hfind : m.find eq val.1 = pre.length := by
    unfold find
    rw [h, List.takeWhile_append_of_pos fun a ha => by simp [hpre a ha],
      List.takeWhile_cons_of_neg (by simp [hx]), List.append_nil]
  have helem : m.data[pre.length]? = some x := by
    rw [h, List.getElem?_append_right (Nat.le_refl _), Nat.sub_self, List.getElem?_cons_zero]
  have hdrop : m.data.drop (pre.length + 1) = run ++ post := by
    rw [h, List.append_cons, List.drop_left' (by simp)]
  have hstop : post.takeWhile (fun elem => eq x.1 elem.1) = [] := by
    cases post with
    | nil => rfl
    | cons b post => exact List.takeWhile_cons_of_neg (by simp [hpost b (by simp)])
  have hnext : m.advanceToNextKey eq x.1 pre.length = (pre ++ x :: run).length := by
    unfold advanceToNextKey
    rw [hdrop, List.takeWhile_append_of_pos hrun, hstop]
    simp
    omega
  have hsplit : m.data = (pre ++ x :: run) ++ post := by rw [h]; simp
  simp only [insertHint, hfind, helem, hnext, insertAt]
  rw [hsplit, List.take_left, List.drop_left]
  simp

theorem insertHint_keeps (m : SequencedMultimap κ ν) (val : κ × ν) :
    m.data.Sublist (m.insertHint eq val).1.data ∧
      (m.insertHint eq val).1.data.Perm (m.data ++ [val]) := by
  cases h : m.data.any (fun elem => eq elem.1 val.1) with
  | false =>
    rw [insertHint_of_absent h]
    exact ⟨List.sublist_append_left _ _, .refl _⟩
  | true =>
    obtain ⟨pre, x, run, post, hl, hpre, hx, hrun, hpost⟩ := exists_parts h
    rw [insertHint_of_parts hl hpre hx hrun hpost, hl]
    refine ⟨?_, ?_⟩
    · exact (((List.sublist_cons_self _ _).append_left _).cons_cons _).append_left _
    · have hmid : (run ++ val :: post).Perm ((run ++ post) ++ [val]) :=
        List.perm_middle.trans (List.perm_append_singleton val (run ++ post)).symm
      calc
        (pre ++ x :: (run ++ val :: post)).Perm (pre ++ x :: ((run ++ post) ++ [val])) :=
          (hmid.cons x).append_left pre
        _ = pre ++ x :: (run ++ post) ++ [val] := by simp

theorem insertRange_eq (m : SequencedMultimap κ ν) (vals : List (κ × ν)) :
    (m.insertRange eq vals).1 = vals.foldl (fun m val => (m.insertHint eq val).1) m := by
  induction vals generalizing m with
  | nil => rfl
  | cons val vals ih =>
    cases vals with
    | nil => rfl
    | cons val' vals => exact ih (m.insertHint eq val).1

theorem insertRange_keeps (m : SequencedMultimap κ ν) (vals : List (κ × ν)) :
    m.data.Sublist (m.insertRange eq vals).1.data ∧
      (m.insertRange eq vals).1.data.Perm (m.data ++ vals) := by
  rw [insertRange_eq]
  induction vals generalizing m with
  | nil => simp
  | cons val vals ih =>
    obtain ⟨hsub, hperm⟩ : m.data.Sublist (m.insertHint eq val).1.data ∧
        (m.insertHint eq val).1.data.Perm (m.data ++ [val]) := insertHint_keeps m val
    obtain ⟨hsub', hperm'⟩ := ih (m.insertHint eq val).1
    refine ⟨hsub.trans hsub', hperm'.trans ?_⟩
    simpa using hperm.append_right vals

theorem step_keeps (m : SequencedMultimap κ ν) {op : Op κ ν} {vals : List (κ × ν)}
    (h : op.inserts = some vals) :
    m.data.Sublist (m.step eq op).data ∧ (m.step eq op).data.Perm (m.data ++ vals) := by
  cases op with
  | insertRange vals' =>
    cases h
    exact insertRange_keeps m vals
  | insert _ | insertHint _ | emplace _ _ | emplaceHint _ _ =>
    cases h
    exact insertHint_keeps m _
  | erase _ | eraseRange _ _ | clear | assign _ => cases h

end Insert

section Stamps

variable {eq}

theorem map_any (f : ν → μ) (m : SequencedMultimap κ ν) (key : κ) :
    (m.map f).data.any (fun elem => eq elem.1 key) = m.data.any fun elem => eq elem.1 key := by
  simp only [map, List.any_map]
  rfl

theorem map_insertHint (f : ν → μ) (m : SequencedMultimap κ ν) (key : κ) (val : ν) :
    (m.insertHint eq (key, val)).1.map f = ((m.map f).insertHint eq (key, f val)).1 := by
  cases h : m.data.any (fun elem => eq elem.1 key) with
  | false =>
    rw [insertHint_of_absent h, insertHint_of_absent ((map_any f m key).trans h)]
    simp [map]
  | true =>
    obtain ⟨pre, x, run, post, hl, hpre, hx, hrun, hpost⟩ := exists_parts h
    have hl' : (m.map f).data = pre.map (Prod.map id f) ++ Prod.map id f x ::
        (run.map (Prod.map id f) ++ post.map (Prod.map id f)) := by
      simp [map, hl]
    rw [insertHint_of_parts hl hpre hx hrun hpost, insertHint_of_parts hl' ?_ hx ?_ ?_]
    · simp [map]
    · intro a ha
      obtain ⟨b, hb, rfl⟩ := List.mem_map.mp ha
      exact hpre b hb
    · intro a ha
      obtain ⟨b, hb, rfl⟩ := List.mem_map.mp ha
      exact hrun b hb
    · cases post with
      | nil => simp
      | cons b post => simpa using hpost

theorem map_insertAll (t : Trace κ ν) (vals : List (κ × ν)) :
    (vals.foldl (Trace.insert eq) t).map.map Stamped.val =
      ((t.map.map Stamped.val).insertRange eq vals).1 := by
  rw [insertRange_eq]
  induction vals generalizing t with
  | nil => rfl
  | cons val vals ih =>
    rw [List.foldl_cons, List.foldl_cons, ih]
    exact congrArg (vals.foldl fun m val => (m.insertHint eq val).1) (map_insertHint _ _ _ _)

theorem map_step (t : Trace κ ν) (op : Op κ ν) :
    (t.step eq op).map.map Stamped.val = (t.map.map Stamped.val).step eq op := by
  cases op with
  | insert _ | insertHint _ | emplace _ _ | emplaceHint _ _ => exact map_insertHint _ _ _ _
  | insertRange vals => exact map_insertAll t vals
  | erase it => simp [Trace.step, step, erase, map, List.eraseIdx_map]
  | eraseRange beg n => simp [Trace.step, step, eraseRange, map]
  | clear => rfl
  | assign vals => exact map_insertAll ⟨t.map.clear, t.now⟩ vals

theorem map_trace (ops : List (Op κ ν)) :
    (trace eq ops).map.map Stamped.val = run eq ops := by
  induction ops using List.reverseRecOn with
  | nil => rfl
  | append_singleton ops op ih =>
    unfold trace run at ih ⊢
    rw [List.foldl_append, List.foldl_append, List.foldl_cons, List.foldl_nil, List.foldl_cons,
      List.foldl_nil, ← ih]
    exact map_step _ op

/-- An earlier entry of the same group was inserted before, an earlier entry of another
group is in a group that was started before. -/
def Before (eq : κ → κ → Bool) (a b : κ × Stamped ν) : Prop :=
  if eq a.1 b.1 then a.2.start = b.2.start ∧ a.2.stamp < b.2.stamp else a.2.start < b.2.start

theorem before_of_eq {a b : κ × Stamped ν} (hab : eq a.1 b.1 = true)
    (h : a.2.start = b.2.start ∧ a.2.stamp < b.2.stamp) : Before eq a b := by
  rwa [Before, if_pos hab]

theorem before_of_ne {a b : κ × Stamped ν} (hab : eq a.1 b.1 = false)
    (h : a.2.start < b.2.start) : Before eq a b := by
  rwa [Before, if_neg (by simp [hab])]

theorem Before.of_eq {a b : κ × Stamped ν} (h : Before eq a b) (hab : eq a.1 b.1 = true) :
    a.2.start = b.2.start ∧ a.2.stamp < b.2.stamp := by
  rwa [Before, if_pos hab] at h

theorem Before.of_ne {a b : κ × Stamped ν} (h : Before eq a b) (hab : eq a.1 b.1 = false) :
    a.2.start < b.2.start := by
  rwa [Before, if_neg (by simp [hab])] at h

theorem Before.le {a b : κ × Stamped ν} (h : Before eq a b) : a.2.start ≤ b.2.start := by
  cases hab : eq a.1 b.1 with
  | true => exact (h.of_eq hab).1.le
  | false => exact (h.of_ne hab).le

structure Trace.Ordered (eq : κ → κ → Bool) (t : Trace κ ν) : Prop where
  before : t.map.data.Pairwise (Before eq)
  past : ∀ a ∈ t.map.data, a.2.start ≤ a.2.stamp ∧ a.2.stamp < t.now

theorem Trace.Ordered.sublist {t : Trace κ ν} (h : t.Ordered eq)
    {m : SequencedMultimap κ (Stamped ν)} (hm : m.data.Sublist t.map.data) :
    Trace.Ordered eq ⟨m, t.now⟩ :=
  ⟨h.before.sublist hm, fun a ha => h.past a (hm.subset ha)⟩

theorem eq_false_of_eq {a b c : κ} (heq : Equivalence fun a b => eq a b = true)
    (hbc : eq b c = true) (hac : eq a c = false) : eq a b = false := by
  by_contra hab
  have := heq.trans (by simpa using hab) hbc
  simp [hac] at this

/-- An entry with the newest stamp is put between two parts. -/
theorem Trace.Ordered.between {t : Trace κ ν} (h : t.Ordered eq) {pre post : List (κ × Stamped ν)}
    (hdata : t.map.data = pre ++ post) {e : κ × Stamped ν} (hstart : e.2.start ≤ e.2.stamp)
    (hstamp : e.2.stamp = t.now) (hto : ∀ a ∈ pre, Before eq a e)
    (hfrom : ∀ b ∈ post, Before eq e b) : Trace.Ordered eq ⟨⟨pre ++ e :: post⟩, t.now + 1⟩ := by
  obtain ⟨hpre, hpost, hacross⟩ := List.pairwise_append.mp (hdata ▸ h.before)
  constructor
  · refine List.pairwise_append.mpr ⟨hpre, List.pairwise_cons.mpr ⟨hfrom, hpost⟩, ?_⟩
    intro a ha b hb
    rcases List.mem_cons.mp hb with rfl | hb
    · exact hto a ha
    · exact hacross a ha b hb
  · intro a ha
    have hcases : a = e ∨ a ∈ t.map.data := by
      rw [hdata]
      rcases List.mem_append.mp ha with ha | ha
      · exact .inr (List.mem_append_left _ ha)
      · rcases List.mem_cons.mp ha with rfl | ha
        · exact .inl rfl
        · exact .inr (List.mem_append_right _ ha)
    rcases hcases with rfl | ha
    · exact ⟨hstart, hstamp ▸ Nat.lt_succ_self _⟩
    · exact ⟨(h.past a ha).1, (h.past a ha).2.trans (Nat.lt_succ_self _)⟩

/-- Behind the run of a group all entries are of other groups, not only the first one. -/
theorem other_of_pairwise {x : κ × Stamped ν} {post : List (κ × Stamped ν)}
    (hx : ∀ b ∈ post, Before eq x b) (hpost : post.Pairwise (Before eq))
    (hhead : ∀ p ∈ post.head?, eq x.1 p.1 = false) : ∀ b ∈ post, eq x.1 b.1 = false := by
  intro b hb
  cases post with
  | nil => exact absurd hb List.not_mem_nil
  | cons p post =>
    have hp : eq x.1 p.1 = false := hhead p rfl
    have hxp : x.2.start < p.2.start := (hx p List.mem_cons_self).of_ne hp
    rcases List.mem_cons.mp hb with rfl | hb
    · exact hp
    · by_contra hxb
      have hsame := ((hx b (List.mem_cons_of_mem p hb)).of_eq (by simpa using hxb)).1
      have hle := ((List.pairwise_cons.mp hpost).1 b hb).le
      omega

theorem Trace.Ordered.insert (heq : Equivalence fun a b => eq a b = true) {t : Trace κ ν}
    (h : t.Ordered eq) (val : κ × ν) : (t.insert eq val).Ordered eq := by
  cases hany : t.map.data.any (fun elem => eq elem.1 val.1) with
  | false =>
    have hno : ∀ a ∈ t.map.data, eq a.1 val.1 = false := by
      simpa using hany
    have hstart : t.start eq val.1 = t.now := by
      rw [Trace.start, List.find?_eq_none.mpr fun a ha => by simp [hno a ha]]
    unfold Trace.insert
    rw [insertHint_of_absent hany, hstart]
    refine h.between (List.append_nil _).symm (Nat.le_refl t.now) rfl ?_ (by simp)
    intro a ha
    obtain ⟨hle, hlt⟩ := h.past a ha
    exact before_of_ne (hno a ha) (hle.trans_lt hlt)
  | true =>
    obtain ⟨pre, x, run, post, hl, hpre, hx, hrun, hpost⟩ := exists_parts hany
    have hstart : t.start eq val.1 = x.2.start := by
      rw [Trace.start, hl, List.find?_append, List.find?_eq_none.mpr fun a ha => by
        simp [hpre a ha], Option.none_or, List.find?_cons_of_pos (by simpa using hx)]
    have hord := h.before
    rw [hl] at hord
    obtain ⟨-, hb, hacross⟩ := List.pairwise_append.mp hord
    obtain ⟨hbx, hbrest⟩ := List.pairwise_cons.mp hb
    obtain ⟨-, hbpost, -⟩ := List.pairwise_append.mp hbrest
    have hother := other_of_pairwise (fun b hb => hbx b (List.mem_append_right _ hb)) hbpost hpost
    have hxpast : x.2.start ≤ x.2.stamp ∧ x.2.stamp < t.now := h.past x (by simp [hl])
    have hdata : t.map.data = (pre ++ x :: run) ++ post := by simp [hl]
    have hinsert : t.insert eq val =
        ⟨⟨(pre ++ x :: run) ++ (val.1, ⟨val.2, t.now, x.2.start⟩) :: post⟩, t.now + 1⟩ := by
      unfold Trace.insert
      rw [insertHint_of_parts hl hpre hx hrun hpost, hstart]
      simp
    rw [hinsert]
    refine h.between hdata (hxpast.1.trans hxpast.2.le) rfl ?_ ?_
    · intro a ha
      rcases List.mem_append.mp ha with ha | ha
      · exact before_of_ne (hpre a ha)
          ((hacross a ha x List.mem_cons_self).of_ne (eq_false_of_eq heq hx (hpre a ha)))
      · have hax : eq x.1 a.1 = true ∧ a.2.start = x.2.start := by
          rcases List.mem_cons.mp ha with rfl | ha
          · exact ⟨heq.refl _, rfl⟩
          · exact ⟨hrun a ha, ((hbx a (by simp [ha])).of_eq (hrun a ha)).1.symm⟩
        have hpast : a.2.stamp < t.now :=
          (h.past a (hdata ▸ List.mem_append_left _ (List.mem_append_right _ ha))).2
        exact before_of_eq (heq.trans (heq.symm hax.1) hx) ⟨hax.2, hpast⟩
    · intro b hb
      have hne : eq val.1 b.1 = false := by
        by_contra hvb
        have := heq.trans hx (by simpa using hvb)
        simp [hother b hb] at this
      exact before_of_ne hne ((hbx b (List.mem_append_right _ hb)).of_ne (hother b hb))

theorem Trace.Ordered.insertAll (heq : Equivalence fun a b => eq a b = true) {t : Trace κ ν}
    (h : t.Ordered eq) (vals : List (κ × ν)) : (vals.foldl (Trace.insert eq) t).Ordered eq :=
  foldl_invariant (show ∀ t val, Trace.Ordered eq t → (Trace.insert eq t val).Ordered eq from
    fun _ val ht => ht.insert heq val) h vals

theorem Trace.Ordered.step (heq : Equivalence fun a b => eq a b = true) {t : Trace κ ν}
    (h : t.Ordered eq) (op : Op κ ν) : (t.step eq op).Ordered eq := by
  cases op with
  | insert _ | insertHint _ | emplace _ _ | emplaceHint _ _ => exact h.insert heq _
  | insertRange vals => exact h.insertAll heq vals
  | erase it => exact h.sublist (List.eraseIdx_sublist _ _)
  | eraseRange beg n =>
    refine h.sublist ?_
    calc
      (t.map.data.take beg ++ t.map.data.drop (beg + n)).Sublist
          (t.map.data.take beg ++ t.map.data.drop beg) :=
        (List.drop_sublist_drop_left _ (Nat.le_add_right beg n)).append_left _
      _ = t.map.data := List.take_append_drop _ _
  | clear => exact h.sublist (List.nil_sublist _)
  | assign vals =>
    have hclear : Trace.Ordered eq ⟨t.map.clear, t.now⟩ := h.sublist (List.nil_sublist _)
    exact hclear.insertAll heq vals

theorem ordered_trace (heq : Equivalence fun a b => eq a b = true) (ops : List (Op κ ν)) :
    (trace eq ops).Ordered eq :=
  foldl_invariant (show ∀ t op, Trace.Ordered eq t → (Trace.step eq t op).Ordered eq from
    fun _ op ht => ht.step heq op) ⟨.nil, by simp [empty]⟩ ops

theorem Trace.Ordered.contiguous {t : Trace κ ν} (h : t.Ordered eq) {a b c : κ × Stamped ν}
    (hsub : List.Sublist [a, b, c] t.map.data) (hac : eq a.1 c.1 = true) : eq a.1 b.1 = true := by
  have hall := h.before.sublist hsub
  obtain ⟨ha, hbc⟩ := List.pairwise_cons.mp hall
  by_contra hab
  have hlt := (ha b (by simp)).of_ne (by simpa using hab)
  have hle := ((List.pairwise_cons.mp hbc).1 c (by simp)).le
  have hsame := ((ha c (by simp)).of_eq hac).1
  omega

/-- Entries of a key stand together and in the order of their insertion, the groups stand in
the order in which they were started, and a call that inserts only adds. -/
theorem sequenced_multimap_ordered (heq : Equivalence fun a b => eq a b = true)
    (ops : List (Op κ ν)) :
    let m := run eq ops
    let t := trace eq ops
    t.map.map Stamped.val = m ∧
    (∀ a b c, List.Sublist [a, b, c] m.data → eq a.1 c.1 = true → eq a.1 b.1 = true) ∧
    t.map.data.Pairwise (fun a b => eq a.1 b.1 = true → a.2.stamp < b.2.stamp) ∧
    t.map.data.Pairwise (fun a b => eq a.1 b.1 = false → a.2.start < b.2.start) ∧
    ∀ op vals, op.inserts = some vals →
      m.data.Sublist (m.step eq op).data ∧ (m.step eq op).data.Perm (m.data ++ vals) := by
  intro m t
  have hord : t.Ordered eq := ordered_trace heq ops
  have hmap : t.map.map Stamped.val = m := map_trace ops
  refine ⟨hmap, ?_, ?_, ?_, fun _ _ h => step_keeps m h⟩
  · intro a b c hsub hac
    have hdata : m.data = t.map.data.map (Prod.map id Stamped.val) := by rw [← hmap]; rfl
    rw [hdata] at hsub
    obtain ⟨l, hl, habc⟩ := List.sublist_map_iff.mp hsub
    match l, habc with
    | [a', b', c'], habc =>
      obtain ⟨rfl, rfl, rfl⟩ : a = Prod.map id Stamped.val a' ∧ b = Prod.map id Stamped.val b' ∧
          c = Prod.map id Stamped.val c' := by simpa using habc
      exact hord.contiguous hl hac
  · exact hord.before.imp fun h hab => (h.of_eq hab).2
  · exact hord.before.imp fun h hab => h.of_ne hab

theorem sequenced_multimap_ordered_of_erased_first :
    (run (fun a b : Nat => decide (a = b)) [.insert (1, 10), .insert (2, 20), .insert (1, 11),
      .erase 0, .insert (1, 12)]).data = [(1, 11), (1, 12), (2, 20)] ∧
    ∀ a b c, List.Sublist [a, b, c] [(1, 11), (1, 12), (2, 20)] → a.1 = c.1 → a.1 = b.1 := by
  have heq : Equivalence fun a b : Nat => decide (a = b) = true := by
    simpa using eq_equivalence
  have h := (sequenced_multimap_ordered heq [.insert (1, 10), .insert (2, 20), .insert (1, 11),
    .erase 0, .insert (1, 12)]).2.1
  have hrun : (run (fun a b : Nat => decide (a = b)) [.insert (1, 10), .insert (2, 20),
      .insert (1, 11), .erase 0, .insert (1, 12)]).data = [(1, 11), (1, 12), (2, 20)] := by decide
  refine ⟨hrun, fun a b c hsub hac => ?_⟩
  simpa using h a b c (hrun ▸ hsub) (by simpa using hac)

end Stamps

end SequencedMultimap

end Acqua
