import Acqua.Library.ComponentOrder

/-! Comparisons of `basic_address`, for any strings in a linear order. -/

namespace Acqua.Email

structure BasicAddress (α : Type*) where
  namespec : α
  addrspec : α

namespace BasicAddress

variable {α : Type*} [LinearOrder α]

/-- `operator==`. -/
def eq (lhs rhs : BasicAddress α) : Bool :=
  !(lhs.addrspec != rhs.addrspec || lhs.namespec != rhs.namespec)

/-- `operator<`. -/
def lt (lhs rhs : BasicAddress α) : Bool :=
  decide (lhs.namespec < rhs.namespec) || decide (lhs.addrspec < rhs.addrspec)

theorem eq_iff (lhs rhs : BasicAddress α) :
    lhs.eq rhs = true ↔ ComponentEq namespec addrspec lhs rhs := by
  rw [eq, Bool.not_eq_true', Bool.or_eq_false_iff, bne_eq_false_iff_eq, bne_eq_false_iff_eq,
    ComponentEq, and_comm]

theorem lt_iff (lhs rhs : BasicAddress α) :
    lhs.lt rhs = true ↔ ComponentLt namespec addrspec lhs rhs := by
  rw [lt, Bool.or_eq_true, decide_eq_true_iff, decide_eq_true_iff, ComponentLt]

/-- The comparison operators order the addresses of `S`. -/
def Ordered (S : Set (BasicAddress α)) : Prop :=
  StrictTotalOn S (fun a b => a.lt b = true) (fun a b => a.eq b = true)

/-- They order addresses exactly where no greater name has the lesser address. -/
theorem orderedAddresses_iff (S : Set (BasicAddress α)) :
    Ordered S ↔ ∀ a ∈ S, ∀ b ∈ S, a.namespec < b.namespec → a.addrspec ≤ b.addrspec :=
  strictTotalOn_iff_agree lt_iff eq_iff

end BasicAddress

/-- `A <y@z>` and `B <x@z>` are each less than the other. -/
theorem not_orderedAddresses_opposed :
    ¬ BasicAddress.Ordered (Set.univ : Set (BasicAddress (List UInt8))) := by
  intro h
  exact h.asymm ⟨[0x41], [0x79, 0x40, 0x7A]⟩ trivial ⟨[0x42], [0x78, 0x40, 0x7A]⟩ trivial
    (by decide) (by decide)

end Acqua.Email
