import Acqua.Network.LinklayerAddress

/-! The overloads of `from_string`, those that throw beside those with an error code. -/

namespace Acqua

/-- The characters from `str` to `str + strlen(str)`. -/
def cString (str : List UInt8) : List UInt8 := str.takeWhile (· ≠ 0)

/-- `throw_error`, then the address is returned. -/
def orThrow {α : Type} : α × Option Errc → Except Errc α
  | (addr, none) => .ok addr
  | (_, some ec) => .error ec

namespace Internet4Address

variable (dec : List UInt8 → UInt8 → UInt8 × Option (List UInt8))

/-- `from_string` of a pointer, with an error code. -/
def fromCString (str : Option (List UInt8)) (ec : Option Errc) : NetworkAddress 4 × Option Errc :=
  match str with
  | none => (NetworkAddress.any, some .invalidArgument)
  | some str => fromString dec (cString str) ec

/-- `from_string` of a pointer, that throws. -/
def fromCStringOrThrow (str : Option (List UInt8)) : Except Errc (NetworkAddress 4) :=
  match str with
  | none => orThrow (NetworkAddress.any, some .invalidArgument)
  | some str => orThrow (fromString dec (cString str) none)

theorem fromStringOrThrow_eq (str : List UInt8) :
    fromStringOrThrow dec str = orThrow (fromString dec str none) := by
  rw [fromStringOrThrow]
  rcases fromString dec str none with ⟨addr, _ | ec⟩ <;> rfl

end Internet4Address

namespace Internet6Address

-- `inet_pton` of `AF_INET6`, with what it leaves at its destination.
variable (inetPton : List UInt8 → NetworkAddress 16 → NetworkAddress 16 × Int)

/-- `from_string` of `address_impl<internet6_address>`. -/
def readInto (str : List UInt8) (addr : NetworkAddress 16) (ec : Option Errc) :
    NetworkAddress 16 × Option Errc :=
  let r := inetPton (cString str) addr
  if r.2 ≠ 1 then (r.1, some .addressFamilyNotSupported) else (r.1, ec)

/-- `from_string` with an error code. -/
def fromString (str : List UInt8) (ec : Option Errc) : NetworkAddress 16 × Option Errc :=
  readInto inetPton str NetworkAddress.any ec

/-- `from_string` that throws. -/
def fromStringOrThrow (str : List UInt8) : Except Errc (NetworkAddress 16) :=
  orThrow (readInto inetPton str NetworkAddress.any none)

/-- `from_string` of a pointer, with an error code. -/
def fromCString (str : Option (List UInt8)) (ec : Option Errc) : NetworkAddress 16 × Option Errc :=
  match str with
  | none => (NetworkAddress.any, some .invalidArgument)
  | some str => readInto inetPton str NetworkAddress.any ec

/-- `from_string` of a pointer, that throws. -/
def fromCStringOrThrow (str : Option (List UInt8)) : Except Errc (NetworkAddress 16) :=
  match str with
  | none => orThrow (NetworkAddress.any, some .invalidArgument)
  | some str => orThrow (readInto inetPton str NetworkAddress.any none)

end Internet6Address

namespace LinklayerAddress

variable (hex : List UInt8 → UInt8 → UInt8 × Option (List UInt8))

/-- `from_string` of a pointer, with an error code. -/
def fromCString (str : Option (List UInt8)) (ec : Option Errc) : NetworkAddress 6 × Option Errc :=
  match str with
  | none => (NetworkAddress.any, some .invalidArgument)
  | some str => fromString hex (cString str) ec

/-- `from_string` of a pointer, that throws. The error code of a null pointer is not thrown. -/
def fromCStringOrThrow (str : Option (List UInt8)) : Except Errc (NetworkAddress 6) :=
  match str with
  | none => .ok NetworkAddress.any
  | some str => orThrow (fromString hex (cString str) none)

theorem fromStringOrThrow_eq (str : List UInt8) :
    fromStringOrThrow hex str = orThrow (fromString hex str none) := by
  rw [fromStringOrThrow]
  rcases fromString hex str none with ⟨addr, _ | ec⟩ <;> rfl

end LinklayerAddress

inductive AddressClass
  | internet4
  | internet6
  | linklayer
  deriving DecidableEq

def AddressClass.size : AddressClass → Nat
  | internet4 => 4
  | internet6 => 16
  | linklayer => 6

/-- A `std::string`, or a pointer, which may be null. -/
inductive FromStringArg
  | string (str : List UInt8)
  | pointer (str : Option (List UInt8))

section Overloads

variable (dec hex : List UInt8 → UInt8 → UInt8 × Option (List UInt8))
variable (inetPton : List UInt8 → NetworkAddress 16 → NetworkAddress 16 × Int)

/-- The overloads with an error code. -/
def AddressClass.fromString :
    (c : AddressClass) → FromStringArg → Option Errc → NetworkAddress c.size × Option Errc
  | internet4, .string str, ec => Internet4Address.fromString dec str ec
  | internet4, .pointer str, ec => Internet4Address.fromCString dec str ec
  | internet6, .string str, ec => Internet6Address.fromString inetPton str ec
  | internet6, .pointer str, ec => Internet6Address.fromCString inetPton str ec
  | linklayer, .string str, ec => LinklayerAddress.fromString hex str ec
  | linklayer, .pointer str, ec => LinklayerAddress.fromCString hex str ec

/-- The overloads that throw. -/
def AddressClass.fromStringOrThrow :
    (c : AddressClass) → FromStringArg → Except Errc (NetworkAddress c.size)
  | internet4, .string str => Internet4Address.fromStringOrThrow dec str
  | internet4, .pointer str => Internet4Address.fromCStringOrThrow dec str
  | internet6, .string str => Internet6Address.fromStringOrThrow inetPton str
  | internet6, .pointer str => Internet6Address.fromCStringOrThrow inetPton str
  | linklayer, .string str => LinklayerAddress.fromStringOrThrow hex str
  | linklayer, .pointer str => LinklayerAddress.fromCStringOrThrow hex str

/-- One throws when the other sets an error code, and else they return the same. -/
structure OverloadsAgree {α : Type} (thrown : Except Errc α) (returned : α × Option Errc) :
    Prop where
  throws_iff : (∃ ec, thrown = .error ec) ↔ returned.2 ≠ none
  same : returned.2 = none → thrown = .ok returned.1

theorem overloadsAgree_orThrow {α : Type} (r : α × Option Errc) :
    OverloadsAgree (orThrow r) r := by
  obtain ⟨addr, _ | ec⟩ := r
  · exact ⟨by simp [orThrow], fun _ => rfl⟩
  · exact ⟨by simp [orThrow], fun h => absurd h (Option.some_ne_none ec)⟩

theorem not_overloadsAgree {α : Type} (addr : α) (ec : Errc) :
    ¬ OverloadsAgree (.ok addr) (addr, some ec) := by
  intro h
  obtain ⟨ec', hthrown⟩ := h.throws_iff.mpr (Option.some_ne_none ec)
  exact absurd hthrown nofun

/-- The overloads agree but for the null pointer of a `linklayer_address`. -/
theorem overloads_agree_iff (c : AddressClass) (x : FromStringArg) :
    OverloadsAgree (c.fromStringOrThrow dec hex inetPton x)
        (c.fromString dec hex inetPton x none) ↔
      ¬ (c = .linklayer ∧ x = .pointer none) := by
  by_cases hnull : c = .linklayer ∧ x = .pointer none
  · obtain ⟨rfl, rfl⟩ := hnull
    exact iff_of_false (not_overloadsAgree NetworkAddress.any .invalidArgument)
      (not_not.mpr ⟨rfl, rfl⟩)
  · refine iff_of_true ?_ hnull
    suffices h : c.fromStringOrThrow dec hex inetPton x =
        orThrow (c.fromString dec hex inetPton x none) by
      rw [h]
      exact overloadsAgree_orThrow _
    match c, x with
    | .internet4, .string str => exact Internet4Address.fromStringOrThrow_eq dec str
    | .internet4, .pointer none => rfl
    | .internet4, .pointer (some str) => rfl
    | .internet6, .string str => rfl
    | .internet6, .pointer none => rfl
    | .internet6, .pointer (some str) => rfl
    | .linklayer, .string str => exact LinklayerAddress.fromStringOrThrow_eq hex str
    | .linklayer, .pointer none => exact absurd ⟨rfl, rfl⟩ hnull
    | .linklayer, .pointer (some str) => rfl

end Overloads

/-- The null pointer is read as an address, by one overload of the two. -/
theorem linklayer_null_not_thrown :
    ¬ OverloadsAgree
      (AddressClass.linklayer.fromStringOrThrow Internet4Address.uintParser
        LinklayerAddress.hexParser (fun _ addr => (addr, 0)) (.pointer none))
      (AddressClass.linklayer.fromString Internet4Address.uintParser
        LinklayerAddress.hexParser (fun _ addr => (addr, 0)) (.pointer none) none) :=
  not_overloadsAgree NetworkAddress.any .invalidArgument

end Acqua
