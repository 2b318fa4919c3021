import Mathlib.Data.List.AList

/-!
# Runtime types, `boost::any` and the exceptions of `node.h`

`node.h` keeps forwarded metadata and the shared datastructures behind `boost::any` and reads
them back with `boost::any_cast<T>`, which compares the stored value's runtime type with `T`.
`Ty` stands for the C++ types and `V` carries the values of all of them; `Rtti Ty V` gives the
type each value was stored with and `TypeName Ty` the text `typeid(T).name()` prints. `Any V` is a
`boost::any`: empty, or holding one value. `anyCast T a` returns the held value exactly when it
was stored as a `T` (`anyCast_eq_ok_iff`) and throws `bad_any_cast` otherwise.

Maps of the source (`std::map<std::string, …>`) are `AList`s: finite, one entry per key.
-/

namespace Tpie.Pipelining

/-- The names of the C++ types: `typeid(T).name()`, and `typeid(void)`. -/
class TypeName (Ty : Type) where
  /-- `typeid(T).name()`. -/
  name : Ty → String
  /-- `typeid(void)`, the type an empty `boost::any` reports. -/
  void : Ty

/-- Runtime type information for the values a `boost::any` can hold: the type each value was
stored with, `typeid(x)`. -/
class Rtti (Ty : outParam Type) (V : Type) where
  typeid : V → Ty

/-- The C++ types of concrete runs: `void`, the type an empty `boost::any` reports, and
`std::size_t`, the type every stored value has. -/
inductive TypeInfo where
  | void
  | sizeT
  deriving DecidableEq, Repr

/-- `typeid(T).name()` as GCC prints it. -/
def TypeInfo.name : TypeInfo → String
  | .void => "v"
  | .sizeT => "m"

instance : TypeName TypeInfo := ⟨TypeInfo.name, .void⟩

/-- In concrete runs every stored value is a `std::size_t`. -/
instance : Rtti TypeInfo Nat := ⟨fun _ => .sizeT⟩

/-- A `boost::any`: empty, or holding a single value (`boost::any::holder`). -/
inductive Any (V : Type) where
  | empty
  | holder (held : V)
  deriving DecidableEq, Repr

/-- The exceptions the modelled members of `node.h` throw. (`go`, not modelled, would add
`not_initiator_node`.) -/
inductive Exception where
  /-- `tpie::exception`, with its message. -/
  | exception (what : String)
  /-- `tpie::invalid_argument_exception`, with its message. -/
  | invalidArgumentException (what : String)
  /-- `boost::bad_any_cast`, as it leaves `boost::any_cast`. -/
  | badAnyCast
  deriving DecidableEq, Repr

/-- `boost::bad_any_cast::what()`. -/
def badAnyCastWhat : String := "boost::bad_any_cast: failed conversion using boost::any_cast"

variable {Ty V : Type} [Rtti Ty V] [DecidableEq Ty]

namespace Any

/-- `boost::any::type()`: the held value's type, `typeid(void)` when empty. -/
def type [TypeName Ty] : Any V → Ty
  | empty => TypeName.void
  | holder v => Rtti.typeid v

end Any

/-- `boost::any_cast<T>(a)`: the held value when it was stored as a `T`, and `bad_any_cast`
otherwise (an empty `any` holds no `T`). -/
def anyCast (T : Ty) : Any V → Except Exception V
  | .empty => .error .badAnyCast
  | .holder v => if Rtti.typeid v = T then .ok v else .error .badAnyCast

@[simp] theorem anyCast_empty (T : Ty) : anyCast T (Any.empty : Any V) = .error .badAnyCast := rfl

/-- **`any_cast` succeeds exactly on a holder of a `T`**, and then returns the held value. -/
theorem anyCast_eq_ok_iff {T : Ty} {a : Any V} {v : V} :
    anyCast T a = .ok v ↔ a = .holder v ∧ Rtti.typeid v = T := by
  cases a with
  | empty => simp [anyCast]
  | holder w =>
    by_cases h : Rtti.typeid w = T
    · simp only [anyCast, h, ite_true, Except.ok.injEq, Any.holder.injEq, eq_comm (a := w)]
      exact ⟨fun e => ⟨e, e ▸ h⟩, And.left⟩
    · simp only [anyCast, h, ite_false, Any.holder.injEq]
      exact ⟨nofun, fun ⟨e, h'⟩ => absurd (e ▸ h') h⟩

/-- Every failure of `any_cast` is `bad_any_cast`. -/
theorem anyCast_eq_error {T : Ty} {a : Any V} {e : Exception} (h : anyCast T a = .error e) :
    e = .badAnyCast := by
  cases a with
  | empty => exact (Except.error.inj h).symm
  | holder w =>
    simp only [anyCast] at h
    split_ifs at h
    exact (Except.error.inj h).symm

/-- `any_cast` either returns a value or throws `bad_any_cast`. -/
theorem anyCast_ok_or_bad (T : Ty) (a : Any V) :
    (∃ v, anyCast T a = .ok v) ∨ anyCast T a = .error .badAnyCast := by
  rcases h : anyCast T a with e | v
  · exact .inr (congrArg _ (anyCast_eq_error h))
  · exact .inl ⟨v, rfl⟩

end Tpie.Pipelining
