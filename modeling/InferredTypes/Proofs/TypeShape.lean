import InferredTypes.Ty.Basic

/-! The shape of a type: induction through the arguments of classes, and array layers. -/
namespace InferredTypes.Ty

/-- Induction on types, with a case for class types that covers their arguments. -/
@[elab_as_elim] theorem induct {motive : Ty → Prop}
    (primitive : ∀ p, motive (.primitive p))
    (named : ∀ name args, (∀ a ∈ args, motive a) → motive (.named name args))
    (array : ∀ elem, motive elem → motive (.array elem))
    (var : ∀ name, motive (.var name)) (null : motive .null) (ty : Ty) : motive ty := by
  match ty with
  | .primitive p => exact primitive p
  | .named name args =>
    exact named name args fun a _ => induct primitive named array var null a
  | .array elem => exact array elem (induct primitive named array var null elem)
  | .var name => exact var name
  | .null => exact null

def isArray : Ty → Bool
  | .array _ => true
  | .named _ _ | .primitive _ | .var _ | .null => false

/-- The array layers on top of the type. -/
def layers : Ty → Nat
  | .array elem => elem.layers + 1
  | .named _ _ | .primitive _ | .var _ | .null => 0

/-- The type under all array layers. -/
def base : Ty → Ty
  | .array elem => elem.base
  | .named name args => .named name args
  | .primitive p => .primitive p
  | .var name => .var name
  | .null => .null

/-! Layers that are put around a type. -/

@[simp] theorem base_arrayOf (ty : Ty) (n : Nat) : (ty.arrayOf n).base = ty.base := by
  induction n with
  | zero => rfl
  | succ n ih => exact ih

theorem arrayOf_add (ty : Ty) (m n : Nat) : ty.arrayOf (m + n) = (ty.arrayOf n).arrayOf m := by
  induction m with
  | zero => rw [Nat.zero_add, arrayOf]
  | succ m ih => rw [Nat.succ_add, arrayOf, arrayOf, ih]

theorem isPrimitive_arrayOf {ty : Ty} (plain : ty.isPrimitive = false) (n : Nat) :
    (ty.arrayOf n).isPrimitive = false := by
  cases n with
  | zero => exact plain
  | succ n => rfl

theorem sizeOf_arrayOf (ty : Ty) (n : Nat) : sizeOf (ty.arrayOf n) = sizeOf ty + n := by
  induction n with
  | zero => rfl
  | succ n ih =>
    rw [arrayOf, Ty.array.sizeOf_spec, ih]
    omega

theorem eq_zero_of_eq_arrayOf {ty : Ty} {n : Nat} (same : ty = ty.arrayOf n) : n = 0 := by
  have size := congrArg sizeOf same
  rw [sizeOf_arrayOf] at size
  omega

end InferredTypes.Ty
