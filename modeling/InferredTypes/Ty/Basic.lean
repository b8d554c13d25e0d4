/-! The types that inference works with: primitives, class types with arguments, arrays, type
variables and the type of the null literal. -/
namespace InferredTypes

inductive Primitive where
  | boolean | byte | short | char | int | long | float | double
  deriving DecidableEq

namespace Primitive

def all : List Primitive :=
  [boolean, byte, short, char, int, long, float, double]

def name : Primitive → String
  | boolean => "boolean"
  | byte => "byte"
  | short => "short"
  | char => "char"
  | int => "int"
  | long => "long"
  | float => "float"
  | double => "double"

def ofName? (s : String) : Option Primitive :=
  all.find? fun p => p.name = s

theorem ofName?_name (p : Primitive) : ofName? p.name = some p := by
  cases p <;> decide

/-- The larger numeric types a value of the given type fits into. -/
def widerTypes : Primitive → List Primitive
  | boolean => []
  | byte => [short, int, long, float, double]
  | short => [int, long, float, double]
  | char => [int, long, float, double]
  | int => [long, float, double]
  | long => [float, double]
  | float => [double]
  | double => []

def widens (p q : Primitive) : Bool :=
  q ∈ p.widerTypes

end Primitive

/-- A class type without arguments is either a class without parameters or a raw type. -/
inductive Ty where
  | primitive (p : Primitive)
  | named (name : String) (args : List Ty)
  | array (elem : Ty)
  | var (name : String)
  | null

namespace Ty

mutual
def decEq : (a b : Ty) → Decidable (a = b)
  | .primitive p, .primitive q => decidable_of_iff (p = q) (by simp)
  | .named m as, .named n bs =>
    match decEqAll as bs with
    | isTrue h => decidable_of_iff (m = n) (by simp [h])
    | isFalse h => isFalse (by simp [h])
  | .array a, .array b =>
    match decEq a b with
    | isTrue h => isTrue (by simp [h])
    | isFalse h => isFalse (by simp [h])
  | .var m, .var n => decidable_of_iff (m = n) (by simp)
  | .null, .null => isTrue rfl
  | .primitive _, .named _ _ | .primitive _, .array _ | .primitive _, .var _ | .primitive _, .null
  | .named _ _, .primitive _ | .named _ _, .array _ | .named _ _, .var _ | .named _ _, .null
  | .array _, .primitive _ | .array _, .named _ _ | .array _, .var _ | .array _, .null
  | .var _, .primitive _ | .var _, .named _ _ | .var _, .array _ | .var _, .null
  | .null, .primitive _ | .null, .named _ _ | .null, .array _ | .null, .var _ =>
    isFalse (by simp)

def decEqAll : (as bs : List Ty) → Decidable (as = bs)
  | [], [] => isTrue rfl
  | a :: as, b :: bs =>
    match decEq a b with
    | isTrue h =>
      match decEqAll as bs with
      | isTrue hs => isTrue (by simp [h, hs])
      | isFalse hs => isFalse (by simp [hs])
    | isFalse h => isFalse (by simp [h])
  | [], _ :: _ | _ :: _, [] => isFalse (by simp)
end

instance : DecidableEq Ty := decEq

def isPrimitive : Ty → Bool
  | primitive _ => true
  | _ => false

/-- Drops the arguments of a class type, also under array layers. A type variable stays. -/
def erasure : Ty → Ty
  | named name _ => named name []
  | array elem => array elem.erasure
  | ty => ty

/-- Wraps a type in the given number of array layers. -/
def arrayOf (ty : Ty) : Nat → Ty
  | 0 => ty
  | n + 1 => array (ty.arrayOf n)

end Ty
end InferredTypes
