import InferredTypes.Ty.Basic

/-! Replacing the type parameters of a class by arguments. -/
namespace InferredTypes.Ty

/-- The argument in the position of the first parameter with the given name. -/
def argument? (params : List String) (args : List Ty) (name : String) : Option Ty :=
  match params, args with
  | p :: params, a :: args => if p = name then some a else argument? params args name
  | _, _ => none

mutual
/-- Replaces every type variable that has an argument, all at once; other variables stay. -/
def subst (params : List String) (args : List Ty) : Ty → Ty
  | .var name => (argument? params args name).getD (.var name)
  | .named name inner => .named name (substAll params args inner)
  | .array elem => .array (subst params args elem)
  | .primitive p => .primitive p
  | .null => .null

def substAll (params : List String) (args : List Ty) : List Ty → List Ty
  | [] => []
  | ty :: tys => subst params args ty :: substAll params args tys
end

@[simp] theorem substAll_eq_map (params : List String) (args tys : List Ty) :
    substAll params args tys = tys.map (subst params args) := by
  induction tys with
  | nil => rfl
  | cons ty tys ih => simp [substAll, ih]

end InferredTypes.Ty
