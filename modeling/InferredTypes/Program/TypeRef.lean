import InferredTypes.Program.Location

/-! Types as they are written in a program. -/
namespace InferredTypes

/-- A written type argument: a type, or the mark that leaves all arguments to be inferred. -/
inductive TypeArg (ρ : Type) where
  | type (ref : ρ)
  | diamond

structure TypeRef where
  node : Node
  name : String
  args : List (TypeArg TypeRef)
  dims : Nat

namespace TypeRef

/-- Whether the diamond mark stands alone between the angle brackets. -/
def isDiamond (ref : TypeRef) : Bool :=
  match ref.args with
  | [.diamond] => true
  | _ => false

mutual
def same : TypeRef → TypeRef → Bool
  | ⟨node, name, args, dims⟩, ⟨node', name', args', dims'⟩ =>
    node == node' && name == name' && sameArgs args args' && dims == dims'

def sameArgs : List (TypeArg TypeRef) → List (TypeArg TypeRef) → Bool
  | [], [] => true
  | a :: as, b :: bs => sameArg a b && sameArgs as bs
  | [], _ :: _ | _ :: _, [] => false

def sameArg : TypeArg TypeRef → TypeArg TypeRef → Bool
  | .type a, .type b => same a b
  | .diamond, .diamond => true
  | .type _, .diamond | .diamond, .type _ => false
end

instance : BEq TypeRef := ⟨same⟩

end TypeRef
end InferredTypes
