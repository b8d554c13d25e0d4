import InferredTypes.Program.Decl
import InferredTypes.Request

/-! What inference asks of the compiler around it. -/
namespace InferredTypes

/-- The questions whose answers need no inference. -/
structure Semantics where
  qualifiedName : TypeRef → Option String
  assignable : Ty → Ty → Bool
  erasure : Ty → Ty
  topType : NodeId → Ty

/-- A host may ask back into inference while it types an expression; it then works on the guard of
the request. -/
structure Host extends Semantics where
  staticType : Expr → Request (Option Ty)
  elementType : Expr → Request (Option Ty)

namespace Semantics

def askName (sem : Semantics) (ref : TypeRef) : Request (Option String) :=
  .asking (fun _ => .qualifiedName ref.name) (pure (sem.qualifiedName ref))

def askAssignable (sem : Semantics) (source target : Ty) : Request Bool :=
  .asking (fun _ => .assignable source target) (pure (sem.assignable source target))

def askErasure (sem : Semantics) (ty : Ty) : Request Ty :=
  .asking (fun _ => .erasure ty) (pure (sem.erasure ty))

def askTop (sem : Semantics) (node : NodeId) : Request Ty :=
  .asking (fun _ => .topType node) (pure (sem.topType node))

/-- The placeholder that a written type denotes. A missing type denotes none, without a question. -/
def placeholder (sem : Semantics) : Option TypeRef → Request Placeholder
  | none => pure .none
  | some ref => do
    return Placeholder.ofName (← sem.askName ref)

/-- The type of a conditional: of the branch that can receive the other, of the first one when
neither can, of the only typed one when a type is missing. -/
def unify (sem : Semantics) : Option Ty → Option Ty → Request (Option Ty)
  | none, whenFalse => pure whenFalse
  | some whenTrue, none => pure (some whenTrue)
  | some whenTrue, some whenFalse => do
    if ← sem.askAssignable whenFalse whenTrue then
      return some whenTrue
    else if ← sem.askAssignable whenTrue whenFalse then
      return some whenFalse
    else
      return some whenTrue

end Semantics

namespace Host

def askStaticType (host : Host) (e : Expr) : Request (Option Ty) :=
  .asking (.staticType e.id) (host.staticType e)

def askElementType (host : Host) (e : Expr) : Request (Option Ty) :=
  .asking (.elementType e.id) (host.elementType e)

end Host
end InferredTypes
