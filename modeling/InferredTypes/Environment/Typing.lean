import InferredTypes.Environment.Assignable
import InferredTypes.Inference

/-! An environment as a host: it types expressions, and asks back into inference for identifiers
that are bound to placeholder declarations. -/
namespace InferredTypes.Environment

def semantics (env : Environment) : Semantics where
  qualifiedName ref := env.qualify ref.name
  assignable := env.assignable
  erasure := erasure
  topType _ := topClass

/-- The type of a variable: inferred for a placeholder, else as written. -/
def variableType (env : Environment) (infer : Decl → Request (Option Ty)) (d : Decl) :
    Request (Option Ty) := do
  if (← env.semantics.placeholder d.typeRef).isActive then
    infer d
  else
    return d.typeRef.bind env.declaredType

mutual
/-- The type of an expression, where `infer` gives the types of placeholder declarations. A
scripted type comes first. -/
def typeOf (env : Environment) (infer : Decl → Request (Option Ty)) (e : Expr) :
    Request (Option Ty) :=
  match env.scripted.get? e.id with
  | some ty => pure (some ty)
  | none =>
    match e with
    | .literal _ value => pure (some value.ty)
    | .ident _ name =>
      match env.bindings.get? name with
      | some d => env.variableType infer d
      | none => pure none
    | .creation _ (some ref) => pure (env.creationType ref)
    | .conditional _ _ whenTrue whenFalse => do
      let whenTrue ← env.typeOfBranch infer whenTrue
      let whenFalse ← env.typeOfBranch infer whenFalse
      env.semantics.unify whenTrue whenFalse
    | .creation _ none | .lambda _ | .braceList _ _ | .other _ => pure none

/-- A branch is in flight while it is typed; the conditional around it need not be. -/
def typeOfBranch (env : Environment) (infer : Decl → Request (Option Ty)) :
    Option Expr → Request (Option Ty)
  | none => pure none
  | some e => Option.join <$> Request.guarded e.id (env.typeOf infer e)
end

/-- What a loop over a value of the given type yields. -/
def elementOf (env : Environment) : Ty → Option Ty
  | .array elem => some elem
  | ty@(.named _ _) =>
    match env.viewAs ty iterableName with
    | none => none
    | some (.named _ (first :: _)) => some first
    | some _ => some topClass
  | .primitive _ | .var _ | .null => none

/-- The answers of an environment, given how placeholder declarations get their types. -/
def answer (env : Environment) (infer : Decl → Request (Option Ty)) : Host where
  toSemantics := env.semantics
  staticType := env.typeOf infer
  elementType e := do
    return (← env.typeOf infer e).bind env.elementOf

/-- A question back puts the origin of a bound declaration in flight, or is refused and goes no
deeper. So such questions nest at most once more than there are bindings. -/
def host (env : Environment) : Host :=
  .unroll env.answer (env.bindings.size + 1)

end InferredTypes.Environment
