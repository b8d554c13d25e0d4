import InferredTypes.Host

/-! Where placeholders may stand. -/
namespace InferredTypes

/-- What is wrong with a local variable of the given placeholder kind; the first fault counts. -/
def LocalVariable.fault? (v : LocalVariable) (kind : Placeholder) : Option Problem :=
  if kind.isActive then
    match v.initializer with
    | none => some (.missingInitializer kind)
    | some (.braceList _ _) => some (.arrayInitializer kind)
    | some (.lambda _) => some (.lambdaInitializer kind)
    | some _ => if kind = .val ∧ v.site = .loopHead then some .valInCountedLoop else none
  else
    none

/-- A `val` parameter belongs to a foreach loop, a `var` parameter to any loop. -/
def Parameter.fault? (p : Parameter) (kind : Placeholder) : Option Problem :=
  match kind, p.scope with
  | .none, _ => none
  | .val, .foreachLoop _ _ => none
  | .val, _ => some .valParameter
  | .var, .owned _ => some .varParameter
  | .var, _ => none

namespace Semantics

/-- Adds the fault of a local variable, if any, to what was found before. -/
def checkVariable (sem : Semantics) (v : LocalVariable) (found : Array Diagnostic) :
    Request (Array Diagnostic) := do
  let kind ← sem.placeholder v.typeRef
  match v.fault? kind with
  | none => return found
  | some problem =>
    Request.note (.misplacedVariable kind v.node.id problem)
    return found.push (.error v.node problem)

/-- Adds the fault of a parameter, if any, to what was found before. -/
def checkParameter (sem : Semantics) (p : Parameter) (found : Array Diagnostic) :
    Request (Array Diagnostic) := do
  let kind ← sem.placeholder p.typeRef
  match p.fault? kind with
  | none => return found
  | some problem =>
    Request.note (.misplacedParameter kind p.node.id problem)
    return found.push (.error p.node problem)

def check (sem : Semantics) : Decl → Array Diagnostic → Request (Array Diagnostic)
  | .localVariable v => sem.checkVariable v
  | .parameter p => sem.checkParameter p

/-- Checks the declarations one after the other. -/
def checkAll (sem : Semantics) : List Decl → Array Diagnostic → Request (Array Diagnostic)
  | [], found => pure found
  | d :: ds, found => do
    sem.checkAll ds (← sem.check d found)

end Semantics
end InferredTypes
