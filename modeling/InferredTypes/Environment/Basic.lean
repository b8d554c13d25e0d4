import InferredTypes.Assoc
import InferredTypes.Program.Decl

/-! Everything a program has declared so far: imported names, classes, known types of expressions,
conversions taken for granted and variables in scope. -/
namespace InferredTypes

/-- The supertypes of a class are written in terms of its own parameters. -/
structure ClassInfo where
  params : List String
  supers : List Ty

structure Environment where
  imports : Assoc String String
  classes : Assoc String ClassInfo
  scripted : Assoc NodeId Ty
  assumed : List (Ty × Ty)
  bindings : Assoc String Decl

namespace Environment

def topName : String := "java.lang.Object"

/-- The class that loops see their values as. -/
def iterableName : String := "java.lang.Iterable"

/-- The class that every reference can be assigned to. -/
def topClass : Ty := .named topName []

/-- Only the top class is declared. -/
def initial : Environment where
  imports := .empty
  classes := Assoc.empty.insert topName ⟨[], []⟩
  scripted := .empty
  assumed := []
  bindings := .empty

/-- One step of building an environment. A later step for the same key replaces an earlier one. -/
inductive Change where
  | importName (simple qualified : String)
  | declareClass (name : String) (info : ClassInfo)
  | scriptType (expr : NodeId) (ty : Ty)
  | assume (source target : Ty)
  | bind (d : Decl)

def apply (env : Environment) : Change → Environment
  | .importName simple qualified => { env with imports := env.imports.insert simple qualified }
  | .declareClass name info => { env with classes := env.classes.insert name info }
  | .scriptType expr ty => { env with scripted := env.scripted.insert expr ty }
  | .assume source target => { env with assumed := (source, target) :: env.assumed }
  | .bind d => { env with bindings := env.bindings.insert d.name d }

def applyAll (env : Environment) (changes : List Change) : Environment :=
  changes.foldl apply env

/-- The qualified name of a written name: what it is imported as, else itself if it has a point in
it or is a declared class. -/
def qualify (env : Environment) (written : String) : Option String :=
  match env.imports.get? written with
  | some qualified => some qualified
  | none =>
    if '.' ∈ written.toList ∨ env.classes.contains written then some written else none

mutual
/-- The type that a written type denotes. A primitive takes no arguments. -/
def declaredType (env : Environment) : TypeRef → Option Ty
  | ⟨_, name, args, dims⟩ =>
    match Primitive.ofName? name with
    | some p => some ((Ty.primitive p).arrayOf dims)
    | none =>
      match env.qualify name with
      | some qualified => some ((Ty.named qualified (env.argumentTypes args)).arrayOf dims)
      | none => none

/-- Arguments that denote no type are left out. -/
def argumentTypes (env : Environment) : List (TypeArg TypeRef) → List Ty
  | [] => []
  | .type ref :: args =>
    match env.declaredType ref with
    | some ty => ty :: env.argumentTypes args
    | none => env.argumentTypes args
  | .diamond :: args => env.argumentTypes args
end

/-- The type of a creation. Open arguments are the parameters of the class. -/
def creationType (env : Environment) (ref : TypeRef) : Option Ty :=
  match env.qualify ref.name with
  | none => none
  | some qualified =>
    if ref.isDiamond then
      let params := ((env.classes.get? qualified).map ClassInfo.params).getD []
      some (.named qualified (params.map .var))
    else
      env.declaredType ref

end Environment
end InferredTypes
