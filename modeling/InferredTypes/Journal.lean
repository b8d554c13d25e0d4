import InferredTypes.Diagnostic
import InferredTypes.Guard.Basic
import InferredTypes.Ty.Render

/-! What a computation did, entry by entry: the questions it put to its host and the notes that a
log shows. -/
namespace InferredTypes

/-- A question to the host. Questions about an expression keep the guard they were asked under. -/
inductive Question where
  | qualifiedName (written : String)
  | staticType (expr : NodeId) (guard : Guard)
  | elementType (expr : NodeId) (guard : Guard)
  | assignable (source target : Ty)
  | erasure (ty : Ty)
  | topType (node : NodeId)
  deriving DecidableEq

/-- Notes about the guard keep it as it was before. -/
inductive Event where
  | asked (question : Question)
  | entered (key : NodeId) (guard : Guard)
  | refused (key : NodeId) (guard : Guard)
  | inferred (kind : Placeholder) (decl : NodeId) (ty : Ty)
  | fellBack (kind : Placeholder) (decl : NodeId) (top : Ty)
  | diamondErased (expr : NodeId) (ty erased : Ty)
  | misplacedVariable (kind : Placeholder) (decl : NodeId) (problem : Problem)
  | misplacedParameter (kind : Placeholder) (decl : NodeId) (problem : Problem)
  deriving DecidableEq

inductive LogLevel where
  | trace | debug | warn
  deriving DecidableEq

def LogLevel.text : LogLevel → String
  | trace => "trace"
  | debug => "debug"
  | warn => "warn"

structure LogLine where
  level : LogLevel
  text : String
  deriving DecidableEq

/-- The line that the log shows for an event. Questions are not logged. -/
def Event.logLine? : Event → Option LogLine
  | asked _ => none
  | entered key guard =>
    some ⟨.trace, "recursion guard: entering " ++ key.text ++ " at depth " ++ toString guard.depth⟩
  | refused key guard =>
    some ⟨.trace, "recursion guard: " ++ key.text ++ " re-entered at depth " ++
      toString guard.depth ++ ", short-circuiting"⟩
  | inferred kind decl ty =>
    some ⟨.debug, kind.keyword ++ " " ++ decl.text ++ " resolved to " ++ ty.text⟩
  | fellBack kind decl top =>
    some ⟨.debug, kind.keyword ++ " " ++ decl.text ++ " unresolved, falling back to " ++ top.text⟩
  | diamondErased expr ty erased =>
    some ⟨.debug, "diamond construction " ++ expr.text ++ ": erased " ++ ty.text ++ " to " ++
      erased.text⟩
  | misplacedVariable kind decl problem =>
    some ⟨.debug, kind.keyword ++ " local " ++ decl.text ++ ": " ++ problem.code⟩
  | misplacedParameter kind decl problem =>
    some ⟨.debug, kind.keyword ++ " parameter " ++ decl.text ++ ": " ++ problem.code⟩

def Event.question? : Event → Option Question
  | asked question => some question
  | _ => none

abbrev Journal := Array Event

def Journal.log (j : Journal) : List LogLine :=
  j.toList.filterMap Event.logLine?

def Journal.questions (j : Journal) : List Question :=
  j.toList.filterMap Event.question?

end InferredTypes
