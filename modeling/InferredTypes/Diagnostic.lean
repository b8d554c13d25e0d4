import InferredTypes.Placeholder
import InferredTypes.Program.Location

/-! Problems with placeholder declarations, and reports of them. -/
namespace InferredTypes

inductive Problem where
  | missingInitializer (kind : Placeholder)
  | arrayInitializer (kind : Placeholder)
  | lambdaInitializer (kind : Placeholder)
  | valInCountedLoop
  | valParameter
  | varParameter
  deriving DecidableEq

namespace Problem

inductive Category where
  | missingInitializer | unsupportedInitializer | illegalPlacement
  deriving DecidableEq

def Category.name : Category → String
  | missingInitializer => "MissingInitializer"
  | unsupportedInitializer => "UnsupportedInitializer"
  | illegalPlacement => "IllegalPlacement"

def category : Problem → Category
  | missingInitializer _ => .missingInitializer
  | arrayInitializer _ | lambdaInitializer _ => .unsupportedInitializer
  | valInCountedLoop | valParameter | varParameter => .illegalPlacement

/-- What tells the problems of one category apart. -/
def detail? : Problem → Option String
  | missingInitializer _ => none
  | arrayInitializer _ => some "ArrayInitializer"
  | lambdaInitializer _ => some "Lambda"
  | valInCountedLoop => some "OldStyleFor"
  | valParameter => some "ValParameter"
  | varParameter => some "VarParameter"

/-- The name of the category, then the detail after a point. -/
def code (p : Problem) : String :=
  match p.detail? with
  | none => p.category.name
  | some detail => p.category.name ++ "." ++ detail

def message : Problem → String
  | missingInitializer kind =>
    "'" ++ kind.keyword ++ "' on a local variable requires an initializer expression"
  | arrayInitializer kind =>
    "'" ++ kind.keyword ++ "' is not compatible with array initializer expressions. " ++
      "Use the full form (new int[] \x7b ... \x7d instead of just \x7b ... \x7d)"
  | lambdaInitializer kind => "'" ++ kind.keyword ++ "' is not allowed with lambda expressions."
  | valInCountedLoop => "'val' is not allowed in old-style for loops"
  | valParameter => "'val' works only on local variables and on foreach loops"
  | varParameter => "'var' works only on local variables and on for/foreach loops"

end Problem

/-- Severities in rising order. -/
inductive Severity where
  | warning | error
  deriving DecidableEq, Ord

def Severity.text : Severity → String
  | warning => "warning"
  | error => "error"

structure Diagnostic where
  node : Node
  severity : Severity
  problem : Problem
  deriving DecidableEq

namespace Diagnostic

def error (node : Node) (problem : Problem) : Diagnostic :=
  ⟨node, .error, problem⟩

def message (d : Diagnostic) : String :=
  d.problem.message

/-- The report with its byte range. -/
def text (d : Diagnostic) : String :=
  d.severity.text ++ " at " ++ d.node.span.text ++ ": " ++ d.message

/-- The report with the line and column in the program text. -/
def render (d : Diagnostic) (source : String) : String :=
  (d.node.span.startPosition source).text ++ ": " ++ d.severity.text ++ ": " ++ d.message

end Diagnostic
end InferredTypes
