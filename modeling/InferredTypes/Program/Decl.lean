import InferredTypes.Program.Expr

/-! Declarations of local variables and parameters. -/
namespace InferredTypes

/-- Whether a local variable stands in a block or in the head of a counted loop. -/
inductive Site where
  | block | loopHead
  deriving DecidableEq

structure LocalVariable where
  node : Node
  name : String
  typeRef : Option TypeRef
  initializer : Option Expr
  site : Site
  deriving BEq

inductive Owner where
  | method | lambda | catchClause | resource
  deriving DecidableEq

/-- What a parameter belongs to. -/
inductive Scope where
  | foreachLoop (head : Node) (iterated : Option Expr)
  | countedLoop (head : Node)
  | owned (owner : Owner)
  deriving BEq

structure Parameter where
  node : Node
  name : String
  typeRef : Option TypeRef
  scope : Scope
  deriving BEq

inductive Decl where
  | localVariable (v : LocalVariable)
  | parameter (p : Parameter)
  deriving BEq

/-- What the type of a placeholder declaration is inferred from. -/
inductive Origin where
  | initializer (e : Option Expr)
  | iterated (e : Option Expr)

def Origin.expr? : Origin → Option Expr
  | initializer e | iterated e => e

namespace Decl

def node : Decl → Node
  | .localVariable v => v.node
  | .parameter p => p.node

def id (d : Decl) : NodeId :=
  d.node.id

def name : Decl → String
  | .localVariable v => v.name
  | .parameter p => p.name

def typeRef : Decl → Option TypeRef
  | .localVariable v => v.typeRef
  | .parameter p => p.typeRef

/-- Only local variables and foreach parameters have an origin. -/
def origin? : Decl → Option Origin
  | .localVariable v => some (.initializer v.initializer)
  | .parameter p =>
    match p.scope with
    | .foreachLoop _ iterated => some (.iterated iterated)
    | .countedLoop _ | .owned _ => none

end Decl
end InferredTypes
