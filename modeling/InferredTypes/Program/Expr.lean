import InferredTypes.Program.TypeRef
import InferredTypes.Ty.Basic

/-! Expressions, as far as inference looks into them. -/
namespace InferredTypes

inductive Literal where
  | int (value : Int)
  | long (value : Int)
  | double (value : Float)
  | bool (value : Bool)
  | char (value : Char)
  | str (value : String)
  | null

namespace Literal

/-- Doubles compare as IEEE numbers: NaN differs from itself and the two zeros are equal. -/
def same : Literal → Literal → Bool
  | int a, int b => a == b
  | long a, long b => a == b
  | double a, double b => a == b
  | bool a, bool b => a == b
  | char a, char b => a == b
  | str a, str b => a == b
  | null, null => true
  | _, _ => false

instance : BEq Literal := ⟨same⟩

def ty : Literal → Ty
  | int _ => .primitive .int
  | long _ => .primitive .long
  | double _ => .primitive .double
  | bool _ => .primitive .boolean
  | char _ => .primitive .char
  | str _ => .named "java.lang.String" []
  | null => .null

end Literal

/-- A branch of a conditional or the class of a creation may be missing in unfinished code.
`braceList` is the array shorthand without a type, and `other` any form whose type only the host
can tell. -/
inductive Expr where
  | conditional (node : Node) (condition : Expr) (whenTrue whenFalse : Option Expr)
  | lambda (node : Node)
  | braceList (node : Node) (elems : List Expr)
  | creation (node : Node) (ref : Option TypeRef)
  | ident (node : Node) (name : String)
  | literal (node : Node) (value : Literal)
  | other (node : Node)

namespace Expr

def node : Expr → Node
  | conditional node _ _ _ | lambda node | braceList node _ | creation node _ | ident node _
  | literal node _ | other node => node

def id (e : Expr) : NodeId :=
  e.node.id

/-- Whether the expression creates an object whose type arguments are left open. -/
def isDiamondCreation : Expr → Bool
  | creation _ (some ref) => ref.isDiamond
  | _ => false

mutual
def same : Expr → Expr → Bool
  | .conditional node c t f, .conditional node' c' t' f' =>
    node == node' && same c c' && sameBranch t t' && sameBranch f f'
  | .lambda node, .lambda node' => node == node'
  | .braceList node es, .braceList node' es' => node == node' && sameElems es es'
  | .creation node ref, .creation node' ref' => node == node' && ref == ref'
  | .ident node name, .ident node' name' => node == node' && name == name'
  | .literal node v, .literal node' v' => node == node' && v == v'
  | .other node, .other node' => node == node'
  | _, _ => false

def sameBranch : Option Expr → Option Expr → Bool
  | none, none => true
  | some a, some b => same a b
  | none, some _ | some _, none => false

def sameElems : List Expr → List Expr → Bool
  | [], [] => true
  | a :: as, b :: bs => same a b && sameElems as bs
  | [], _ :: _ | _ :: _, [] => false
end

instance : BEq Expr := ⟨same⟩

end Expr
end InferredTypes
