import InferredTypes.Environment.Standard

/-! Shorthands for the small programs that show what the theorems say. -/
namespace InferredTypes.Environment

def nodeOf (id : Nat) : Node := ⟨⟨id⟩, ⟨0, 0⟩⟩

def fork (id : Nat) (whenTrue whenFalse : Option Expr) : Expr :=
  .conditional (nodeOf id) (.other (nodeOf 0)) whenTrue whenFalse

/-- A `val` declaration in a block. -/
def valDecl (id : Nat) (name : String) (value : Expr) : Decl :=
  .localVariable ⟨nodeOf id, name, some ⟨nodeOf 0, "val", [], 0⟩, some value, .block⟩

def stringType : Ty := .named (langName "String") []

end InferredTypes.Environment
