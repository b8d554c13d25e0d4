import InferredTypes.Environment.Basic

/-! The classes that programs find declared: boxes, strings and the core collections. -/
namespace InferredTypes.Environment

def langName (simple : String) : String :=
  "java.lang." ++ simple

def utilName (simple : String) : String :=
  "java.util." ++ simple

/-- Simple names of the classes that are imported into every program, each with its parameters and
supertypes. -/
def langClasses : List (String × ClassInfo) :=
  let number := Ty.named (langName "Number") []
  [ ("Object", ⟨[], []⟩)
  , ("Number", ⟨[], [topClass]⟩)
  , ("String", ⟨[], [topClass]⟩)
  , ("Integer", ⟨[], [number]⟩)
  , ("Long", ⟨[], [number]⟩)
  , ("Short", ⟨[], [number]⟩)
  , ("Byte", ⟨[], [number]⟩)
  , ("Float", ⟨[], [number]⟩)
  , ("Double", ⟨[], [number]⟩)
  , ("Boolean", ⟨[], [topClass]⟩)
  , ("Character", ⟨[], [topClass]⟩)
  , ("Iterable", ⟨["T"], [topClass]⟩) ]

def utilClasses : List (String × ClassInfo) :=
  [ ("Collection", ⟨["E"], [.named iterableName [.var "E"]]⟩)
  , ("List", ⟨["E"], [.named (utilName "Collection") [.var "E"]]⟩)
  , ("ArrayList", ⟨["E"], [.named (utilName "List") [.var "E"]]⟩)
  , ("Map", ⟨["K", "V"], [topClass]⟩)
  , ("HashMap", ⟨["K", "V"], [.named (utilName "Map") [.var "K", .var "V"]]⟩) ]

def standardChanges : List Change :=
  langClasses.map (fun c => .declareClass (langName c.1) c.2) ++
  utilClasses.map (fun c => .declareClass (utilName c.1) c.2) ++
  langClasses.map (fun c => .importName c.1 (langName c.1))

def standard : Environment :=
  initial.applyAll standardChanges

/-- The standard environment with both placeholders imported under their short names. -/
def withPlaceholders : Environment :=
  standard.applyAll [.importName "val" "lombok.val", .importName "var" "lombok.var"]

end InferredTypes.Environment
