/-! The two type placeholders, told by the qualified name that a written type resolves to. -/
namespace InferredTypes

inductive Placeholder where
  | none | val | var
  deriving DecidableEq

namespace Placeholder

def keyword : Placeholder → String
  | none => "none"
  | val => "val"
  | var => "var"

def isActive : Placeholder → Bool
  | none => false
  | val | var => true

/-- The placeholder that a qualified name denotes; a name that cannot be resolved denotes none. -/
def ofName : Option String → Placeholder
  | some "lombok.val" => val
  | some "lombok.var" => var
  | some "lombok.experimental.var" => var
  | _ => none

end Placeholder
end InferredTypes
