import InferredTypes.Ty.Basic

/-! The text of a type, as it stands in messages. -/
namespace InferredTypes.Ty

mutual
/-- Arguments stand between angle brackets, array layers after the element type. -/
def text : Ty → String
  | .primitive p => p.name
  | .named name args => name ++ argumentText args
  | .array elem => elem.text ++ "[]"
  | .var name => name
  | .null => "null"

/-- Nothing at all for an empty list. -/
def argumentText : List Ty → String
  | [] => ""
  | ty :: tys => "<" ++ ty.text ++ moreText tys ++ ">"

def moreText : List Ty → String
  | [] => ""
  | ty :: tys => ", " ++ ty.text ++ moreText tys
end

end InferredTypes.Ty
