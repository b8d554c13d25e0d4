import InferredTypes.Environment.Hierarchy

/-! Which types can be assigned to which: identity, assumed pairs, widening, boxing, arrays and
the class hierarchy. -/
namespace InferredTypes

namespace Primitive

/-- The class that wraps values of a primitive type. -/
def boxName : Primitive → String
  | boolean => "java.lang.Boolean"
  | byte => "java.lang.Byte"
  | short => "java.lang.Short"
  | char => "java.lang.Character"
  | int => "java.lang.Integer"
  | long => "java.lang.Long"
  | float => "java.lang.Float"
  | double => "java.lang.Double"

def ofBox? (name : String) : Option Primitive :=
  all.find? fun p => p.boxName = name

end Primitive

namespace Environment

/-- Two class types fit when one of them is without arguments or the arguments are the same. -/
def subtype (env : Environment) (source target : Ty) : Bool :=
  match target with
  | .named name args =>
    if name = topName then true
    else
      match env.viewAs source name with
      | some (.named _ viewArgs) => args.isEmpty || viewArgs.isEmpty || viewArgs = args
      | _ => false
  | _ => false

/-- Whether a rule makes the one type assignable to the other, apart from identity and assumption.
Arrays go by their elements: `elements` are the types that the elements of the source fit. -/
def fits (env : Environment) (elements : Ty → Bool) : Ty → Ty → Bool
  | .null, target => !target.isPrimitive
  | .primitive p, .primitive q => p.widens q
  | .primitive p, target => env.subtype (.named p.boxName []) target
  | .named name _, .primitive q =>
    match Primitive.ofBox? name with
    | some p => p = q || p.widens q
    | none => false
  | .array a, .array b => if a.isPrimitive || b.isPrimitive then a = b else elements b
  | source@(.named _ _), target@(.named _ _) => env.subtype source target
  | _, .named name _ => name = topName
  | _, _ => false

def assignable (env : Environment) (source target : Ty) : Bool :=
  if source = target ∨ (source, target) ∈ env.assumed then true
  else
    match source with
    | .array elem => env.fits (env.assignable elem) source target
    | .primitive _ | .named _ _ | .var _ | .null => env.fits (fun _ => false) source target

/-- The types that the elements of an array fit. No other type has elements. -/
def elementsFit (env : Environment) : Ty → Ty → Bool
  | .array elem => env.assignable elem
  | .primitive _ | .named _ _ | .var _ | .null => fun _ => false

theorem assignable_eq (env : Environment) (source target : Ty) :
    env.assignable source target =
      if source = target ∨ (source, target) ∈ env.assumed then true
      else env.fits (env.elementsFit source) source target := by
  cases source <;> rfl

/-- Erases a type for a variable: nothing is known of a type variable but the top class. -/
def erasure (ty : Ty) : Ty :=
  match ty with
  | .var _ => topClass
  | .array elem => .array (erasure elem)
  | ty => ty.erasure

end Environment
end InferredTypes
