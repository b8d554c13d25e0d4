import InferredTypes.Assoc
import InferredTypes.Journal

/-! Settings by key, and the switch that turns inference on or off. -/
namespace InferredTypes

structure Settings where
  values : Assoc String String

namespace Settings

def empty : Settings := ⟨.empty⟩

def set (s : Settings) (key value : String) : Settings :=
  ⟨s.values.insert key value⟩

def get? (s : Settings) (key : String) : Option String :=
  s.values.get? key

/-- Whether both settings give every key the same value. -/
def agrees (s t : Settings) : Bool :=
  s.values.agrees t.values

def enabledKey : String := "valvar.enabled"

def enabledDefault : Bool := true

/-- The truth values, in any mix of small and capital letters. -/
def readBool (value : String) : Option Bool :=
  match value.toList.map Char.toLower with
  | ['t', 'r', 'u', 'e'] => some true
  | ['f', 'a', 'l', 's', 'e'] => some false
  | _ => none

/-- Whether inference is switched on; a value that is no truth value counts as not set. -/
def isEnabled (s : Settings) : Bool :=
  ((s.get? enabledKey).bind readBool).getD enabledDefault

/-- The warning about a value of the switch that had to be ignored. -/
def warnings (s : Settings) : List LogLine :=
  match s.get? enabledKey with
  | none => []
  | some value =>
    match readBool value with
    | some _ => []
    | none => [⟨.warn, "ignoring invalid value '" ++ value ++ "' for " ++ enabledKey ++ ", using " ++
        toString enabledDefault⟩]

@[simp] theorem get?_set (s : Settings) (key other value : String) :
    (s.set key value).get? other = if other = key then some value else s.get? other :=
  Assoc.get?_insert s.values key other value

end Settings
end InferredTypes
