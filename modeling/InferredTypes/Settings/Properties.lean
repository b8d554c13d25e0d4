import InferredTypes.Settings.Basic
import InferredTypes.Text.Blank
import InferredTypes.Text.Lines

/-! Settings read from properties text: one `key=value` or `key: value` to a line. -/
namespace InferredTypes.Settings

/-- What is wrong with a line; lines count from one. -/
inductive Fault where
  | malformedLine (line : Nat) (text : String)
  | emptyKey (line : Nat)
  deriving DecidableEq

def Fault.message : Fault → String
  | malformedLine line text =>
    "line " ++ toString line ++ ": expected `key=value` or `key: value`, found '" ++ text ++ "'"
  | emptyKey line => "line " ++ toString line ++ ": empty key"

def isSeparator (c : Char) : Bool :=
  c = '=' || c = ':'

/-- Whether a trimmed line holds no setting: it is empty or a comment. -/
def isSkipped : List Char → Bool
  | [] => true
  | c :: _ => c = '#' || c = '!'

/-- The setting of a line, if it has one. The first separator ends the key. -/
def readLine (number : Nat) (raw : List Char) : Except Fault (Option (String × String)) :=
  let line := Text.trim raw
  if isSkipped line then .ok none
  else
    match line.dropWhile (fun c => !isSeparator c) with
    | [] => .error (.malformedLine number (String.ofList line))
    | _ :: value =>
      match Text.trim (line.takeWhile fun c => !isSeparator c) with
      | [] => .error (.emptyKey number)
      | key => .ok (some (String.ofList key, String.ofList (Text.trim value)))

/-- Adds the settings of numbered lines one after the other, up to the first fault. -/
def addLines (s : Settings) (number : Nat) : List (List Char) → Except Fault Settings
  | [] => .ok s
  | raw :: rest =>
    match readLine number raw with
    | .error fault => .error fault
    | .ok none => s.addLines (number + 1) rest
    | .ok (some (key, value)) => (s.set key value).addLines (number + 1) rest

def parse (text : String) : Except Fault Settings :=
  empty.addLines 1 (Text.lines text.toList)

end InferredTypes.Settings
