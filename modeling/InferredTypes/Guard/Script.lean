import InferredTypes.Guard.Run

/-! Scripts that work on two guards side by side: nested runs, looks at the guards, aborts and
places where an abort is caught. -/
namespace InferredTypes.Guard

/-- Which of the two guards a step works on. -/
inductive Side where
  | left | right
  deriving DecidableEq

inductive Step where
  | run (side : Side) (key : NodeId) (body : List Step)
  | check (key : NodeId)
  | depth
  | abort
  | attempt (body : List Step)

/-- What a script shows of its execution. A check and a depth speak of the left guard first. -/
inductive Observation where
  | enter (key : NodeId)
  | exit (key : NodeId) (ran : Bool)
  | check (key : NodeId) (left right : Bool)
  | depth (left right : Nat)
  | caught (aborted : Bool) (left right : Nat)
  deriving DecidableEq

structure Bench where
  left : Guard
  right : Guard
  journal : Journal
  seen : Array Observation
  deriving DecidableEq

namespace Bench

def fresh : Bench := ⟨.empty, .empty, #[], #[]⟩

def observe (o : Observation) (s : Bench) : Bench :=
  { s with seen := s.seen.push o }

def guard (s : Bench) : Side → Guard
  | .left => s.left
  | .right => s.right

def slot (side : Side) : Slot Bench where
  read s := s.guard side
  write g s :=
    match side with
    | .left => { s with left := g }
    | .right => { s with right := g }
  note e s := { s with journal := s.journal.push e }

end Bench

abbrev Script := EStateM Stop Bench

mutual
def Step.exec : Step → Script Unit
  | .run side key body => do
    modify (Bench.observe (.enter key))
    let result ← Guard.run (Bench.slot side) key (Step.execAll body)
    modify (Bench.observe (.exit key result.isSome))
  | .check key => modify fun s => s.observe (.check key (s.left.holds key) (s.right.holds key))
  | .depth => modify fun s => s.observe (.depth s.left.depth s.right.depth)
  | .abort => throw .aborted
  | .attempt body => fun s =>
    match Step.execAll body s with
    | .ok _ s => .ok () (s.observe (.caught false s.left.depth s.right.depth))
    | .error _ s => .ok () (s.observe (.caught true s.left.depth s.right.depth))

def Step.execAll : List Step → Script Unit
  | [] => pure ()
  | step :: steps => do
    step.exec
    Step.execAll steps
end

/-- The bench after a whole script on two empty guards, and whether the script ended normally. -/
def Step.runScript (steps : List Step) : Bool × Bench :=
  match Step.execAll steps Bench.fresh with
  | .ok _ s => (true, s)
  | .error _ s => (false, s)

end InferredTypes.Guard
