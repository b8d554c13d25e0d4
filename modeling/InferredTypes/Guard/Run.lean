import InferredTypes.Journal

/-! Running a computation with an expression marked as in flight. The mark is released however the
computation ends. -/
namespace InferredTypes

/-- Why a computation ended without a result: it was aborted, or it asked back into inference more
often than its host allows. -/
inductive Stop where
  | aborted
  | exhausted
  deriving DecidableEq

/-- Where a state keeps a guard, and how it takes notes. -/
structure Guard.Slot (σ : Type) where
  read : σ → Guard
  write : Guard → σ → σ
  note : Event → σ → σ

/-- Runs `body` inside the given mark. An expression that is in flight already is refused: the
body does not run and there is no result. -/
def Guard.run {σ α : Type} (slot : Guard.Slot σ) (key : NodeId) (body : EStateM Stop σ α) :
    EStateM Stop σ (Option α) := fun s =>
  let g := slot.read s
  let release (s : σ) := slot.write ((slot.read s).truncate g.depth) s
  if g.holds key then
    .ok none (slot.note (.refused key g) s)
  else
    match body (slot.write (g.enter key) (slot.note (.entered key g) s)) with
    | .ok a s => .ok (some a) (release s)
    | .error e s => .error e (release s)

end InferredTypes
