import InferredTypes.Guard.Run

/-! Computations of one inference request. They share a guard and a journal, and may stop early. -/
namespace InferredTypes

structure Context where
  guard : Guard
  journal : Journal
  deriving DecidableEq

namespace Context

/-- The start of a request that is not part of another. -/
def fresh : Context := ⟨.empty, #[]⟩

def slot : Guard.Slot Context where
  read s := s.guard
  write g s := { s with guard := g }
  note e s := { s with journal := s.journal.push e }

@[simp] theorem slot_read (s : Context) : slot.read s = s.guard := rfl

@[simp] theorem slot_write (g : Guard) (s : Context) : slot.write g s = { s with guard := g } := rfl

@[simp] theorem slot_note (e : Event) (s : Context) :
    slot.note e s = { s with journal := s.journal.push e } := rfl

end Context

abbrev Request := EStateM Stop Context

namespace Request
variable {α : Type}

def note (e : Event) : Request Unit :=
  modify (Context.slot.note e)

def depth : Request Nat := do
  return (← get).guard.depth

/-- Puts a question on record, then answers it. -/
def asking (q : Guard → Question) (answer : Request α) : Request α := do
  note (.asked (q (← get).guard))
  answer

/-- Runs `body` with an expression in flight; no result when that is refused. -/
def guarded (key : NodeId) (body : Request α) : Request (Option α) :=
  Guard.run Context.slot key body

/-- Runs `body` with all the given expressions in flight, the first one outermost. -/
def guardedAll (keys : List NodeId) (body : Request α) : Request (Option α) :=
  match keys with
  | [] => some <$> body
  | key :: keys => Option.join <$> guarded key (guardedAll keys body)

end Request
end InferredTypes
