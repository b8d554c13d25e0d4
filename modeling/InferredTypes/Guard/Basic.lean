import InferredTypes.Program.Location

/-! The expressions whose types are being computed, outermost first. -/
namespace InferredTypes

structure Guard where
  inFlight : List NodeId
  deriving DecidableEq

namespace Guard

def empty : Guard := ⟨[]⟩

def depth (g : Guard) : Nat :=
  g.inFlight.length

def holds (g : Guard) (key : NodeId) : Bool :=
  key ∈ g.inFlight

/-- Marks one more expression, inside all others. -/
def enter (g : Guard) (key : NodeId) : Guard :=
  ⟨g.inFlight ++ [key]⟩

/-- Releases everything that was entered beyond the given depth. -/
def truncate (g : Guard) (depth : Nat) : Guard :=
  ⟨g.inFlight.take depth⟩

@[simp] theorem holds_iff (g : Guard) (key : NodeId) : g.holds key = true ↔ key ∈ g.inFlight := by
  simp [holds]

@[simp] theorem depth_enter (g : Guard) (key : NodeId) : (g.enter key).depth = g.depth + 1 := by
  simp [enter, depth]

@[simp] theorem truncate_enter (g : Guard) (key : NodeId) :
    (g.enter key).truncate g.depth = g := by
  simp [enter, truncate, depth]

end Guard
end InferredTypes
