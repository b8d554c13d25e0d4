/-! An append-only pool: a value put into it is read back under the handle that came with it, and
nothing put in later changes that. Interning puts a name in once and hands out its handle again. -/
namespace InferredTypes

structure Pool (α : Type) where
  cells : Array α

namespace Pool

/-- A place in a pool. -/
structure Handle where
  index : Nat
  deriving DecidableEq

variable {α : Type}

def empty : Pool α := ⟨#[]⟩

def isEmpty (p : Pool α) : Bool :=
  p.cells.isEmpty

def get? (p : Pool α) (h : Handle) : Option α :=
  p.cells[h.index]?

def alloc (p : Pool α) (a : α) : Handle × Pool α :=
  (⟨p.cells.size⟩, ⟨p.cells.push a⟩)

/-- Puts the values in from left to right; the handles stand in the same order. -/
def allocAll (p : Pool α) : List α → List Handle × Pool α
  | [] => ([], p)
  | a :: as =>
    let (h, p) := p.alloc a
    let (hs, p) := p.allocAll as
    (h :: hs, p)

/-- The values under a list of handles; handles of another pool are skipped. -/
def read (p : Pool α) (hs : List Handle) : List α :=
  hs.filterMap p.get?

/-- The handle of a value that is already in the pool, or of a new cell for it. -/
def intern [BEq α] (p : Pool α) (a : α) : Handle × Pool α :=
  match p.cells.findIdx? (· == a) with
  | some i => (⟨i⟩, p)
  | none => p.alloc a

def internAll [BEq α] (p : Pool α) : List α → List Handle × Pool α
  | [] => ([], p)
  | a :: as =>
    let (h, p) := p.intern a
    let (hs, p) := p.internAll as
    (h :: hs, p)

@[simp] theorem get?_alloc (p : Pool α) (a : α) : (p.alloc a).2.get? (p.alloc a).1 = some a := by
  simp [alloc, get?]

theorem get?_alloc_of_some {p : Pool α} {h : Handle} {b : α} (a : α) (hb : p.get? h = some b) :
    (p.alloc a).2.get? h = some b := by
  have bound : h.index < p.cells.size := (Array.getElem?_eq_some_iff.1 hb).1
  simpa [alloc, get?, Array.getElem?_push, Nat.ne_of_lt bound] using hb

theorem get?_intern [BEq α] [LawfulBEq α] (p : Pool α) (a : α) :
    (p.intern a).2.get? (p.intern a).1 = some a := by
  unfold intern
  split
  · next i found =>
    obtain ⟨bound, equal, _⟩ := Array.findIdx?_eq_some_iff_getElem.1 found
    simpa [get?, bound] using equal
  · exact get?_alloc p a

end Pool
end InferredTypes
