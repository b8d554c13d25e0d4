/-! Finite tables in which a later entry for a key replaces an earlier one. The view of a table is
`get?`; two tables count as the same when their views agree. -/
namespace InferredTypes

structure Assoc (κ : Type) (α : Type) where
  entries : List (κ × α)

namespace Assoc
variable {κ α : Type}

def empty : Assoc κ α := ⟨[]⟩

def size (m : Assoc κ α) : Nat :=
  m.entries.length

variable [DecidableEq κ]

/-- The value of the first pair with the given key. -/
def firstWith (k : κ) : List (κ × α) → Option α
  | [] => none
  | (key, a) :: es => if k = key then some a else firstWith k es

def get? (m : Assoc κ α) (k : κ) : Option α :=
  firstWith k m.entries

def contains (m : Assoc κ α) (k : κ) : Bool :=
  (m.get? k).isSome

def erase (m : Assoc κ α) (k : κ) : Assoc κ α :=
  ⟨m.entries.filter fun e => e.1 ≠ k⟩

def insert (m : Assoc κ α) (k : κ) (a : α) : Assoc κ α :=
  ⟨(k, a) :: (m.erase k).entries⟩

/-- Every key of either table has the same value in both. -/
def agrees [BEq α] (m n : Assoc κ α) : Bool :=
  (m.entries ++ n.entries).all fun e => m.get? e.1 == n.get? e.1

@[simp] theorem get?_empty (k : κ) : (empty : Assoc κ α).get? k = none := rfl

theorem firstWith_filter_ne (k x : κ) (es : List (κ × α)) :
    firstWith x (es.filter fun e => e.1 ≠ k) = if x = k then none else firstWith x es := by
  induction es with
  | nil => simp [firstWith]
  | cons e es ih =>
    by_cases hk : e.1 = k <;> by_cases hx : x = e.1 <;> simp_all [firstWith]

theorem get?_erase (m : Assoc κ α) (k x : κ) :
    (m.erase k).get? x = if x = k then none else m.get? x :=
  firstWith_filter_ne k x m.entries

@[simp] theorem get?_insert (m : Assoc κ α) (k x : κ) (a : α) :
    (m.insert k a).get? x = if x = k then some a else m.get? x := by
  have erased := get?_erase m k x
  by_cases hx : x = k <;> simp_all [insert, get?, firstWith]

theorem mem_of_firstWith {k : κ} {a : α} {es : List (κ × α)} (h : firstWith k es = some a) :
    (k, a) ∈ es := by
  induction es with
  | nil => simp [firstWith] at h
  | cons e es ih =>
    obtain ⟨key, value⟩ := e
    by_cases hk : k = key <;> simp_all [firstWith]

/-- Tables agree when their views are the same. -/
theorem agrees_iff [BEq α] [LawfulBEq α] (m n : Assoc κ α) :
    m.agrees n = true ↔ ∀ k, m.get? k = n.get? k := by
  constructor
  · intro same k
    have onEntries (e : κ × α) (he : e ∈ m.entries ++ n.entries) : m.get? e.1 = n.get? e.1 := by
      simpa using List.all_eq_true.1 same e he
    cases hm : m.get? k with
    | some a =>
      have listed := mem_of_firstWith hm
      exact hm ▸ onEntries (k, a) (List.mem_append_left _ listed)
    | none =>
      cases hn : n.get? k with
      | none => rfl
      | some a =>
        have listed := mem_of_firstWith hn
        have equal := onEntries (k, a) (List.mem_append_right _ listed)
        simp_all
  · intro same
    simp [agrees, same]

end Assoc
end InferredTypes
