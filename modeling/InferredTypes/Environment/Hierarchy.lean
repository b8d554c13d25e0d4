import InferredTypes.Environment.Basic
import InferredTypes.Ty.Substitution

/-! Supertypes: a class type seen as an instance of one of the classes above it. -/
namespace InferredTypes

/-- The direct supertypes of an instance. A type without arguments has erased supertypes. -/
def ClassInfo.supersOf (info : ClassInfo) (args : List Ty) : List Ty :=
  if args.isEmpty then info.supers.map Ty.erasure
  else info.supers.map (Ty.subst info.params args)

@[simp] theorem ClassInfo.length_supersOf (info : ClassInfo) (args : List Ty) :
    (info.supersOf args).length = info.supers.length := by
  unfold supersOf
  split <;> simp

namespace Environment

/-- The direct supertypes of a class type; none for a class that is not declared. -/
def supersOf (env : Environment) (name : String) (args : List Ty) : List Ty :=
  match env.classes.get? name with
  | some info => info.supersOf args
  | none => []

/-- The declared supertype edges that leave classes outside of `visited`. -/
def openEdges (visited : List String) : List (String × ClassInfo) → Nat
  | [] => 0
  | (name, info) :: classes =>
    (if name ∈ visited then 0 else info.supers.length) + openEdges visited classes

theorem openEdges_cons_le (name : String) (visited : List String)
    (classes : List (String × ClassInfo)) :
    openEdges (name :: visited) classes ≤ openEdges visited classes := by
  induction classes with
  | nil => simp [openEdges]
  | cons c classes ih =>
    simp only [openEdges, List.mem_cons]
    by_cases h : c.1 ∈ visited <;> by_cases h' : c.1 = name <;> simp [h, h'] <;> omega

/-- Visiting a class for the first time closes its edges. -/
theorem length_add_openEdges_le {name : String} {visited : List String} {info : ClassInfo}
    {classes : List (String × ClassInfo)} (fresh : name ∉ visited)
    (found : Assoc.firstWith name classes = some info) :
    info.supers.length + openEdges (name :: visited) classes ≤ openEdges visited classes := by
  induction classes with
  | nil => simp [Assoc.firstWith] at found
  | cons c classes ih =>
    obtain ⟨key, here⟩ := c
    simp only [Assoc.firstWith] at found
    simp only [openEdges, List.mem_cons]
    by_cases h : name = key
    · subst h
      have rest := openEdges_cons_le name visited classes
      simp only [if_true, Option.some.injEq] at found
      subst found
      simp [fresh]
      omega
    · have rest := ih (by simpa [h] using found)
      have h' : key ≠ name := fun e => h e.symm
      by_cases hv : key ∈ visited <;> simp [hv, h'] <;> omega

theorem length_supersOf_add_openEdges_le (env : Environment) {name : String}
    {visited : List String} (args : List Ty) (fresh : name ∉ visited) :
    (env.supersOf name args).length + openEdges (name :: visited) env.classes.entries ≤
      openEdges visited env.classes.entries := by
  unfold supersOf
  split
  · next info found => simpa using length_add_openEdges_le fresh found
  · simpa using openEdges_cons_le name visited env.classes.entries

/-- Looks for an instance of `target` among the pending types and their supertypes, depth first
and from left to right. A class is left by its supertypes at most once, so each declared edge is
followed at most once. -/
def findInstance (env : Environment) (target : String) (visited : List String) :
    List Ty → Option Ty
  | [] => none
  | .named name args :: pending =>
    if name = target then some (.named name args)
    else if name ∈ visited then env.findInstance target visited pending
    else env.findInstance target (name :: visited) (env.supersOf name args ++ pending)
  | .primitive _ :: pending | .array _ :: pending | .var _ :: pending | .null :: pending =>
    env.findInstance target visited pending
termination_by pending => pending.length + openEdges visited env.classes.entries
decreasing_by
  · simp
  · next fresh =>
    have closed := env.length_supersOf_add_openEdges_le args fresh
    simp only [List.length_cons, List.length_append]
    omega
  all_goals simp

/-- A type as an instance of the class `target`. -/
def viewAs (env : Environment) (ty : Ty) (target : String) : Option Ty :=
  env.findInstance target [] [ty]

end Environment
end InferredTypes
