import InferredTypes.Proofs.TypeShape
import InferredTypes.Proofs.TypeVariables

/-! Substitution after substitution. An argument takes the place of a variable as it is, whatever
variables it has itself, so two substitutions in a row are one with the second done in its
arguments. -/
namespace InferredTypes.Ty
variable {params outer : List String} {args outerArgs tys : List Ty} {name : String}

mutual
/-- The names of the type variables in the type. -/
def varNames : Ty → List String
  | .var name => [name]
  | .named _ args => varNamesAll args
  | .array elem => elem.varNames
  | .primitive _ | .null => []

def varNamesAll : List Ty → List String
  | [] => []
  | ty :: tys => ty.varNames ++ varNamesAll tys
end

/-- What stands at a place in the type. The path goes down to the argument with the given number, and
from an array to its element by the number zero. -/
def at? : Ty → List Nat → Option Ty
  | ty, [] => some ty
  | .named _ args, i :: path => args[i]?.bind fun a => a.at? path
  | .array elem, 0 :: path => elem.at? path
  | _, _ :: _ => none

/-- The first position of each variable of the type among the parameters is one that has an
argument. -/
def Covered (params : List String) (args : List Ty) (ty : Ty) : Prop :=
  ∀ name ∈ ty.varNames, name ∈ params ∧ params.idxOf name < args.length

instance (ty : Ty) : Decidable (Covered params args ty) :=
  List.decidableBAll _ ty.varNames

theorem mem_varNamesAll : name ∈ varNamesAll tys ↔ ∃ ty ∈ tys, name ∈ ty.varNames := by
  induction tys with
  | nil => simp [varNamesAll]
  | cons ty tys ih => simp [varNamesAll, ih]

theorem Covered.of_named {ty : Ty} (covered : Covered params args (.named name tys))
    (mem : ty ∈ tys) : Covered params args ty := by
  intro x inside
  exact covered x (mem_varNamesAll.2 ⟨ty, mem, inside⟩)

theorem argument?_eq_getElem? (args : List Ty) (mem : name ∈ params) :
    argument? params args name = args[params.idxOf name]? := by
  induction params generalizing args with
  | nil => simp at mem
  | cons p params ih =>
    cases args with
    | nil => simp [argument?]
    | cons a args =>
      by_cases here : p = name
      · simp [argument?, here]
      · have later : name ∈ params := by simpa [Ne.symm here] using mem
        have other : (p == name) = false := by simpa using here
        rw [argument?, if_neg here, ih args later, List.idxOf_cons, other]
        rfl

theorem argument?_map (f : Ty → Ty) (params : List String) (args : List Ty) (name : String) :
    argument? params (args.map f) name = (argument? params args name).map f := by
  induction params generalizing args with
  | nil => simp [argument?]
  | cons p params ih =>
    cases args with
    | nil => simp [argument?]
    | cons a args => by_cases here : p = name <;> simp [argument?, here, ih]

theorem Covered.exists_argument (covered : Covered params args (.var name)) :
    ∃ a, args[params.idxOf name]? = some a ∧ argument? params args name = some a := by
  obtain ⟨mem, within⟩ := covered name (by simp [varNames])
  have found := List.getElem?_eq_getElem within
  exact ⟨_, found, (argument?_eq_getElem? args mem).trans found⟩

/-- A second substitution can be done in the arguments of the first. -/
theorem subst_subst (ty : Ty) (covered : Covered params args ty) :
    (ty.subst params args).subst outer outerArgs =
      ty.subst params (args.map (subst outer outerArgs)) := by
  induction ty using Ty.induct with
  | primitive | null => simp only [subst]
  | var name =>
    -- A variable without an argument would stay and meet the second substitution.
    obtain ⟨a, -, found⟩ := covered.exists_argument
    simp [subst, argument?_map, found]
  | array elem ih => simp only [subst, ih covered]
  | named name inner ih =>
    simp only [subst, substAll_eq_map, List.map_map, named.injEq, true_and]
    exact List.map_congr_left fun a mem => ih a mem (covered.of_named mem)

/-- Substitution does the same everywhere in the type. -/
theorem at?_subst {ty part : Ty} {path : List Nat} (found : ty.at? path = some part) :
    (ty.subst params args).at? path = some (part.subst params args) := by
  induction path generalizing ty with
  | nil =>
    obtain rfl : ty = part := by simpa [at?] using found
    simp [at?]
  | cons i path ih =>
    cases ty with
    | named name inner =>
      obtain ⟨a, listed, inside⟩ := Option.bind_eq_some_iff.1 found
      simp [subst, at?, listed, ih inside]
    | array elem =>
      cases i with
      | zero => exact ih found
      | succ i => simp [at?] at found
    | primitive | var | null => simp [at?] at found

theorem mem_varNames_of_at? {ty : Ty} {path : List Nat} (found : ty.at? path = some (.var name)) :
    name ∈ ty.varNames := by
  induction path generalizing ty with
  | nil =>
    obtain rfl : ty = .var name := by simpa [at?] using found
    simp [varNames]
  | cons i path ih =>
    cases ty with
    | named _ inner =>
      obtain ⟨a, listed, inside⟩ := Option.bind_eq_some_iff.1 found
      exact mem_varNamesAll.2 ⟨a, List.mem_of_getElem? listed, ih inside⟩
    | array elem =>
      cases i with
      | zero =>
        rw [varNames]
        exact ih found
      | succ i => simp [at?] at found
    | primitive | var | null => simp [at?] at found

/-- If every variable of the type has an argument, two substitutions in a row are one with the second
done in its arguments, however the names overlap. For at the place of a variable stands the argument
of its first parameter as it is, and is not replaced again. -/
theorem substitutions_compose (ty : Ty) (params outer : List String) (args outerArgs : List Ty)
    (covered : Covered params args ty) :
    (ty.subst params args).subst outer outerArgs =
      ty.subst params (args.map (subst outer outerArgs)) ∧
    ∀ path name, ty.at? path = some (.var name) →
      (ty.subst params args).at? path = args[params.idxOf name]? := by
  refine ⟨subst_subst ty covered, ?_⟩
  intro path name found
  have inside : Covered params args (.var name) := by
    intro x mem
    obtain rfl : x = name := by simpa [varNames] using mem
    exact covered x (mem_varNames_of_at? found)
  obtain ⟨a, listed, replaced⟩ := inside.exists_argument
  rw [at?_subst found, listed, subst, replaced]
  rfl

/-- Parameters that are swapped in the arguments, one of them twice in the list. -/
theorem swapped_parameters_compose :
    let map (key value : Ty) := Ty.named "Map" [key, value]
    let nested := map (.var "V") (map (.var "K") (.var "V"))
    let params := ["K", "V", "K"]
    let args := [Ty.var "V", .array (.var "K")]
    let outer := subst ["V", "K"] [map (.var "K") (.var "V"), .var "V"]
    Covered params args nested ∧
    outer (nested.subst params args) = nested.subst params (args.map outer) ∧
    (nested.subst params args).at? [1, 0] = some (.var "V") := by
  intro map nested params args outer
  have covered : Covered params args nested := by decide
  obtain ⟨composed, places⟩ := substitutions_compose nested params _ args _ covered
  exact ⟨covered, composed, places [1, 0] "K" rfl⟩

end InferredTypes.Ty
