import InferredTypes.Environment.Typing

/-! What an environment says about names and types depends only on what its tables of imports,
classes and assumed pairs hold, not on how they were filled. -/
namespace InferredTypes.Environment

/-! Supertypes depend on the classes alone. -/

section
variable {env env' : Environment}
  (classes : ∀ name, env.classes.get? name = env'.classes.get? name)
include classes

theorem supersOf_congr (name : String) (args : List Ty) :
    env.supersOf name args = env'.supersOf name args := by
  simp only [supersOf, classes]

theorem findInstance_congr (target : String) (visited : List String) (pending : List Ty) :
    env.findInstance target visited pending = env'.findInstance target visited pending := by
  fun_induction findInstance env target visited pending with
  | case1 visited => simp [findInstance]
  | case2 visited args pending => simp [findInstance]
  | case3 visited name args pending other known ih =>
    simp [findInstance, other, known, ih]
  | case4 visited name args pending other fresh ih =>
    rw [ih, supersOf_congr classes]
    simp [findInstance, other, fresh]
  | case5 visited _ pending ih | case6 visited _ pending ih | case7 visited _ pending ih
  | case8 visited pending ih => simp [findInstance, ih]

theorem viewAs_congr (ty : Ty) (target : String) : env.viewAs ty target = env'.viewAs ty target :=
  findInstance_congr classes target [] [ty]

theorem subtype_congr (source target : Ty) :
    env.subtype source target = env'.subtype source target := by
  simp only [subtype, viewAs_congr classes]

/-- The rules ask about assumed pairs only under a layer of arrays. -/
theorem fits_congr {elements elements' : Ty → Bool} {source target : Ty}
    (inner : ∀ a b, source = .array a → target = .array b → elements b = elements' b) :
    env.fits elements source target = env'.fits elements' source target := by
  cases source with
  | array a =>
    cases target with
    | array b => simp only [fits, inner a b rfl rfl]
    | primitive | named | var | null => simp only [fits]
  | primitive p => cases target <;> simp only [fits, subtype_congr classes]
  | named name args => cases target <;> simp only [fits, subtype_congr classes]
  | var name => cases target <;> simp only [fits]
  | null => simp only [fits]

end

/-- The two environments have the same imports, classes and assumed pairs. -/
structure Alike (env env' : Environment) : Prop where
  imports : ∀ name, env.imports.get? name = env'.imports.get? name
  classes : ∀ name, env.classes.get? name = env'.classes.get? name
  assumed : ∀ pair, pair ∈ env.assumed ↔ pair ∈ env'.assumed

namespace Alike
variable {env env' : Environment}

theorem refl (env : Environment) : env.Alike env where
  imports _ := rfl
  classes _ := rfl
  assumed _ := Iff.rfl

theorem qualify (alike : env.Alike env') (written : String) :
    env.qualify written = env'.qualify written := by
  unfold Environment.qualify
  rw [alike.imports]
  cases env'.imports.get? written with
  | some qualified => rfl
  | none =>
    apply ite_congr _ (fun _ => rfl) fun _ => rfl
    rw [Assoc.contains, Assoc.contains, alike.classes]

mutual
theorem declaredType (alike : env.Alike env') (ref : TypeRef) :
    env.declaredType ref = env'.declaredType ref := by
  match ref with
  | ⟨_, name, args, dims⟩ =>
    simp only [Environment.declaredType, alike.qualify, alike.argumentTypes args]

theorem argumentTypes (alike : env.Alike env') (args : List (TypeArg TypeRef)) :
    env.argumentTypes args = env'.argumentTypes args := by
  match args with
  | [] => simp only [Environment.argumentTypes]
  | .type ref :: args =>
    simp only [Environment.argumentTypes, alike.declaredType ref, alike.argumentTypes args]
  | .diamond :: args => simp only [Environment.argumentTypes, alike.argumentTypes args]
end

theorem creationType (alike : env.Alike env') (ref : TypeRef) :
    env.creationType ref = env'.creationType ref := by
  simp only [Environment.creationType, alike.qualify, alike.classes, alike.declaredType]

theorem assignable (alike : env.Alike env') (source target : Ty) :
    env.assignable source target = env'.assignable source target := by
  have same : env.fits (env.elementsFit source) source target =
      env'.fits (env'.elementsFit source) source target := by
    match source with
    | .array a => exact fits_congr alike.classes fun _ b _ _ => alike.assignable a b
    | .primitive _ | .named _ _ | .var _ | .null => exact fits_congr alike.classes (by simp)
  rw [assignable_eq, assignable_eq, same]
  simp only [alike.assumed]

theorem elementOf (alike : env.Alike env') (ty : Ty) : env.elementOf ty = env'.elementOf ty := by
  simp only [Environment.elementOf, viewAs_congr alike.classes]

theorem semantics (alike : env.Alike env') : env.semantics = env'.semantics := by
  have names : env.qualify = env'.qualify := funext alike.qualify
  have pairs : env.assignable = env'.assignable :=
    funext fun source => funext (alike.assignable source)
  simp only [Environment.semantics, names, pairs]

end Alike
end InferredTypes.Environment
