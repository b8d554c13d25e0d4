import InferredTypes.Environment.Typing
import InferredTypes.Proofs.SmallPrograms
import InferredTypes.Proofs.TypeShape

/-! The arguments of a written type. Those that denote no type are left out of the list, so the ones
behind them move forward. All stay in their places where all of them are resolved, or none is. -/
namespace InferredTypes

namespace Environment

def argumentType? (env : Environment) : TypeArg TypeRef → Option Ty
  | .type ref => env.declaredType ref
  | .diamond => none

mutual
/-- Each argument of the type is denoted by the written argument in its place, also inside of the
arguments. -/
def inPlace (env : Environment) (ref : TypeRef) : Ty → Bool
  | .named _ tys => tys.isEmpty || env.allInPlace ref.args tys
  | .array elem => env.inPlace ref elem
  | .primitive _ | .var _ | .null => true

def allInPlace (env : Environment) : List (TypeArg TypeRef) → List Ty → Bool
  | [], [] => true
  | .type ref :: args, ty :: tys =>
    env.declaredType ref = some ty && env.inPlace ref ty && env.allInPlace args tys
  | .diamond :: _, _ | .type _ :: _, [] | [], _ :: _ => false
end

/-- Whether a written type denotes a type, which its name alone decides. -/
def resolves (env : Environment) (ref : TypeRef) : Bool :=
  (Primitive.ofName? ref.name).isSome || (env.qualify ref.name).isSome

def resolvesArgument (env : Environment) : TypeArg TypeRef → Bool
  | .type ref => env.resolves ref
  | .diamond => false

mutual
/-- The written arguments are all resolved, also inside of each other, or none of them is. -/
def whole (env : Environment) : TypeRef → Bool
  | ⟨_, name, args, _⟩ =>
    (Primitive.ofName? name).isSome || !args.any env.resolvesArgument || env.allWhole args

def allWhole (env : Environment) : List (TypeArg TypeRef) → Bool
  | [] => true
  | .type ref :: args => env.resolves ref && env.whole ref && env.allWhole args
  | .diamond :: _ => false
end

variable {env : Environment} {ref : TypeRef} {ty : Ty}

theorem argumentTypes_eq_filterMap (args : List (TypeArg TypeRef)) :
    env.argumentTypes args = args.filterMap env.argumentType? := by
  induction args with
  | nil => rw [argumentTypes, List.filterMap_nil]
  | cons arg args ih =>
    cases arg with
    | diamond => rw [argumentTypes, ih, List.filterMap_cons_none rfl]
    | type ref =>
      rw [argumentTypes, ih, List.filterMap_cons, argumentType?]
      cases env.declaredType ref <;> rfl

/-- A primitive, or a class with the types of its resolved arguments, under the written layers. -/
theorem declaredType_eq_some_iff :
    env.declaredType ref = some ty ↔
      (∃ p, Primitive.ofName? ref.name = some p ∧ ty = (Ty.primitive p).arrayOf ref.dims) ∨
      ∃ name, Primitive.ofName? ref.name = none ∧ env.qualify ref.name = some name ∧
        ty = (Ty.named name (env.argumentTypes ref.args)).arrayOf ref.dims := by
  obtain ⟨node, written, args, dims⟩ := ref
  rw [declaredType]
  cases Primitive.ofName? written with
  | some p => simp [eq_comm]
  | none => cases env.qualify written <;> simp [eq_comm]

theorem isSome_declaredType (ref : TypeRef) : (env.declaredType ref).isSome = env.resolves ref := by
  obtain ⟨node, written, args, dims⟩ := ref
  rw [declaredType, resolves]
  cases Primitive.ofName? written with
  | some p => rfl
  | none => cases env.qualify written <;> rfl

theorem isSome_argumentType? (arg : TypeArg TypeRef) :
    (env.argumentType? arg).isSome = env.resolvesArgument arg := by
  cases arg with
  | type ref => exact isSome_declaredType ref
  | diamond => rfl

theorem length_argumentTypes (args : List (TypeArg TypeRef)) :
    (env.argumentTypes args).length = args.countP env.resolvesArgument := by
  rw [argumentTypes_eq_filterMap, List.length_filterMap_eq_countP]
  exact congrArg (List.countP · args) (funext isSome_argumentType?)

theorem isEmpty_argumentTypes (args : List (TypeArg TypeRef)) :
    (env.argumentTypes args).isEmpty = !args.any env.resolvesArgument := by
  rw [Bool.eq_iff_iff, List.isEmpty_iff_length_eq_zero, length_argumentTypes]
  simp

/-- A resolved argument stands behind the resolved ones that are written before it. -/
theorem getElem?_argumentTypes {before after : List (TypeArg TypeRef)} {inner : TypeRef}
    (denoted : env.declaredType inner = some ty) :
    (env.argumentTypes (before ++ .type inner :: after))[before.countP env.resolvesArgument]? =
      some ty := by
  have here : env.argumentType? (.type inner) = some ty := denoted
  rw [← length_argumentTypes, argumentTypes_eq_filterMap, argumentTypes_eq_filterMap,
    List.filterMap_append, List.filterMap_cons_some here]
  simp

theorem inPlace_arrayOf (n : Nat) : env.inPlace ref (ty.arrayOf n) = env.inPlace ref ty := by
  induction n with
  | zero => rfl
  | succ n ih =>
    rw [Ty.arrayOf, inPlace]
    exact ih

mutual
/-- Whether the arguments of a type are in place can be told from the written type alone. -/
theorem inPlace_eq_whole (ref : TypeRef) :
    ∀ ty ∈ env.declaredType ref, env.inPlace ref ty = env.whole ref := by
  obtain ⟨node, written, args, dims⟩ := ref
  intro ty denoted
  rw [whole]
  rcases declaredType_eq_some_iff.1 denoted with ⟨p, named, rfl⟩ | ⟨name, other, -, rfl⟩
  · rw [inPlace_arrayOf, inPlace, named]
    rfl
  · have inner := allInPlace_eq_allWhole args
    rw [inPlace_arrayOf, inPlace, inner, isEmpty_argumentTypes, other]
    rfl

theorem allInPlace_eq_allWhole (args : List (TypeArg TypeRef)) :
    env.allInPlace args (env.argumentTypes args) = env.allWhole args := by
  match args with
  | [] => simp [argumentTypes, allInPlace, allWhole]
  | .diamond :: args => simp [argumentTypes, allInPlace, allWhole]
  | .type ref :: args =>
    have first := inPlace_eq_whole ref
    have rest := allInPlace_eq_allWhole args
    rw [argumentTypes, allWhole, ← isSome_declaredType ref]
    cases denoted : env.declaredType ref with
    | none =>
      -- The next resolved argument, if there is one, stands in the place of this one.
      cases env.argumentTypes args <;> simp [allInPlace, denoted]
    | some ty => simp [allInPlace, denoted, first ty denoted, rest]
end

theorem argumentTypes_of_base (denoted : env.declaredType ref = some ty) {name : String}
    {tys : List Ty} (base : ty.base = .named name tys) : env.argumentTypes ref.args = tys := by
  rcases declaredType_eq_some_iff.1 denoted with ⟨p, -, rfl⟩ | ⟨qualified, -, -, rfl⟩
  · simp [Ty.base] at base
  · rw [Ty.base_arrayOf, Ty.base] at base
    exact (Ty.named.inj base).2

/-- The arguments of a type keep the places of the written ones, also inside of each other, exactly
if the written type is whole. In general there are as many as written ones that are resolved, and
each stands behind those of the resolved ones before it. -/
theorem inPlace_iff_whole (denoted : env.declaredType ref = some ty) :
    (env.inPlace ref ty = true ↔ env.whole ref = true) ∧
    ∀ name tys, ty.base = .named name tys →
      tys.length = ref.args.countP env.resolvesArgument ∧
      ∀ before inner after innerTy, ref.args = before ++ .type inner :: after →
        env.declaredType inner = some innerTy →
        tys[before.countP env.resolvesArgument]? = some innerTy := by
  refine ⟨by rw [inPlace_eq_whole ref ty denoted], ?_⟩
  intro name tys base
  obtain rfl := argumentTypes_of_base denoted base
  refine ⟨length_argumentTypes ref.args, ?_⟩
  intro before inner after innerTy written found
  rw [written]
  exact getElem?_argumentTypes found

/-- A class of entries that is declared as an iterable of its keys. -/
def withEntries : Environment :=
  standard.apply (.declareClass "Entry" ⟨["K", "V"], [.named iterableName [.var "K"]]⟩)

def entryRef (key value : TypeRef) (dims : Nat) : TypeRef :=
  ⟨⟨⟨0⟩, ⟨0, 0⟩⟩, "Entry", [.type key, .type value], dims⟩

def nameRef (name : String) (dims : Nat) : TypeRef :=
  ⟨⟨⟨0⟩, ⟨0, 0⟩⟩, name, [], dims⟩

/-- An array of entries whose values are entries again. -/
theorem entries_inPlace :
    let ref := entryRef (nameRef "int" 2) (entryRef (nameRef "String" 0) (nameRef "Object" 1) 0) 3
    let ty := (Ty.named "Entry" [(Ty.primitive .int).arrayOf 2,
      .named "Entry" [stringType, .array topClass]]).arrayOf 3
    withEntries.declaredType ref = some ty ∧ withEntries.whole ref = true ∧
    withEntries.inPlace ref ty = true := by
  intro ref ty
  have denoted : withEntries.declaredType ref = some ty := by decide +kernel
  have complete : withEntries.whole ref = true := by decide +kernel
  exact ⟨denoted, complete, (inPlace_iff_whole denoted).1.2 complete⟩

/-- The key of an entry is unknown, so the value takes its place and a loop over the entry yields
values for keys. -/
theorem unknown_key_loses_place :
    let ref := entryRef (nameRef "Unknown" 0) (nameRef "String" 0) 0
    let ty := Ty.named "Entry" [stringType]
    withEntries.declaredType (nameRef "Unknown" 0) = none ∧
    withEntries.declaredType ref = some ty ∧ withEntries.inPlace ref ty = false ∧
    withEntries.elementOf ty = some stringType := by
  decide +kernel

end Environment
end InferredTypes
