import InferredTypes.Proofs.Reentry
import InferredTypes.Proofs.SmallPrograms
import InferredTypes.Proofs.Supertypes

/-! Supertypes as a class declares them. A class without parameters has its supertypes with their
arguments, only a generic class without arguments has erased ones. The search erases in both cases,
so it agrees with the declarations up to the first type without arguments that it leaves. -/
namespace InferredTypes

mutual
/-- Every type variable in the type is one of `params`. -/
def Ty.over (params : List String) : Ty → Bool
  | .var name => name ∈ params
  | .named _ args => overAll params args
  | .array elem => elem.over params
  | .primitive _ | .null => true

def Ty.overAll (params : List String) : List Ty → Bool
  | [] => true
  | ty :: tys => ty.over params && overAll params tys
end

/-- The direct supertypes of an instance as declared. -/
def ClassInfo.declaredSupers (info : ClassInfo) (args : List Ty) : List Ty :=
  if args.length = info.params.length then info.supers.map (Ty.subst info.params args)
  else if args = [] then info.supers.map Ty.erasure
  else []

namespace Environment

def arity (env : Environment) (name : String) : Nat :=
  match env.classes.get? name with
  | some info => info.params.length
  | none => 0

/-- As many arguments as the class has parameters. -/
def Full (env : Environment) (name : String) (args : List Ty) : Prop :=
  args.length = env.arity name

mutual
/-- Every class type in the type has no arguments or as many as its class has parameters. -/
def sized (env : Environment) : Ty → Bool
  | .named name args => (args.isEmpty || args.length = env.arity name) && env.sizedAll args
  | .array elem => env.sized elem
  | .var _ | .primitive _ | .null => true

def sizedAll (env : Environment) : List Ty → Bool
  | [] => true
  | ty :: tys => env.sized ty && env.sizedAll tys
end

/-- Supertypes are declared over the parameters of their class and with all arguments or none. -/
def WellDeclared (env : Environment) : Prop :=
  ∀ name info, env.classes.get? name = some info →
    ∀ s ∈ info.supers, s.over info.params = true ∧ env.sized s = true

def declaredSupers (env : Environment) : Ty → List Ty
  | .named name args =>
    match env.classes.get? name with
    | some info => info.declaredSupers args
    | none => []
  | .array _ | .var _ | .primitive _ | .null => []

def Derives (env : Environment) : Ty → Ty → Prop :=
  Relation.ReflTransGen fun ty sup => sup ∈ env.declaredSupers ty

variable {env : Environment} {name above target : String} {args aboveArgs inst : List Ty}

theorem declaredSupers_of_found {info : ClassInfo} (found : env.classes.get? name = some info) :
    env.declaredSupers (.named name args) = info.declaredSupers args := by
  simp only [declaredSupers, found]

theorem exists_of_mem_declaredSupers {sup : Ty}
    (mem : sup ∈ env.declaredSupers (.named name args)) :
    ∃ info, env.classes.get? name = some info ∧ ∃ s ∈ info.supers,
      sup = s.subst info.params args ∨ sup = s.erasure := by
  cases found : env.classes.get? name with
  | none => simp [declaredSupers, found] at mem
  | some info =>
    rw [declaredSupers_of_found found, ClassInfo.declaredSupers] at mem
    refine ⟨info, rfl, ?_⟩
    split at mem
    · obtain ⟨s, declared, rfl⟩ := List.mem_map.1 mem
      exact ⟨s, declared, .inl rfl⟩
    · split at mem
      · obtain ⟨s, declared, rfl⟩ := List.mem_map.1 mem
        exact ⟨s, declared, .inr rfl⟩
      · simp at mem

/-- What the derived types keep: a class type on the way has all its arguments or none. -/
def Standing (env : Environment) (name : String) (args : List Ty) : Prop :=
  args = [] ∨ env.Full name args

theorem declared_named (noBare : env.NoBareSupers)
    (mem : .named above aboveArgs ∈ env.declaredSupers (.named name args)) :
    ∃ info inner, env.classes.get? name = some info ∧ .named above inner ∈ info.supers ∧
      (aboveArgs = [] ∨ aboveArgs.length = inner.length) := by
  obtain ⟨info, found, s, declared, instantiated | erased⟩ := exists_of_mem_declaredSupers mem
  · obtain ⟨inner, rfl, length⟩ :=
      exists_named_of_subst (noBare name info found s declared) instantiated.symm
    exact ⟨info, inner, found, declared, .inr length.symm⟩
  · obtain ⟨raw, inner, rfl⟩ := exists_named_of_erasure erased.symm
    exact ⟨info, inner, found, declared, .inl raw⟩

theorem Standing.step (well : env.WellDeclared) (noBare : env.NoBareSupers)
    (mem : .named above aboveArgs ∈ env.declaredSupers (.named name args)) :
    env.Standing above aboveArgs := by
  obtain ⟨info, inner, found, declared, raw | length⟩ := declared_named noBare mem
  · exact .inl raw
  · have sized := (well name info found _ declared).2
    simp only [Environment.sized, Bool.and_eq_true, Bool.or_eq_true, List.isEmpty_iff,
      decide_eq_true_eq] at sized
    rcases sized.1 with empty | full
    · exact .inl (List.length_eq_zero_iff.1 (by simp [length, empty]))
    · exact .inr (length.trans full)

/-- A full type with arguments has the same supertypes for the search and as declared. -/
theorem supersOf_eq_declaredSupers (full : env.Full name args) (generic : args ≠ []) :
    env.supersOf name args = env.declaredSupers (.named name args) := by
  cases found : env.classes.get? name with
  | none => simp [supersOf, declaredSupers, found]
  | some info =>
    have length : args.length = info.params.length := by simpa [Full, arity, found] using full
    rw [declaredSupers_of_found found]
    simp [supersOf, found, ClassInfo.supersOf, ClassInfo.declaredSupers, length, generic]

/-- Without arguments the search still goes up through the declared classes. -/
theorem exists_declared_of_mem_supersOf (standing : env.Standing name args)
    (mem : .named above aboveArgs ∈ env.supersOf name []) :
    aboveArgs = [] ∧ ∃ declaredArgs,
      .named above declaredArgs ∈ env.declaredSupers (.named name args) := by
  obtain ⟨raw, info, found, inner, declared⟩ := extends_of_mem_supersOf_raw mem
  refine ⟨raw, ?_⟩
  rw [declaredSupers_of_found found, ClassInfo.declaredSupers]
  split
  · exact ⟨_, List.mem_map.2 ⟨_, declared, by rw [Ty.subst]⟩⟩
  · next partly =>
    have empty : args = [] := by
      refine standing.resolve_right fun full => partly ?_
      simpa [Full, arity, found] using full
    rw [if_pos empty]
    exact ⟨_, List.mem_map.2 ⟨_, declared, by rw [Ty.erasure]⟩⟩

/-- The way of the search, followed by the declarations: both meet the same classes, and the
arguments are the same until a type without arguments is left. -/
theorem Ascent.derives (well : env.WellDeclared) (noBare : env.NoBareSupers)
    (full : env.Full name args) {way : List Ty} {sup : Ty}
    (ascent : env.Ascent (.named name args) way sup) :
    ∀ above aboveArgs, sup = .named above aboveArgs → ∃ declaredArgs,
      env.Derives (.named name args) (.named above declaredArgs) ∧
      env.Standing above declaredArgs ∧
      aboveArgs = if way.all Ty.hasArguments then declaredArgs else [] := by
  induction ascent with
  | here =>
    rintro above aboveArgs ⟨⟩
    exact ⟨args, .refl, .inr full, rfl⟩
  | @climb way below belowArgs sup _ mem ih =>
    rintro above aboveArgs rfl
    obtain ⟨declaredArgs, derived, standing, lossless⟩ := ih below belowArgs rfl
    by_cases raw : belowArgs = []
    · subst raw
      obtain ⟨erased, nextArgs, next⟩ := exists_declared_of_mem_supersOf standing mem
      refine ⟨nextArgs, derived.tail next, .step well noBare next, ?_⟩
      simpa [Ty.hasArguments] using erased
    · obtain ⟨kept, rfl⟩ : way.all Ty.hasArguments = true ∧ belowArgs = declaredArgs := by
        split at lossless
        · next kept => exact ⟨kept, lossless⟩
        · exact absurd lossless raw
      have next := supersOf_eq_declaredSupers (standing.resolve_left raw) raw ▸ mem
      refine ⟨aboveArgs, derived.tail next, .step well noBare next, ?_⟩
      obtain ⟨first, rest, rfl⟩ := List.exists_cons_of_ne_nil raw
      simp [kept, Ty.hasArguments]

theorem Derives.extends (noBare : env.NoBareSupers) {sup : Ty}
    (derived : env.Derives (.named name args) sup) :
    ∀ above aboveArgs, sup = .named above aboveArgs →
      Relation.ReflTransGen env.Extends name above := by
  induction derived with
  | refl =>
    rintro above aboveArgs ⟨⟩
    exact .refl
  | @tail below sup _ mem ih =>
    rintro above aboveArgs rfl
    cases below with
    | named belowName belowArgs =>
      obtain ⟨info, inner, found, declared, -⟩ := declared_named noBare mem
      exact (ih belowName belowArgs rfl).tail ⟨info, found, inner, declared⟩
    | _ => simp [declaredSupers] at mem

/-- The declarations give a type one instance of the class `target`. -/
def OneInstance (env : Environment) (ty : Ty) (target : String) (inst : List Ty) : Prop :=
  env.Derives ty (.named target inst) ∧
    ∀ other, env.Derives ty (.named target other) → other = inst

/-- The search leaves no type without arguments on its way to the instance it finds. -/
def keepsArguments (env : Environment) (ty : Ty) (target : String) : Bool :=
  (env.wayTo ty target).all Ty.hasArguments

/-- The search finds the declared instance, without its arguments if it has not kept them. -/
theorem viewAs_eq_of_oneInstance (well : env.WellDeclared) (noBare : env.NoBareSupers)
    (full : env.Full name args) (one : env.OneInstance (.named name args) target inst) :
    env.viewAs (.named name args) target =
      some (.named target (if env.keepsArguments (.named name args) target then inst else [])) := by
  have found := viewAs_ne_none args (one.1.extends noBare target inst rfl)
  obtain ⟨foundArgs, view, ascent⟩ := viewAs_ascent found
  obtain ⟨declaredArgs, derived, -, lossless⟩ :=
    ascent.derives well noBare full target foundArgs rfl
  rw [view, lossless, one.2 declaredArgs derived]
  rfl

/-- A search that starts at a type without arguments keeps none. -/
theorem keepsArguments_eq_false (found : env.viewAs (.named name []) target ≠ none)
    (proper : name ≠ target) : env.keepsArguments (.named name []) target = false := by
  obtain ⟨foundArgs, -, ascent⟩ := viewAs_ascent found
  rcases ascent.start_mem with same | left
  · exact absurd (Ty.named.inj same).1.symm proper
  · exact List.all_eq_false.2 ⟨_, left, by simp [Ty.hasArguments]⟩

theorem elementType_of_staticType {e : Expr} {s s' : Context} {ty : Option Ty}
    (typed : env.host.staticType e s = .ok ty s') :
    env.host.elementType e s = .ok (ty.bind env.elementOf) s' := by
  rw [host_elementType]
  simp only [bind, EStateM.bind, typed]
  rfl

theorem elementOf_of_view
    (view : env.viewAs (.named name args) iterableName = some (.named target inst)) :
    env.elementOf (.named name args) = some (inst.headD topClass) := by
  simp only [elementOf, view]
  cases inst <;> rfl

theorem assignable_iff_of_view (noAssumed : env.assumed = []) (proper : target ≠ topName)
    (view : env.viewAs (.named name args) target = some (.named target inst)) (arg : Ty) :
    env.assignable (.named name args) (.named target [arg]) = true ↔ inst = [] ∨ inst = [arg] := by
  rw [assignable_named_iff noAssumed proper]
  simp [view]

/-- What a loop over the type yields, and what it can be assigned to, is as declared. -/
def IteratesAsDeclared (env : Environment) (ty : Ty) (inst : List Ty) : Prop :=
  env.elementOf ty = some (inst.headD topClass) ∧
    ∀ arg, env.assignable ty (.named iterableName [arg]) = true → inst = [] ∨ inst = [arg]

/-- A loop yields the first argument of the declared instance if the search keeps the arguments,
and the top class if it does not; then the type also fits every instance. So the search iterates as
declared exactly over raw instances and where it keeps the arguments. From a class without
parameters it keeps none. -/
theorem iteratesAsDeclared_iff (well : env.WellDeclared) (noBare : env.NoBareSupers)
    (full : env.Full name args)
    (one : env.OneInstance (.named name args) iterableName inst) :
    (args = [] → name ≠ iterableName →
      env.keepsArguments (.named name args) iterableName = false) ∧
    (∀ e s s', env.host.staticType e s = .ok (some (.named name args)) s' →
      env.host.elementType e s = .ok (some
        (if env.keepsArguments (.named name args) iterableName then inst.headD topClass
          else topClass)) s') ∧
    (env.assumed = [] →
      (∀ arg, env.assignable (.named name args) (.named iterableName [arg]) = true ↔
        env.keepsArguments (.named name args) iterableName = false ∨ inst = [] ∨ inst = [arg]) ∧
      (env.IteratesAsDeclared (.named name args) inst ↔
        inst = [] ∨ env.keepsArguments (.named name args) iterableName = true)) := by
  have view := viewAs_eq_of_oneInstance well noBare full one
  have element := elementOf_of_view view
  refine ⟨?_, ?_, ?_⟩
  · rintro rfl proper
    exact keepsArguments_eq_false (by simp [view]) proper
  · intro e s s' typed
    rw [elementType_of_staticType typed, Option.bind_some, element]
    split <;> rfl
  · intro noAssumed
    have fits := assignable_iff_of_view noAssumed (by decide) view
    cases kept : env.keepsArguments (.named name args) iterableName with
    | true =>
      simp only [kept, if_true] at fits element
      exact ⟨by simpa using fits, by simp, fun _ => ⟨element, fun arg => (fits arg).1⟩⟩
    | false =>
      simp only [kept, Bool.false_eq_true, if_false, true_or, iff_true] at fits element
      refine ⟨by simpa using fits, ?_, ?_⟩
      · rintro ⟨-, only⟩
        -- The type fits the instances of two different arguments.
        rcases only .null (fits _) with raw | first
        · exact .inl raw
        · rcases only topClass (fits _) with raw | second
          · exact .inl raw
          · simp [first, topClass] at second
      · rintro (rfl | never)
        · exact ⟨element, by simp⟩
        · simp at never

/-! The standard environment with one more class: a loop over a list of strings yields strings, and
a loop over a class that is declared as an iterable of strings yields anything. -/

theorem mem_of_derives {types : List Ty} {ty sup : Ty}
    (closed : ∀ t ∈ types, ∀ above ∈ env.declaredSupers t, above ∈ types) (start : ty ∈ types)
    (derived : env.Derives ty sup) : sup ∈ types := by
  induction derived with
  | refl => exact start
  | tail _ step ih => exact closed _ ih _ step

def listType (simple : String) : Ty := .named (utilName simple) [stringType]

def iterableType : Ty := .named iterableName [stringType]

/-- A class of names, without parameters and declared as an iterable of strings. -/
def withNames : Environment :=
  standard.applyAll
    [ .declareClass "Names" ⟨[], [iterableType]⟩
    , .scriptType ⟨1⟩ (listType "ArrayList") ]

theorem wellDeclared_withNames : withNames.WellDeclared :=
  forall_classes (by decide +kernel)

theorem noBareSupers_withNames : withNames.NoBareSupers :=
  forall_classes (by decide +kernel)

theorem arrayList_oneInstance :
    withNames.OneInstance (listType "ArrayList") iterableName [stringType] := by
  constructor
  · have list : listType "List" ∈ withNames.declaredSupers (listType "ArrayList") := by decide
    have collection : listType "Collection" ∈ withNames.declaredSupers (listType "List") := by
      decide
    have iterable : iterableType ∈ withNames.declaredSupers (listType "Collection") := by decide
    exact .tail (.tail (.single list) collection) iterable
  · intro other derived
    have mem : .named iterableName other ∈ [listType "ArrayList", listType "List",
        listType "Collection", iterableType, topClass] :=
      mem_of_derives (by decide +kernel) (by simp) derived
    simpa [listType, iterableType, topClass, utilName, topName, iterableName] using mem

/-- The way from a list to an iterable leaves three types, all with an argument. -/
theorem arrayList_iteratesAsDeclared :
    withNames.WellDeclared ∧ withNames.NoBareSupers ∧
    withNames.Full (utilName "ArrayList") [stringType] ∧
    withNames.OneInstance (listType "ArrayList") iterableName [stringType] ∧
    withNames.host.elementType (.other ⟨⟨1⟩, ⟨0, 0⟩⟩) .fresh = .ok (some stringType) .fresh ∧
    withNames.IteratesAsDeclared (listType "ArrayList") [stringType] := by
  have kept : withNames.keepsArguments (listType "ArrayList") iterableName = true := by
    decide +kernel
  have full : withNames.Full (utilName "ArrayList") [stringType] := rfl
  obtain ⟨-, element, fits⟩ :=
    iteratesAsDeclared_iff wellDeclared_withNames noBareSupers_withNames full arrayList_oneInstance
  have typed := element (.other ⟨⟨1⟩, ⟨0, 0⟩⟩) .fresh .fresh rfl
  rw [show Ty.named (utilName "ArrayList") [stringType] = listType "ArrayList" from rfl, kept]
    at typed
  exact ⟨wellDeclared_withNames, noBareSupers_withNames, full, arrayList_oneInstance, typed,
    (fits rfl).2.2 (.inr kept)⟩

/-- A generic class whose supertype is its parameter. -/
def withBag : Environment :=
  standard.apply (.declareClass "Bag" ⟨["T"], [.var "T"]⟩)

def bagType (elem : Ty) : Ty := .named "Bag" [elem]

theorem names_oneInstance :
    withNames.OneInstance (.named "Names" []) iterableName [stringType] := by
  constructor
  · exact .single (show iterableType ∈ withNames.declaredSupers (.named "Names" []) by decide)
  · intro other derived
    have mem : .named iterableName other ∈ [.named "Names" [], iterableType, topClass] :=
      mem_of_derives (by decide +kernel) (by simp) derived
    simpa [iterableType, topClass, topName, iterableName] using mem

theorem bag_oneInstance :
    withBag.OneInstance (bagType (bagType iterableType)) iterableName [stringType] := by
  constructor
  · have outer : bagType iterableType ∈ withBag.declaredSupers (bagType (bagType iterableType)) := by
      decide
    have inner : iterableType ∈ withBag.declaredSupers (bagType iterableType) := by decide
    exact .tail (.single outer) inner
  · intro other derived
    have mem : .named iterableName other ∈
        [bagType (bagType iterableType), bagType iterableType, iterableType, topClass] :=
      mem_of_derives (by decide +kernel) (by simp) derived
    simpa [bagType, iterableType, topClass, topName, iterableName] using mem

/-- The names lose their argument, as their class has none to leave with. A bag in a bag is not
entered, as its class has been visited. -/
theorem names_lose_argument :
    (withNames.WellDeclared ∧ withNames.Full "Names" [] ∧ withNames.assumed = [] ∧
      withNames.OneInstance (.named "Names" []) iterableName [stringType] ∧
      withNames.elementOf (.named "Names" []) = some topClass ∧
      withNames.assignable (.named "Names" []) (.named iterableName [topClass]) = true) ∧
    (withBag.WellDeclared ∧ withBag.Full "Bag" [bagType iterableType] ∧
      withBag.OneInstance (bagType (bagType iterableType)) iterableName [stringType] ∧
      withBag.elementOf (bagType (bagType iterableType)) = none) := by
  have view : withNames.viewAs (.named "Names" []) iterableName = some (.named iterableName []) := by
    decide +kernel
  have fits := (assignable_iff_of_view rfl (by decide) view topClass).2 (.inl rfl)
  exact ⟨⟨wellDeclared_withNames, rfl, rfl, names_oneInstance, elementOf_of_view view, fits⟩,
    forall_classes (by decide +kernel), rfl, bag_oneInstance, by decide +kernel⟩

end Environment
end InferredTypes
