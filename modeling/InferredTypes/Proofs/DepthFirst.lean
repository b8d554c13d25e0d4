import InferredTypes.Environment.Standard
import InferredTypes.Proofs.Supertypes

/-! The search for an instance as a recursion: the supertypes of a class are searched to the end
before the next type is looked at, and all parts of the search share the classes visited so far. It
ends on every hierarchy, also where classes extend each other or their own instances in a circle. -/
namespace InferredTypes.Environment

/-- Searching the given types in turn, with the classes in `visited` known from before, ends with
the result and with the classes visited by then. -/
inductive Explores (env : Environment) (target : String) :
    List String → List Ty → Option Ty → List String → Prop
  | exhausted {visited : List String} : Explores env target visited [] none visited
  | found {visited : List String} {args : List Ty} {rest : List Ty} :
      Explores env target visited (.named target args :: rest) (some (.named target args)) visited
  | skip {visited after : List String} {ty : Ty} {rest : List Ty} {result : Option Ty}
      (classless : ∀ name args, ty ≠ .named name args)
      (next : Explores env target visited rest result after) :
      Explores env target visited (ty :: rest) result after
  | known {visited after : List String} {name : String} {args rest : List Ty} {result : Option Ty}
      (other : name ≠ target) (seen : name ∈ visited)
      (next : Explores env target visited rest result after) :
      Explores env target visited (.named name args :: rest) result after
  | above {visited after : List String} {name : String} {args rest : List Ty} {sup : Ty}
      (other : name ≠ target) (fresh : name ∉ visited)
      (inside : Explores env target (name :: visited) (env.supersOf name args) (some sup) after) :
      Explores env target visited (.named name args :: rest) (some sup) after
  | back {visited between after : List String} {name : String} {args rest : List Ty}
      {result : Option Ty} (other : name ≠ target) (fresh : name ∉ visited)
      (inside : Explores env target (name :: visited) (env.supersOf name args) none between)
      (next : Explores env target between rest result after) :
      Explores env target visited (.named name args :: rest) result after

variable {env : Environment} {target : String} {visited after : List String} {result : Option Ty}

/-- A search of two lists ends in the first of them, or fails there and goes on with the second. -/
theorem Explores.of_append {first rest : List Ty}
    (search : env.Explores target visited (first ++ rest) result after) :
    (∃ sup, result = some sup ∧ env.Explores target visited first (some sup) after) ∨
      ∃ between, env.Explores target visited first none between ∧
        env.Explores target between rest result after := by
  induction first generalizing visited with
  | nil => exact .inr ⟨visited, .exhausted, search⟩
  | cons ty first ih =>
    rw [List.cons_append] at search
    cases search with
    | found => exact .inl ⟨_, rfl, .found⟩
    | skip classless next =>
      rcases ih next with ⟨sup, here, inFirst⟩ | ⟨between, failed, later⟩
      · exact .inl ⟨sup, here, .skip classless inFirst⟩
      · exact .inr ⟨between, .skip classless failed, later⟩
    | known other seen next =>
      rcases ih next with ⟨sup, here, inFirst⟩ | ⟨between, failed, later⟩
      · exact .inl ⟨sup, here, .known other seen inFirst⟩
      · exact .inr ⟨between, .known other seen failed, later⟩
    | above other fresh inside => exact .inl ⟨_, rfl, .above other fresh inside⟩
    | back other fresh inside next =>
      rcases ih next with ⟨sup, here, inFirst⟩ | ⟨between, failed, later⟩
      · exact .inl ⟨sup, here, .back other fresh inside inFirst⟩
      · exact .inr ⟨between, .back other fresh inside failed, later⟩

/-- The search by a list of pending types ends where the recursion ends. -/
theorem exists_explores (env : Environment) (target : String) (visited : List String)
    (pending : List Ty) :
    ∃ after, env.Explores target visited pending (env.findInstance target visited pending)
      after := by
  fun_induction findInstance env target visited pending with
  | case1 visited => exact ⟨visited, .exhausted⟩
  | case2 visited args pending => exact ⟨visited, .found⟩
  | case3 visited name args pending other seen ih =>
    obtain ⟨after, next⟩ := ih
    exact ⟨after, .known other seen next⟩
  | case4 visited name args pending other fresh ih =>
    -- The pending supertypes come first, so the search splits into theirs and that of the rest.
    obtain ⟨after, search⟩ := ih
    rcases search.of_append with ⟨sup, here, inside⟩ | ⟨between, inside, next⟩
    · exact ⟨after, here ▸ .above other fresh inside⟩
    · exact ⟨after, .back other fresh inside next⟩
  | case5 visited _ pending ih | case6 visited _ pending ih | case7 visited _ pending ih
  | case8 visited pending ih =>
    obtain ⟨after, next⟩ := ih
    exact ⟨after, .skip (by simp) next⟩

theorem Explores.unique {types : List Ty} {result' : Option Ty} {after' : List String}
    (search : env.Explores target visited types result after)
    (search' : env.Explores target visited types result' after') :
    result = result' ∧ after = after' := by
  induction search generalizing result' after' with
  | exhausted => cases search' with | exhausted => exact ⟨rfl, rfl⟩
  | found =>
    cases search' with
    | found => exact ⟨rfl, rfl⟩
    | skip classless => exact absurd rfl (classless _ _)
    | known other | above other | back other => exact absurd rfl other
  | skip classless _ ih =>
    cases search' with
    | skip _ next => exact ih next
    | found | known | above | back => exact absurd rfl (classless _ _)
  | known other seen _ ih =>
    cases search' with
    | known _ _ next => exact ih next
    | found => exact absurd rfl other
    | skip classless => exact absurd rfl (classless _ _)
    | above _ fresh | back _ fresh => exact absurd seen fresh
  | above other fresh _ ih =>
    cases search' with
    | above _ _ inside => exact ih inside
    | back _ _ inside => exact absurd (ih inside).1 (by simp)
    | found => exact absurd rfl other
    | skip classless => exact absurd rfl (classless _ _)
    | known _ seen => exact absurd seen fresh
  | back other fresh _ _ inside next =>
    cases search' with
    | back _ _ inside' next' =>
      obtain ⟨-, rfl⟩ := inside inside'
      exact next next'
    | above _ _ inside' => exact absurd (inside inside').1 (by simp)
    | found => exact absurd rfl other
    | skip classless => exact absurd rfl (classless _ _)
    | known _ seen => exact absurd seen fresh

theorem explores_iff {types : List Ty} :
    (∃ after, env.Explores target visited types result after) ↔
      result = env.findInstance target visited types := by
  obtain ⟨after, search⟩ := env.exists_explores target visited types
  constructor
  · rintro ⟨after', search'⟩
    exact (search'.unique search).1
  · rintro rfl
    exact ⟨after, search⟩

/-- One step up from a class type to a declared supertype: erased if the type has no arguments, else
with the arguments in place of the parameters. -/
def Climbs (env : Environment) (ty sup : Ty) : Prop :=
  ∃ name args info, ty = .named name args ∧ env.classes.get? name = some info ∧
    ∃ declared ∈ info.supers,
      sup = if args = [] then declared.erasure else declared.subst info.params args

theorem Ascent.climbs {ty sup : Ty} {way : List Ty} (ascent : env.Ascent ty way sup) :
    Relation.ReflTransGen env.Climbs ty sup := by
  induction ascent with
  | here => exact .refl
  | @climb way name args sup _ mem ih =>
    obtain ⟨info, found, declared, listed, step⟩ := mem_supersOf.1 mem
    exact ih.tail ⟨name, args, info, rfl, found, declared, listed, step⟩

/-- On every hierarchy the search for an instance of a class ends, and the recursion has no other
result. What it finds is an instance of that class and lies finitely many steps above. It finds one
for every class that is reached through the names of declared supertypes; a supertype that is a
type variable has no such name, and does not keep the search from the others. -/
theorem viewAs_sound_and_complete (env : Environment) (name : String) (args : List Ty)
    (target : String) :
    (∀ result, (∃ after, env.Explores target [] [.named name args] result after) ↔
      result = env.viewAs (.named name args) target) ∧
    (∀ sup, env.viewAs (.named name args) target = some sup →
      (∃ inst, sup = .named target inst) ∧
        Relation.ReflTransGen env.Climbs (.named name args) sup) ∧
    (Relation.ReflTransGen env.Extends name target →
      (env.viewAs (.named name args) target).isSome = true) := by
  refine ⟨fun result => explores_iff, ?_, ?_⟩
  · intro sup found
    obtain ⟨inst, same, ascent⟩ := ascent_of_viewAs found
    exact ⟨⟨inst, same⟩, ascent.climbs⟩
  · intro above
    exact Option.isSome_iff_ne_none.2 (viewAs_ne_none args above)

/-- A class that extends ever larger instances of itself before it extends an iterable. -/
def spiral : Environment :=
  standard.apply (.declareClass "Spiral" ⟨["T"],
    [.named "Spiral" [.named "Spiral" [.var "T"]], .named (langName "Iterable") [.var "T"]]⟩)

/-- The search leaves the circle for the iterable, and ends where there is nothing to find. -/
theorem spiral_viewAs :
    (spiral.viewAs (.named "Spiral" [.null]) (langName "Iterable")).isSome = true ∧
    ∃ after, spiral.Explores (utilName "Map") [] [.named "Spiral" [.null]] none after := by
  constructor
  · apply (viewAs_sound_and_complete spiral "Spiral" [.null] (langName "Iterable")).2.2
    exact .single ⟨_, rfl, [.var "T"], by simp⟩
  · apply ((viewAs_sound_and_complete spiral "Spiral" [.null] (utilName "Map")).1 none).2
    decide +kernel

end InferredTypes.Environment
