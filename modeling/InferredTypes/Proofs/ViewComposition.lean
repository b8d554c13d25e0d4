import InferredTypes.Proofs.PlainSearch

/-! Views of views. Each view is a search of its own, so a view of a view need not be the view of
the type; it is where a type has at most one instance of each class. -/
namespace InferredTypes.Environment

/-- All instances of one class that lie above a class type, itself included, are the same. -/
def UniqueInstances (env : Environment) : Prop :=
  ∀ name args target inst inst',
    Relation.ReflTransGen env.Climbs (.named name args) (.named target inst) →
    Relation.ReflTransGen env.Climbs (.named name args) (.named target inst') → inst = inst'

variable {env : Environment} {name above target : String} {args aboveArgs inst : List Ty}

theorem climbs_iff {ty sup : Ty} :
    env.Climbs ty sup ↔ ∃ name args, ty = .named name args ∧ sup ∈ env.supersOf name args := by
  constructor
  · rintro ⟨name, args, info, rfl, found, declared, listed, step⟩
    exact ⟨name, args, rfl, mem_supersOf.2 ⟨info, found, declared, listed, step⟩⟩
  · rintro ⟨name, args, rfl, mem⟩
    obtain ⟨info, found, declared, listed, step⟩ := mem_supersOf.1 mem
    exact ⟨name, args, info, rfl, found, declared, listed, step⟩

/-- Steps between instances go along the names of declared supertypes. -/
theorem extends_of_climbs (noBare : env.NoBareSupers) {sup : Ty}
    (path : Relation.TransGen env.Climbs (.named name args) sup) :
    ∀ above aboveArgs, sup = .named above aboveArgs → Relation.TransGen env.Extends name above := by
  induction path with
  | single step =>
    rintro above aboveArgs rfl
    obtain ⟨_, _, ⟨rfl, rfl⟩, mem⟩ := climbs_iff.1 step
    exact .single (extends_of_mem_supersOf noBare mem)
  | tail _ step ih =>
    rintro above aboveArgs rfl
    obtain ⟨below, belowArgs, rfl, mem⟩ := climbs_iff.1 step
    exact (ih below belowArgs rfl).tail (extends_of_mem_supersOf noBare mem)

/-- Where instances are unique, the search finds exactly what lies above. -/
theorem viewAs_eq_some_iff (noBare : env.NoBareSupers) (unique : env.UniqueInstances) :
    env.viewAs (.named name args) target = some (.named target inst) ↔
      Relation.ReflTransGen env.Climbs (.named name args) (.named target inst) := by
  constructor
  · intro found
    obtain ⟨-, -, ascent⟩ := ascent_of_viewAs found
    exact ascent.climbs
  · intro path
    have upward : Relation.ReflTransGen env.Extends name target := by
      rcases Relation.reflTransGen_iff_eq_or_transGen.1 path with same | steps
      · rw [(Ty.named.inj same).1]
      · exact (extends_of_climbs noBare steps target inst rfl).to_reflTransGen
    obtain ⟨foundArgs, view, ascent⟩ := viewAs_ascent (viewAs_ne_none args upward)
    rw [view, unique name args target foundArgs inst ascent.climbs path]

/-- The view of a type as `middle`, seen as `target`, is the view of the type as `target`. -/
theorem viewAs_trans (noBare : env.NoBareSupers) (unique : env.UniqueInstances) {middle : String}
    {mid sup : Ty} (first : env.viewAs (.named name args) middle = some mid)
    (second : env.viewAs mid target = some sup) :
    env.viewAs (.named name args) target = some sup := by
  obtain ⟨midArgs, rfl, below⟩ := ascent_of_viewAs first
  obtain ⟨inst, rfl, above⟩ := ascent_of_viewAs second
  exact (viewAs_eq_some_iff noBare unique).2 (below.climbs.trans above.climbs)

/-- Where a type has at most one instance of each class, views compose. So a class type fits what
the class type in the middle fits, if that has arguments and is not fitted by an instance without
arguments. -/
theorem views_compose (noBare : env.NoBareSupers) (unique : env.UniqueInstances) :
    (∀ name args middle target mid sup, env.viewAs (.named name args) middle = some mid →
      env.viewAs mid target = some sup → env.viewAs (.named name args) target = some sup) ∧
    (env.assumed = [] → ∀ name args middle midArgs target targetArgs, middle ≠ topName →
      midArgs ≠ [] → env.assignable (.named name args) (.named middle midArgs) = true →
      env.assignable (.named middle midArgs) (.named target targetArgs) = true →
      env.viewAs (.named name args) middle ≠ some (.named middle []) →
      env.assignable (.named name args) (.named target targetArgs) = true) := by
  constructor
  · intro name args middle target mid sup first second
    exact viewAs_trans noBare unique first second
  · intro noAssumed name args middle midArgs target targetArgs proper generic first second kept
    by_cases top : target = topName
    · rw [top]
      exact env.assignable_topName _ targetArgs
    obtain ⟨viewArgs, view, fits⟩ := (assignable_named_iff noAssumed proper).1 first
    obtain ⟨inst, above, fitsAbove⟩ := (assignable_named_iff noAssumed top).1 second
    have same : viewArgs = midArgs := by
      rcases fits with raw | raw | same
      · exact absurd raw generic
      · exact absurd (raw ▸ view) kept
      · exact same
    subst same
    exact (assignable_named_iff noAssumed top).2
      ⟨inst, viewAs_trans noBare unique view above, fitsAbove⟩

/-- Where no class has two different supertypes and none is above itself, instances are unique. -/
theorem uniqueInstances_of_single (noBare : env.NoBareSupers) (acyclic : env.Acyclic)
    (single : ∀ name info, env.classes.get? name = some info →
      ∀ s ∈ info.supers, ∀ s' ∈ info.supers, s = s') :
    env.UniqueInstances := by
  have functional : Relator.RightUnique env.Climbs := by
    rintro ty sup sup' ⟨name, args, info, rfl, found, s, listed, rfl⟩
      ⟨_, _, info', ⟨rfl, rfl⟩, found', s', listed', rfl⟩
    obtain rfl : info = info' := Option.some.inj (found.symm.trans found')
    rw [single name info found s listed s' listed']
  have noReturn {target : String} {inst inst' : List Ty}
      (path : Relation.ReflTransGen env.Climbs (.named target inst) (.named target inst')) :
      inst = inst' := by
    rcases Relation.reflTransGen_iff_eq_or_transGen.1 path with same | steps
    · exact (Ty.named.inj same).2.symm
    · exact absurd (extends_of_climbs noBare steps target inst' rfl) (acyclic target)
  intro name args target inst inst' path path'
  -- There is one way up, and both instances lie on it.
  rcases path.total_of_right_unique functional path' with up | up
  · exact noReturn up
  · exact (noReturn up).symm

theorem noBareSupers_standard : standard.NoBareSupers :=
  forall_classes (by decide +kernel)

theorem uniqueInstances_standard : standard.UniqueInstances := by
  have acyclic : standard.Acyclic := acyclic_of_rank standardNames.idxOf (by decide +kernel)
  exact uniqueInstances_of_single noBareSupers_standard acyclic (forall_classes (by decide +kernel))

/-- A list of strings is a collection of strings, and that is an iterable of strings. -/
theorem standard_views_compose :
    let strings (name : String) := Ty.named name [.named (langName "String") []]
    let list := strings (utilName "ArrayList")
    let iterable := strings (langName "Iterable")
    standard.NoBareSupers ∧ standard.UniqueInstances ∧
    standard.viewAs list (langName "Iterable") = some iterable ∧
    standard.assignable list iterable = true := by
  intro strings list iterable
  have compose := views_compose noBareSupers_standard uniqueInstances_standard
  refine ⟨noBareSupers_standard, uniqueInstances_standard, ?_, ?_⟩
  · apply compose.1 _ _ (utilName "Collection") _ (strings (utilName "Collection"))
    · decide +kernel
    · decide +kernel
  · apply compose.2 rfl _ _ (utilName "Collection") [.named (langName "String") []]
    · decide +kernel
    · simp
    · decide +kernel
    · decide +kernel
    · decide +kernel

end InferredTypes.Environment
