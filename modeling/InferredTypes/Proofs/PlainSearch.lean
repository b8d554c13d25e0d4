import InferredTypes.Proofs.DepthFirst

/-! The search for an instance without a memory of the classes visited. It need not end, but where
no class is above itself it does, and then it finds the same instance: a class is met again only
after a search from it has failed, and it fails from every instance of that class. -/
namespace InferredTypes

/-- If the type is a class type, its class has a rank below the bound. -/
def Ty.classBelow (rank : String → Nat) (bound : Nat) : Ty → Bool
  | .named name _ => rank name < bound
  | _ => true

namespace Environment

/-- Searching the given types in turn, each to the end before the next and however often its class
has been met, ends with the result. -/
inductive PlainSearch (env : Environment) (target : String) : List Ty → Option Ty → Prop
  | exhausted : PlainSearch env target [] none
  | found {args rest : List Ty} :
      PlainSearch env target (.named target args :: rest) (some (.named target args))
  | skip {ty : Ty} {rest : List Ty} {result : Option Ty}
      (classless : ∀ name args, ty ≠ .named name args)
      (next : PlainSearch env target rest result) : PlainSearch env target (ty :: rest) result
  | above {name : String} {args rest : List Ty} {sup : Ty} (other : name ≠ target)
      (inside : PlainSearch env target (env.supersOf name args) (some sup)) :
      PlainSearch env target (.named name args :: rest) (some sup)
  | back {name : String} {args rest : List Ty} {result : Option Ty} (other : name ≠ target)
      (inside : PlainSearch env target (env.supersOf name args) none)
      (next : PlainSearch env target rest result) :
      PlainSearch env target (.named name args :: rest) result

/-- No class is above itself along the names of declared supertypes. -/
def Acyclic (env : Environment) : Prop :=
  ∀ name, ¬ Relation.TransGen env.Extends name name

/-- The class is not the target, and neither is any class above it; the ways up are finite. -/
inductive Misses (env : Environment) (target : String) : String → Prop
  | intro {name : String} (other : name ≠ target)
      (above : ∀ sup, env.Extends name sup → Misses env target sup) : Misses env target name

variable {env : Environment} {target : String} {visited after : List String} {types : List Ty}
  {result : Option Ty}

theorem PlainSearch.unique {result' : Option Ty} (search : env.PlainSearch target types result)
    (search' : env.PlainSearch target types result') : result = result' := by
  induction search generalizing result' with
  | exhausted => cases search' with | exhausted => rfl
  | found =>
    cases search' with
    | found => rfl
    | skip classless => exact absurd rfl (classless _ _)
    | above other | back other => exact absurd rfl other
  | skip classless _ ih =>
    cases search' with
    | skip _ next => exact ih next
    | found | above | back => exact absurd rfl (classless _ _)
  | above other _ ih =>
    cases search' with
    | above _ inside => exact ih inside
    | back _ inside => exact absurd (ih inside) (by simp)
    | found => exact absurd rfl other
    | skip classless => exact absurd rfl (classless _ _)
  | back other _ _ inside next =>
    cases search' with
    | back _ _ next' => exact next next'
    | above _ inside' => exact absurd (inside inside') (by simp)
    | found => exact absurd rfl other
    | skip classless => exact absurd rfl (classless _ _)

/-- A search fails if it fails from each class on the list. -/
theorem PlainSearch.of_forall
    (fails : ∀ name args, .named name args ∈ types →
      name ≠ target ∧ env.PlainSearch target (env.supersOf name args) none) :
    env.PlainSearch target types none := by
  induction types with
  | nil => exact .exhausted
  | cons ty types ih =>
    have next := ih fun name args mem => fails name args (List.mem_cons_of_mem _ mem)
    cases ty with
    | named name args =>
      obtain ⟨other, inside⟩ := fails name args (List.mem_cons_self ..)
      exact .back other inside next
    | primitive | array | var | null => exact .skip (by simp) next

/-- From a class that misses the target the search fails, whatever the arguments. -/
theorem Misses.plainSearch (noBare : env.NoBareSupers) {name : String}
    (misses : env.Misses target name) (args : List Ty) :
    env.PlainSearch target (env.supersOf name args) none := by
  induction misses generalizing args with
  | intro _ above ih =>
    apply PlainSearch.of_forall
    intro sup supArgs mem
    have step := extends_of_mem_supersOf noBare mem
    cases above sup step with
    | intro other _ => exact ⟨other, ih sup step supArgs⟩

/-! The invariant of the search with a memory. On an acyclic hierarchy the classes that are still
being searched are not met again, so a class that is both visited and ahead has been left. -/

/-- Every visited class that the given types lead to misses the target. -/
def Spent (env : Environment) (target : String) (visited : List String) (types : List Ty) : Prop :=
  ∀ name args, .named name args ∈ types →
    ∀ seen ∈ visited, Relation.ReflTransGen env.Extends name seen → env.Misses target seen

namespace Spent
variable {name : String} {args rest : List Ty} {ty : Ty}

theorem tail (spent : env.Spent target visited (ty :: rest)) : env.Spent target visited rest :=
  fun name args mem => spent name args (List.mem_cons_of_mem _ mem)

/-- Going up from a class adds only that class to the visited ones, and it is not above itself. -/
theorem supers (noBare : env.NoBareSupers) (acyclic : env.Acyclic)
    (spent : env.Spent target visited (.named name args :: rest)) :
    env.Spent target (name :: visited) (env.supersOf name args) := by
  intro sup supArgs mem seen known path
  have step := extends_of_mem_supersOf noBare mem
  rcases List.mem_cons.1 known with rfl | before
  · exact absurd (Relation.TransGen.head' step path) (acyclic seen)
  · exact spent name args (List.mem_cons_self ..) seen before (path.head step)

theorem next {between : List String} (spent : env.Spent target visited (ty :: rest))
    (added : ∀ seen ∈ between, seen ∈ visited ∨ env.Misses target seen) :
    env.Spent target between rest := by
  intro name args mem seen known path
  rcases added seen known with before | misses
  · exact spent.tail name args mem seen before path
  · exact misses

end Spent

/-- Visiting one more class that misses the target adds only such classes. -/
theorem Misses.added {name : String} {between : List String} (misses : env.Misses target name)
    (above : ∀ seen ∈ between, seen ∈ name :: visited ∨ env.Misses target seen) :
    ∀ seen ∈ between, seen ∈ visited ∨ env.Misses target seen := by
  intro seen known
  rcases above seen known with before | missesSeen
  · rcases List.mem_cons.1 before with rfl | before
    · exact .inr misses
    · exact .inl before
  · exact .inr missesSeen

theorem Misses.of_supers {name : String} {args : List Ty} (other : name ≠ target)
    (supers : ∀ sup supArgs, .named sup supArgs ∈ env.supersOf name args → env.Misses target sup) :
    env.Misses target name := by
  refine .intro other fun sup step => ?_
  obtain ⟨supArgs, mem⟩ := step.mem_supersOf args
  exact supers sup supArgs mem

theorem forall_named_cons {P : String → Prop} {name : String} {args rest : List Ty} (here : P name)
    (later : ∀ n a, .named n a ∈ rest → P n) :
    ∀ n a, .named n a ∈ Ty.named name args :: rest → P n := by
  intro n a mem
  rcases List.mem_cons.1 mem with same | mem
  · obtain ⟨rfl, rfl⟩ := Ty.named.inj same
    exact here
  · exact later n a mem

/-- What a failed search has visited misses the target, apart from what was visited before, and so
do the classes on its list. -/
theorem Explores.misses (noBare : env.NoBareSupers) (acyclic : env.Acyclic)
    (search : env.Explores target visited types result after) (failed : result = none)
    (spent : env.Spent target visited types) :
    (∀ name args, .named name args ∈ types → env.Misses target name) ∧
      ∀ seen ∈ after, seen ∈ visited ∨ env.Misses target seen := by
  induction search with
  | exhausted => exact ⟨by simp, fun _ mem => .inl mem⟩
  | found | above => simp at failed
  | skip classless _ ih =>
    obtain ⟨listed, added⟩ := ih failed spent.tail
    refine ⟨fun name args mem => ?_, added⟩
    rcases List.mem_cons.1 mem with here | later
    · exact absurd here.symm (classless name args)
    · exact listed name args later
  | known _ seen _ ih =>
    obtain ⟨listed, added⟩ := ih failed spent.tail
    have misses := spent _ _ (List.mem_cons_self ..) _ seen .refl
    exact ⟨forall_named_cons misses listed, added⟩
  | back other _ _ _ inside next =>
    obtain ⟨supers, above⟩ := inside rfl (spent.supers noBare acyclic)
    have misses := Misses.of_supers other supers
    have between := misses.added above
    obtain ⟨listed, added⟩ := next failed (spent.next between)
    refine ⟨forall_named_cons misses listed, fun seen known => ?_⟩
    rcases added seen known with before | missesSeen
    · exact between seen before
    · exact .inr missesSeen

/-- The search with a memory finds what the plain search finds. -/
theorem Explores.plainSearch (noBare : env.NoBareSupers) (acyclic : env.Acyclic)
    (search : env.Explores target visited types result after)
    (spent : env.Spent target visited types) : env.PlainSearch target types result := by
  induction search with
  | exhausted => exact .exhausted
  | found => exact .found
  | skip classless _ ih => exact .skip classless (ih spent.tail)
  | known other seen _ ih =>
    -- The plain search goes up once more, and fails as it did before.
    have misses := spent _ _ (List.mem_cons_self ..) _ seen .refl
    exact .back other (misses.plainSearch noBare _) (ih spent.tail)
  | above other _ _ ih => exact .above other (ih (spent.supers noBare acyclic))
  | back other _ inside _ ihInside ihNext =>
    have up := spent.supers noBare acyclic
    obtain ⟨supers, above⟩ := inside.misses noBare acyclic rfl up
    have between := (Misses.of_supers other supers).added above
    exact .back other (ihInside up) (ihNext (spent.next between))

/-- Where no class is above itself and no supertype is a bare variable, the search without a memory
ends, and it ends with what the search with a memory finds, arguments included. -/
theorem plainSearch_iff_viewAs (noBare : env.NoBareSupers) (acyclic : env.Acyclic) (ty : Ty)
    (target : String) (result : Option Ty) :
    env.PlainSearch target [ty] result ↔ result = env.viewAs ty target := by
  obtain ⟨after, search⟩ := env.exists_explores target [] [ty]
  have plain : env.PlainSearch target [ty] (env.viewAs ty target) :=
    search.plainSearch noBare acyclic fun _ _ _ seen known => absurd known List.not_mem_nil
  constructor
  · intro search'
    exact search'.unique plain
  · rintro rfl
    exact plain

/-! Hierarchies without circles: the classes have ranks that go down along declared supertypes. -/

theorem acyclic_of_rank (rank : String → Nat)
    (lowers : ∀ e ∈ env.classes.entries, ∀ s ∈ e.2.supers, s.classBelow rank (rank e.1) = true) :
    env.Acyclic := by
  intro name circle
  have lower (above : String) (path : Relation.TransGen env.Extends name above) :
      rank above < rank name := by
    have step {below above : String} (h : env.Extends below above) : rank above < rank below := by
      obtain ⟨info, found, args, declared⟩ := h
      simpa [Ty.classBelow] using lowers _ (Assoc.mem_of_firstWith found) _ declared
    induction path with
    | single h => exact step h
    | tail _ h ih => exact Nat.lt_trans (step h) ih
  exact Nat.lt_irrefl _ (lower name circle)

/-- The standard classes, each after the classes it extends. -/
def standardNames : List String :=
  langClasses.map (fun c => langName c.1) ++ utilClasses.map (fun c => utilName c.1)

/-- Two sides of a class meet in one class again, on the left without an argument and on the right
with one. Only the right side goes on to the mark. -/
def diamond : Environment :=
  standard.applyAll
    [ .declareClass "Base" ⟨["T"], [.named (langName "Iterable") [.var "T"]]⟩
    , .declareClass "Mark" ⟨["T"], [topClass]⟩
    , .declareClass "Left" ⟨["T"], [.named "Base" []]⟩
    , .declareClass "Right" ⟨["T"], [.named "Base" [.var "T"], .named "Mark" [.array (.var "T")]]⟩
    , .declareClass "Both" ⟨["T"], [.named "Left" [.var "T"], .named "Right" [.var "T"]]⟩ ]

def diamondRank (name : String) : Nat :=
  (standardNames ++ ["Base", "Mark", "Left", "Right", "Both"]).idxOf name

theorem acyclic_diamond : diamond.Acyclic :=
  acyclic_of_rank diamondRank (by decide +kernel)

theorem noBareSupers_diamond : diamond.NoBareSupers :=
  forall_classes (by decide +kernel)

/-- The plain search meets the base twice before it comes to the mark. It finds the iterable on the
left, without an argument, and no map at all. -/
theorem diamond_plainSearch :
    let both := Ty.named "Both" [.null]
    diamond.NoBareSupers ∧ diamond.Acyclic ∧
    diamond.PlainSearch "Mark" [both] (some (.named "Mark" [.array .null])) ∧
    diamond.PlainSearch (langName "Iterable") [both] (some (.named (langName "Iterable") [])) ∧
    diamond.PlainSearch (utilName "Map") [both] none := by
  intro both
  have search := plainSearch_iff_viewAs noBareSupers_diamond acyclic_diamond both
  refine ⟨noBareSupers_diamond, acyclic_diamond, ?_, ?_, ?_⟩
  · apply (search _ _).2
    decide +kernel
  · apply (search _ _).2
    decide +kernel
  · apply (search _ _).2
    decide +kernel

end Environment
end InferredTypes
