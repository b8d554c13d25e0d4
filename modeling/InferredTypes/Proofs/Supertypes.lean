import InferredTypes.Environment.Assignable
import Mathlib.Logic.Relation

/-! The search for an instance of a class among the supertypes of a type: the way that the search
takes, and the classes that it cannot miss. -/
namespace InferredTypes

def Ty.hasArguments : Ty → Bool
  | .named _ (_ :: _) => true
  | _ => false

def Ty.isVar : Ty → Bool
  | .var _ => true
  | _ => false

namespace Environment

/-- The class `name` is declared with an instance of the class `above` as a supertype. -/
def Extends (env : Environment) (name above : String) : Prop :=
  ∃ info, env.classes.get? name = some info ∧ ∃ args, .named above args ∈ info.supers

/-- No class is declared with a bare type variable as a supertype. -/
def NoBareSupers (env : Environment) : Prop :=
  ∀ name info, env.classes.get? name = some info → ∀ s ∈ info.supers, s.isVar = false

theorem forall_classes {env : Environment} {P : ClassInfo → Prop}
    (all : ∀ e ∈ env.classes.entries, P e.2) :
    ∀ name info, env.classes.get? name = some info → P info :=
  fun _ _ found => all _ (Assoc.mem_of_firstWith found)

theorem mem_supersOf {env : Environment} {name : String} {args : List Ty} {sup : Ty} :
    sup ∈ env.supersOf name args ↔
      ∃ info, env.classes.get? name = some info ∧
        ∃ s ∈ info.supers,
          sup = if args = [] then s.erasure else s.subst info.params args := by
  unfold supersOf
  cases found : env.classes.get? name with
  | none => simp
  | some info =>
    simp only [ClassInfo.supersOf, List.isEmpty_iff]
    split <;> simp [*, eq_comm]

/-- A declared class type keeps its name as a supertype of every instance. -/
theorem Extends.mem_supersOf {env : Environment} {name above : String}
    (below : env.Extends name above) (args : List Ty) :
    ∃ aboveArgs, .named above aboveArgs ∈ env.supersOf name args := by
  obtain ⟨info, found, inner, mem⟩ := below
  by_cases raw : args = []
  · exact ⟨[], Environment.mem_supersOf.2 ⟨info, found, _, mem, by simp [raw, Ty.erasure]⟩⟩
  · exact ⟨inner.map (Ty.subst info.params args),
      Environment.mem_supersOf.2 ⟨info, found, _, mem, by simp [raw, Ty.subst]⟩⟩

/-- Without bare variables, an instance above a class comes from a declared instance. -/
theorem exists_named_of_subst {s : Ty} {params : List String} {args aboveArgs : List Ty}
    {above : String} (proper : s.isVar = false)
    (eq : s.subst params args = .named above aboveArgs) :
    ∃ inner, s = .named above inner ∧ inner.length = aboveArgs.length := by
  cases s with
  | named n inner =>
    simp only [Ty.subst, Ty.substAll_eq_map, Ty.named.injEq] at eq
    obtain ⟨rfl, rfl⟩ := eq
    exact ⟨inner, rfl, by simp⟩
  | var x => simp [Ty.isVar] at proper
  | _ => simp [Ty.subst] at eq

theorem exists_named_of_erasure {s : Ty} {above : String} {aboveArgs : List Ty}
    (eq : s.erasure = .named above aboveArgs) :
    aboveArgs = [] ∧ ∃ inner, s = .named above inner := by
  cases s <;> simp_all [Ty.erasure]

/-- The supertypes of a type without arguments have none either. A bare variable is not replaced
there, so no class comes from it. -/
theorem extends_of_mem_supersOf_raw {env : Environment} {name above : String} {aboveArgs : List Ty}
    (mem : .named above aboveArgs ∈ env.supersOf name []) :
    aboveArgs = [] ∧ env.Extends name above := by
  obtain ⟨info, found, s, declared, erased⟩ := mem_supersOf.1 mem
  obtain ⟨raw, inner, rfl⟩ := exists_named_of_erasure (by simpa using erased.symm)
  exact ⟨raw, info, found, inner, declared⟩

theorem extends_of_mem_supersOf {env : Environment} {name above : String}
    {args aboveArgs : List Ty} (noBare : env.NoBareSupers)
    (mem : .named above aboveArgs ∈ env.supersOf name args) : env.Extends name above := by
  by_cases raw : args = []
  · subst raw
    exact (extends_of_mem_supersOf_raw mem).2
  · obtain ⟨info, found, s, declared, instantiated⟩ := mem_supersOf.1 mem
    rw [if_neg raw] at instantiated
    obtain ⟨inner, rfl, -⟩ :=
      exists_named_of_subst (noBare name info found s declared) instantiated.symm
    exact ⟨info, found, inner, declared⟩

/-! Completeness: a search that fails has visited a set of classes closed under `Extends`. -/

/-- When the search fails, the classes that it has visited hold every pending class, do not hold
the target, and hold what they extend, apart from the classes visited before. -/
theorem exists_closed_of_findInstance {env : Environment} {target : String}
    {visited : List String} {pending : List Ty}
    (failed : env.findInstance target visited pending = none) :
    ∃ closed : List String, visited ⊆ closed ∧
      (∀ name args, .named name args ∈ pending → name ∈ closed) ∧
      ∀ name ∈ closed, name ∉ visited →
        name ≠ target ∧ ∀ above, env.Extends name above → above ∈ closed := by
  fun_induction findInstance env target visited pending with
  | case1 visited => exact ⟨visited, List.Subset.refl _, by simp, fun _ mem new => absurd mem new⟩
  | case2 => simp at failed
  | case3 visited name args pending other known ih =>
    obtain ⟨closed, kept, holds, closes⟩ := ih failed
    refine ⟨closed, kept, ?_, closes⟩
    intro n a mem
    rcases List.mem_cons.1 mem with here | later
    · obtain ⟨rfl, rfl⟩ := Ty.named.inj here
      exact kept known
    · exact holds n a later
  | case4 visited name args pending other fresh ih =>
    obtain ⟨closed, kept, holds, closes⟩ := ih failed
    have here : name ∈ closed := kept (List.mem_cons_self ..)
    refine ⟨closed, fun n mem => kept (List.mem_cons_of_mem _ mem), ?_, ?_⟩
    · intro n a mem
      rcases List.mem_cons.1 mem with same | later
      · obtain ⟨rfl, rfl⟩ := Ty.named.inj same
        exact here
      · exact holds n a (List.mem_append_right _ later)
    · intro n mem new
      by_cases same : n = name
      · subst same
        refine ⟨other, fun above below => ?_⟩
        obtain ⟨aboveArgs, sup⟩ := below.mem_supersOf args
        exact holds above aboveArgs (List.mem_append_left _ sup)
      · exact closes n mem (by simp [same, new])
  | case5 visited _ pending ih | case6 visited _ pending ih | case7 visited _ pending ih
  | case8 visited pending ih =>
    obtain ⟨closed, kept, holds, closes⟩ := ih failed
    exact ⟨closed, kept, fun n a mem => holds n a (by simpa using mem), closes⟩

theorem viewAs_ne_none {env : Environment} {name target : String} (args : List Ty)
    (above : Relation.ReflTransGen env.Extends name target) :
    env.viewAs (.named name args) target ≠ none := by
  intro failed
  obtain ⟨closed, -, holds, closes⟩ := exists_closed_of_findInstance failed
  have start : name ∈ closed := holds name args (List.mem_singleton_self _)
  have reached (n : String) (path : Relation.ReflTransGen env.Extends name n) : n ∈ closed := by
    induction path with
    | refl => exact start
    | tail _ step ih => exact (closes _ ih (List.not_mem_nil)).2 _ step
  exact (closes target (reached target above) (List.not_mem_nil)).1 rfl

/-! Soundness: the search with the way to each pending type kept along. -/

/-- The types left on the way from `ty` up to a supertype, in order. -/
inductive Ascent (env : Environment) (ty : Ty) : List Ty → Ty → Prop
  | here : Ascent env ty [] ty
  | climb {way : List Ty} {name : String} {args : List Ty} {sup : Ty}
      (below : Ascent env ty way (.named name args)) (mem : sup ∈ env.supersOf name args) :
      Ascent env ty (way ++ [.named name args]) sup

theorem Ascent.start_mem {env : Environment} {ty sup : Ty} {way : List Ty}
    (ascent : env.Ascent ty way sup) : sup = ty ∨ ty ∈ way := by
  induction ascent with
  | here => exact .inl rfl
  | climb _ _ ih =>
    rcases ih with start | left
    · exact .inr (by simp [start])
    · exact .inr (List.mem_append_left _ left)

/-- The way that the search takes to the instance it finds. -/
def findWay (env : Environment) (target : String) (visited : List String) :
    List (List Ty × Ty) → Option (List Ty)
  | [] => none
  | (way, .named name args) :: pending =>
    if name = target then some way
    else if name ∈ visited then env.findWay target visited pending
    else env.findWay target (name :: visited)
      ((env.supersOf name args).map (way ++ [.named name args], ·) ++ pending)
  | (_, .primitive _) :: pending | (_, .array _) :: pending | (_, .var _) :: pending
  | (_, .null) :: pending =>
    env.findWay target visited pending
termination_by pending => pending.length + openEdges visited env.classes.entries
decreasing_by
  · simp
  · next fresh =>
    have closed := env.length_supersOf_add_openEdges_le args fresh
    simp only [List.length_cons, List.length_append, List.length_map]
    omega
  all_goals simp

/-- Both searches fail together, and what is found stands at the end of the way. -/
theorem findInstance_of_findWay {env : Environment} {ty : Ty} {target : String}
    {visited : List String} {pending : List (List Ty × Ty)}
    (ways : ∀ p ∈ pending, env.Ascent ty p.1 p.2) :
    match env.findWay target visited pending with
    | none => env.findInstance target visited (pending.map Prod.snd) = none
    | some way => ∃ args,
        env.findInstance target visited (pending.map Prod.snd) = some (.named target args) ∧
        env.Ascent ty way (.named target args) := by
  fun_induction findWay env target visited pending with
  | case1 => simp [findInstance]
  | case2 visited way args pending =>
    exact ⟨args, by simp [findInstance], ways _ (List.mem_cons_self ..)⟩
  | case3 visited way name args pending other known ih =>
    have later := ih fun p mem => ways p (List.mem_cons_of_mem _ mem)
    simpa [findInstance, other, known] using later
  | case4 visited way name args pending other fresh ih =>
    have below : env.Ascent ty way (.named name args) := ways _ (List.mem_cons_self ..)
    have later := ih fun p mem => by
      rcases List.mem_append.1 mem with new | old
      · obtain ⟨sup, above, rfl⟩ := List.mem_map.1 new
        exact below.climb above
      · exact ways p (List.mem_cons_of_mem _ old)
    simpa [findInstance, other, fresh, Function.comp_def] using later
  | case5 visited _ _ pending ih | case6 visited _ _ pending ih | case7 visited _ _ pending ih
  | case8 visited _ pending ih =>
    have later := ih fun p mem => ways p (List.mem_cons_of_mem _ mem)
    simpa [findInstance] using later

/-- The types that the search leaves on its way from `ty` to an instance of `target`. -/
def wayTo (env : Environment) (ty : Ty) (target : String) : List Ty :=
  (env.findWay target [] [([], ty)]).getD []

theorem viewAs_ascent {env : Environment} {ty : Ty} {target : String}
    (found : env.viewAs ty target ≠ none) :
    ∃ args, env.viewAs ty target = some (.named target args) ∧
      env.Ascent ty (env.wayTo ty target) (.named target args) := by
  have start : ∀ p ∈ [(([] : List Ty), ty)], env.Ascent ty p.1 p.2 := by
    simpa using Ascent.here
  have paired : match env.findWay target [] [([], ty)] with
      | none => env.viewAs ty target = none
      | some way => ∃ args, env.viewAs ty target = some (.named target args) ∧
          env.Ascent ty way (.named target args) :=
    findInstance_of_findWay start
  cases searched : env.findWay target [] [([], ty)] with
  | none => exact absurd (by simpa [searched] using paired) found
  | some way => simpa [wayTo, searched] using paired

theorem ascent_of_viewAs {env : Environment} {ty sup : Ty} {target : String}
    (found : env.viewAs ty target = some sup) :
    ∃ inst, sup = .named target inst ∧ env.Ascent ty (env.wayTo ty target) sup := by
  have finds : env.viewAs ty target ≠ none := by simp [found]
  obtain ⟨inst, view, ascent⟩ := viewAs_ascent finds
  obtain rfl : sup = .named target inst := Option.some.inj (found.symm.trans view)
  exact ⟨inst, rfl, ascent⟩

/-! What the search says about class types that fit each other. -/

@[simp] theorem viewAs_self (env : Environment) (name : String) (args : List Ty) :
    env.viewAs (.named name args) name = some (.named name args) := by
  simp [viewAs, findInstance]

theorem assignable_named (env : Environment) (name target : String) (args targetArgs : List Ty) :
    env.assignable (.named name args) (.named target targetArgs) =
      if Ty.named name args = .named target targetArgs ∨
          (Ty.named name args, Ty.named target targetArgs) ∈ env.assumed then true
      else env.subtype (.named name args) (.named target targetArgs) :=
  rfl

/-- Everything fits the top class, whatever its arguments. -/
theorem assignable_topName (env : Environment) (ty : Ty) (args : List Ty) :
    env.assignable ty (.named topName args) = true := by
  rw [assignable_eq]
  split
  · rfl
  · cases ty <;> simp [fits, subtype, Ty.isPrimitive]

/-- A class type fits another, apart from the top class, if it has an instance of that class with
the same arguments, or if one of the two is without arguments. -/
theorem assignable_named_iff {env : Environment} {name target : String} {args targetArgs : List Ty}
    (noAssumed : env.assumed = []) (proper : target ≠ topName) :
    env.assignable (.named name args) (.named target targetArgs) = true ↔
      ∃ inst, env.viewAs (.named name args) target = some (.named target inst) ∧
        (targetArgs = [] ∨ inst = [] ∨ inst = targetArgs) := by
  rw [assignable_named, noAssumed]
  by_cases same : Ty.named name args = .named target targetArgs
  · obtain ⟨rfl, rfl⟩ := Ty.named.inj same
    simp
  · cases view : env.viewAs (.named name args) target with
    | none => simp [same, subtype, proper, view]
    | some sup =>
      obtain ⟨inst, rfl, -⟩ := ascent_of_viewAs view
      simp [same, subtype, proper, view, or_assoc]

end Environment
end InferredTypes
