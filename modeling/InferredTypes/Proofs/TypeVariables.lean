import InferredTypes.Proofs.ExactView
import InferredTypes.Proofs.TypeShape

/-! Type variables and numbers of arguments under the operations on types. The variables of a type
are carried along by replacing parameters, by the search for a supertype and by loops; nothing adds
one as long as each class has all its arguments or none. -/
namespace InferredTypes

namespace Ty
variable {params outer : List String} {args : List Ty}

@[simp] theorem overAll_iff (tys : List Ty) :
    overAll params tys = true ↔ ∀ ty ∈ tys, ty.over params = true := by
  induction tys with
  | nil => simp [overAll]
  | cons ty tys ih => simp [overAll, ih]

theorem over_mono (sub : params ⊆ outer) (ty : Ty) (vars : ty.over params = true) :
    ty.over outer = true := by
  induction ty using Ty.induct with
  | primitive | null => rfl
  | var name =>
    simp only [Ty.over, decide_eq_true_eq] at vars ⊢
    exact sub vars
  | array elem ih => exact ih vars
  | named name args ih =>
    simp only [Ty.over, overAll_iff] at vars ⊢
    exact fun a mem => ih a mem (vars a mem)

theorem mem_of_argument? {name : String} {a : Ty} (found : argument? params args name = some a) :
    a ∈ args := by
  fun_induction argument? params args name with
  | case1 => simp_all
  | case2 p params b args _ ih => exact List.mem_cons_of_mem _ (ih found)
  | case3 => simp at found

theorem exists_argument {name : String} (length : args.length = params.length)
    (mem : name ∈ params) : ∃ a, argument? params args name = some a := by
  induction params generalizing args with
  | nil => simp at mem
  | cons p params ih =>
    obtain ⟨a, args, rfl⟩ := List.exists_cons_of_length_eq_add_one length
    by_cases here : p = name
    · exact ⟨a, by simp [argument?, here]⟩
    · have later := ih (by simpa using length) (by simpa [Ne.symm here] using mem)
      simpa [argument?, here] using later

/-- When all parameters are replaced, only the variables of the arguments are left. -/
theorem over_subst (length : args.length = params.length)
    (closed : ∀ a ∈ args, a.over outer = true) (ty : Ty) (vars : ty.over params = true) :
    (ty.subst params args).over outer = true := by
  induction ty using Ty.induct with
  | primitive | null => rfl
  | var name =>
    obtain ⟨a, found⟩ := exists_argument length (by simpa [Ty.over] using vars)
    simp [Ty.subst, found, closed a (mem_of_argument? found)]
  | array elem ih => exact ih vars
  | named name inner ih =>
    simp only [Ty.over, overAll_iff] at vars
    simp only [Ty.subst, Ty.over, substAll_eq_map, overAll_iff, List.forall_mem_map]
    exact fun a mem => ih a mem (vars a mem)

@[simp] theorem over_arrayOf (ty : Ty) (n : Nat) : (ty.arrayOf n).over params = ty.over params := by
  induction n with
  | zero => rfl
  | succ n ih => exact ih

end Ty

namespace Environment
variable {env : Environment} {params : List String} {args : List Ty}

@[simp] theorem sizedAll_iff (tys : List Ty) :
    env.sizedAll tys = true ↔ ∀ ty ∈ tys, env.sized ty = true := by
  induction tys with
  | nil => simp [sizedAll]
  | cons ty tys ih => simp [sizedAll, ih]

theorem sized_named_iff {name : String} :
    env.sized (.named name args) = true ↔
      (args = [] ∨ args.length = env.arity name) ∧ ∀ a ∈ args, env.sized a = true := by
  simp [sized]

theorem sized_subst (complete : ∀ a ∈ args, env.sized a = true) (ty : Ty)
    (sized : env.sized ty = true) : env.sized (ty.subst params args) = true := by
  induction ty using Ty.induct with
  | primitive | null => rfl
  | var name =>
    cases found : Ty.argument? params args name with
    | none => simp [Ty.subst, found, Environment.sized]
    | some a => simp [Ty.subst, found, complete a (Ty.mem_of_argument? found)]
  | array elem ih => exact ih sized
  | named name inner ih =>
    rw [sized_named_iff] at sized
    simp only [Ty.subst, Ty.substAll_eq_map, sized_named_iff, List.map_eq_nil_iff, List.length_map,
      List.forall_mem_map]
    exact ⟨sized.1, fun a mem => ih a mem (sized.2 a mem)⟩

/-- The variables are among `params`, and each class type has all its arguments or none. -/
structure Contained (env : Environment) (params : List String) (ty : Ty) : Prop where
  vars : ty.over params = true
  sized : env.sized ty = true

theorem contained_raw (env : Environment) (params : List String) (name : String) :
    env.Contained params (.named name []) :=
  ⟨rfl, rfl⟩

/-- The supertypes of an instance have the variables of its arguments. -/
theorem Contained.supersOf (well : env.WellDeclared) {name above : String} {aboveArgs : List Ty}
    (contained : env.Contained params (.named name args))
    (mem : .named above aboveArgs ∈ env.supersOf name args) :
    env.Contained params (.named above aboveArgs) := by
  by_cases raw : args = []
  · subst raw
    obtain ⟨rfl, -⟩ := extends_of_mem_supersOf_raw mem
    exact env.contained_raw params above
  · obtain ⟨info, found, s, declared, instantiated⟩ := mem_supersOf.1 mem
    rw [if_neg raw] at instantiated
    obtain ⟨vars, sized⟩ := well name info found s declared
    obtain ⟨length, inner⟩ := sized_named_iff.1 contained.sized
    have full : args.length = info.params.length := by
      simpa [raw, arity, found] using length
    have closed : ∀ a ∈ args, a.over params = true := by
      simpa [Ty.over] using contained.vars
    rw [instantiated]
    exact ⟨Ty.over_subst full closed s vars, sized_subst inner s sized⟩

theorem Contained.ascent (well : env.WellDeclared) {ty sup : Ty} {way : List Ty}
    (contained : env.Contained params ty) (ascent : env.Ascent ty way sup) :
    ∀ name args, sup = .named name args → env.Contained params sup := by
  induction ascent with
  | here => exact fun _ _ _ => contained
  | climb _ mem ih =>
    rintro above aboveArgs rfl
    exact (ih _ _ rfl).supersOf well mem

theorem Contained.viewAs (well : env.WellDeclared) {ty sup : Ty} {target : String}
    (contained : env.Contained params ty) (found : env.viewAs ty target = some sup) :
    env.Contained params sup := by
  obtain ⟨inst, same, ascent⟩ := ascent_of_viewAs found
  exact contained.ascent well ascent target inst same

theorem Contained.elementOf (well : env.WellDeclared) {ty elem : Ty}
    (contained : env.Contained params ty) (found : env.elementOf ty = some elem) :
    env.Contained params elem := by
  cases ty with
  | array inner =>
    obtain rfl := Option.some.inj found
    exact ⟨contained.vars, contained.sized⟩
  | named name args =>
    cases view : env.viewAs (.named name args) iterableName with
    | none => simp [Environment.elementOf, view] at found
    | some sup =>
      obtain ⟨inst, rfl, -⟩ := ascent_of_viewAs view
      have inside := contained.viewAs well view
      cases inst with
      | nil =>
        obtain rfl : topClass = elem := by simpa [Environment.elementOf, view] using found
        exact env.contained_raw params topName
      | cons first rest =>
        obtain rfl : first = elem := by simpa [Environment.elementOf, view] using found
        have vars : ∀ a ∈ first :: rest, a.over params = true := by
          simpa [Ty.over] using inside.vars
        exact ⟨vars first (by simp), (sized_named_iff.1 inside.sized).2 first (by simp)⟩
  | primitive | var | null => simp [Environment.elementOf] at found

mutual
/-- A written type has no variables. -/
theorem over_declaredType (env : Environment) (ref : TypeRef) :
    ∀ ty ∈ env.declaredType ref, ty.over params = true := by
  obtain ⟨_, name, args, dims⟩ := ref
  intro ty found
  rw [declaredType] at found
  split at found
  · obtain rfl := Option.some.inj found
    simp [Ty.over]
  · split at found
    · obtain rfl := Option.some.inj found
      simpa [Ty.over] using over_argumentTypes env args
    · simp at found

theorem over_argumentTypes (env : Environment) (args : List (TypeArg TypeRef)) :
    ∀ ty ∈ env.argumentTypes args, ty.over params = true := by
  match args with
  | [] => simp [argumentTypes]
  | .diamond :: args =>
    rw [argumentTypes]
    exact over_argumentTypes env args
  | .type ref :: args =>
    have first := over_declaredType env ref
    have rest := over_argumentTypes env args
    rw [argumentTypes]
    split
    · next ty found => exact List.forall_mem_cons.2 ⟨first ty found, rest⟩
    · exact rest
end

/-- Where supertypes are well declared, no view of a closed type shows a parameter of a class on the
way, and each class has all its arguments or none again. So a loop over a value of such a type
yields a closed type, if any. -/
theorem views_of_closed_types (well : env.WellDeclared) {ty : Ty} (closed : ty.over [] = true)
    (sized : env.sized ty = true) :
    (∀ target sup, env.viewAs ty target = some sup → sup.over [] = true ∧ env.sized sup = true) ∧
    ∀ e s s', env.host.staticType e s = .ok (some ty) s' →
      ∃ elem, env.host.elementType e s = .ok elem s' ∧ ∀ inner ∈ elem, inner.over [] = true := by
  have contained : env.Contained [] ty := ⟨closed, sized⟩
  constructor
  · intro target sup found
    have view := contained.viewAs well found
    exact ⟨view.vars, view.sized⟩
  · intro e s s' typed
    refine ⟨_, elementType_of_staticType typed, ?_⟩
    intro inner found
    exact (contained.elementOf well found).vars

def pairOf (first second : Ty) : Ty := .named "Pair" [first, second]

/-- Tables are grids of pairs, and grids are iterables of pairs again. The classes share the names of
their parameters, in another order. -/
def withTables : Environment :=
  standard.applyAll
    [ .declareClass "Pair" ⟨["A", "B"], []⟩
    , .declareClass "Grid" ⟨["B"], [.named iterableName [pairOf (.var "B") (.array (.var "B"))]]⟩
    , .declareClass "Table" ⟨["B", "A"], [.named "Grid" [pairOf (.var "A") (.var "B")]]⟩
    , .scriptType ⟨1⟩ (.named "Table" [stringType, .array (.primitive .int)]) ]

theorem wellDeclared_withTables : withTables.WellDeclared :=
  forall_classes (by decide +kernel)

theorem table_view_closed :
    let table := Ty.named "Table" [stringType, .array (.primitive .int)]
    let row := pairOf (.array (.primitive .int)) stringType
    let grid := Ty.named iterableName [pairOf row (.array row)]
    withTables.WellDeclared ∧ table.over [] = true ∧ withTables.sized table = true ∧
    withTables.viewAs table iterableName = some grid ∧
    (grid.over [] = true ∧ withTables.sized grid = true) ∧
    ∃ elem, withTables.host.elementType (.other ⟨⟨1⟩, ⟨0, 0⟩⟩) .fresh = .ok elem .fresh ∧
      ∀ inner ∈ elem, inner.over [] = true := by
  intro table row grid
  have closed : table.over [] = true := by decide +kernel
  have sized : withTables.sized table = true := by decide +kernel
  have view : withTables.viewAs table iterableName = some grid := by decide +kernel
  obtain ⟨views, loops⟩ := views_of_closed_types wellDeclared_withTables closed sized
  exact ⟨wellDeclared_withTables, closed, sized, view, views iterableName grid view,
    loops _ .fresh .fresh rfl⟩

end Environment
end InferredTypes
