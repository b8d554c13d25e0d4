import InferredTypes.Proofs.SmallPrograms
import InferredTypes.Proofs.Termination
import InferredTypes.Proofs.TypeVariables
import InferredTypes.Proofs.WidestLeaf

/-! Creations that leave their type arguments open. The type of such a creation has the parameters
of its class in the place of the arguments. A variable that is initialized with it gets the erased
type; a branch of a conditional and a loop keep the parameters. -/
namespace InferredTypes

/-- No arguments and no type variable, under any number of array layers. -/
def Ty.isBare : Ty → Bool
  | .named _ args => args.isEmpty
  | .array elem => elem.isBare
  | .var _ => false
  | .primitive _ | .null => true

/-- The expressions whose types a declaration with this origin takes as they are: what stands under
the source as a branch, and the source itself unless it is a creation that initializes. -/
def Origin.exposed : Origin → List Expr
  | .initializer (some (.creation _ _)) => []
  | origin => Expr.reachBranch origin.expr?

theorem Origin.exposed_cases (origin : Origin) :
    (∃ node ref, origin = .initializer (some (.creation node ref)) ∧ origin.exposed = []) ∨
      origin.exposed = Expr.reachBranch origin.expr? := by
  unfold Origin.exposed
  split
  · exact .inl ⟨_, _, rfl, rfl⟩
  · exact .inr rfl

def Origin.isIterated : Origin → Bool
  | .initializer _ => false
  | .iterated _ => true

namespace Environment
variable {env : Environment} {g : Guard} {d : Decl}

theorem isBare_erasure (ty : Ty) : (erasure ty).isBare = true := by
  match ty with
  | .array elem => exact isBare_erasure elem
  | .named _ _ | .var _ | .primitive _ | .null => rfl

theorem typeAt_creation {node : Node} {ref : TypeRef}
    (unscripted : env.scripted.get? node.id = none) :
    env.typeAt g (.creation node (some ref)) = env.creationType ref := by
  rw [typeAt_eq]
  simp only [Expr.id, Expr.node, unscripted]

theorem creationType_of_diamond {ref : TypeRef} {name : String} (diamond : ref.isDiamond = true)
    (resolved : env.qualify ref.name = some name) :
    env.creationType ref =
      some (.named name ((((env.classes.get? name).map ClassInfo.params).getD []).map .var)) := by
  simp only [creationType, resolved, diamond, if_true]

/-- A placeholder that is initialized with an open creation gets a type without arguments and
variables, from every guard and whatever type is scripted. If none is scripted and the creation is
not in flight, it is the class without arguments. -/
theorem open_initializer_infers_raw {v : LocalVariable} {node : Node} {ref : TypeRef}
    (active : (env.semantics.kind v.typeRef).isActive = true)
    (initializer : v.initializer = some (.creation node (some ref)))
    (diamond : ref.args = [.diamond]) :
    (∃ ty, ty.isBare = true ∧
      Request.Yields (env.host.infer (.localVariable v)) g (some ty)) ∧
    ∀ name, env.scripted.get? node.id = none → node.id ∉ g.inFlight →
      env.qualify ref.name = some name →
      Request.Yields (env.host.infer (.localVariable v)) g (some (.named name [])) := by
  have isDiamond : ref.isDiamond = true := by simp [TypeRef.isDiamond, diamond]
  have inferred : env.inferredAt g (.localVariable v) =
      some (((g.behind node.id fun h => env.typeAt h (.creation node (some ref))).map
        erasure).getD topClass) := by
    have isOpen : (Expr.creation node (some ref)).isDiamondCreation = true := isDiamond
    rw [inferredAt_of_initializer active initializer, Semantics.initializerAt_creation,
      Semantics.closed, if_pos isOpen]
    rfl
  have yields := env.yields_infer g (.localVariable v)
  rw [inferred] at yields
  constructor
  · refine ⟨_, ?_, yields⟩
    cases g.behind node.id fun h => env.typeAt h (.creation node (some ref)) with
    | none => rfl
    | some ty => exact isBare_erasure ty
  · intro name unscripted fresh resolved
    rw [Guard.behind, if_neg fresh, typeAt_creation unscripted,
      creationType_of_diamond isDiamond resolved] at yields
    exact yields

def openList : TypeRef :=
  ⟨nodeOf 0, utilName "ArrayList", [.diamond], 0⟩

def openCreation : Expr :=
  .creation (nodeOf 2) (some openList)

/-- A list that is created with its argument left open is a raw list, also from inside another
request. -/
theorem openList_infers_raw :
    let v : LocalVariable :=
      ⟨nodeOf 10, "xs", some ⟨nodeOf 0, "val", [], 0⟩, some openCreation, .block⟩
    withPlaceholders.creationType openList = some (.named (utilName "ArrayList") [.var "E"]) ∧
    Request.Yields (withPlaceholders.host.infer (.localVariable v)) ⟨[⟨1⟩]⟩
      (some (.named (utilName "ArrayList") [])) := by
  intro v
  have created : withPlaceholders.creationType openList =
      some (.named (utilName "ArrayList") [.var "E"]) := by decide +kernel
  have resolved : withPlaceholders.qualify openList.name = some (utilName "ArrayList") := by
    decide +kernel
  have active : (withPlaceholders.semantics.kind v.typeRef).isActive = true := rfl
  have raw := (open_initializer_infers_raw (g := ⟨[⟨1⟩]⟩) active rfl rfl).2
  exact ⟨created, raw _ rfl (by decide) resolved⟩

/-! Where the parameters of open creations can get to. -/

/-- The parameters that an expression leaves open: those of its class, if it is an open creation
without a scripted type. -/
def openParams (env : Environment) : Expr → List String
  | .creation node (some ref) =>
    if ref.isDiamond && !env.scripted.contains node.id then
      match env.qualify ref.name with
      | some name => ((env.classes.get? name).map ClassInfo.params).getD []
      | none => []
    else []
  | _ => []

def createdType? (env : Environment) : Expr → Option Ty
  | .creation _ (some ref) => env.creationType ref
  | _ => none

def isPlaceholder (env : Environment) (d : Decl) : Bool :=
  (env.semantics.kind d.typeRef).isActive

/-- What the placeholders get their types from, among a declaration and those that names are bound
to. -/
def origins (env : Environment) (d : Decl) : List Origin :=
  ((d :: env.boundDecls).filter env.isPlaceholder).filterMap Decl.origin?

def reached (env : Environment) (d : Decl) : List Expr :=
  (env.origins d).flatMap fun origin => Expr.reachBranch origin.expr?

def exposed (env : Environment) (d : Decl) : List Expr :=
  (env.origins d).flatMap Origin.exposed

def exposedParams (env : Environment) (d : Decl) : List String :=
  (env.exposed d).flatMap env.openParams

/-- The types that are written in creations, or for variables that are no placeholders. -/
def writtenTypes (env : Environment) (d : Decl) : List Ty :=
  (env.reached d).filterMap env.createdType? ++
    (env.boundDecls.filter fun d' => !env.isPlaceholder d').filterMap fun d' =>
      d'.typeRef.bind env.declaredType

def iterates (env : Environment) (d : Decl) : Bool :=
  (env.origins d).any Origin.isIterated

/-- Scripted types have no variables. If there are loops, scripted and written types have all their
arguments or none. -/
structure Orderly (env : Environment) (d : Decl) : Prop where
  closed : ∀ id ty, env.scripted.get? id = some ty → ty.over [] = true
  scripted : env.iterates d = true → ∀ id ty, env.scripted.get? id = some ty → env.sized ty = true
  written : env.iterates d = true → ∀ ty ∈ env.writtenTypes d, env.sized ty = true

/-- The variables of the type are parameters of exposed creations, and its classes have all their
arguments or none if there are loops. -/
structure Kept (env : Environment) (d : Decl) (ty : Ty) : Prop where
  vars : ty.over (env.exposedParams d) = true
  sized : env.iterates d = true → env.sized ty = true

theorem mem_origins {d' : Decl} {origin : Origin}
    (here : d' = d ∨ ∃ name, env.bindings.get? name = some d')
    (active : env.isPlaceholder d' = true) (found : d'.origin? = some origin) :
    origin ∈ env.origins d := by
  have listed : d' ∈ d :: env.boundDecls := by
    simpa [mem_boundDecls] using here
  exact List.mem_filterMap.2 ⟨d', List.mem_filter.2 ⟨listed, active⟩, found⟩

theorem mem_reached {origin : Origin} (mem : origin ∈ env.origins d) {e : Expr}
    (source : origin.expr? = some e) : e ∈ env.reached d := by
  refine List.mem_flatMap.2 ⟨origin, mem, ?_⟩
  rw [source]
  exact e.mem_reach_self

theorem id_mem_of_reached {e : Expr} (mem : e ∈ env.reached d) :
    e.id ∈ env.scopeIds d.source?.toList := by
  obtain ⟨origin, listed, inside⟩ := List.mem_flatMap.1 mem
  obtain ⟨d', filtered, found⟩ := List.mem_filterMap.1 listed
  rw [Expr.reachBranch_eq] at inside
  obtain ⟨root, expr, inside⟩ := List.mem_flatMap.1 inside
  have source : d'.source? = some root := by
    simpa [Decl.source?, found] using expr
  apply List.mem_map_of_mem
  rcases List.mem_cons.1 (List.mem_filter.1 filtered).1 with rfl | bound
  · exact env.mem_scope_of_root (by simp [source]) inside
  · obtain ⟨name, bound⟩ := (env.mem_boundDecls d').1 bound
    exact env.mem_scope_of_bound _ bound source inside

theorem reached_of_exposed {e : Expr} (mem : e ∈ env.exposed d) : e ∈ env.reached d := by
  obtain ⟨origin, listed, inside⟩ := List.mem_flatMap.1 mem
  refine List.mem_flatMap.2 ⟨origin, listed, ?_⟩
  rcases Origin.exposed_cases origin with ⟨_, _, -, none⟩ | all
  · simp [none] at inside
  · exact all ▸ inside

theorem exposed_of_branch {e b : Expr} (mem : e ∈ env.exposed d) (branch : b ∈ e.branches) :
    b ∈ env.exposed d := by
  obtain ⟨origin, listed, inside⟩ := List.mem_flatMap.1 mem
  refine List.mem_flatMap.2 ⟨origin, listed, ?_⟩
  rcases Origin.exposed_cases origin with ⟨_, _, -, none⟩ | all
  · simp [none] at inside
  · rw [all] at inside ⊢
    exact Expr.reachBranch_trans inside (Expr.mem_reach_of_branch branch b.mem_reach_self)

/-- The source of a placeholder is exposed, apart from a creation that initializes it. -/
theorem exposed_of_source {origin : Origin} {e : Expr} (mem : origin ∈ env.origins d)
    (source : origin.expr? = some e)
    (other : ∀ node ref, origin ≠ .initializer (some (.creation node ref))) :
    e ∈ env.exposed d := by
  refine List.mem_flatMap.2 ⟨origin, mem, ?_⟩
  rcases Origin.exposed_cases origin with ⟨node, ref, creation, -⟩ | all
  · exact absurd creation (other node ref)
  · rw [all, source]
    exact e.mem_reach_self

/-! What is kept by each way to make a type of others. -/

theorem kept_of_bare {ty : Ty} (bare : ty.isBare = true) : env.Kept d ty := by
  induction ty using Ty.induct with
  | primitive | null => exact ⟨rfl, fun _ => rfl⟩
  | var name => simp [Ty.isBare] at bare
  | array elem ih => exact ⟨(ih bare).vars, (ih bare).sized⟩
  | named name args =>
    obtain rfl : args = [] := by simpa [Ty.isBare] using bare
    exact ⟨rfl, fun _ => rfl⟩

theorem kept_wider {a b : Option Ty} (first : ∀ ty ∈ a, env.Kept d ty)
    (second : ∀ ty ∈ b, env.Kept d ty) : ∀ ty ∈ env.semantics.wider a b, env.Kept d ty := by
  match a, b with
  | none, b => exact second
  | some a, none => exact first
  | some a, some b =>
    rcases env.semantics.wider_some a b with ⟨result, -⟩ | ⟨result, -⟩
    · rw [result]
      exact first
    · rw [result]
      exact second

theorem Kept.elementOf (well : env.WellDeclared) (loops : env.iterates d = true) {ty elem : Ty}
    (kept : env.Kept d ty) (found : env.elementOf ty = some elem) : env.Kept d elem := by
  have contained : env.Contained (env.exposedParams d) ty := ⟨kept.vars, kept.sized loops⟩
  have inside := contained.elementOf well found
  exact ⟨inside.vars, fun _ => inside.sized⟩

namespace Orderly
variable (orderly : env.Orderly d)
include orderly

theorem kept_scripted {id : NodeId} {ty : Ty} (found : env.scripted.get? id = some ty) :
    env.Kept d ty :=
  ⟨ty.over_mono (List.nil_subset _) (orderly.closed id ty found),
    fun loops => orderly.scripted loops id ty found⟩

theorem kept_declared {name : String} {d' : Decl} (bound : env.bindings.get? name = some d')
    (plain : env.isPlaceholder d' = false) :
    ∀ ty ∈ d'.typeRef.bind env.declaredType, env.Kept d ty := by
  intro ty found
  have mem : ty ∈ env.writtenTypes d := by
    have listed : d' ∈ env.boundDecls := (env.mem_boundDecls d').2 ⟨name, bound⟩
    refine List.mem_append_right _ (List.mem_filterMap.2 ⟨d', ?_, found⟩)
    simp [listed, plain]
  obtain ⟨ref, -, denoted⟩ := Option.bind_eq_some_iff.1 found
  exact ⟨env.over_declaredType ref ty denoted, fun loops => orderly.written loops ty mem⟩

/-- A creation with written arguments has no variables, an open one those that it exposes. -/
theorem kept_creationType {node : Node} {ref : TypeRef}
    (unscripted : env.scripted.get? node.id = none)
    (mem : .creation node (some ref) ∈ env.reached d)
    (shown : ref.isDiamond = true → .creation node (some ref) ∈ env.exposed d) :
    ∀ ty ∈ env.creationType ref, env.Kept d ty := by
  intro ty found
  have listed : ty ∈ env.writtenTypes d :=
    List.mem_append_left _ (List.mem_filterMap.2 ⟨_, mem, found⟩)
  refine ⟨?_, fun loops => orderly.written loops ty listed⟩
  cases resolved : env.qualify ref.name with
  | none => simp [creationType, resolved] at found
  | some name =>
    cases diamond : ref.isDiamond with
    | false =>
      have denoted : env.declaredType ref = some ty := by
        simpa [creationType, resolved, diamond] using found
      exact env.over_declaredType ref ty denoted
    | true =>
      obtain rfl := Option.some.inj ((creationType_of_diamond diamond resolved).symm.trans found)
      have params : ∀ p ∈ ((env.classes.get? name).map ClassInfo.params).getD [],
          p ∈ env.exposedParams d := by
        intro p param
        refine List.mem_flatMap.2 ⟨_, shown diamond, ?_⟩
        simpa [openParams, diamond, Assoc.contains, unscripted, resolved] using param
      simpa [Ty.over] using params

theorem kept_creation {node : Node} {ref : Option TypeRef}
    (mem : .creation node ref ∈ env.reached d)
    (shown : (Expr.creation node ref).isDiamondCreation = true →
      .creation node ref ∈ env.exposed d) :
    ∀ ty ∈ env.typeAt g (.creation node ref), env.Kept d ty := by
  intro ty found
  cases scripted : env.scripted.get? node.id with
  | some known =>
    obtain rfl := Option.some.inj ((typeAt_scripted scripted).symm.trans found)
    exact orderly.kept_scripted scripted
  | none =>
    cases ref with
    | none => simp [typeAt_eq, Expr.id, Expr.node, scripted] at found
    | some ref =>
      rw [typeAt_creation scripted] at found
      exact orderly.kept_creationType scripted mem shown ty found

end Orderly

/-- All types are kept that exposed expressions get from guards with fewer than `n` idle ids. -/
def KeptBelow (env : Environment) (d : Decl) (n : Nat) : Prop :=
  ∀ g e, e ∈ env.exposed d → g.idle (env.scopeIds d.source?.toList) < n →
    ∀ ty ∈ env.typeAt g e, env.Kept d ty

namespace KeptBelow
variable {n : Nat} (below : env.KeptBelow d n)
  (idle : g.idle (env.scopeIds d.source?.toList) ≤ n)
include below idle

theorem behind {e : Expr} (mem : e ∈ env.exposed d) :
    ∀ ty ∈ g.behind e.id fun h => env.typeAt h e, env.Kept d ty := by
  intro ty found
  obtain ⟨fresh, typed⟩ := Guard.mem_behind.1 found
  have fewer := Guard.idle_enter_lt fresh (id_mem_of_reached (reached_of_exposed mem))
  exact below (g.enter e.id) e mem (by omega) ty typed

theorem wider {node : Node} {c : Expr} {t f : Option Expr}
    (mem : .conditional node c t f ∈ env.exposed d) :
    ∀ ty ∈ env.semantics.wider (Semantics.branchAt env.typeAt g t)
      (Semantics.branchAt env.typeAt g f), env.Kept d ty := by
  have branch {b : Option Expr} (inside : ∀ e ∈ b.toList, e ∈ env.exposed d) :
      ∀ ty ∈ Semantics.branchAt env.typeAt g b, env.Kept d ty := by
    cases b with
    | none => simp [Semantics.branchAt]
    | some b => exact below.behind idle (inside b (by simp))
  apply kept_wider
  · exact branch fun e listed => exposed_of_branch mem (Expr.mem_branches_of_whenTrue listed)
  · exact branch fun e listed => exposed_of_branch mem (Expr.mem_branches_of_whenFalse listed)

variable (orderly : env.Orderly d)
include orderly

theorem initializerAt {e : Expr} (mem : .initializer (some e) ∈ env.origins d) :
    ∀ ty ∈ env.semantics.initializerAt env.typeAt g e, env.Kept d ty := by
  cases e with
  | braceList => simp [Semantics.initializerAt]
  | conditional node c t f =>
    have here := exposed_of_source mem rfl (by simp)
    intro ty found
    rw [Semantics.initializerAt_conditional] at found
    obtain ⟨-, typed⟩ := Guard.mem_behind.1 found
    have fewer := Guard.idle_enter_le g node.id (env.scopeIds d.source?.toList)
    exact below.wider (by omega) here ty typed
  | creation node ref =>
    have here := mem_reached mem rfl
    intro ty found
    by_cases isOpen : (Expr.creation node ref).isDiamondCreation = true
    · rw [Semantics.initializerAt_creation, Semantics.closed, if_pos isOpen] at found
      obtain ⟨whole, -, rfl⟩ := Option.map_eq_some_iff.1 found
      exact kept_of_bare (isBare_erasure whole)
    · rw [Semantics.initializerAt_creation, Semantics.closed, if_neg isOpen] at found
      obtain ⟨-, typed⟩ := Guard.mem_behind.1 found
      exact orderly.kept_creation here (fun shown => absurd shown isOpen) ty typed
  | lambda | ident | literal | other =>
    have here := exposed_of_source mem rfl (by simp)
    simp only [Semantics.initializerAt, Semantics.closed]
    exact below.behind idle here

variable (well : env.WellDeclared)
include well

theorem originAt {origin : Origin} (mem : origin ∈ env.origins d) :
    ∀ ty ∈ env.semantics.originAt env.typeAt env.elementAt g origin, env.Kept d ty := by
  cases origin with
  | initializer e =>
    cases e with
    | none => simp [Semantics.originAt]
    | some e => exact below.initializerAt idle orderly mem
  | iterated e =>
    cases e with
    | none => simp [Semantics.originAt]
    | some e =>
      have here := exposed_of_source mem rfl (by simp)
      have loops : env.iterates d = true := List.any_eq_true.2 ⟨_, mem, rfl⟩
      intro elem found
      rw [Semantics.originAt_iterated] at found
      obtain ⟨fresh, yielded⟩ := Guard.mem_behind.1 found
      obtain ⟨ty, typed, element⟩ := Option.bind_eq_some_iff.1 yielded
      have kept := below.behind idle here ty (Guard.mem_behind.2 ⟨fresh, typed⟩)
      exact kept.elementOf well loops element

theorem inferredAt {d' : Decl} (here : d' = d ∨ ∃ name, env.bindings.get? name = some d') :
    ∀ ty ∈ env.inferredAt g d', env.Kept d ty := by
  intro ty found
  obtain ⟨origin, active, source, rfl⟩ := exists_origin_of_inferredAt found
  have kept := below.originAt idle orderly well (mem_origins here active source)
  cases typed : env.semantics.originAt env.typeAt env.elementAt g origin with
  | none => exact kept_of_bare rfl
  | some ty => exact kept ty typed

theorem typeAt {e : Expr} (mem : e ∈ env.exposed d) : ∀ ty ∈ env.typeAt g e, env.Kept d ty := by
  intro ty found
  cases scripted : env.scripted.get? e.id with
  | some known =>
    obtain rfl := Option.some.inj ((typeAt_scripted scripted).symm.trans found)
    exact orderly.kept_scripted scripted
  | none =>
    cases e with
    | ident node name =>
      cases bound : env.bindings.get? name with
      | none => simp [typeAt_eq, scripted, bound] at found
      | some d' =>
        have unscripted : env.scripted.get? node.id = none := scripted
        rw [typeAt_ident unscripted bound, variableAt] at found
        split at found
        · exact below.inferredAt idle orderly well (.inr ⟨name, bound⟩) ty found
        · next plain => exact orderly.kept_declared bound (Bool.eq_false_iff.2 plain) ty found
    | conditional node c t f =>
      have unscripted : env.scripted.get? node.id = none := scripted
      rw [typeAt_conditional unscripted] at found
      exact below.wider idle mem ty found
    | creation node ref =>
      exact orderly.kept_creation (reached_of_exposed mem) (fun _ => mem) ty found
    | literal node value =>
      obtain rfl : value.ty = ty := by simpa [typeAt_eq, scripted] using found
      exact kept_of_bare (by cases value <;> rfl)
    | lambda | braceList | other => simp [typeAt_eq, scripted] at found

end KeptBelow

theorem keptBelow (well : env.WellDeclared) (orderly : env.Orderly d) (n : Nat) :
    env.KeptBelow d n := by
  -- As bindings may be circular, the induction is on how many ids are idle.
  induction n with
  | zero => exact fun _ _ _ idle => absurd idle (Nat.not_lt_zero _)
  | succ n ih => exact fun _ _ mem idle => ih.typeAt (Nat.le_of_lt_succ idle) orderly well mem

/-- Every type variable in an inferred type is a parameter of a class that an exposed open creation
creates, among the declaration and those that names are bound to. So there is none if no open
creation of a generic class is exposed. -/
theorem variables_come_from_open_creations (well : env.WellDeclared) (orderly : env.Orderly d) :
    ∃ result, Request.Yields (env.host.infer d) g result ∧
      ∀ ty ∈ result, ty.over (env.exposedParams d) = true := by
  refine ⟨_, env.yields_infer g d, fun ty found => ?_⟩
  have below := keptBelow well orderly (g.idle (env.scopeIds d.source?.toList))
  exact (below.inferredAt (Nat.le_refl _) orderly well (.inl rfl) ty found).vars

def loopOver (e : Expr) : Decl :=
  .parameter ⟨nodeOf 11, "x", some ⟨nodeOf 0, "val", [], 0⟩, .foreachLoop (nodeOf 0) (some e)⟩

def stringList : TypeRef :=
  ⟨nodeOf 0, utilName "ArrayList", [.type ⟨nodeOf 0, "String", [], 0⟩], 0⟩

/-- A list whose argument is left open is bound to a name. -/
def shelf : Environment :=
  withPlaceholders.apply (.bind (valDecl 12 "xs" openCreation))

/-- A loop over a list of strings or the list that is bound to a name. -/
def shelfRequest : Decl :=
  loopOver (fork 1 (some (.creation (nodeOf 3) (some stringList))) (some (.ident (nodeOf 4) "xs")))

theorem wellDeclared_shelf : shelf.WellDeclared :=
  forall_classes (by decide +kernel)

theorem orderly_shelf : shelf.Orderly shelfRequest := by
  have unscripted (id : NodeId) : shelf.scripted.get? id = none := rfl
  exact ⟨by simp [unscripted], by simp [unscripted], by decide +kernel⟩

theorem shelf_variables :
    shelf.WellDeclared ∧ shelf.Orderly shelfRequest ∧ shelf.exposedParams shelfRequest = [] ∧
    ∃ result, Request.Yields (shelf.host.infer shelfRequest) .empty result ∧
      ∀ ty ∈ result, ty.over [] = true := by
  have none : shelf.exposedParams shelfRequest = [] := by decide +kernel
  exact ⟨wellDeclared_shelf, orderly_shelf, none,
    none ▸ variables_come_from_open_creations wellDeclared_shelf orderly_shelf⟩

/-- A pair of something unknown and a string. -/
def halfPair : TypeRef :=
  ⟨nodeOf 0, "Pair", [.type ⟨nodeOf 0, "Unknown", [], 0⟩, .type ⟨nodeOf 0, "String", [], 0⟩], 0⟩

/-- A class of pairs that is declared as an iterable of its second parameter, and a variable of a
type whose first argument is unknown. -/
def withPairs : Environment :=
  withPlaceholders.applyAll
    [ .declareClass "Pair" ⟨["A", "B"], [.named iterableName [.var "B"]]⟩
    , .bind (.localVariable ⟨nodeOf 13, "p", some halfPair, none, .block⟩) ]

theorem wellDeclared_withPairs : withPairs.WellDeclared :=
  forall_classes (by decide +kernel)

/-- Parameters of a class get out through a branch, through a loop, and where an argument is
missing. -/
theorem parameters_leak :
    (withPairs.WellDeclared ∧ ∀ id, withPairs.scripted.get? id = none) ∧
    Request.Yields (withPairs.host.infer (valDecl 10 "x"
        (fork 1 (some openCreation) (some (.literal (nodeOf 3) .null))))) .empty
      (some (.named (utilName "ArrayList") [.var "E"])) ∧
    Request.Yields (withPairs.host.infer (loopOver openCreation)) .empty (some (.var "E")) ∧
    Request.Yields (withPairs.host.infer (loopOver (.ident (nodeOf 4) "p"))) .empty
      (some (.var "B")) := by
  have leaks {d : Decl} {ty : Ty} (inferred : withPairs.inferredAt .empty d = some ty) :
      Request.Yields (withPairs.host.infer d) .empty (some ty) :=
    inferred ▸ withPairs.yields_infer .empty d
  exact ⟨⟨wellDeclared_withPairs, fun _ => rfl⟩, leaks (by decide +kernel),
    leaks (by decide +kernel), leaks (by decide +kernel)⟩

end Environment
end InferredTypes
