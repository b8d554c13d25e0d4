import InferredTypes.Proofs.Cone
import InferredTypes.Proofs.RawOrder
import InferredTypes.Proofs.SmallPrograms
import InferredTypes.Proofs.WidestLeaf
import Mathlib.Order.Preorder.Finite

/-! References that come back to a declaration whose type is being inferred. The guard refuses the
second visit, the top class stands in for the missing type, and from there it makes its way up: a
conditional gives way to it whatever the other branch is, and a loop finds nothing in it. -/
namespace InferredTypes

/-- The expressions on a way down through branches, below the one it starts from. -/
inductive Expr.Descends : Expr → List Expr → Expr → Prop
  | here {e : Expr} : Descends e [] e
  | down {e b leaf : Expr} {way : List Expr} (branch : b ∈ e.branches)
      (rest : Descends b way leaf) : Descends e (b :: way) leaf

namespace Environment

/-- A type of the top class, with or without arguments. -/
def IsTop (ty : Ty) : Prop :=
  ∃ args, ty = .named topName args

/-- No pair is assumed that has the top class as its source. -/
def TopStays (env : Environment) : Prop :=
  ∀ source target, IsTop source → (source, target) ∉ env.assumed

variable {env : Environment} {g : Guard}

/-! Nothing but the top class is above the top class. -/

theorem viewAs_topName (root : env.TopIsRoot) (args : List Ty) {target : String}
    (proper : topName ≠ target) : env.viewAs (.named topName args) target = none := by
  have supers : env.supersOf topName args = [] := by
    cases found : env.classes.get? topName with
    | none => simp [supersOf, found]
    | some info => simp [supersOf, found, ClassInfo.supersOf, root info found]
  simp [viewAs, findInstance, proper, supers]

theorem elementOf_topClass (root : env.TopIsRoot) : env.elementOf topClass = none := by
  have proper : topName ≠ iterableName := by decide
  simp only [elementOf, topClass, viewAs_topName root [] proper]

theorem isTop_of_assignable (root : env.TopIsRoot) (stays : env.TopStays) {source target : Ty}
    (top : IsTop source) (fit : env.assignable source target = true) : IsTop target := by
  by_cases same : source = target
  · exact same ▸ top
  rw [assignable_eq, if_neg (by simp [same, stays source target top])] at fit
  obtain ⟨args, rfl⟩ := top
  cases target with
  | named name targetArgs =>
    by_cases there : name = topName
    · exact ⟨targetArgs, by rw [there]⟩
    · simp [fits, subtype, there, viewAs_topName root args (Ne.symm there)] at fit
  | primitive p => simp [fits, show Primitive.ofBox? topName = none from rfl] at fit
  | array | var | null => simp [fits] at fit

/-- A conditional with the top class on either side is of the top class. -/
theorem exists_isTop_wider (root : env.TopIsRoot) (stays : env.TopStays) {a b : Option Ty}
    (top : (∃ ty ∈ a, IsTop ty) ∨ ∃ ty ∈ b, IsTop ty) :
    ∃ ty ∈ env.semantics.wider a b, IsTop ty := by
  match a, b with
  | none, b => simpa [Semantics.wider] using top
  | some a, none => simpa [Semantics.wider] using top
  | some a, some b =>
    simp only [Option.mem_def, Option.some.injEq, exists_eq_left'] at top
    rcases env.semantics.wider_some a b with ⟨result, receives⟩ | ⟨result, fits⟩
    · refine ⟨a, result, top.elim id fun topB => ?_⟩
      obtain ⟨args, rfl⟩ := topB
      exact isTop_of_assignable root stays ⟨args, rfl⟩ (receives (env.assignable_topName a args))
    · exact ⟨b, result, top.elim (fun topA => isTop_of_assignable root stays topA fits) id⟩

/-! A variable that stands somewhere in the conditional it is initialized with. -/

/-- The tree initializes the placeholder `v`, and the way leads down through it to the name of `v`.
No id repeats on the way, and below the root none has a scripted type. -/
structure RefersToItself (env : Environment) (v : LocalVariable) (tree : ConditionalTree)
    (way : List Expr) : Prop where
  active : (env.semantics.kind v.typeRef).isActive = true
  bound : env.bindings.get? v.name = some (.localVariable v)
  initializer : v.initializer = some tree.expr
  descends : ∃ node, tree.expr.Descends way (.ident node v.name)
  distinct : ((tree.expr :: way).map Expr.id).Nodup
  unscripted : ∀ e ∈ way, env.scripted.get? e.id = none

section
variable {v : LocalVariable} {tree : ConditionalTree}
  (active : (env.semantics.kind v.typeRef).isActive = true)
  (initializer : v.initializer = some tree.expr)
include active initializer

theorem inferredAt_tree :
    env.inferredAt g (.localVariable v) =
      some ((g.behind tree.node.id fun h =>
        env.semantics.wider (Semantics.branchAt env.typeAt h tree.whenTrue)
          (Semantics.branchAt env.typeAt h tree.whenFalse)).getD topClass) :=
  inferredAt_of_initializer active initializer

/-- The name of the variable, met while the root of its initializer is in flight. -/
theorem typeAt_ident_refused (bound : env.bindings.get? v.name = some (.localVariable v))
    (held : tree.node.id ∈ g.inFlight) {node : Node}
    (unscripted : env.scripted.get? node.id = none) :
    env.typeAt g (.ident node v.name) = some topClass := by
  have isActive : (env.semantics.kind (Decl.localVariable v).typeRef).isActive = true := active
  rw [typeAt_ident unscripted bound, variableAt, if_pos isActive,
    inferredAt_tree active initializer, Guard.behind, if_pos held, Option.getD_none]

end

/-- A branch of the top class passes it on to the conditional. -/
theorem exists_isTop_of_branch (root : env.TopIsRoot) (stays : env.TopStays) {node : Node}
    {c b : Expr} {t f : Option Expr} (branch : b ∈ (Expr.conditional node c t f).branches)
    (fresh : b.id ∉ g.inFlight) (top : ∃ ty ∈ env.typeAt (g.enter b.id) b, IsTop ty) :
    ∃ ty ∈ env.semantics.wider (Semantics.branchAt env.typeAt g t)
      (Semantics.branchAt env.typeAt g f), IsTop ty := by
  have entered : Semantics.branchAt env.typeAt g (some b) = env.typeAt (g.enter b.id) b :=
    if_neg fresh
  apply exists_isTop_wider root stays
  simp only [Expr.branches, List.mem_append, Option.mem_toList] at branch
  rcases branch with rfl | rfl
  · exact .inl (entered ▸ top)
  · exact .inr (entered ▸ top)

/-- From a leaf that is of the top class under all guards that hold `key`, the top class comes up
along a way on which nothing is refused. -/
theorem exists_isTop_of_descends (root : env.TopIsRoot) (stays : env.TopStays) {key : NodeId}
    {e leaf : Expr} {way : List Expr} (descends : e.Descends way leaf)
    (atLeaf : ∀ h : Guard, key ∈ h.inFlight → env.scripted.get? leaf.id = none →
      ∃ ty ∈ env.typeAt h leaf, IsTop ty)
    (unscripted : ∀ x ∈ e :: way, env.scripted.get? x.id = none) (held : key ∈ g.inFlight)
    (distinct : (g.inFlight ++ way.map Expr.id).Nodup) : ∃ ty ∈ env.typeAt g e, IsTop ty := by
  induction descends generalizing g with
  | here => exact atLeaf g held (unscripted _ List.mem_cons_self)
  | @down e b leaf way branch rest ih =>
    cases e with
    | conditional node c t f =>
      have here : env.scripted.get? node.id = none := unscripted _ List.mem_cons_self
      have fresh : b.id ∉ g.inFlight := by
        intro inFlight
        exact (List.nodup_append.1 distinct).2.2 b.id inFlight b.id (by simp) rfl
      rw [typeAt_conditional here]
      apply exists_isTop_of_branch root stays branch fresh
      apply ih atLeaf (fun x mem => unscripted x (List.mem_cons_of_mem _ mem))
      · simp [Guard.enter, held]
      · simpa [Guard.enter] using distinct
    | lambda | braceList | creation | ident | literal | other => simp [Expr.branches] at branch

/-- A placeholder whose initializer is a conditional with the variable itself at one of its leaves
gets the top class, whatever the types of the other leaves. -/
theorem self_reference_infers_top (root : env.TopIsRoot) (stays : env.TopStays)
    {v : LocalVariable} {tree : ConditionalTree} {way : List Expr}
    (self : env.RefersToItself v tree way) :
    ∃ ty, IsTop ty ∧
      Request.Yields (env.host.infer (.localVariable v)) .empty (some ty) := by
  obtain ⟨node, descends⟩ := self.descends
  have atLeaf (h : Guard) (held : tree.node.id ∈ h.inFlight)
      (unscripted : env.scripted.get? node.id = none) :
      ∃ ty ∈ env.typeAt h (.ident node v.name), IsTop ty :=
    ⟨topClass, typeAt_ident_refused self.active self.initializer self.bound held unscripted, [],
      rfl⟩
  cases descends with
  | @down _ b _ way branch rest =>
    let inside := Guard.empty.enter tree.node.id
    have distinct : (tree.node.id :: b.id :: way.map Expr.id).Nodup := self.distinct
    have fresh : b.id ∉ inside.inFlight := by
      intro held
      have same : b.id = tree.node.id := List.mem_singleton.1 held
      simp [same] at distinct
    have below : ∃ ty ∈ env.typeAt (inside.enter b.id) b, IsTop ty := by
      apply exists_isTop_of_descends root stays rest atLeaf self.unscripted
      · simp [inside, Guard.enter]
      · exact distinct
    obtain ⟨ty, found, isTop⟩ := exists_isTop_of_branch root stays branch fresh below
    have start : tree.node.id ∉ Guard.empty.inFlight := List.not_mem_nil
    have inferred : env.inferredAt .empty (.localVariable v) = some ty := by
      rw [inferredAt_tree self.active self.initializer, Guard.behind, if_neg start, found,
        Option.getD_some]
    exact ⟨ty, isTop, inferred ▸ env.yields_infer .empty _⟩

/-- The end of the way to the variable, beside another variable that refers to it. -/
def innerFork : Expr :=
  fork 4 (some (.ident (nodeOf 5) "z")) (some (.ident (nodeOf 6) "y"))

def outerFork : Expr :=
  fork 2 (some intLeaf) (some innerFork)

def knotTree : ConditionalTree :=
  ⟨nodeOf 1, .other (nodeOf 0), some outerFork, some (.literal (nodeOf 7) .null)⟩

def knot : Environment :=
  initial.applyAll
    [ .importName "val" "lombok.val"
    , .bind (.localVariable (valOf knotTree))
    , .bind (valDecl 11 "z" (.ident (nodeOf 8) "y")) ]

theorem refersToItself_knot :
    knot.RefersToItself (valOf knotTree) knotTree
      [outerFork, innerFork, .ident (nodeOf 6) "y"] where
  active := rfl
  bound := rfl
  initializer := rfl
  descends := by
    have first : outerFork ∈ knotTree.expr.branches := by
      simp [knotTree, ConditionalTree.expr, Expr.branches]
    have second : innerFork ∈ outerFork.branches := by simp [outerFork, fork, Expr.branches]
    have third : .ident (nodeOf 6) "y" ∈ innerFork.branches := by
      simp [innerFork, fork, Expr.branches]
    exact ⟨nodeOf 6, .down first (.down second (.down third .here))⟩
  distinct := by decide
  unscripted _ _ := rfl

/-- The other leaves have the type `int`, the null type and the type of a longer circle. -/
theorem knot_infers_top :
    knot.TopIsRoot ∧ knot.TopStays ∧
    knot.RefersToItself (valOf knotTree) knotTree
      [outerFork, innerFork, .ident (nodeOf 6) "y"] ∧
    ∃ ty, IsTop ty ∧
      Request.Yields (knot.host.infer (.localVariable (valOf knotTree))) .empty (some ty) := by
  have root : knot.TopIsRoot := topIsRoot_of_found rfl
  have stays : knot.TopStays := fun _ _ _ => List.not_mem_nil
  exact ⟨root, stays, refersToItself_knot,
    self_reference_infers_top root stays refersToItself_knot⟩

/-! Declarations that refer to each other and to nothing else. -/

/-- A placeholder that is initialized by an identifier, or runs over one in a loop. The identifier
has no scripted type. -/
def OnlyRefers (env : Environment) (d : Decl) : Prop :=
  (env.semantics.kind d.typeRef).isActive = true ∧
    ∃ node name, d.source? = some (.ident node name) ∧ env.scripted.get? node.id = none

/-- The declaration that a declaration refers to. -/
def referent? (env : Environment) (d : Decl) : Option Decl :=
  match d.source? with
  | some (.ident _ name) => env.bindings.get? name
  | _ => none

/-- Where the given number of references leads. -/
def follow (env : Environment) (d : Decl) : Nat → Option Decl
  | 0 => some d
  | n + 1 => (env.follow d n).bind env.referent?

/-- The top class of a declaration goes over to one that refers to it. -/
theorem inferredAt_of_referent (root : env.TopIsRoot) {d d' : Decl} {node : Node} {name : String}
    (active : (env.semantics.kind d.typeRef).isActive = true)
    (active' : (env.semantics.kind d'.typeRef).isActive = true)
    (source : d.source? = some (.ident node name))
    (unscripted : env.scripted.get? node.id = none) (bound : env.bindings.get? name = some d')
    (top : node.id ∉ g.inFlight → env.inferredAt (g.enter node.id) d' = some topClass) :
    env.inferredAt g d = some topClass := by
  obtain ⟨origin, found, expr⟩ := Option.bind_eq_some_iff.1 source
  rw [inferredAt_of_origin active found]
  have typed (fresh : node.id ∉ g.inFlight) :
      env.typeAt (g.enter node.id) (.ident node name) = some topClass := by
    rw [typeAt_ident unscripted bound, variableAt, if_pos active', top fresh]
  cases origin with
  | initializer e =>
    obtain rfl : e = some (.ident node name) := expr
    rw [Semantics.originAt_initializer, Semantics.initializerAt_ident, Guard.behind]
    split
    · rfl
    · next fresh => rw [typed fresh, Option.getD_some]
  | iterated e =>
    obtain rfl : e = some (.ident node name) := expr
    rw [Semantics.originAt_iterated, Guard.behind]
    split
    · rfl
    · next fresh =>
      have element : env.elementAt (g.enter node.id) (.ident node name) = none := by
        rw [elementAt, typed fresh, Option.bind_some, elementOf_topClass root]
      show some ((env.elementAt (g.enter node.id) (.ident node name)).getD topClass) = some topClass
      rw [element, Option.getD_none]

section
variable {decls : Set Decl} (refer : ∀ d ∈ decls, env.OnlyRefers d) {d : Decl}
  (stays : ∀ n, ∃ d' ∈ decls, env.follow d n = some d')
include refer stays

theorem exists_next {n : Nat} {d' : Decl} (reached : env.follow d n = some d') :
    ∃ node name next, (env.semantics.kind d'.typeRef).isActive = true ∧
      d'.source? = some (.ident node name) ∧ env.scripted.get? node.id = none ∧
      env.bindings.get? name = some next ∧ env.follow d (n + 1) = some next := by
  obtain ⟨_, mem, same⟩ := stays n
  obtain rfl := Option.some.inj (reached.symm.trans same)
  obtain ⟨active, node, name, source, unscripted⟩ := refer d' mem
  obtain ⟨next, -, found⟩ := stays (n + 1)
  have bound : env.bindings.get? name = some next := by
    simpa [follow, reached, referent?, source] using found
  exact ⟨node, name, next, active, source, unscripted, bound, found⟩

theorem cone_of_follow {n : Nat} {d' : Decl} (reached : env.follow d n = some d') {e : Expr}
    (source : d'.source? = some e) : env.Cone d.source?.toList e := by
  induction n generalizing d' e with
  | zero =>
    obtain rfl := Option.some.inj reached
    exact .root (by simp [source])
  | succ n ih =>
    obtain ⟨before, passed, -⟩ := Option.bind_eq_some_iff.1 reached
    obtain ⟨node, name, next, -, source', -, bound, found⟩ := exists_next refer stays passed
    obtain rfl := Option.some.inj (reached.symm.trans found)
    obtain ⟨_, _, _, active, -⟩ := exists_next refer stays reached
    exact (ih passed source').step (.source bound active source)

theorem inferredAt_follow (root : env.TopIsRoot) (k : Nat) {n : Nat} {d' : Decl}
    (reached : env.follow d n = some d') (idle : g.idle (env.scopeIds d.source?.toList) < k) :
    env.inferredAt g d' = some topClass := by
  -- Each reference enters one more id of the scope, which has finitely many.
  induction k generalizing g n d' with
  | zero => exact absurd idle (Nat.not_lt_zero _)
  | succ k ih =>
    obtain ⟨node, name, next, active, source, unscripted, bound, found⟩ :=
      exists_next refer stays reached
    obtain ⟨_, _, _, active', -⟩ := exists_next refer stays found
    apply inferredAt_of_referent root active active' source unscripted bound
    intro fresh
    have inside := cone_of_follow refer stays reached source
    have fewer := Guard.idle_enter_lt fresh inside.id_mem_scopeIds
    exact ih found (by omega)

/-- The references run into a circle, as there are finitely many declarations to come to. -/
theorem follow_repeats : ∃ i j, i < j ∧ env.follow d i = env.follow d j := by
  have listed (n : Nat) : env.follow d (n + 1) ∈ {o | o ∈ env.boundDecls.map some} := by
    obtain ⟨d', -, reached⟩ := stays n
    obtain ⟨_, name, next, -, -, -, bound, found⟩ := exists_next refer stays reached
    have mem : next ∈ env.boundDecls := (env.mem_boundDecls next).2 ⟨name, bound⟩
    rw [found]
    exact List.mem_map_of_mem mem
  obtain ⟨i, j, less, same⟩ :=
    (List.finite_toSet (env.boundDecls.map some)).exists_lt_map_eq_of_forall_mem listed
  exact ⟨i + 1, j + 1, by omega, same⟩

end

/-- Declarations that refer to each other, with no way out: the references run into a circle, and
each declaration on the way gets the top class. -/
theorem reference_cycle_infers_top (root : env.TopIsRoot) {decls : Set Decl}
    (refer : ∀ d ∈ decls, env.OnlyRefers d) {d : Decl}
    (stays : ∀ n, ∃ d' ∈ decls, env.follow d n = some d') :
    (∃ i j, i < j ∧ env.follow d i = env.follow d j) ∧
      ∀ g, Request.Yields (env.host.infer d) g (some topClass) := by
  refine ⟨follow_repeats refer stays, fun g => ?_⟩
  have top : env.inferredAt g d = some topClass :=
    inferredAt_follow refer stays root _ (n := 0) rfl (Nat.lt_succ_self _)
  exact top ▸ env.yields_infer g d

theorem stays_of_closed {decls : Set Decl} {d : Decl} (mem : d ∈ decls)
    (closed : ∀ d ∈ decls, ∃ d' ∈ decls, env.referent? d = some d') (n : Nat) :
    ∃ d' ∈ decls, env.follow d n = some d' := by
  induction n with
  | zero => exact ⟨d, mem, rfl⟩
  | succ n ih =>
    obtain ⟨before, inside, reached⟩ := ih
    obtain ⟨next, mem', found⟩ := closed before inside
    exact ⟨next, mem', by rw [follow, reached, Option.bind_some, found]⟩

def leadIn : Decl :=
  valDecl 10 "a" (.ident (nodeOf 1) "b")

def loopVariable : Decl :=
  .parameter ⟨nodeOf 11, "b", some ⟨nodeOf 0, "val", [], 0⟩,
    .foreachLoop (nodeOf 0) (some (.ident (nodeOf 2) "c"))⟩

/-- Its source has the same id as that of `leadIn`. -/
def wayBack : Decl :=
  valDecl 12 "c" (.ident (nodeOf 1) "b")

def roundabout : Environment :=
  initial.applyAll
    [.importName "val" "lombok.val", .bind leadIn, .bind loopVariable, .bind wayBack]

/-- A variable refers to the parameter of a loop, which runs over a variable that refers to the
parameter. -/
theorem roundabout_infers_top :
    let decls : Set Decl := {leadIn, loopVariable, wayBack}
    roundabout.TopIsRoot ∧ (∀ d ∈ decls, roundabout.OnlyRefers d) ∧
    (∀ n, ∃ d ∈ decls, roundabout.follow leadIn n = some d) ∧
    Request.Yields (roundabout.host.infer leadIn) .empty (some topClass) := by
  intro decls
  have root : roundabout.TopIsRoot := topIsRoot_of_found rfl
  have refer : ∀ d ∈ decls, roundabout.OnlyRefers d := by
    rintro d (rfl | rfl | rfl)
    · exact ⟨rfl, nodeOf 1, "b", rfl, rfl⟩
    · exact ⟨rfl, nodeOf 2, "c", rfl, rfl⟩
    · exact ⟨rfl, nodeOf 1, "b", rfl, rfl⟩
  have closed : ∀ d ∈ decls, ∃ d' ∈ decls, roundabout.referent? d = some d' := by
    rintro d (rfl | rfl | rfl)
    · exact ⟨loopVariable, by simp [decls], rfl⟩
    · exact ⟨wayBack, by simp [decls], rfl⟩
    · exact ⟨loopVariable, by simp [decls], rfl⟩
  have stays := stays_of_closed (show leadIn ∈ decls by simp [decls]) closed
  exact ⟨root, refer, stays, (reference_cycle_infers_top root refer stays).2 .empty⟩

end Environment
end InferredTypes
