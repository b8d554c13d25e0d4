import InferredTypes.Proofs.SmallPrograms
import InferredTypes.Proofs.Values

/-! Conditionals in the branches of conditionals. The whole tree gets the type of one of its leaves,
and where the types of the leaves are in a line, of the widest one, whatever its shape. -/
namespace InferredTypes

/-- Any two of the types compare, and comparing them is an order. -/
structure LinearOn (le : Ty → Ty → Bool) (types : List Ty) : Prop where
  total : ∀ a ∈ types, ∀ b ∈ types, le a b = true ∨ le b a = true
  trans : ∀ a ∈ types, ∀ b ∈ types, ∀ c ∈ types, le a b = true → le b c = true → le a c = true
  antisymm : ∀ a ∈ types, ∀ b ∈ types, le a b = true → le b a = true → a = b

theorem LinearOn.mono {le : Ty → Ty → Bool} {types more : List Ty} (linear : LinearOn le more)
    (sub : types ⊆ more) : LinearOn le types where
  total a ha b hb := linear.total a (sub ha) b (sub hb)
  trans a ha b hb c hc := linear.trans a (sub ha) b (sub hb) c (sub hc)
  antisymm a ha b hb := linear.antisymm a (sub ha) b (sub hb)

namespace Semantics
variable {sem : Semantics} {types left right : List Ty} {a b : Option Ty}

/-- The result is one of the types, the widest if they are in a line; there is none only if there
are no types. -/
structure Widest (sem : Semantics) (types : List Ty) (result : Option Ty) : Prop where
  none_iff : result = none ↔ types = []
  mem : ∀ ty ∈ result, ty ∈ types
  above : LinearOn sem.assignable types → ∀ ty ∈ result, ∀ other ∈ types,
    sem.assignable other ty = true

theorem Widest.leaf (sem : Semantics) (ty : Option Ty) : sem.Widest ty.toList ty := by
  cases ty with
  | none => exact ⟨by simp, by simp, by simp⟩
  | some ty =>
    refine ⟨by simp, by simp, fun linear => ?_⟩
    simpa using linear.total ty (by simp) ty (by simp)

/-- Of two types the first one stands, unless only the second can receive the other. -/
theorem wider_some (sem : Semantics) (a b : Ty) :
    sem.wider (some a) (some b) = some a ∧
        (sem.assignable a b = true → sem.assignable b a = true) ∨
      sem.wider (some a) (some b) = some b ∧ sem.assignable a b = true := by
  by_cases hba : sem.assignable b a = true
  · simp [wider, hba]
  · by_cases hab : sem.assignable a b = true
    · simp [wider, hba, hab]
    · simp [wider, hba, hab]

/-- A conditional has the widest type if both of its branches have theirs. -/
theorem Widest.wider (first : sem.Widest left a) (second : sem.Widest right b) :
    sem.Widest (left ++ right) (sem.wider a b) := by
  match a, b with
  | none, b =>
    obtain rfl : left = [] := first.none_iff.1 rfl
    exact second
  | some a, none =>
    obtain rfl : right = [] := second.none_iff.1 rfl
    simpa [Semantics.wider] using first
  | some a, some b =>
    have ha : a ∈ left ++ right := List.mem_append_left _ (first.mem a rfl)
    have hb : b ∈ left ++ right := List.mem_append_right _ (second.mem b rfl)
    -- The loser fits the winner, so all that fit the loser fit the winner.
    have covers (linear : LinearOn sem.assignable (left ++ right)) {winner : Ty}
        (hw : winner ∈ left ++ right) (fa : sem.assignable a winner = true)
        (fb : sem.assignable b winner = true) (other : Ty) (mem : other ∈ left ++ right) :
        sem.assignable other winner = true := by
      rcases List.mem_append.1 mem with inLeft | inRight
      · have fits := first.above (linear.mono (by simp)) a rfl other inLeft
        exact linear.trans other mem a ha winner hw fits fa
      · have fits := second.above (linear.mono (by simp)) b rfl other inRight
        exact linear.trans other mem b hb winner hw fits fb
    rcases sem.wider_some a b with ⟨result, receives⟩ | ⟨result, fits⟩
    · rw [result]
      refine ⟨by simp [List.ne_nil_of_mem ha], by simpa using ha, ?_⟩
      rintro linear _ ⟨⟩
      have self := linear.total a ha a ha
      have fb := (linear.total a ha b hb).elim receives id
      exact covers linear ha (by simpa using self) fb
    · rw [result]
      refine ⟨by simp [List.ne_nil_of_mem hb], by simpa using hb, ?_⟩
      rintro linear _ ⟨⟩
      have self := linear.total b hb b hb
      exact covers linear hb fits (by simpa using self)

/-- Types in a line have one widest type, in whatever order they come. -/
theorem Widest.unique (first : sem.Widest left a) (linear : LinearOn sem.assignable left)
    (second : sem.Widest right b) (same : ∀ ty, ty ∈ right ↔ ty ∈ left) : a = b := by
  match a, b with
  | none, b =>
    obtain rfl : left = [] := first.none_iff.1 rfl
    exact (second.none_iff.2 (List.eq_nil_iff_forall_not_mem.2 (by simpa using same))).symm
  | some a, none =>
    obtain rfl : right = [] := second.none_iff.1 rfl
    exact absurd ((same a).2 (first.mem a rfl)) List.not_mem_nil
  | some a, some b =>
    have ha := first.mem a rfl
    have hb := (same b).1 (second.mem b rfl)
    have linear' : LinearOn sem.assignable right := linear.mono fun ty mem => (same ty).1 mem
    have fb := first.above linear a rfl b hb
    have fa := second.above linear' b rfl a ((same a).2 ha)
    rw [linear.antisymm a ha b hb fa fb]

end Semantics

/-- A conditional as the root of a tree of conditionals. -/
structure ConditionalTree where
  node : Node
  condition : Expr
  whenTrue : Option Expr
  whenFalse : Option Expr

def ConditionalTree.expr (tree : ConditionalTree) : Expr :=
  .conditional tree.node tree.condition tree.whenTrue tree.whenFalse

namespace Environment

mutual
/-- The leaves under an expression. A conditional with a scripted type is a leaf, and a branch that
is missing has none. -/
def leaves (env : Environment) : Expr → List Expr
  | .conditional node condition whenTrue whenFalse =>
    if env.scripted.contains node.id then [.conditional node condition whenTrue whenFalse]
    else env.branchLeaves whenTrue ++ env.branchLeaves whenFalse
  | e => [e]

def branchLeaves (env : Environment) : Option Expr → List Expr
  | none => []
  | some e => env.leaves e
end

mutual
/-- The ids that stand under an expression on the ways to its leaves and missing branches. -/
def pathsBelow (env : Environment) : Expr → List (List NodeId)
  | .conditional node _ whenTrue whenFalse =>
    if env.scripted.contains node.id then [[]]
    else env.branchPaths whenTrue ++ env.branchPaths whenFalse
  | _ => [[]]

def branchPaths (env : Environment) : Option Expr → List (List NodeId)
  | none => [[]]
  | some e => (env.pathsBelow e).map (e.id :: ·)
end

/-- A scripted type of the root is not asked for, so the root is not a leaf. -/
def treeLeaves (env : Environment) (tree : ConditionalTree) : List Expr :=
  env.branchLeaves tree.whenTrue ++ env.branchLeaves tree.whenFalse

/-- The ids on the ways from the root to the leaves and missing branches. -/
def treePaths (env : Environment) (tree : ConditionalTree) : List (List NodeId) :=
  (env.branchPaths tree.whenTrue ++ env.branchPaths tree.whenFalse).map (tree.node.id :: ·)

/-- The types of the leaves that have one, each as the leaf alone is typed. -/
def leafTypes (env : Environment) (tree : ConditionalTree) : List Ty :=
  (env.treeLeaves tree).filterMap (env.typeAt .empty)

/-- The tree initializes a placeholder. No leaf is an identifier without a scripted type, and no id
repeats on a way from the root. -/
structure Initializes (env : Environment) (tree : ConditionalTree) (v : LocalVariable) : Prop where
  active : (env.semantics.kind v.typeRef).isActive = true
  initializer : v.initializer = some tree.expr
  known : ∀ node name, .ident node name ∈ env.treeLeaves tree →
    env.scripted.contains node.id = true
  distinct : ∀ path ∈ env.treePaths tree, path.Nodup

variable {env : Environment} {g : Guard}

/-- The type of an expression does not depend on what is in flight if it is scripted, or if the
expression is neither an identifier nor a conditional. -/
theorem typeAt_of_leaf {e : Expr}
    (leaf : env.scripted.contains e.id = true ∨
      (∀ node name, e ≠ .ident node name) ∧ ∀ node c t f, e ≠ .conditional node c t f) :
    env.typeAt g e = env.typeAt .empty e := by
  rw [typeAt_eq, typeAt_eq]
  cases scripted : env.scripted.get? e.id with
  | some ty => rfl
  | none =>
    rcases leaf with held | ⟨noIdent, noConditional⟩
    · simp [Assoc.contains, scripted] at held
    · cases e with
      | ident node name => exact absurd rfl (noIdent node name)
      | conditional node c t f => exact absurd rfl (noConditional node c t f)
      | creation _ ref => cases ref <;> rfl
      | lambda | braceList | literal | other => rfl

theorem widest_leaf {e : Expr} (same : env.typeAt g e = env.typeAt .empty e) :
    env.semantics.Widest ([e].filterMap (env.typeAt .empty)) (env.typeAt g e) := by
  have single : [e].filterMap (env.typeAt .empty) = (env.typeAt g e).toList := by
    rw [same]
    cases found : env.typeAt .empty e <;> simp [found]
  rw [single]
  exact .leaf _ _

mutual
theorem pathsBelow_ne_nil (env : Environment) (e : Expr) : env.pathsBelow e ≠ [] := by
  match e with
  | .conditional node c t f =>
    unfold pathsBelow
    split
    · simp
    · simp [env.branchPaths_ne_nil t]
  | .lambda _ | .braceList _ _ | .creation _ _ | .ident _ _ | .literal _ _ | .other _ =>
    simp [pathsBelow]

theorem branchPaths_ne_nil (env : Environment) (e : Option Expr) : env.branchPaths e ≠ [] := by
  match e with
  | none => simp [branchPaths]
  | some e => simp [branchPaths, env.pathsBelow_ne_nil e]
end

/-- The leaves have types of their own, and the ways to them repeat no id, nor one in flight. -/
structure Typable (env : Environment) (g : Guard) (leaves : List Expr)
    (paths : List (List NodeId)) : Prop where
  known : ∀ node name, .ident node name ∈ leaves → env.scripted.contains node.id = true
  distinct : ∀ path ∈ paths, (g.inFlight ++ path).Nodup

theorem Typable.append {leaves leaves' : List Expr} {paths paths' : List (List NodeId)}
    (typable : env.Typable g (leaves ++ leaves') (paths ++ paths')) :
    env.Typable g leaves paths ∧ env.Typable g leaves' paths' := by
  constructor
  · exact ⟨fun node name mem => typable.known node name (List.mem_append_left _ mem),
      fun path mem => typable.distinct path (List.mem_append_left _ mem)⟩
  · exact ⟨fun node name mem => typable.known node name (List.mem_append_right _ mem),
      fun path mem => typable.distinct path (List.mem_append_right _ mem)⟩

/-- The first id on all ways can be entered. -/
theorem Typable.enter {leaves : List Expr} {paths : List (List NodeId)} {key : NodeId}
    (typable : env.Typable g leaves (paths.map (key :: ·))) (nonempty : paths ≠ []) :
    key ∉ g.inFlight ∧ env.Typable (g.enter key) leaves paths := by
  have distinct (path : List NodeId) (mem : path ∈ paths) : (g.inFlight ++ key :: path).Nodup :=
    typable.distinct _ (List.mem_map_of_mem mem)
  constructor
  · obtain ⟨path, mem⟩ := List.exists_mem_of_ne_nil _ nonempty
    intro held
    exact (List.nodup_append.1 (distinct path mem)).2.2 key held key (by simp) rfl
  · refine ⟨typable.known, fun path mem => ?_⟩
    simpa [Guard.enter] using distinct path mem

mutual
/-- Typing an expression comes to the widest of its leaves. -/
theorem widest_typeAt (e : Expr) (g : Guard)
    (typable : env.Typable g (env.leaves e) (env.pathsBelow e)) :
    env.semantics.Widest ((env.leaves e).filterMap (env.typeAt .empty)) (env.typeAt g e) := by
  match e with
  | .conditional node c t f =>
    by_cases scripted : env.scripted.contains node.id = true
    · rw [leaves, if_pos scripted]
      exact widest_leaf (typeAt_of_leaf (.inl scripted))
    · rw [leaves, pathsBelow, if_neg scripted, if_neg scripted] at typable
      obtain ⟨first, second⟩ := typable.append
      have unscripted : env.scripted.get? node.id = none := by
        simpa [Assoc.contains] using scripted
      rw [typeAt_conditional unscripted, leaves, if_neg scripted, List.filterMap_append]
      exact (widest_branchAt t g first).wider (widest_branchAt f g second)
  | .ident node name =>
    have scripted := typable.known node name (by simp [leaves])
    rw [leaves]
    · exact widest_leaf (typeAt_of_leaf (.inl scripted))
    · simp
  | .lambda _ | .braceList _ _ | .creation _ _ | .literal _ _ | .other _ =>
    rw [leaves]
    · exact widest_leaf (typeAt_of_leaf (.inr (by simp)))
    · simp

theorem widest_branchAt (e : Option Expr) (g : Guard)
    (typable : env.Typable g (env.branchLeaves e) (env.branchPaths e)) :
    env.semantics.Widest ((env.branchLeaves e).filterMap (env.typeAt .empty))
      (Semantics.branchAt env.typeAt g e) := by
  match e with
  | none => exact .leaf _ none
  | some e =>
    obtain ⟨fresh, inside⟩ := typable.enter (env.pathsBelow_ne_nil e)
    have entered : Semantics.branchAt env.typeAt g (some e) = env.typeAt (g.enter e.id) e :=
      if_neg fresh
    rw [entered]
    exact widest_typeAt e (g.enter e.id) inside
end

/-- The root is entered like an inner conditional, though another rule types it. -/
theorem Initializes.inferredAt {tree : ConditionalTree} {v : LocalVariable}
    (init : env.Initializes tree v) :
    ∃ result, env.semantics.Widest (env.leafTypes tree) result ∧
      env.inferredAt .empty (.localVariable v) = some (result.getD topClass) := by
  let root := Guard.empty.enter tree.node.id
  refine ⟨env.semantics.wider (Semantics.branchAt env.typeAt root tree.whenTrue)
    (Semantics.branchAt env.typeAt root tree.whenFalse), ?_, ?_⟩
  · have typable : env.Typable root (env.treeLeaves tree)
        (env.branchPaths tree.whenTrue ++ env.branchPaths tree.whenFalse) :=
      ⟨init.known, fun path mem => init.distinct _ (List.mem_map_of_mem mem)⟩
    obtain ⟨first, second⟩ := typable.append
    rw [leafTypes, treeLeaves, List.filterMap_append]
    exact (widest_branchAt tree.whenTrue root first).wider
      (widest_branchAt tree.whenFalse root second)
  · rw [inferredAt_of_initializer init.active init.initializer]
    rfl

/-- A placeholder that a tree of conditionals initializes gets the type of one of the leaves, and
the top class if no leaf has a type. If the types of the leaves are in a line, it is the only one
that all of them fit, and every other tree with the same types at its leaves gives it too. -/
theorem infer_widest_leaf {tree : ConditionalTree} {v : LocalVariable}
    (init : env.Initializes tree v) :
    ∃ ty, Request.Yields (env.host.infer (.localVariable v)) .empty (some ty) ∧
      (ty ∈ env.leafTypes tree ∨ env.leafTypes tree = [] ∧ ty = topClass) ∧
      (LinearOn env.assignable (env.leafTypes tree) →
        (env.leafTypes tree ≠ [] → ∀ other, other = ty ↔ other ∈ env.leafTypes tree ∧
          ∀ leaf ∈ env.leafTypes tree, env.assignable leaf other = true) ∧
        ∀ tree' v', env.Initializes tree' v' →
          (∀ leaf, leaf ∈ env.leafTypes tree' ↔ leaf ∈ env.leafTypes tree) →
          Request.Yields (env.host.infer (.localVariable v')) .empty (some ty)) := by
  obtain ⟨result, widest, inferred⟩ := init.inferredAt
  refine ⟨result.getD topClass, inferred ▸ env.yields_infer .empty _, ?_, ?_⟩
  · cases result with
    | none => exact .inr ⟨widest.none_iff.1 rfl, rfl⟩
    | some ty => exact .inl (widest.mem ty rfl)
  · intro linear
    constructor
    · intro typed other
      obtain ⟨ty, rfl⟩ := Option.ne_none_iff_exists'.1 (mt widest.none_iff.1 typed)
      constructor
      · rintro rfl
        exact ⟨widest.mem _ rfl, widest.above linear _ rfl⟩
      · rintro ⟨mem, above⟩
        have highest := widest.mem ty rfl
        exact linear.antisymm other mem ty highest (widest.above linear ty rfl other mem)
          (above ty highest)
    · intro tree' v' init' same
      obtain ⟨result', widest', inferred'⟩ := init'.inferredAt
      rw [widest.unique linear widest' same]
      exact inferred' ▸ env.yields_infer .empty _

/-- One identifier and one conditional have scripted types. -/
def branching : Environment :=
  initial.applyAll
    [ .importName "val" "lombok.val"
    , .scriptType ⟨5⟩ (.primitive .long)
    , .scriptType ⟨6⟩ (.primitive .double) ]

def intLeaf : Expr := .literal (nodeOf 3) (.int 1)

def longLeaf : Expr := .ident (nodeOf 5) "x"

def doubleLeaf : Expr := fork 6 none none

/-- The widest leaf stands last and deepest, and a branch is missing. -/
def deepTree : ConditionalTree :=
  ⟨nodeOf 1, .other (nodeOf 0), some (fork 2 (some intLeaf) none),
    some (fork 4 (some longLeaf) (some doubleLeaf))⟩

/-- The widest leaf stands first. -/
def flatTree : ConditionalTree :=
  ⟨nodeOf 1, .other (nodeOf 0), some doubleLeaf, some (fork 2 (some longLeaf) (some intLeaf))⟩

def valOf (tree : ConditionalTree) : LocalVariable :=
  ⟨nodeOf 10, "y", some ⟨nodeOf 0, "val", [], 0⟩, some tree.expr, .block⟩

theorem initializes_branching {tree : ConditionalTree}
    (leaves : branching.treeLeaves tree ⊆ [intLeaf, longLeaf, doubleLeaf])
    (distinct : ∀ path ∈ branching.treePaths tree, path.Nodup) :
    branching.Initializes tree (valOf tree) where
  active := rfl
  initializer := rfl
  known node name mem := by
    obtain ⟨rfl, -⟩ : node = nodeOf 5 ∧ name = "x" := by
      simpa [intLeaf, longLeaf, doubleLeaf, fork] using leaves mem
    decide +kernel
  distinct := distinct

theorem initializes_deepTree : branching.Initializes deepTree (valOf deepTree) := by
  apply initializes_branching
  · rw [show branching.treeLeaves deepTree = [intLeaf, longLeaf, doubleLeaf] from rfl]
    simp
  · decide +kernel

theorem initializes_flatTree : branching.Initializes flatTree (valOf flatTree) := by
  apply initializes_branching
  · rw [show branching.treeLeaves flatTree = [doubleLeaf, longLeaf, intLeaf] from rfl]
    simp
  · decide +kernel

/-- Both trees have leaves of types `int`, `long` and `double`, and both give `double`. -/
theorem trees_infer_double :
    let double := some (Ty.primitive .double)
    branching.Initializes deepTree (valOf deepTree) ∧
    branching.Initializes flatTree (valOf flatTree) ∧
    Request.Yields (branching.host.infer (.localVariable (valOf deepTree))) .empty double ∧
    Request.Yields (branching.host.infer (.localVariable (valOf flatTree))) .empty double := by
  have deep : branching.leafTypes deepTree =
      [.primitive .int, .primitive .long, .primitive .double] := by decide +kernel
  have mirrored : branching.leafTypes flatTree = (branching.leafTypes deepTree).reverse := by
    decide +kernel
  have linear : LinearOn branching.assignable (branching.leafTypes deepTree) := by
    rw [deep]
    exact ⟨by decide +kernel, by decide +kernel, by decide +kernel⟩
  obtain ⟨ty, yields, -, inLine⟩ := infer_widest_leaf initializes_deepTree
  obtain ⟨widest, same⟩ := inLine linear
  obtain rfl : Ty.primitive .double = ty := by
    apply (widest (by simp [deep]) _).2
    rw [deep]
    decide +kernel
  refine ⟨initializes_deepTree, initializes_flatTree, yields, ?_⟩
  apply same flatTree (valOf flatTree) initializes_flatTree
  intro leaf
  rw [mirrored, List.mem_reverse]

end Environment
end InferredTypes
