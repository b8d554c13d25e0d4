import InferredTypes.Proofs.Outcome

/-! The expressions that typing can come to: an expression leads to the branches of a conditional,
and an identifier to what its declaration gets its type from. -/
namespace InferredTypes

namespace Expr

mutual
/-- The expression and all that stand under it as branches of conditionals. Conditions and the
elements of brace lists are not among them. -/
def reach : Expr → List Expr
  | .conditional node condition whenTrue whenFalse =>
    .conditional node condition whenTrue whenFalse :: (reachBranch whenTrue ++ reachBranch whenFalse)
  | e => [e]

def reachBranch : Option Expr → List Expr
  | none => []
  | some e => e.reach
end

theorem mem_reach_self (e : Expr) : e ∈ e.reach := by
  cases e <;> simp [reach]

/-- The branches of a conditional; no other expression has any. -/
def branches : Expr → List Expr
  | .conditional _ _ whenTrue whenFalse => whenTrue.toList ++ whenFalse.toList
  | _ => []

theorem mem_branches_of_whenTrue {node : Node} {c b : Expr} {t f : Option Expr}
    (hb : b ∈ t.toList) : b ∈ (Expr.conditional node c t f).branches :=
  List.mem_append_left _ hb

theorem mem_branches_of_whenFalse {node : Node} {c b : Expr} {t f : Option Expr}
    (hb : b ∈ f.toList) : b ∈ (Expr.conditional node c t f).branches :=
  List.mem_append_right _ hb

theorem reachBranch_eq (e : Option Expr) : reachBranch e = e.toList.flatMap reach := by
  cases e <;> simp [reachBranch]

theorem mem_reach_iff (e f : Expr) : f ∈ e.reach ↔ f = e ∨ ∃ b ∈ e.branches, f ∈ b.reach := by
  cases e <;> simp [reach, branches, reachBranch_eq, or_and_right, exists_or]

theorem mem_reach_of_branch {e b f : Expr} (hb : b ∈ e.branches) (hf : f ∈ b.reach) :
    f ∈ e.reach :=
  (mem_reach_iff e f).2 (.inr ⟨b, hb, hf⟩)

theorem length_reach_lt {e b : Expr} (hb : b ∈ e.branches) : b.reach.length < e.reach.length := by
  cases e with
  | conditional node c t f =>
    simp only [branches, List.mem_append, Option.mem_toList] at hb
    simp only [reach, List.length_cons, List.length_append]
    rcases hb with rfl | rfl
    · simp only [reachBranch]
      omega
    · simp only [reachBranch]
      omega
  | lambda | braceList | creation | ident | literal | other => simp [branches] at hb

/-- Induction from the branches of a conditional to the conditional. -/
@[elab_as_elim] theorem branchInduct {motive : Expr → Prop}
    (step : ∀ e, (∀ b ∈ e.branches, motive b) → motive e) (e : Expr) : motive e :=
  step e fun b _ => branchInduct step b
termination_by e.reach.length
decreasing_by exact length_reach_lt ‹_›

theorem reach_trans {e f x : Expr} (hf : f ∈ e.reach) (hx : x ∈ f.reach) : x ∈ e.reach := by
  induction e using branchInduct with
  | step e ih =>
    rcases (mem_reach_iff e f).1 hf with rfl | ⟨b, hb, hf⟩
    · exact hx
    · exact mem_reach_of_branch hb (ih b hb hf)

theorem reachBranch_trans {e : Option Expr} {f x : Expr} (hf : f ∈ reachBranch e)
    (hx : x ∈ f.reach) : x ∈ reachBranch e := by
  rw [reachBranch_eq, List.mem_flatMap] at hf ⊢
  obtain ⟨root, listed, reached⟩ := hf
  exact ⟨root, listed, reach_trans reached hx⟩

end Expr

/-- The expression that a declaration gets its type from. -/
def Decl.source? (d : Decl) : Option Expr :=
  d.origin?.bind Origin.expr?

namespace Environment

/-- The declarations that names are bound to. -/
def boundDecls (env : Environment) : List Decl :=
  env.bindings.entries.filterMap fun b => env.bindings.get? b.1

theorem mem_boundDecls (env : Environment) (d : Decl) :
    d ∈ env.boundDecls ↔ ∃ name, env.bindings.get? name = some d := by
  constructor
  · intro h
    obtain ⟨b, -, found⟩ := List.mem_filterMap.1 h
    exact ⟨b.1, found⟩
  · rintro ⟨name, found⟩
    exact List.mem_filterMap.2 ⟨(name, d), Assoc.mem_of_firstWith found, found⟩

/-- What the given expressions and the sources of all bound declarations reach. -/
def scope (env : Environment) (roots : List Expr) : List Expr :=
  (roots ++ env.boundDecls.filterMap Decl.source?).flatMap Expr.reach

theorem mem_scope_of_root (env : Environment) {roots : List Expr} {e f : Expr} (he : e ∈ roots)
    (hf : f ∈ e.reach) : f ∈ env.scope roots :=
  List.mem_flatMap.2 ⟨e, List.mem_append_left _ he, hf⟩

theorem mem_scope_of_bound (env : Environment) (roots : List Expr) {name : String} {d : Decl}
    {e f : Expr} (bound : env.bindings.get? name = some d) (source : d.source? = some e)
    (hf : f ∈ e.reach) : f ∈ env.scope roots := by
  have listed : e ∈ env.boundDecls.filterMap Decl.source? :=
    List.mem_filterMap.2 ⟨d, (env.mem_boundDecls d).2 ⟨name, bound⟩, source⟩
  exact List.mem_flatMap.2 ⟨e, List.mem_append_right _ listed, hf⟩

/-- One step of typing: from a conditional to a branch, or from an identifier to the source of the
placeholder declaration it is bound to. -/
inductive Leads (env : Environment) : Expr → Expr → Prop
  | branch {e b : Expr} (h : b ∈ e.branches) : Leads env e b
  | source {node : Node} {name : String} {d : Decl} {e : Expr}
      (bound : env.bindings.get? name = some d)
      (active : (env.semantics.kind d.typeRef).isActive = true) (source : d.source? = some e) :
      Leads env (.ident node name) e

theorem Leads.mem_scope {env : Environment} {roots : List Expr} {e f : Expr} (h : env.Leads e f)
    (he : e ∈ env.scope roots) : f ∈ env.scope roots := by
  cases h with
  | branch hb =>
    obtain ⟨root, listed, reached⟩ := List.mem_flatMap.1 he
    refine List.mem_flatMap.2 ⟨root, listed, ?_⟩
    exact Expr.reach_trans reached (Expr.mem_reach_of_branch hb f.mem_reach_self)
  | source bound _ source => exact env.mem_scope_of_bound roots bound source f.mem_reach_self

end Environment
end InferredTypes
