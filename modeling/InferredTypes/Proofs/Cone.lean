import InferredTypes.Proofs.Acyclic
import InferredTypes.Proofs.SameTables
import InferredTypes.Proofs.SmallPrograms
import InferredTypes.Proofs.Termination
import InferredTypes.Proofs.Values

/-! The cone of a request holds the expressions that typing can come to. Nothing outside of it
matters: not what else is in flight, nor what else is bound to names or scripted. -/
namespace InferredTypes

open Request

namespace Environment

/-- The given expressions and all that typing them can come to. -/
inductive Cone (env : Environment) (roots : List Expr) : Expr → Prop
  | root {e : Expr} (mem : e ∈ roots) : Cone env roots e
  | step {e f : Expr} (inside : Cone env roots e) (leads : env.Leads e f) : Cone env roots f

theorem Cone.mem_scope {env : Environment} {roots : List Expr} {e : Expr}
    (inside : env.Cone roots e) : e ∈ env.scope roots := by
  induction inside with
  | root mem => exact env.mem_scope_of_root mem (Expr.mem_reach_self _)
  | step _ leads ih => exact leads.mem_scope ih

theorem Cone.id_mem_scopeIds {env : Environment} {roots : List Expr} {e : Expr}
    (inside : env.Cone roots e) : e.id ∈ env.scopeIds roots :=
  List.mem_map_of_mem inside.mem_scope

/-- On the cone in the first environment, the two guards hold the same expressions, and the two
environments have the same scripted types and bind the same declarations to names. -/
structure Agree (env env' : Environment) (g g' : Guard) (roots : List Expr) : Prop where
  held : ∀ e, env.Cone roots e → (e.id ∈ g.inFlight ↔ e.id ∈ g'.inFlight)
  scripted : ∀ e, env.Cone roots e → env.scripted.get? e.id = env'.scripted.get? e.id
  bound : ∀ node name, env.Cone roots (.ident node name) →
    env.bindings.get? name = env'.bindings.get? name

section
variable {env env' : Environment} {g g' : Guard} {roots : List Expr}

theorem Agree.enter (agree : env.Agree env' g g' roots) (key : NodeId) :
    env.Agree env' (g.enter key) (g'.enter key) roots where
  held e inside := by simp only [Guard.enter, List.mem_append, agree.held e inside]
  scripted := agree.scripted
  bound := agree.bound

/-- Typing in the cone gives the same in both environments, from all guards that agree and leave
fewer than `n` of the ids in scope idle. -/
def TypedAlike (env env' : Environment) (roots : List Expr) (n : Nat) : Prop :=
  ∀ g g' e, env.Agree env' g g' roots → env.Cone roots e → g.idle (env.scopeIds roots) < n →
    env.typeAt g e = env'.typeAt g' e

variable {n : Nat} (below : env.TypedAlike env' roots n) (agree : env.Agree env' g g' roots)
  (idle : g.idle (env.scopeIds roots) ≤ n)
include below agree idle

theorem TypedAlike.behind {e : Expr} (inside : env.Cone roots e) (f : Option Ty → Option Ty) :
    (g.behind e.id fun h => f (env.typeAt h e)) = g'.behind e.id fun h => f (env'.typeAt h e) := by
  apply Guard.behind_congr (agree.held e inside)
  intro fresh
  -- The mark is in scope and was not in flight, so `below` applies to the guards behind it.
  have fewer := Guard.idle_enter_lt fresh inside.id_mem_scopeIds
  rw [below _ _ e (agree.enter e.id) inside (by omega)]

theorem TypedAlike.branchAt {e : Option Expr} (inside : ∀ b ∈ e.toList, env.Cone roots b) :
    Semantics.branchAt env.typeAt g e = Semantics.branchAt env'.typeAt g' e := by
  cases e with
  | none => rfl
  | some e => exact below.behind agree idle (inside e (by simp)) id

variable (alike : env.Alike env')
include alike

theorem TypedAlike.wider {node : Node} {c : Expr} {t f : Option Expr}
    (inside : env.Cone roots (.conditional node c t f)) :
    env.semantics.wider (Semantics.branchAt env.typeAt g t) (Semantics.branchAt env.typeAt g f) =
      env'.semantics.wider (Semantics.branchAt env'.typeAt g' t)
        (Semantics.branchAt env'.typeAt g' f) := by
  have whenTrue (b : Expr) (mem : b ∈ t.toList) : env.Cone roots b :=
    inside.step (.branch (Expr.mem_branches_of_whenTrue mem))
  have whenFalse (b : Expr) (mem : b ∈ f.toList) : env.Cone roots b :=
    inside.step (.branch (Expr.mem_branches_of_whenFalse mem))
  rw [alike.semantics, below.branchAt agree idle whenTrue, below.branchAt agree idle whenFalse]

theorem TypedAlike.initializerAt {e : Expr} (inside : env.Cone roots e) :
    env.semantics.initializerAt env.typeAt g e =
      env'.semantics.initializerAt env'.typeAt g' e := by
  have same := below.behind agree idle inside id
  cases e with
  | braceList => rfl
  | conditional node c t f =>
    simp only [Semantics.initializerAt]
    apply Guard.behind_congr (agree.held _ inside)
    intro fresh
    have fewer := Guard.idle_enter_le g node.id (env.scopeIds roots)
    exact below.wider (agree.enter node.id) (by omega) alike inside
  | lambda | creation | ident | literal | other =>
    simp only [Semantics.initializerAt, alike.semantics]
    exact congrArg _ same

theorem TypedAlike.originAt {origin : Origin}
    (inside : ∀ e, origin.expr? = some e → env.Cone roots e) :
    env.semantics.originAt env.typeAt env.elementAt g origin =
      env'.semantics.originAt env'.typeAt env'.elementAt g' origin := by
  cases origin with
  | initializer e =>
    cases e with
    | none => rfl
    | some e => exact below.initializerAt agree idle alike (inside e rfl)
  | iterated e =>
    cases e with
    | none => rfl
    | some e =>
      have elements : env.elementOf = env'.elementOf := funext alike.elementOf
      simp only [Semantics.originAt, elementAt, elements]
      exact below.behind agree idle (inside e rfl) fun ty => ty.bind env'.elementOf

theorem TypedAlike.inferredAt {d : Decl} (inside : ∀ e, d.source? = some e → env.Cone roots e) :
    env.inferredAt g d = env'.inferredAt g' d := by
  unfold Environment.inferredAt Semantics.inferredAt
  cases found : d.origin? with
  | none => simp only [Option.map_none, alike.semantics]
  | some origin =>
    have listed (e : Expr) (source : origin.expr? = some e) : env.Cone roots e :=
      inside e (by simp [Decl.source?, found, source])
    rw [Option.map_some, Option.map_some, below.originAt agree idle alike listed, alike.semantics]

theorem TypedAlike.variableAt {d : Decl}
    (inside : (env.semantics.kind d.typeRef).isActive = true →
      ∀ e, d.source? = some e → env.Cone roots e) :
    env.variableAt g d = env'.variableAt g' d := by
  unfold Environment.variableAt
  rw [← alike.semantics]
  by_cases active : (env.semantics.kind d.typeRef).isActive = true
  · rw [if_pos active, if_pos active]
    exact below.inferredAt agree idle alike (inside active)
  · rw [if_neg active, if_neg active]
    cases d.typeRef with
    | none => rfl
    | some ref => exact alike.declaredType ref

theorem TypedAlike.typeAt {e : Expr} (inside : env.Cone roots e) :
    env.typeAt g e = env'.typeAt g' e := by
  rw [typeAt_eq, typeAt_eq, ← agree.scripted e inside]
  cases env.scripted.get? e.id with
  | some ty => rfl
  | none =>
    match e with
    | .literal _ _ => rfl
    | .ident node name =>
      dsimp only
      rw [← agree.bound node name inside]
      cases found : env.bindings.get? name with
      | none => rfl
      | some d =>
        apply below.variableAt agree idle alike
        intro active s source
        exact inside.step (.source found active source)
    | .creation _ (some ref) => exact alike.creationType ref
    | .conditional _ _ _ _ => exact below.wider agree idle alike inside
    | .creation _ none => rfl
    | .lambda _ => rfl
    | .braceList _ _ => rfl
    | .other _ => rfl

end

/-- Each step of typing enters one more of the ids in scope, which are finitely many. -/
theorem typedAlike {env env' : Environment} (alike : env.Alike env') (roots : List Expr) (n : Nat) :
    env.TypedAlike env' roots n := by
  -- The induction is on how many ids are idle: bindings may be circular, so no other measure of
  -- the expressions goes down.
  induction n with
  | zero =>
    intro g g' e _ _ idle
    exact absurd idle (Nat.not_lt_zero _)
  | succ n ih =>
    intro g g' e agree inside idle
    exact ih.typeAt agree (Nat.le_of_lt_succ idle) alike inside

end Environment

/-- The two computations return the same from their guards, and leave them as they were. -/
def Request.SameResult {α : Type} (m : Request α) (g : Guard) (m' : Request α) (g' : Guard) :
    Prop :=
  ∃ a, Yields m g a ∧ Yields m' g' a

namespace Environment
variable {env env' : Environment} {g g' : Guard}

theorem sameResult_staticType (alike : env.Alike env') {e : Expr}
    (agree : env.Agree env' g g' [e]) :
    SameResult (env.host.staticType e) g (env'.host.staticType e) g' := by
  have below := typedAlike alike [e] (g.idle (env.scopeIds [e]) + 1)
  have same := below g g' e agree (.root (by simp)) (Nat.lt_succ_self _)
  exact ⟨env.typeAt g e, env.yields_staticType g e, same ▸ env'.yields_staticType g' e⟩

theorem sameResult_elementType (alike : env.Alike env') {e : Expr}
    (agree : env.Agree env' g g' [e]) :
    SameResult (env.host.elementType e) g (env'.host.elementType e) g' := by
  obtain ⟨ty, first, second⟩ := sameResult_staticType alike agree
  have elements : env.elementOf = env'.elementOf := funext alike.elementOf
  exact ⟨ty.bind env.elementOf, first.bind (.pure _), second.bind (elements ▸ .pure _)⟩

theorem sameResult_infer (alike : env.Alike env') {d : Decl}
    (agree : env.Agree env' g g' d.source?.toList) :
    SameResult (env.host.infer d) g (env'.host.infer d) g' := by
  have below := typedAlike alike d.source?.toList (g.idle (env.scopeIds d.source?.toList))
  have same : env.inferredAt g d = env'.inferredAt g' d := by
    apply below.inferredAt agree (Nat.le_refl _) alike
    intro e source
    exact .root (by simp [source])
  exact ⟨env.inferredAt g d, env.yields_infer g d, same ▸ env'.yields_infer g' d⟩

/-- Guards that agree on the cone of a request give it the same type, whatever else they hold. -/
theorem type_depends_on_cone_in_flight (env : Environment) (g g' : Guard) :
    (∀ d, (∀ e, env.Cone d.source?.toList e → (e.id ∈ g.inFlight ↔ e.id ∈ g'.inFlight)) →
      SameResult (env.host.infer d) g (env.host.infer d) g') ∧
    (∀ e, (∀ f, env.Cone [e] f → (f.id ∈ g.inFlight ↔ f.id ∈ g'.inFlight)) →
      SameResult (env.host.staticType e) g (env.host.staticType e) g' ∧
      SameResult (env.host.elementType e) g (env.host.elementType e) g') := by
  constructor
  · intro d held
    exact sameResult_infer (.refl env) ⟨held, fun _ _ => rfl, fun _ _ _ => rfl⟩
  · intro e held
    have agree : env.Agree env g g' [e] := ⟨held, fun _ _ => rfl, fun _ _ _ => rfl⟩
    exact ⟨sameResult_staticType (.refl env) agree, sameResult_elementType (.refl env) agree⟩

theorem chain_scopeIds :
    chain.scopeIds chainRequest.source?.toList = [⟨3⟩, ⟨4⟩, ⟨5⟩, ⟨2⟩, ⟨1⟩] :=
  rfl

/-- Both guards hold the source of `b`, so the request stops there; the rest of what they hold is
not in the cone. -/
theorem chain_type_depends_on_cone_in_flight :
    SameResult (chain.host.infer chainRequest) ⟨[⟨2⟩, ⟨20⟩]⟩
      (chain.host.infer chainRequest) ⟨[⟨21⟩, ⟨22⟩, ⟨2⟩]⟩ := by
  apply (type_depends_on_cone_in_flight chain ⟨[⟨2⟩, ⟨20⟩]⟩ ⟨[⟨21⟩, ⟨22⟩, ⟨2⟩]⟩).1 chainRequest
  intro e inside
  have mem := inside.id_mem_scopeIds
  rw [chain_scopeIds] at mem
  have same : ∀ id ∈ [(⟨3⟩ : NodeId), ⟨4⟩, ⟨5⟩, ⟨2⟩, ⟨1⟩],
      id ∈ [(⟨2⟩ : NodeId), ⟨20⟩] ↔ id ∈ [(⟨21⟩ : NodeId), ⟨22⟩, ⟨2⟩] := by decide
  exact same e.id mem

/-- Environments with the same imports, classes and assumed pairs that agree on the cone of a
request give it the same type. In particular, a name that does not stand in the cone can be bound,
and an expression outside of the cone scripted, without any effect. -/
theorem type_depends_on_cone (env : Environment) (d : Decl) (g : Guard) :
    (∀ env', env.Alike env' →
      (∀ e, env.Cone d.source?.toList e → env.scripted.get? e.id = env'.scripted.get? e.id) →
      (∀ node name, env.Cone d.source?.toList (.ident node name) →
        env.bindings.get? name = env'.bindings.get? name) →
      SameResult (env.host.infer d) g (env'.host.infer d) g) ∧
    (∀ other, (∀ node name, env.Cone d.source?.toList (.ident node name) → name ≠ other.name) →
      SameResult (env.host.infer d) g ((env.apply (.bind other)).host.infer d) g) ∧
    (∀ expr ty, (∀ e, env.Cone d.source?.toList e → e.id ≠ expr) →
      SameResult (env.host.infer d) g ((env.apply (.scriptType expr ty)).host.infer d) g) := by
  refine ⟨?_, ?_, ?_⟩
  · intro env' alike scripted bound
    exact sameResult_infer alike ⟨fun _ _ => Iff.rfl, scripted, bound⟩
  · intro other apart
    have alike : env.Alike (env.apply (.bind other)) :=
      ⟨fun _ => rfl, fun _ => rfl, fun _ => Iff.rfl⟩
    apply sameResult_infer alike
    refine ⟨fun _ _ => Iff.rfl, fun _ _ => rfl, fun node name inside => ?_⟩
    simp [apply, apart node name inside]
  · intro expr ty apart
    have alike : env.Alike (env.apply (.scriptType expr ty)) :=
      ⟨fun _ => rfl, fun _ => rfl, fun _ => Iff.rfl⟩
    apply sameResult_infer alike
    refine ⟨fun _ _ => Iff.rfl, fun e inside => ?_, fun _ _ _ => rfl⟩
    simp [apply, apart e inside]

def isIdent (name : String) : Expr → Bool
  | .ident _ other => other = name
  | _ => false

/-- The request does not change when one more name is bound and one more expression scripted. -/
theorem chain_type_depends_on_cone :
    let other := valDecl 13 "z" (.ident ⟨⟨30⟩, ⟨0, 0⟩⟩ "c")
    SameResult (chain.host.infer chainRequest) .empty
      ((chain.apply (.bind other)).host.infer chainRequest) .empty ∧
    SameResult (chain.host.infer chainRequest) .empty
      ((chain.apply (.scriptType ⟨30⟩ .null)).host.infer chainRequest) .empty := by
  constructor
  · apply (type_depends_on_cone chain chainRequest .empty).2.1
    intro node name inside same
    have absent : (chain.scope chainRequest.source?.toList).any (isIdent "z") = false := rfl
    have present : isIdent "z" (.ident node name) = true := decide_eq_true same
    exact absurd present (List.any_eq_false.1 absent _ inside.mem_scope)
  · apply (type_depends_on_cone chain chainRequest .empty).2.2
    intro e inside same
    have mem := inside.id_mem_scopeIds
    rw [chain_scopeIds, same] at mem
    revert mem
    decide

end Environment
end InferredTypes
