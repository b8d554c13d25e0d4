import InferredTypes.Proofs.Reentry

/-! Types as functions of the guard, free of journals: what inference makes of the types that its
host gives, and the types that an environment gives, one equation for each form of expression. -/
namespace InferredTypes

/-- What a computation behind the mark `key` gives; nothing if that is in flight already. -/
def Guard.behind {α : Type} (g : Guard) (key : NodeId) (inside : Guard → Option α) : Option α :=
  if key ∈ g.inFlight then none else inside (g.enter key)

theorem Guard.behind_congr {α : Type} {g g' : Guard} {key : NodeId}
    {inside inside' : Guard → Option α} (held : key ∈ g.inFlight ↔ key ∈ g'.inFlight)
    (same : key ∉ g.inFlight → inside (g.enter key) = inside' (g'.enter key)) :
    g.behind key inside = g'.behind key inside' := by
  unfold behind
  by_cases h : key ∈ g.inFlight
  · rw [if_pos h, if_pos (held.1 h)]
  · rw [if_neg h, if_neg (mt held.2 h), same h]

theorem Guard.mem_behind {α : Type} {g : Guard} {key : NodeId} {inside : Guard → Option α} {a : α} :
    a ∈ g.behind key inside ↔ key ∉ g.inFlight ∧ a ∈ inside (g.enter key) := by
  unfold behind
  split
  · next held => simp [held]
  · next fresh => simp [fresh]

namespace Request
variable {α β : Type} {m : Request α} {g : Guard} {a : α}

/-- From the guard `g` the computation returns `a` and leaves the guard as it was. -/
def Yields (m : Request α) (g : Guard) (a : α) : Prop :=
  ∃ events, Runs m g a events

/-- The result of a computation from the guard `g`, if it returns. -/
def result? (m : Request α) (g : Guard) : Option α :=
  match m ⟨g, #[]⟩ with
  | .ok a _ => some a
  | .error _ _ => none

namespace Yields

theorem result_eq (h : Yields m g a) : m.result? g = some a := by
  obtain ⟨events, runs⟩ := h
  simp only [result?, runs #[]]

theorem unique {b : α} (ha : Yields m g a) (hb : Yields m g b) : a = b :=
  Option.some.inj (ha.result_eq.symm.trans hb.result_eq)

theorem of_settles {P : Event → Prop} (h : Settles m g (· = a) P) : Yields m g a := by
  obtain ⟨_, events, runs, rfl, -⟩ := h
  exact ⟨events, runs ()⟩

theorem pure (a : α) : Yields (Pure.pure a) g a :=
  ⟨#[], .pure a g⟩

theorem note (e : Event) : Yields (Request.note e) g () :=
  ⟨#[e], .note e g⟩

theorem bind {f : α → Request β} {b : β} (hm : Yields m g a) (hf : Yields (f a) g b) :
    Yields (m >>= f) g b := by
  obtain ⟨first, runs⟩ := hm
  obtain ⟨rest, continues⟩ := hf
  exact ⟨first ++ rest, runs.bind continues⟩

theorem map (f : α → β) (hm : Yields m g a) : Yields (f <$> m) g (f a) := by
  obtain ⟨events, runs⟩ := hm
  exact ⟨events, runs.map f⟩

theorem asking {q : Guard → Question} (hm : Yields m g a) : Yields (Request.asking q m) g a := by
  obtain ⟨events, runs⟩ := hm
  exact ⟨_, runs.asking q⟩

end Yields

theorem quiet_true : Quiet fun _ => True := fun _ _ => trivial

/-- Computations that return, whatever they note. -/
abbrev returning : Judgment Unit .known :=
  tracing Unit quiet_true.composes

theorem holds_returning_iff : returning.Holds (fun _ => m) g (· = a) ↔ Yields m g a := by
  constructor
  · exact .of_settles
  · rintro ⟨events, runs⟩
    exact ⟨a, events, fun _ => runs, rfl, fun _ _ => trivial⟩

theorem allows_returning (g : Guard) (key : NodeId) : returning.Allows g key :=
  ⟨fun _ _ _ => trivial, fun _ _ _ => trivial⟩

end Request

open Request

namespace Semantics
variable (sem : Semantics) (types elements : Guard → Expr → Option Ty) (g : Guard)

/-! What inference comes to under the guard `g` when `types` gives the types of expressions, and
`elements` what loops over them yield, each under the guard of the question. -/

def branchAt : Option Expr → Option Ty
  | none => none
  | some e => g.behind e.id fun h => types h e

def initializerAt (e : Expr) : Option Ty :=
  match e with
  | .braceList _ _ => none
  | .conditional node _ whenTrue whenFalse =>
    g.behind node.id fun h => sem.wider (branchAt types h whenTrue) (branchAt types h whenFalse)
  | e => sem.closed e (g.behind e.id fun h => types h e)

def originAt : Origin → Option Ty
  | .initializer none | .iterated none => none
  | .initializer (some e) => sem.initializerAt types g e
  | .iterated (some e) => g.behind e.id fun h => elements h e

def inferredAt (d : Decl) : Option Ty :=
  if (sem.kind d.typeRef).isActive then
    d.origin?.map fun origin => (sem.originAt types elements g origin).getD (sem.topType d.id)
  else none

theorem initializerAt_creation (node : Node) (ref : Option TypeRef) :
    sem.initializerAt types g (.creation node ref) =
      sem.closed (.creation node ref) (g.behind node.id fun h => types h (.creation node ref)) :=
  rfl

theorem initializerAt_conditional (node : Node) (c : Expr) (t f : Option Expr) :
    sem.initializerAt types g (.conditional node c t f) =
      g.behind node.id fun h => sem.wider (branchAt types h t) (branchAt types h f) :=
  rfl

theorem initializerAt_ident (node : Node) (name : String) :
    sem.initializerAt types g (.ident node name) =
      g.behind node.id fun h => types h (.ident node name) :=
  rfl

theorem originAt_initializer (e : Expr) :
    sem.originAt types elements g (.initializer (some e)) = sem.initializerAt types g e :=
  rfl

theorem originAt_iterated (e : Expr) :
    sem.originAt types elements g (.iterated (some e)) = g.behind e.id fun h => elements h e :=
  rfl

variable {sem types elements g}

/-- A placeholder whose source is in flight gets the top type. -/
theorem inferredAt_of_held {d : Decl} {e : Expr} (active : (sem.kind d.typeRef).isActive = true)
    (source : d.source? = some e) (held : e.id ∈ g.inFlight) :
    sem.inferredAt types elements g d = some (sem.topType d.id) := by
  obtain ⟨origin, found, same⟩ := Option.bind_eq_some_iff.1 source
  have refused (inside : Guard → Option Ty) : g.behind e.id inside = none := if_pos held
  have untyped : sem.originAt types elements g origin = none := by
    cases origin with
    | iterated _ =>
      obtain rfl : _ = some e := same
      rw [originAt_iterated, refused]
    | initializer _ =>
      obtain rfl : _ = some e := same
      rw [originAt_initializer]
      cases e with
      | braceList => rfl
      | conditional =>
        rw [initializerAt_conditional]
        exact refused _
      | lambda | creation | ident | literal | other => simp [initializerAt, refused, closed]
  rw [inferredAt, if_pos active, found, Option.map_some, untyped, Option.getD_none]

end Semantics

/-! Where the answers about expressions are functions of the guard, so are the results. -/

namespace Flight
variable {sem : Semantics} {types elements : Guard → Expr → Option Ty} {g : Guard} {ty : Option Ty}

theorem behind_known_iff {key : NodeId} {result : Guard → Option Ty → Prop}
    {inside : Guard → Option Ty} (reads : ∀ h ty, result h ty ↔ ty = inside h) :
    known.Behind g key result ty ↔ ty = g.behind key inside := by
  by_cases held : key ∈ g.inFlight <;> simp [Behind, known, Guard.behind, held, reads]

theorem ofBranch_known_iff {e : Option Expr} :
    known.OfBranch (fun h e ty => ty = types h e) g e ty ↔ ty = Semantics.branchAt types g e := by
  cases e with
  | none => exact Iff.rfl
  | some e => simp only [OfBranch, Semantics.branchAt, behind_known_iff fun _ _ => Iff.rfl]

theorem ofBranches_known_iff {t f : Option Expr} :
    known.OfBranches sem (fun h e ty => ty = types h e) g t f ty ↔
      ty = sem.wider (Semantics.branchAt types g t) (Semantics.branchAt types g f) := by
  simp [OfBranches, ofBranch_known_iff]

theorem ofInitializer_known_iff {e : Expr} :
    known.OfInitializer sem (fun h e ty => ty = types h e) g e ty ↔
      ty = sem.initializerAt types g e := by
  cases e with
  | braceList => exact Iff.rfl
  | conditional => exact behind_known_iff fun _ _ => ofBranches_known_iff
  | lambda | creation | ident | literal | other =>
    simp only [OfInitializer, behind_known_iff fun _ _ => Iff.rfl, exists_eq_left]
    exact Iff.rfl

theorem ofOrigin_known_iff {origin : Origin} :
    known.OfOrigin sem (fun h e ty => ty = types h e) (fun h e ty => ty = elements h e) g
        origin ty ↔
      ty = sem.originAt types elements g origin := by
  cases origin with
  | initializer e =>
    cases e with
    | none => exact Iff.rfl
    | some e => exact ofInitializer_known_iff
  | iterated e =>
    cases e with
    | none => exact Iff.rfl
    | some e => simp only [OfOrigin, Semantics.originAt, behind_known_iff fun _ _ => Iff.rfl]

theorem ofDecl_known_iff {d : Decl} :
    known.OfDecl sem (fun h e ty => ty = types h e) (fun h e ty => ty = elements h e) g d ty ↔
      ty = sem.inferredAt types elements g d := by
  unfold OfDecl Semantics.OfDeclFrom Semantics.inferredAt
  cases d.origin? <;> split <;> simp [ofOrigin_known_iff]

end Flight

/-- The host always returns, with the given types of expressions and of what loops yield. -/
structure Host.Answers (host : Host) (types elements : Guard → Expr → Option Ty) : Prop where
  staticType : ∀ e g, Yields (host.staticType e) g (types g e)
  elementType : ∀ e g, Yields (host.elementType e) g (elements g e)

/-- Inference over a host that always returns. -/
theorem Host.Answers.infer {host : Host} {types elements : Guard → Expr → Option Ty}
    (answers : host.Answers types elements) (g : Guard) (d : Decl) :
    Yields (host.infer d) g (host.inferredAt types elements g d) := by
  have typed (v : Guard) (f : Expr) : returning.Opens (fun _ => host.askStaticType)
      (fun h e ty => ty = types h e) v f :=
    ⟨allows_returning v f.id, fun _ => holds_returning_iff.2 (.asking (answers.staticType f _))⟩
  have yielded (v : Guard) (f : Expr) : returning.Opens (fun _ => host.askElementType)
      (fun h e ty => ty = elements h e) v f :=
    ⟨allows_returning v f.id, fun _ => holds_returning_iff.2 (.asking (answers.elementType f _))⟩
  have inferred := returning.infer (fun _ => host) (fun _ => rfl) (w := g) (d := d) _ _
    fun _ _ v f _ => ⟨typed v f, yielded v f⟩
  exact .of_settles (returning.mono inferred fun ty result => Flight.ofDecl_known_iff.1 result)

namespace Environment
variable (env : Environment) (g : Guard)

/-- The type of an expression, asked under the guard `g`. -/
def typeAt (e : Expr) : Option Ty :=
  ((env.host.staticType e).result? g).join

def elementAt (e : Expr) : Option Ty :=
  (env.typeAt g e).bind env.elementOf

/-- The type that is inferred for a declaration under the guard `g`. -/
def inferredAt (d : Decl) : Option Ty :=
  env.semantics.inferredAt env.typeAt env.elementAt g d

def variableAt (d : Decl) : Option Ty :=
  if (env.semantics.kind d.typeRef).isActive then env.inferredAt g d
  else d.typeRef.bind env.declaredType

theorem ofVariable_iff {d : Decl} {ty : Option Ty} :
    Flight.OfVariable env (fun d ty => ty = env.inferredAt g d) d ty ↔ ty = env.variableAt g d := by
  unfold Flight.OfVariable variableAt
  split <;> exact Iff.rfl

theorem yields_staticType (e : Expr) : Yields (env.host.staticType e) g (env.typeAt g e) := by
  have root : e ∈ env.scope [e] := env.mem_scope_of_root List.mem_cons_self e.mem_reach_self
  obtain ⟨ty, events, runs, -⟩ : Settles (env.host.staticType e) g (fun _ => True)
      (Watched fun _ => True) :=
    settles_staticType (fun _ _ _ _ _ => trivial) root trivial
  have found : env.typeAt g e = ty := by
    rw [typeAt, Yields.result_eq ⟨events, runs ()⟩]
    rfl
  exact ⟨events, found ▸ runs ()⟩

theorem yields_elementType (e : Expr) :
    Yields (env.host.elementType e) g (env.elementAt g e) :=
  .bind (env.yields_staticType g e) (.pure _)

theorem answers_host : env.host.Answers env.typeAt env.elementAt where
  staticType e g := env.yields_staticType g e
  elementType e g := env.yields_elementType g e

theorem yields_infer (d : Decl) : Yields (env.host.infer d) g (env.inferredAt g d) :=
  env.answers_host.infer g d

/-- The type of an expression by its form; a scripted type comes first. -/
theorem typeAt_eq (e : Expr) : env.typeAt g e =
    match env.scripted.get? e.id with
    | some ty => some ty
    | none =>
      match e with
      | .literal _ value => some value.ty
      | .ident _ name => (env.bindings.get? name).bind (env.variableAt g)
      | .creation _ (some ref) => env.creationType ref
      | .conditional _ _ whenTrue whenFalse =>
        env.semantics.wider (Semantics.branchAt env.typeAt g whenTrue)
          (Semantics.branchAt env.typeAt g whenFalse)
      | .creation _ none | .lambda _ | .braceList _ _ | .other _ => none := by
  have opens (b : Expr) : returning.Opens (fun _ => env.typeOf env.host.infer)
      (fun h e ty => ty = env.typeAt h e) g b := by
    refine ⟨allows_returning g b.id, fun _ => ?_⟩
    rw [← env.host_staticType]
    exact holds_returning_iff.2 (env.yields_staticType _ b)
  obtain ⟨ty, events, runs, result, -⟩ : returning.Holds (fun _ => env.typeOf env.host.infer e) g
      (Flight.known.OfExpr (fun h e ty => ty = env.typeAt h e) g env
        (fun d ty => ty = env.inferredAt g d) e) :=
    returning.typeOf _ _ (fun b _ => opens b) fun _ _ d _ _ _ =>
      holds_returning_iff.2 (env.yields_infer g d)
  have found : env.typeAt g e = ty := by
    rw [typeAt, env.host_staticType, Yields.result_eq ⟨events, runs ()⟩]
    rfl
  rw [found]
  -- The walk has put the result in terms of `typeAt` itself, in the cases of the statement.
  unfold Flight.OfExpr at result
  cases scripted : env.scripted.get? e.id with
  | some ty => simpa only [scripted] using result
  | none =>
    simp only [scripted] at result
    cases e with
    | ident _ name =>
      dsimp only at result ⊢
      cases bound : env.bindings.get? name with
      | none => simpa only [bound, Option.bind_none] using result
      | some d =>
        simp only [bound] at result
        exact (env.ofVariable_iff g).1 result
    | conditional => exact Flight.ofBranches_known_iff.1 result
    | creation _ ref => cases ref <;> exact result
    | literal | lambda | braceList | other => exact result

variable {env g}

/-- A placeholder with an origin gets the origin's type, or the top class. -/
theorem inferredAt_of_origin {d : Decl} {origin : Origin}
    (active : (env.semantics.kind d.typeRef).isActive = true) (found : d.origin? = some origin) :
    env.inferredAt g d =
      some ((env.semantics.originAt env.typeAt env.elementAt g origin).getD topClass) := by
  rw [inferredAt, Semantics.inferredAt, if_pos active, found]
  rfl

theorem inferredAt_of_initializer {v : LocalVariable} {e : Expr}
    (active : (env.semantics.kind v.typeRef).isActive = true)
    (initializer : v.initializer = some e) :
    env.inferredAt g (.localVariable v) =
      some ((env.semantics.initializerAt env.typeAt g e).getD topClass) := by
  have origin : (Decl.localVariable v).origin? = some (.initializer (some e)) := by
    simp [Decl.origin?, initializer]
  rw [inferredAt_of_origin active origin, Semantics.originAt_initializer]

/-- Only placeholders with an origin get a type. -/
theorem exists_origin_of_inferredAt {d : Decl} {ty : Ty} (inferred : env.inferredAt g d = some ty) :
    ∃ origin, (env.semantics.kind d.typeRef).isActive = true ∧ d.origin? = some origin ∧
      (env.semantics.originAt env.typeAt env.elementAt g origin).getD topClass = ty := by
  rw [inferredAt, Semantics.inferredAt] at inferred
  split at inferred
  · next active =>
    obtain ⟨origin, found, value⟩ := Option.map_eq_some_iff.1 inferred
    exact ⟨origin, active, found, value⟩
  · simp at inferred

theorem typeAt_scripted {e : Expr} {ty : Ty} (scripted : env.scripted.get? e.id = some ty) :
    env.typeAt g e = some ty := by
  rw [typeAt_eq, scripted]

theorem typeAt_ident {node : Node} {name : String} {d : Decl}
    (unscripted : env.scripted.get? node.id = none) (bound : env.bindings.get? name = some d) :
    env.typeAt g (.ident node name) = env.variableAt g d := by
  rw [typeAt_eq]
  simp only [Expr.id, Expr.node, unscripted, bound, Option.bind_some]

theorem typeAt_conditional {node : Node} {c : Expr} {t f : Option Expr}
    (unscripted : env.scripted.get? node.id = none) :
    env.typeAt g (.conditional node c t f) =
      env.semantics.wider (Semantics.branchAt env.typeAt g t)
        (Semantics.branchAt env.typeAt g f) := by
  rw [typeAt_eq]
  simp only [Expr.id, Expr.node, unscripted]

end Environment
end InferredTypes
