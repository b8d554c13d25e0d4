import InferredTypes.Proofs.Reach

/-! One walk through inference and typing for every judgment about requests. A judgment gives a rule
for each way of building requests; the walk puts the rules together, and says what the result is in
terms of the results of the questions on the way. -/
namespace InferredTypes

/-- What is known of the marks while a request runs, as a state `W` of knowledge: `Held` are the
marks that may be in flight, and `Free` those that may not be. -/
structure Flight (W : Type) where
  enter : W → NodeId → W
  Held : W → NodeId → Prop
  Free : W → NodeId → Prop

/-- The possible results for a declaration, given those for its origin. -/
def Semantics.OfDeclFrom (sem : Semantics) (ofOrigin : Origin → Option Ty → Prop) (d : Decl)
    (ty : Option Ty) : Prop :=
  if (sem.kind d.typeRef).isActive then
    match d.origin? with
    | none => ty = none
    | some origin => ∃ inner, ofOrigin origin inner ∧ ty = some (inner.getD (sem.topType d.id))
  else
    ty = none

/-- Exactly the placeholder declarations with an origin get a type. -/
theorem Semantics.OfDeclFrom.isSome_iff {sem : Semantics} {ofOrigin : Origin → Option Ty → Prop}
    {d : Decl} {ty : Option Ty} (result : sem.OfDeclFrom ofOrigin d ty) :
    ty.isSome = true ↔ (sem.kind d.typeRef).isActive = true ∧ d.origin?.isSome = true := by
  unfold OfDeclFrom at result
  split at result
  · next active =>
    cases found : d.origin? with
    | none =>
      simp only [found] at result
      simp [result]
    | some origin =>
      simp only [found] at result
      obtain ⟨inner, -, rfl⟩ := result
      simp [active]
  · next inactive => simp [result, inactive]

namespace Flight

/-- The guard is known, and with it all that is in flight. -/
def known : Flight Guard where
  enter := Guard.enter
  Held g key := key ∈ g.inFlight
  Free g key := key ∉ g.inFlight

/-- Nothing is known. -/
def unknown : Flight Unit where
  enter _ _ := ()
  Held _ _ := True
  Free _ _ := True

variable {W : Type} (F : Flight W)

/-- The expressions that inference tries to enter on its way through a source, each with what is
known then: the source itself and, behind its mark, the branches. -/
inductive Visits (w : W) (source : Expr) : W → Expr → Prop
  | source : Visits w source w source
  | branch {b : Expr} (free : F.Free w source.id) (mem : b ∈ source.branches) :
      Visits w source (F.enter w source.id) b

/-! The possible results of the parts of inference and of typing, where `typed` and `yielded` are
the possible answers about expressions and about loops over them. -/

/-- A run is refused and has no result, or it has a result of what runs inside. -/
def Behind (w : W) (key : NodeId) (inside : W → Option Ty → Prop) (ty : Option Ty) : Prop :=
  (F.Held w key ∧ ty = none) ∨ (F.Free w key ∧ inside (F.enter w key) ty)

variable (sem : Semantics) (typed yielded : W → Expr → Option Ty → Prop) (w : W)

def OfBranch : Option Expr → Option Ty → Prop
  | none, ty => ty = none
  | some e, ty => F.Behind w e.id (fun v => typed v e) ty

def OfBranches (whenTrue whenFalse : Option Expr) (ty : Option Ty) : Prop :=
  ∃ a b, F.OfBranch typed w whenTrue a ∧ F.OfBranch typed w whenFalse b ∧ ty = sem.wider a b

def OfInitializer (e : Expr) (ty : Option Ty) : Prop :=
  match e with
  | .braceList _ _ => ty = none
  | .conditional node _ whenTrue whenFalse =>
    F.Behind w node.id (fun v => F.OfBranches sem typed v whenTrue whenFalse) ty
  | e => ∃ inner, F.Behind w e.id (fun v => typed v e) inner ∧ ty = sem.closed e inner

def OfOrigin : Origin → Option Ty → Prop
  | .initializer none, ty | .iterated none, ty => ty = none
  | .initializer (some e), ty => F.OfInitializer sem typed w e ty
  | .iterated (some e), ty => F.Behind w e.id (fun v => yielded v e) ty

def OfDecl (d : Decl) : Option Ty → Prop :=
  sem.OfDeclFrom (F.OfOrigin sem typed yielded w) d

variable (env : Environment) (inferred : Decl → Option Ty → Prop)

def OfVariable (d : Decl) (ty : Option Ty) : Prop :=
  if (env.semantics.kind d.typeRef).isActive then inferred d ty
  else ty = d.typeRef.bind env.declaredType

def OfExpr (e : Expr) (ty : Option Ty) : Prop :=
  match env.scripted.get? e.id with
  | some scripted => ty = some scripted
  | none =>
    match e with
    | .literal _ value => ty = some value.ty
    | .ident _ name =>
      match env.bindings.get? name with
      | some d => OfVariable env inferred d ty
      | none => ty = none
    | .creation _ (some ref) => ty = env.creationType ref
    | .conditional _ _ whenTrue whenFalse =>
      F.OfBranches env.semantics typed w whenTrue whenFalse ty
    | .creation _ none | .lambda _ | .braceList _ _ | .other _ => ty = none

end Flight

/-- A judgment on requests: `Holds m w Q` is about the requests `m i`, all run where `w` is known of
the marks, with results in `Q`. `Allows` are the runs that it admits. Apart from them the rules ask
nothing: events without a guard are free to be noted. -/
structure Judgment (ι : Type) {W : Type} (F : Flight W) where
  Holds : {α : Type} → (ι → Request α) → W → (α → Prop) → Prop
  Allows : W → NodeId → Prop
  pure : ∀ {α : Type} {a : α} {w : W} {Q : α → Prop}, Q a → Holds (fun _ => Pure.pure a) w Q
  bind : ∀ {α β : Type} {m : ι → Request α} {f : ι → α → Request β} {w : W} {Q : α → Prop}
    {R : β → Prop}, Holds m w Q → (∀ a, Q a → Holds (fun i => f i a) w R) →
    Holds (fun i => m i >>= f i) w R
  note : ∀ {e : Event} {w : W}, e.guards = [] → Holds (fun _ => Request.note e) w fun _ => True
  guarded : ∀ {α : Type} {m : ι → Request α} {key : NodeId} {w : W} {R : Option α → Prop},
    Allows w key → (F.Held w key → R none) →
    (F.Free w key → Holds m (F.enter w key) fun a => R (some a)) →
    Holds (fun i => Request.guarded key (m i)) w R

namespace Judgment
variable {ι W : Type} {F : Flight W} (J : Judgment ι F) {w : W}

section
variable {α β : Type} {m : ι → Request α}

theorem mono {Q Q' : α → Prop} (h : J.Holds m w Q) (sub : ∀ a, Q a → Q' a) : J.Holds m w Q' := by
  -- Weakening is no rule of its own: it is to go on with `pure`.
  have again := J.bind h fun a ha => J.pure (sub a ha)
  simpa only [bind_pure] using again

theorem map {f : α → β} {R : β → Prop} (h : J.Holds m w fun a => R (f a)) :
    J.Holds (fun i => f <$> m i) w R := by
  simp only [map_eq_pure_bind]
  exact J.bind h fun a ha => J.pure ha

theorem asked {q : Question} (a : α) (guardless : (Event.asked q).guards = []) :
    J.Holds (fun _ => Request.asking (fun _ => q) (Pure.pure a)) w (· = a) := by
  have noted : J.Holds (fun _ => Request.note (.asked q) >>= fun _ => Pure.pure a) w (· = a) :=
    J.bind (J.note guardless) fun _ _ => J.pure rfl
  exact noted

theorem behind {key : NodeId} {m : ι → Request (Option Ty)} (inside : W → Option Ty → Prop)
    (allows : J.Allows w key)
    (h : F.Free w key → J.Holds m (F.enter w key) (inside (F.enter w key))) :
    J.Holds (fun i => Option.join <$> Request.guarded key (m i)) w (F.Behind w key inside) := by
  apply J.map
  apply J.guarded allows
  · intro held
    exact .inl ⟨held, rfl⟩
  · intro free
    exact J.mono (h free) fun ty result => .inr ⟨free, result⟩

end

section
variable (sem : Semantics)

theorem placeholder (ref : Option TypeRef) :
    J.Holds (fun _ => sem.placeholder ref) w (· = sem.kind ref) := by
  cases ref with
  | none => exact J.pure rfl
  | some ref =>
    apply J.bind (J.asked (sem.qualifiedName ref) rfl)
    rintro _ rfl
    exact J.pure rfl

theorem unify (a b : Option Ty) : J.Holds (fun _ => sem.unify a b) w (· = sem.wider a b) := by
  cases a with
  | none => exact J.pure rfl
  | some a =>
    cases b with
    | none => exact J.pure rfl
    | some b =>
      apply J.bind (J.asked (sem.assignable b a) rfl)
      rintro _ rfl
      split
      · next hba => exact J.pure (by simp [Semantics.wider, hba])
      · next hba =>
        apply J.bind (J.asked (sem.assignable a b) rfl)
        rintro _ rfl
        split
        · next hab => exact J.pure (by simp [Semantics.wider, hba, hab])
        · next hab => exact J.pure (by simp [Semantics.wider, hba, hab])

end

/-- The run of an expression is admitted and, if it is not refused, the answer about the expression
is judged with results in `result`. -/
structure Opens (answer : ι → Expr → Request (Option Ty)) (result : W → Expr → Option Ty → Prop)
    (w : W) (e : Expr) : Prop where
  allows : J.Allows w e.id
  inside : F.Free w e.id →
    J.Holds (fun i => answer i e) (F.enter w e.id) (result (F.enter w e.id) e)

section
variable {host : ι → Host} {sem : Semantics} {typed yielded : W → Expr → Option Ty → Prop}

theorem guardedType {e : Expr} (opens : J.Opens (fun i => (host i).askStaticType) typed w e) :
    J.Holds (fun i => (host i).guardedType e) w (F.Behind w e.id fun v => typed v e) :=
  J.behind _ opens.allows opens.inside

theorem branchType {e : Option Expr}
    (opens : ∀ b ∈ e.toList, J.Opens (fun i => (host i).askStaticType) typed w b) :
    J.Holds (fun i => (host i).branchType e) w (F.OfBranch typed w e) := by
  cases e with
  | none => exact J.pure rfl
  | some e => exact J.guardedType (opens e (by simp))

variable (same : ∀ i, (host i).toSemantics = sem)
include same

theorem closeDiamond (e : Expr) (ty : Option Ty) :
    J.Holds (fun i => (host i).closeDiamond e ty) w (· = sem.closed e ty) := by
  cases ty with
  | none => exact J.pure (by simp [Semantics.closed])
  | some ty =>
    simp only [Host.closeDiamond, same]
    split
    · next diamond =>
      apply J.bind (J.asked (sem.erasure ty) rfl)
      rintro _ rfl
      apply J.bind (J.note rfl)
      intro _ _
      exact J.pure (by simp [Semantics.closed, diamond])
    · next plain => exact J.pure (by simp [Semantics.closed, plain])

theorem settle (kind : Placeholder) (decl : NodeId) (ty : Option Ty) :
    J.Holds (fun i => (host i).settle kind decl ty) w (· = ty.getD (sem.topType decl)) := by
  cases ty with
  | some ty => exact J.bind (J.note rfl) fun _ _ => J.pure rfl
  | none =>
    simp only [Host.settle, same]
    apply J.bind (J.asked (sem.topType decl) rfl)
    rintro _ rfl
    exact J.bind (J.note rfl) fun _ _ => J.pure rfl

theorem initializerType {e : Expr}
    (opens : ∀ v f, F.Visits w e v f → J.Opens (fun i => (host i).askStaticType) typed v f) :
    J.Holds (fun i => (host i).initializerType e) w (F.OfInitializer sem typed w e) := by
  have here := opens w e .source
  cases e with
  | braceList => exact J.pure rfl
  | conditional node c t f =>
    simp only [Host.initializerType, same]
    apply J.behind (fun v => F.OfBranches sem typed v t f) here.allows
    intro free
    have under (b : Expr) (mem : b ∈ (Expr.conditional node c t f).branches) :=
      opens _ b (.branch free mem)
    apply J.bind (J.branchType fun b mem => under b (Expr.mem_branches_of_whenTrue mem))
    intro a first
    apply J.bind (J.branchType fun b mem => under b (Expr.mem_branches_of_whenFalse mem))
    intro b second
    exact J.mono (J.unify sem a b) fun ty result => ⟨a, b, first, second, result⟩
  | lambda | creation | ident | literal | other =>
    apply J.bind (J.guardedType here)
    intro inner result
    exact J.mono (J.closeDiamond same _ inner) fun ty closed => ⟨inner, result, closed⟩

theorem originType {origin : Origin}
    (opens : ∀ e, origin.expr? = some e → ∀ v f, F.Visits w e v f →
      J.Opens (fun i => (host i).askStaticType) typed v f ∧
      J.Opens (fun i => (host i).askElementType) yielded v f) :
    J.Holds (fun i => (host i).originType origin) w (F.OfOrigin sem typed yielded w origin) := by
  cases origin with
  | initializer e =>
    cases e with
    | none => exact J.pure rfl
    | some e => exact J.initializerType same fun v f visits => (opens e rfl v f visits).1
  | iterated e =>
    cases e with
    | none => exact J.pure rfl
    | some e =>
      have here := (opens e rfl w e .source).2
      exact J.behind (fun v => yielded v e) here.allows here.inside

/-- Around the origin of a declaration inference asks nothing about expressions. -/
theorem infer_of_origin (ofOrigin : Origin → Option Ty → Prop) {d : Decl}
    (typed : ∀ origin, d.origin? = some origin →
      J.Holds (fun i => (host i).originType origin) w (ofOrigin origin)) :
    J.Holds (fun i => (host i).infer d) w (sem.OfDeclFrom ofOrigin d) := by
  simp only [Host.infer, same]
  apply J.bind (J.placeholder sem d.typeRef)
  rintro _ rfl
  unfold Semantics.OfDeclFrom
  split
  case isFalse => exact J.pure rfl
  cases found : d.origin? with
  | none => exact J.pure rfl
  | some origin =>
    apply J.bind (typed origin found)
    intro inner result
    apply J.bind (J.settle same _ d.id inner)
    rintro _ rfl
    exact J.pure ⟨inner, result, rfl⟩

end

section
variable (host : ι → Host) {sem : Semantics} (same : ∀ i, (host i).toSemantics = sem) {d : Decl}
include same

/-- A judgment that holds of the answers about all expressions that inference comes to holds of
inference. -/
theorem infer (typed yielded : W → Expr → Option Ty → Prop)
    (opens : ∀ e, d.source? = some e → ∀ v f, F.Visits w e v f →
      J.Opens (fun i => (host i).askStaticType) typed v f ∧
      J.Opens (fun i => (host i).askElementType) yielded v f) :
    J.Holds (fun i => (host i).infer d) w (F.OfDecl sem typed yielded w d) := by
  apply J.infer_of_origin same
  intro origin found
  apply J.originType same
  intro e source
  exact opens e (by simp [Decl.source?, found, source])

/-- The same where the results do not matter. -/
theorem infer_any
    (opens : ∀ e, d.source? = some e → ∀ v f, F.Visits w e v f →
      J.Opens (fun i => (host i).askStaticType) (fun _ _ _ => True) v f ∧
      J.Opens (fun i => (host i).askElementType) (fun _ _ _ => True) v f) :
    J.Holds (fun i => (host i).infer d) w fun _ => True :=
  J.mono (J.infer host same _ _ opens) fun _ _ => trivial

end

section
variable {env : Environment} {back : ι → Decl → Request (Option Ty)}
  {typed : W → Expr → Option Ty → Prop}

theorem variableType (inferred : Decl → Option Ty → Prop) {d : Decl}
    (infers : (env.semantics.kind d.typeRef).isActive = true →
      J.Holds (fun i => back i d) w (inferred d)) :
    J.Holds (fun i => env.variableType (back i) d) w (Flight.OfVariable env inferred d) := by
  apply J.bind (J.placeholder env.semantics d.typeRef)
  rintro _ rfl
  unfold Flight.OfVariable
  split
  · next active => exact infers active
  · exact J.pure rfl

theorem typeOfBranch {e : Option Expr}
    (opens : ∀ b ∈ e.toList, J.Opens (fun i => env.typeOf (back i)) typed w b) :
    J.Holds (fun i => env.typeOfBranch (back i) e) w (F.OfBranch typed w e) := by
  cases e with
  | none =>
    simp only [Environment.typeOfBranch]
    exact J.pure rfl
  | some e =>
    have here := opens e (by simp)
    simp only [Environment.typeOfBranch]
    exact J.behind (fun v => typed v e) here.allows here.inside

/-- A judgment that holds of typing the branches, and of inference on the placeholder that an
identifier is bound to, holds of typing. -/
theorem typeOf (typed : W → Expr → Option Ty → Prop) (inferred : Decl → Option Ty → Prop) {e : Expr}
    (opens : ∀ b ∈ e.branches, J.Opens (fun i => env.typeOf (back i)) typed w b)
    (infers : ∀ node name d, e = .ident node name → env.bindings.get? name = some d →
      (env.semantics.kind d.typeRef).isActive = true → J.Holds (fun i => back i d) w (inferred d)) :
    J.Holds (fun i => env.typeOf (back i) e) w (F.OfExpr typed w env inferred e) := by
  unfold Environment.typeOf Flight.OfExpr
  cases env.scripted.get? e.id with
  | some ty => exact J.pure rfl
  | none =>
    cases e with
    | ident node name =>
      dsimp only
      cases found : env.bindings.get? name with
      | none => exact J.pure rfl
      | some d => exact J.variableType inferred fun active => infers node name d rfl found active
    | conditional _ _ t f =>
      apply J.bind (J.typeOfBranch fun b mem => opens b (Expr.mem_branches_of_whenTrue mem))
      intro a first
      apply J.bind (J.typeOfBranch fun b mem => opens b (Expr.mem_branches_of_whenFalse mem))
      intro b second
      exact J.mono (J.unify env.semantics a b) fun ty result => ⟨a, b, first, second, result⟩
    | creation _ ref => cases ref <;> exact J.pure rfl
    | literal | lambda | braceList | other => exact J.pure rfl

end

end Judgment
end InferredTypes
