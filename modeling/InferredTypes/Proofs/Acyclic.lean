import InferredTypes.Proofs.Reentry
import InferredTypes.Proofs.SmallPrograms
import Mathlib.Data.List.Nodup
import Mathlib.Order.WellFounded

/-! Where bindings do not refer to each other in a circle, the guard is not felt: inference gives
what the same rules give without any guard. -/
namespace InferredTypes

open Request

namespace Environment

/-! The rules of typing and inference with every run replaced by what runs inside it. Nothing ends
a circle here: where inference asks back at every level, no level has a value. -/

mutual
def unguardedType (env : Environment) (infer : Decl → Option (Option Ty)) (e : Expr) :
    Option (Option Ty) :=
  match env.scripted.get? e.id with
  | some ty => some (some ty)
  | none =>
    match e with
    | .literal _ value => some (some value.ty)
    | .ident _ name =>
      match env.bindings.get? name with
      | some d =>
        if (env.semantics.kind d.typeRef).isActive then infer d
        else some (d.typeRef.bind env.declaredType)
      | none => some none
    | .creation _ (some ref) => some (env.creationType ref)
    | .conditional _ _ whenTrue whenFalse => do
      let whenTrue ← env.unguardedBranch infer whenTrue
      let whenFalse ← env.unguardedBranch infer whenFalse
      some (env.semantics.wider whenTrue whenFalse)
    | .creation _ none | .lambda _ | .braceList _ _ | .other _ => some none

def unguardedBranch (env : Environment) (infer : Decl → Option (Option Ty)) :
    Option Expr → Option (Option Ty)
  | none => some none
  | some e => env.unguardedType infer e
end

def unguardedOrigin (env : Environment) (infer : Decl → Option (Option Ty)) :
    Origin → Option (Option Ty)
  | .initializer none | .iterated none => some none
  | .initializer (some e) =>
    match e with
    | .braceList _ _ => some none
    | .conditional _ _ whenTrue whenFalse => do
      let whenTrue ← env.unguardedBranch infer whenTrue
      let whenFalse ← env.unguardedBranch infer whenFalse
      some (env.semantics.wider whenTrue whenFalse)
    | e => do
      let ty ← env.unguardedType infer e
      some (env.semantics.closed e ty)
  | .iterated (some e) => do
    let ty ← env.unguardedType infer e
    some (ty.bind env.elementOf)

/-- The type of a declaration, with fewer than `n` questions back into inference inside each
other. -/
def unguardedInfer (env : Environment) : Nat → Decl → Option (Option Ty)
  | 0, _ => none
  | n + 1, d =>
    if (env.semantics.kind d.typeRef).isActive then
      match d.origin? with
      | none => some none
      | some origin => do
        let ty ← env.unguardedOrigin (env.unguardedInfer n) origin
        some (some (ty.getD topClass))
    else
      some none

/-- What the unguarded rules give at every level from some level on. -/
def UnguardedType (env : Environment) (d : Decl) (ty : Option Ty) : Prop :=
  ∃ n, ∀ k, n ≤ k → env.unguardedInfer k d = some ty

end Environment

/-- An event that is no refusal. -/
def Event.Unrefused (e : Event) : Prop :=
  ∀ key g, e ≠ .refused key g

/-- The guard is known, and nothing that is entered is in flight. -/
def Flight.clear : Flight Guard :=
  { Flight.known with Held := fun _ _ => False }

theorem Flight.inside_of_behind_clear {g : Guard} {key : NodeId} {ty : Option Ty}
    {inside : Guard → Option Ty → Prop} (result : clear.Behind g key inside ty) :
    inside (g.enter key) ty := by
  rcases result with ⟨held, -⟩ | ⟨-, result⟩
  · exact held.elim
  · exact result

namespace Request
variable {α : Type} {m : Request α} {g : Guard} {Q : α → Prop}

theorem quiet_unrefused : Quiet Event.Unrefused := by
  rintro e none key g rfl
  simp [Event.guards] at none

/-- The rules for computations that return with nothing refused on the way. -/
def unrefused : Judgment Unit .clear :=
  { tracing Unit quiet_unrefused.composes with
    Allows := fun g key => key ∉ g.inFlight
    guarded := fun fresh _ inside => (tracing Unit quiet_unrefused.composes).guarded
      ⟨fun held => absurd held fresh, fun _ => each_singleton.2 (by simp [Event.Unrefused])⟩
      (fun held => absurd held fresh) inside }

theorem holds_unrefused_asking {q : Guard → Question} (h : unrefused.Holds (fun _ => m) g Q) :
    unrefused.Holds (fun _ => Request.asking q m) g Q :=
  Traces.asking quiet_unrefused.composes (each_singleton.2 (by simp [Event.Unrefused])) h

end Request

/-- What a sequence gives from some place on. -/
def Eventually {α : Type} (p : Nat → Option α) (a : α) : Prop :=
  ∃ n, ∀ k, n ≤ k → p k = some a

namespace Eventually
variable {α β : Type} {p : Nat → Option α} {a : α}

theorem const {b : α} (h : b = a) : Eventually (fun _ => some a) b :=
  ⟨0, fun _ _ => congrArg some h.symm⟩

theorem bind {q : α → Nat → Option β} {b : β} (hp : Eventually p a) (hq : Eventually (q a) b) :
    Eventually (fun k => p k >>= fun a => q a k) b := by
  obtain ⟨i, first⟩ := hp
  obtain ⟨j, second⟩ := hq
  refine ⟨max i j, fun k above => ?_⟩
  dsimp only
  rw [first k (by omega)]
  exact second k (by omega)

theorem of_succ (hp : Eventually (fun k => p (k + 1)) a) : Eventually p a := by
  obtain ⟨n, levels⟩ := hp
  refine ⟨n + 1, fun k above => ?_⟩
  obtain ⟨k, rfl⟩ := Nat.exists_eq_add_of_le' (Nat.le_of_add_left_le above)
  exact levels k (by omega)

end Eventually

namespace Environment
variable {env : Environment} {g : Guard} {ty : Option Ty}

/-- The type of an expression without a guard, once there are enough levels. -/
def UnguardedTyped (env : Environment) (_ : Guard) (e : Expr) : Option Ty → Prop :=
  Eventually fun k => env.unguardedType (env.unguardedInfer k) e

def UnguardedYielded (env : Environment) (_ : Guard) (e : Expr) : Option Ty → Prop :=
  Eventually fun k => do
    let ty ← env.unguardedType (env.unguardedInfer k) e
    some (ty.bind env.elementOf)

/-! Where nothing is refused, the possible results are those of the unguarded rules. -/

theorem unguarded_ofBranch {e : Option Expr}
    (result : Flight.clear.OfBranch env.UnguardedTyped g e ty) :
    Eventually (fun k => env.unguardedBranch (env.unguardedInfer k) e) ty := by
  cases e with
  | none =>
    simp only [unguardedBranch]
    exact .const result
  | some e =>
    have run : Flight.clear.Behind g e.id (fun v => env.UnguardedTyped v e) ty := result
    simp only [unguardedBranch]
    exact Flight.inside_of_behind_clear run

theorem unguarded_ofBranches {t f : Option Expr}
    (result : Flight.clear.OfBranches env.semantics env.UnguardedTyped g t f ty) :
    Eventually (fun k => do
      let whenTrue ← env.unguardedBranch (env.unguardedInfer k) t
      let whenFalse ← env.unguardedBranch (env.unguardedInfer k) f
      some (env.semantics.wider whenTrue whenFalse)) ty := by
  obtain ⟨a, b, first, second, rfl⟩ := result
  exact (unguarded_ofBranch first).bind ((unguarded_ofBranch second).bind (.const rfl))

theorem unguarded_ofOrigin {origin : Origin}
    (result : Flight.clear.OfOrigin env.semantics env.UnguardedTyped env.UnguardedYielded g
      origin ty) :
    Eventually (fun k => env.unguardedOrigin (env.unguardedInfer k) origin) ty := by
  cases origin with
  | initializer e =>
    cases e with
    | none => exact .const result
    | some e =>
      cases e with
      | braceList => exact .const result
      | conditional node c t f =>
        have run : Flight.clear.Behind g node.id
          (fun v => Flight.clear.OfBranches env.semantics env.UnguardedTyped v t f) ty := result
        exact unguarded_ofBranches (Flight.inside_of_behind_clear run)
      | lambda | creation | ident | literal | other =>
        obtain ⟨inner, result, rfl⟩ := result
        exact (Flight.inside_of_behind_clear result).bind (.const rfl)
  | iterated e =>
    cases e with
    | none => exact .const result
    | some e =>
      have run : Flight.clear.Behind g e.id (fun v => env.UnguardedYielded v e) ty := result
      exact Flight.inside_of_behind_clear run

theorem unguarded_ofDecl {d : Decl}
    (result : Flight.clear.OfDecl env.semantics env.UnguardedTyped env.UnguardedYielded g d ty) :
    Eventually (env.unguardedInfer · d) ty := by
  apply Eventually.of_succ
  simp only [unguardedInfer]
  unfold Flight.OfDecl Semantics.OfDeclFrom at result
  split at result
  · next active =>
    simp only [active, if_true]
    cases found : d.origin? with
    | none =>
      simp only [found] at result
      exact .const result
    | some origin =>
      simp only [found] at result
      obtain ⟨inner, result, rfl⟩ := result
      exact (unguarded_ofOrigin result).bind (.const rfl)
  · next inactive =>
    simp only [inactive]
    exact .const result

theorem unguarded_ofExpr {e : Expr}
    (result : Flight.clear.OfExpr env.UnguardedTyped g env
      (fun d => Eventually (env.unguardedInfer · d)) e ty) :
    env.UnguardedTyped g e ty := by
  unfold UnguardedTyped unguardedType
  unfold Flight.OfExpr at result
  cases scripted : env.scripted.get? e.id with
  | some ty =>
    simp only [scripted] at result
    exact .const result
  | none =>
    simp only [scripted] at result
    cases e with
    | ident _ name =>
      dsimp only at result ⊢
      cases bound : env.bindings.get? name with
      | none =>
        simp only [bound] at result
        exact .const result
      | some d =>
        simp only [bound, Flight.OfVariable] at result
        dsimp only
        split at result
        · next active => simpa only [active, if_true] using result
        · next inactive =>
          simp only [inactive]
          exact .const result
    | conditional => exact unguarded_ofBranches result
    | creation _ ref => cases ref <;> exact .const result
    | literal | lambda | braceList | other => exact .const result

/-- The expression is not in flight, and typing it behind its mark gives its unguarded type. -/
abbrev Opens (env : Environment) (g : Guard) (e : Expr) : Prop :=
  unrefused.Opens (fun _ => env.host.staticType) env.UnguardedTyped g e

/-- Typing gives the unguarded type once it does for the branches, and inference for a bound
placeholder. -/
theorem typed_of_opens {e : Expr} (opens : ∀ b ∈ e.branches, env.Opens g b)
    (infers : ∀ node name d, e = .ident node name → env.bindings.get? name = some d →
      (env.semantics.kind d.typeRef).isActive = true →
      unrefused.Holds (fun _ => env.host.infer d) g (Eventually (env.unguardedInfer · d))) :
    unrefused.Holds (fun _ => env.host.staticType e) g (env.UnguardedTyped g e) := by
  have same : env.host.staticType = env.typeOf env.host.infer := funext env.host_staticType
  rw [same]
  simp only [Opens, same] at opens
  exact unrefused.mono (unrefused.typeOf _ _ opens infers) fun _ => unguarded_ofExpr

/-- Inference gives the unguarded type once typing does for the source, and for the branches of a
source that is a conditional. -/
theorem inferred_of_opens {d : Decl}
    (opens : ∀ e, d.source? = some e → env.Opens g e ∧
      ∀ b ∈ e.branches, env.Opens (g.enter e.id) b) :
    unrefused.Holds (fun _ => env.host.infer d) g (Eventually (env.unguardedInfer · d)) := by
  have answers {v : Guard} {f : Expr} (opens : env.Opens v f) :
      unrefused.Opens (fun _ => env.host.askStaticType) env.UnguardedTyped v f ∧
      unrefused.Opens (fun _ => env.host.askElementType) env.UnguardedYielded v f := by
    refine ⟨⟨opens.allows, fun free => holds_unrefused_asking (opens.inside free)⟩,
      ⟨opens.allows, fun free => holds_unrefused_asking ?_⟩⟩
    exact unrefused.bind (opens.inside free) fun ty typed =>
      unrefused.pure (typed.bind (.const rfl))
  have inferred := unrefused.infer (fun _ => env.host) (fun _ => rfl) (w := g) (d := d) _ _
    fun e source v f visits => by
      cases visits with
      | source => exact answers (opens e source).1
      | branch _ mem => exact answers ((opens e source).2 f mem)
  exact unrefused.mono inferred fun _ => unguarded_ofDecl

/-- The bound names that the source of a bound placeholder reaches have a smaller rank than its own
name. -/
def Ranked (env : Environment) (rank : String → Nat) : Prop :=
  ∀ name d e, env.bindings.get? name = some d →
    (env.semantics.kind d.typeRef).isActive = true → d.source? = some e →
    ∀ node other, .ident node other ∈ e.reach → (env.bindings.get? other).isSome = true →
      rank other < rank name

/-- All bound names that an expression reaches have a rank below `r`. -/
def RanksBelow (env : Environment) (rank : String → Nat) (r : Nat) (e : Expr) : Prop :=
  ∀ node name, .ident node name ∈ e.reach → (env.bindings.get? name).isSome = true → rank name < r

theorem exists_ranksBelow (env : Environment) (rank : String → Nat) (e : Expr) :
    ∃ r, env.RanksBelow rank r e := by
  have listed (es : List Expr) : ∃ r, ∀ node name, .ident node name ∈ es → rank name < r := by
    induction es with
    | nil => exact ⟨0, by simp⟩
    | cons e es ih =>
      obtain ⟨r, hr⟩ := ih
      cases e with
      | ident node name =>
        refine ⟨max r (rank name + 1), fun node' other mem => ?_⟩
        rcases List.mem_cons.1 mem with same | mem
        · obtain ⟨-, rfl⟩ := Expr.ident.inj same
          omega
        · have := hr node' other mem
          omega
      | conditional | lambda | braceList | creation | literal | other =>
        exact ⟨r, fun node name mem => hr node name (by simpa using mem)⟩
  obtain ⟨r, hr⟩ := listed e.reach
  exact ⟨r, fun node name mem _ => hr node name mem⟩

/-- Typing goes down in rank at each identifier and down in size at each branch. -/
theorem acc_of_ranksBelow {rank : String → Nat} (ranked : env.Ranked rank) (r n : Nat) (e : Expr)
    (size : e.reach.length = n) (below : env.RanksBelow rank r e) :
    Acc (fun f e => env.Leads e f) e := by
  induction r using Nat.strongRecOn generalizing n e with
  | _ r smallerRank =>
    induction n using Nat.strongRecOn generalizing e with
    | _ n smallerSize =>
      refine ⟨e, fun f step => ?_⟩
      cases step with
      | branch hb =>
        have shorter := size ▸ Expr.length_reach_lt hb
        refine smallerSize _ shorter f rfl fun node name mem => ?_
        exact below node name (Expr.mem_reach_of_branch hb mem)
      | @source node name d _ bound active source =>
        have lower := below node name (Expr.mem_reach_self _) (by simp [bound])
        exact smallerRank (rank name) lower _ f rfl (ranked name d f bound active source)

theorem wellFounded_leads {rank : String → Nat} (ranked : env.Ranked rank) :
    WellFounded fun f e => env.Leads e f := by
  refine ⟨fun e => ?_⟩
  obtain ⟨r, hr⟩ := env.exists_ranksBelow rank e
  exact acc_of_ranksBelow ranked r _ e rfl hr

/-- Nothing that typing the expression comes to is in flight. -/
def Clear (env : Environment) (g : Guard) (e : Expr) : Prop :=
  ∀ f, Relation.TransGen env.Leads e f → f.id ∉ g.inFlight

theorem Clear.step {e f : Expr} (clear : env.Clear g e) (step : env.Leads e f) :
    f.id ∉ g.inFlight ∧ env.Clear g f :=
  ⟨clear f (.single step), fun x below => clear x (.head step below)⟩

theorem not_transGen_leads_self {rank : String → Nat} (ranked : env.Ranked rank) (e : Expr) :
    ¬ Relation.TransGen env.Leads e e := by
  intro circle
  have backwards := Relation.transGen_swap.2 circle
  exact (wellFounded_leads ranked).transGen.irrefl.irrefl e backwards

theorem mem_scope_of_transGen {roots : List Expr} {e f : Expr} (he : e ∈ env.scope roots)
    (below : Relation.TransGen env.Leads e f) : f ∈ env.scope roots := by
  induction below with
  | single step => exact step.mem_scope he
  | tail _ step ih => exact step.mem_scope ih

section
variable {roots : List Expr} {rank : String → Nat} (ranked : env.Ranked rank)
  (unique : ∀ e ∈ env.scope roots, ∀ f ∈ env.scope roots, e.id = f.id → e = f)
include ranked unique

/-- Entering an expression keeps the way from it clear: what is met with the same id would be the
same expression, on a circle. -/
theorem Clear.enter {e : Expr} (clear : env.Clear g e) (he : e ∈ env.scope roots) :
    env.Clear (g.enter e.id) e := by
  intro f below held
  simp only [Guard.enter, List.mem_append, List.mem_singleton] at held
  rcases held with held | same
  · exact clear f below held
  · have equal := unique f (mem_scope_of_transGen he below) e he same
    exact not_transGen_leads_self ranked e (equal ▸ below)

theorem opens_of_clear (e : Expr) : ∀ g, e ∈ env.scope roots → e.id ∉ g.inFlight → env.Clear g e →
    env.Opens g e := by
  -- Typing `e` comes to what lies two steps below it, so the induction is on all that is below.
  induction e using (wellFounded_leads ranked).transGen.induction with
  | _ e ih =>
    intro g he fresh clear
    have below {x : Expr} (h : Relation.TransGen env.Leads e x) := ih x (Relation.transGen_swap.2 h)
    have inside := clear.enter ranked unique he
    have opens {f : Expr} (step : env.Leads e f) : env.Opens (g.enter e.id) f := by
      obtain ⟨free, rest⟩ := inside.step step
      exact below (.single step) _ (step.mem_scope he) free rest
    refine ⟨fresh, fun _ => typed_of_opens (fun b hb => opens (.branch hb)) ?_⟩
    rintro node name d rfl bound active
    refine inferred_of_opens fun f source => ?_
    have step : env.Leads (.ident node name) f := .source bound active source
    have hf := step.mem_scope he
    refine ⟨opens step, fun b hb => ?_⟩
    have deeper := (inside.step step).2.enter ranked unique hf
    obtain ⟨free, rest⟩ := deeper.step (.branch hb)
    exact below (.tail (.single step) (.branch hb)) _ (Leads.mem_scope (.branch hb) hf) free rest

end

/-- On an environment whose bindings can be ranked, a request returns what the rules give without a
guard, and nothing is refused. Equal ids have to mean equal expressions, and nothing in scope may
be in flight beforehand. -/
theorem infer_eq_unguarded (env : Environment) (d : Decl) (s : Context) (rank : String → Nat)
    (ranked : env.Ranked rank)
    (unique : ∀ e ∈ env.scope d.source?.toList, ∀ f ∈ env.scope d.source?.toList,
      e.id = f.id → e = f)
    (idle : ∀ e ∈ env.scope d.source?.toList, e.id ∉ s.guard.inFlight) :
    ∃ ty events, env.host.infer d s = .ok ty ⟨s.guard, s.journal ++ events⟩ ∧
      env.UnguardedType d ty ∧ ∀ e ∈ events, e.Unrefused := by
  have infers : unrefused.Holds (fun _ => env.host.infer d) s.guard
      (Eventually (env.unguardedInfer · d)) := by
    refine inferred_of_opens fun e source => ?_
    have he : e ∈ env.scope d.source?.toList :=
      env.mem_scope_of_root (by simp [source]) e.mem_reach_self
    have clear : env.Clear s.guard e := fun f below => idle f (mem_scope_of_transGen he below)
    refine ⟨opens_of_clear ranked unique e s.guard he (idle e he) clear, fun b hb => ?_⟩
    have hb' := Leads.mem_scope (.branch hb) he
    obtain ⟨free, rest⟩ := (clear.enter ranked unique he).step (.branch hb)
    exact opens_of_clear ranked unique b _ hb' free rest
  obtain ⟨ty, events, runs, value, unrefused⟩ := infers
  exact ⟨ty, events, runs () s.journal, value, fun e mem => unrefused e (Array.mem_def.1 mem)⟩

/-- Two declarations, the second of which refers to the first. -/
def chain : Environment :=
  initial.applyAll
    [ .importName "val" "lombok.val"
    , .bind (valDecl 10 "a" (.literal ⟨⟨1⟩, ⟨0, 0⟩⟩ (.str "s")))
    , .bind (valDecl 11 "b" (.ident ⟨⟨2⟩, ⟨0, 0⟩⟩ "a")) ]

/-- A declaration whose value is the end of the chain or null. -/
def chainRequest : Decl :=
  valDecl 12 "c" (.conditional ⟨⟨3⟩, ⟨0, 0⟩⟩ (.other ⟨⟨6⟩, ⟨0, 0⟩⟩)
    (some (.ident ⟨⟨4⟩, ⟨0, 0⟩⟩ "b")) (some (.literal ⟨⟨5⟩, ⟨0, 0⟩⟩ .null)))

theorem ranked_chain : chain.Ranked fun name => if name = "b" then 1 else 0 := by
  intro name d e bound _ source node other mem _
  have entries : chain.bindings.entries =
      [("b", valDecl 11 "b" (.ident ⟨⟨2⟩, ⟨0, 0⟩⟩ "a")),
        ("a", valDecl 10 "a" (.literal ⟨⟨1⟩, ⟨0, 0⟩⟩ (.str "s")))] := rfl
  have listed := entries ▸ Assoc.mem_of_firstWith bound
  simp only [List.mem_cons, Prod.mk.injEq, List.not_mem_nil, or_false] at listed
  rcases listed with ⟨rfl, rfl⟩ | ⟨rfl, rfl⟩
  · obtain rfl := Option.some.inj source
    obtain ⟨-, rfl⟩ : _ ∧ other = "a" := by simpa [Expr.reach] using mem
    decide
  · obtain rfl := Option.some.inj source
    simp [Expr.reach] at mem

/-- The request goes through both references and is a string; its five expressions have different
ids. -/
theorem chain_infer_eq_unguarded :
    ∃ events, chain.host.infer chainRequest .fresh =
        .ok (some (.named "java.lang.String" [])) ⟨.empty, events⟩ ∧
      chain.UnguardedType chainRequest (some (.named "java.lang.String" [])) ∧
      ∀ e ∈ events, e.Unrefused := by
  have scope : (chain.scope chainRequest.source?.toList).map Expr.id = [⟨3⟩, ⟨4⟩, ⟨5⟩, ⟨2⟩, ⟨1⟩] :=
    rfl
  have unique : ∀ e ∈ chain.scope chainRequest.source?.toList,
      ∀ f ∈ chain.scope chainRequest.source?.toList, e.id = f.id → e = f :=
    fun e he f hf => List.inj_on_of_nodup_map (by rw [scope]; decide) he hf
  obtain ⟨ty, events, infers, value, unrefused⟩ :=
    infer_eq_unguarded chain chainRequest .fresh _ ranked_chain unique
      (fun _ _ => List.not_mem_nil)
  obtain ⟨journal, result⟩ : ∃ journal, chain.host.infer chainRequest .fresh =
      .ok (some (.named "java.lang.String" [])) ⟨.empty, journal⟩ := ⟨_, rfl⟩
  rw [result] at infers
  obtain ⟨rfl, rfl⟩ : some (Ty.named "java.lang.String" []) = ty ∧ journal = events := by
    simpa [Context.fresh] using infers
  exact ⟨journal, result, value, unrefused⟩

end Environment
end InferredTypes
