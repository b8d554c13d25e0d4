import InferredTypes.Proofs.SmallPrograms
import InferredTypes.Proofs.WidestLeaf

/-! Conditionals are typed in two places: by inference where they are initializers, and by the host
wherever else they stand. Both places do the same from every guard: they enter and refuse the same
expressions in the same order and come to the same type. -/
namespace InferredTypes

/-- Whether the event tells that an expression was entered or refused. -/
def Event.isMark : Event → Bool
  | entered _ _ | refused _ _ => true
  | _ => false

def Journal.marks (j : Journal) : List Event :=
  j.toList.filter Event.isMark

namespace Journal

@[simp] theorem marks_append (j k : Journal) : marks (j ++ k) = marks j ++ marks k := by
  simp [marks]

theorem marks_eq_nil {j : Journal} (unmarked : ∀ e ∈ j.toList, e.isMark = false) :
    marks j = [] := by
  simpa [marks] using unmarked

end Journal

namespace Request
variable {α β γ δ : Type} {m : Request α} {m' : Request β} {g : Guard} {a : α} {b : β}

/-- From the guard `g` the computations return `a` and `b`. Both leave the guard as it was, and they
enter and refuse the same expressions in the same order. -/
def InStep (g : Guard) (m : Request α) (a : α) (m' : Request β) (b : β) : Prop :=
  ∃ events events', Runs m g a events ∧ Runs m' g b events' ∧
    Journal.marks events = Journal.marks events'

theorem quiet_unmarked : Quiet fun e => e.isMark = false := by
  intro e guardless
  cases e with
  | entered | refused => simp [Event.guards] at guardless
  | asked | inferred | fellBack | diamondErased | misplacedVariable | misplacedParameter => rfl

/-- Computations that return and enter and refuse nothing. -/
abbrev unmarking : Judgment Unit .known :=
  tracing Unit quiet_unmarked.composes

namespace InStep

theorem refl (returns : Yields m g a) : InStep g m a m a := by
  obtain ⟨events, runs⟩ := returns
  exact ⟨events, events, runs, runs, rfl⟩

theorem bind {f : α → Request γ} {f' : β → Request δ} {c : γ} {d : δ}
    (first : InStep g m a m' b) (second : InStep g (f a) c (f' b) d) :
    InStep g (m >>= f) c (m' >>= f') d := by
  obtain ⟨events, events', runs, runs', same⟩ := first
  obtain ⟨rest, rest', continues, continues', same'⟩ := second
  refine ⟨events ++ rest, events' ++ rest', runs.bind continues, runs'.bind continues', ?_⟩
  rw [Journal.marks_append, Journal.marks_append, same, same']

/-- A computation that enters and refuses nothing may come first. -/
theorem after_quiet {f : α → Request γ} {c : γ}
    (quiet : Settles m g (· = a) fun e => e.isMark = false) (h : InStep g (f a) c m' b) :
    InStep g (m >>= f) c m' b := by
  obtain ⟨_, first, runs, rfl, unmarked⟩ := quiet
  obtain ⟨events, events', continues, runs', same⟩ := h
  refine ⟨first ++ events, events', (runs ()).bind continues, runs', ?_⟩
  rw [Journal.marks_append, Journal.marks_eq_nil unmarked, List.nil_append, same]

theorem before_quiet {f : α → Request γ} {c : γ} (h : InStep g m a m' b)
    (quiet : Settles (f a) g (· = c) fun e => e.isMark = false) : InStep g (m >>= f) c m' b := by
  obtain ⟨events, events', runs, runs', same⟩ := h
  obtain ⟨_, rest, continues, rfl, unmarked⟩ := quiet
  refine ⟨events ++ rest, events', runs.bind (continues ()), runs', ?_⟩
  rw [Journal.marks_append, Journal.marks_eq_nil unmarked, List.append_nil, same]

theorem asking {q : Guard → Question} (h : InStep g m a m' b) :
    InStep g (Request.asking q m) a m' b := by
  obtain ⟨events, events', runs, runs', same⟩ := h
  refine ⟨_, events', runs.asking q, runs', ?_⟩
  rw [Journal.marks_append, ← same]
  rfl

/-- Runs of the same expression are refused together or entered together. -/
theorem behind {key : NodeId} {m : Request (Option α)} {m' : Request (Option β)}
    {inside : Guard → Option α} {inside' : Guard → Option β}
    (h : ∀ g, InStep g m (inside g) m' (inside' g)) :
    InStep g (Option.join <$> Request.guarded key m) (g.behind key inside)
      (Option.join <$> Request.guarded key m') (g.behind key inside') := by
  unfold Guard.behind
  by_cases held : key ∈ g.inFlight
  · rw [if_pos held, if_pos held]
    exact ⟨_, _, (Runs.refused held).map Option.join, (Runs.refused held).map Option.join, rfl⟩
  · obtain ⟨events, events', runs, runs', same⟩ := h (g.enter key)
    rw [if_neg held, if_neg held]
    refine ⟨_, _, (Runs.entered held runs).map Option.join,
      (Runs.entered held runs').map Option.join, ?_⟩
    rw [Journal.marks_append, Journal.marks_append, same]

end InStep
end Request

open Request

namespace Environment
variable (env : Environment) (g : Guard)

theorem inStep_branchType (e : Option Expr) :
    InStep g (env.host.branchType e) (Semantics.branchAt env.typeAt g e)
      (env.typeOfBranch env.host.infer e) (Semantics.branchAt env.typeAt g e) := by
  cases e with
  | none =>
    unfold typeOfBranch
    exact .refl (.pure none)
  | some e =>
    simp only [typeOfBranch, ← env.host_staticType]
    exact .behind fun h => .asking (.refl (env.yields_staticType h e))

/-- The host types the branches of a conditional like inference. -/
theorem inStep_branches (t f : Option Expr) :
    let result := env.semantics.wider (Semantics.branchAt env.typeAt g t)
      (Semantics.branchAt env.typeAt g f)
    InStep g (do
        let whenTrue ← env.host.branchType t
        let whenFalse ← env.host.branchType f
        env.host.unify whenTrue whenFalse) result
      (do
        let whenTrue ← env.typeOfBranch env.host.infer t
        let whenFalse ← env.typeOfBranch env.host.infer f
        env.semantics.unify whenTrue whenFalse) result := by
  apply InStep.bind (env.inStep_branchType g t)
  apply InStep.bind (env.inStep_branchType g f)
  exact .refl (.of_settles (returning.unify env.semantics _ _))

variable {env g}

theorem staticType_conditional {node : Node} {c : Expr} {t f : Option Expr}
    (unscripted : env.scripted.get? node.id = none) :
    env.host.staticType (.conditional node c t f) = (do
      let whenTrue ← env.typeOfBranch env.host.infer t
      let whenFalse ← env.typeOfBranch env.host.infer f
      env.semantics.unify whenTrue whenFalse) := by
  rw [env.host_staticType]
  unfold typeOf
  simp only [Expr.id, Expr.node, unscripted]

/-- What can be typed by one run over the whole expression: not a brace list, which has no type, nor
a conditional with a scripted type, which inference does not ask for. -/
structure RunsWhole (env : Environment) (e : Expr) : Prop where
  noBraces : ∀ node elems, e ≠ .braceList node elems
  unscripted : ∀ node c t f, e = .conditional node c t f → env.scripted.get? node.id = none

theorem RunsWhole.inStep {e : Expr} (whole : env.RunsWhole e) (g : Guard) :
    InStep g (env.host.initializerType e)
      (env.semantics.closed e (g.behind e.id fun h => env.typeAt h e))
      (Option.join <$> Request.guarded e.id (env.host.staticType e))
      (g.behind e.id fun h => env.typeAt h e) := by
  cases e with
  | braceList node elems => exact absurd rfl (whole.noBraces node elems)
  | conditional node c t f =>
    have unscripted := whole.unscripted node c t f rfl
    rw [staticType_conditional unscripted]
    simp only [typeAt_conditional unscripted]
    exact .behind fun h => env.inStep_branches h t f
  | lambda | creation | ident | literal | other =>
    refine .before_quiet (.behind fun h => .asking (.refl (env.yields_staticType h _))) ?_
    exact unmarking.closeDiamond (fun _ => rfl) _ _

/-- Around the initializer inference enters and refuses nothing. -/
theorem inStep_infer {v : LocalVariable} {e : Expr} {ty : Option Ty} {β : Type} {m : Request β}
    {b : β} (active : (env.semantics.kind v.typeRef).isActive = true)
    (initializer : v.initializer = some e) (inside : InStep g (env.host.initializerType e) ty m b) :
    InStep g (env.host.infer (.localVariable v)) (some (ty.getD topClass)) m b := by
  unfold Host.infer
  apply InStep.after_quiet (unmarking.placeholder env.semantics v.typeRef)
  simp only [active, if_true, Decl.origin?, initializer]
  apply inside.before_quiet
  apply unmarking.bind (unmarking.settle (fun _ => rfl) _ _ ty)
  rintro _ rfl
  exact unmarking.pure rfl

/-- A placeholder with an initializer gets what one run of the host's typing over the initializer
gives, without the type arguments that a creation leaves open, or the top class. Inference takes the
same steps as this run. So where an initializer is a conditional, inference and the host type it
alike, whatever its branches are and whatever is in flight. -/
theorem infer_in_step_with_host {v : LocalVariable} {e : Expr}
    (active : (env.semantics.kind v.typeRef).isActive = true)
    (initializer : v.initializer = some e) (whole : env.RunsWhole e) (g : Guard) :
    (∃ ty, InStep g (env.host.infer (.localVariable v))
      (some ((if e.isDiamondCreation then ty.map erasure else ty).getD topClass))
      (Option.join <$> Request.guarded e.id (env.host.staticType e)) ty) ∧
    ∀ node c t f, env.scripted.get? node.id = none → ∀ g, ∃ ty,
      InStep g (env.host.initializerType (.conditional node c t f)) ty
        (Option.join <$> Request.guarded node.id (env.host.staticType (.conditional node c t f)))
        ty := by
  constructor
  · exact ⟨_, inStep_infer active initializer (whole.inStep g)⟩
  · intro node c t f unscripted g
    have whole : env.RunsWhole (.conditional node c t f) := by
      refine ⟨by simp, ?_⟩
      rintro _ _ _ _ ⟨⟩
      exact unscripted
    exact ⟨_, whole.inStep g⟩

/-- A variable of type `long` beside the types that are scripted. -/
def withLong : Environment :=
  branching.apply (.bind (.localVariable
    ⟨nodeOf 20, "z", some ⟨nodeOf 0, "val", [], 0⟩, some (.literal (nodeOf 8) (.long 1)), .block⟩))

/-- A conditional in a branch of a conditional, with a variable and a literal under it. -/
def variableTree : ConditionalTree :=
  ⟨nodeOf 1, .other (nodeOf 0), some (fork 2 (some (.ident (nodeOf 7) "z")) (some intLeaf)),
    some doubleLeaf⟩

/-- While the branch of type `double` is in flight it is refused, and the variable is the widest. -/
theorem variableTree_infers_long :
    withLong.RunsWhole variableTree.expr ∧
    Request.Yields (withLong.host.infer (.localVariable (valOf variableTree))) ⟨[⟨6⟩]⟩
      (some (.primitive .long)) := by
  have whole : withLong.RunsWhole variableTree.expr := by
    refine ⟨by simp [variableTree, ConditionalTree.expr], ?_⟩
    rintro _ _ _ _ ⟨⟩
    decide +kernel
  obtain ⟨⟨ty, events, events', infers, runs, -⟩, -⟩ :=
    infer_in_step_with_host (v := valOf variableTree) (by decide +kernel) rfl whole ⟨[⟨6⟩]⟩
  have typed : (Option.join <$> Request.guarded variableTree.expr.id
      (withLong.host.staticType variableTree.expr)).result? ⟨[⟨6⟩]⟩ =
        some (some (.primitive .long)) := by decide +kernel
  have long : ty = some (.primitive .long) := by
    rw [Request.Yields.result_eq ⟨events', runs⟩] at typed
    exact Option.some.inj typed
  subst long
  exact ⟨whole, events, infers⟩

end Environment
end InferredTypes
