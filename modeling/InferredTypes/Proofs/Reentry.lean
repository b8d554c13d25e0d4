import InferredTypes.Proofs.Tracing

/-! An environment's host keeps the law it is built to approximate: it types expressions by asking
its own inference, however the bindings refer to each other. Each question back enters a source that
was not in flight, so the levels of the host are never used up. -/
namespace InferredTypes

open Request

theorem countP_lt_countP {α : Type} {p q : α → Bool} {xs : List α} {a : α}
    (sub : ∀ x ∈ xs, p x = true → q x = true) (mem : a ∈ xs) (hp : p a = false)
    (hq : q a = true) : xs.countP p < xs.countP q := by
  induction xs with
  | nil => simp at mem
  | cons x xs ih =>
    have le : xs.countP p ≤ xs.countP q :=
      List.countP_mono_left fun y hy => sub y (List.mem_cons_of_mem _ hy)
    simp only [List.countP_cons]
    rcases List.mem_cons.1 mem with rfl | mem
    · simp [hp, hq]
      omega
    · have tail := ih (fun y hy => sub y (List.mem_cons_of_mem _ hy)) mem
      have head := sub x List.mem_cons_self
      by_cases hx : p x = true
      · simpa [hx, head hx] using tail
      · simp only [hx, Bool.false_eq_true, if_false]
        omega

namespace Guard

/-- How many of the given ids are not in flight. -/
def idle (g : Guard) (ids : List NodeId) : Nat :=
  ids.countP fun id => !g.holds id

theorem idle_le (g : Guard) (ids : List NodeId) : g.idle ids ≤ ids.length :=
  List.countP_le_length

theorem idle_enter_le (g : Guard) (key : NodeId) (ids : List NodeId) :
    (g.enter key).idle ids ≤ g.idle ids := by
  apply List.countP_mono_left
  intro id _
  simp +contextual [Guard.holds, Guard.enter]

theorem idle_enter_lt {g : Guard} {key : NodeId} {ids : List NodeId} (fresh : key ∉ g.inFlight)
    (mem : key ∈ ids) : (g.enter key).idle ids < g.idle ids := by
  apply countP_lt_countP _ mem
  · simp [Guard.holds, Guard.enter]
  · simpa [Guard.holds] using fresh
  · intro id _
    simp +contextual [Guard.holds, Guard.enter]

end Guard

/-- How a host asks back that may do so `n` times inside each other. -/
def Host.below (answer : (Decl → Request (Option Ty)) → Host) : Nat → Decl → Request (Option Ty)
  | 0, _ => throw .exhausted
  | n + 1, d => (unroll answer n).infer d

theorem Host.unroll_eq (answer : (Decl → Request (Option Ty)) → Host) (n : Nat) :
    unroll answer n = answer (below answer n) := by
  cases n <;> rfl

namespace Request

/-- An event that shows only guards with `ok`. -/
def Watched (ok : Guard → Prop) (e : Event) : Prop :=
  ∀ h ∈ e.guards, ok h

theorem quiet_watched (ok : Guard → Prop) : Quiet (Watched ok) := by
  intro e none h mem
  rw [none] at mem
  exact absurd mem List.not_mem_nil

/-- Computations that return, all in the same way and with only guards with `ok` on the way. -/
abbrev watching (ok : Guard → Prop) : Judgment Nat .known :=
  tracing Nat (quiet_watched ok).composes

section
variable {ok : Guard → Prop} {g : Guard}

theorem allows_watching {key : NodeId} (here : ok g)
    (entering : key ∉ g.inFlight → ok (g.enter key)) : (watching ok).Allows g key := by
  constructor
  · intro _
    exact each_singleton.2 (by simpa [Watched, Event.guards] using here)
  · intro fresh
    exact each_singleton.2 (by simpa [Watched, Event.guards] using ⟨here, entering fresh⟩)

theorem holds_asking {α : Type} {m : Nat → Request α} {Q : α → Prop} {q : Guard → Question}
    (here : ok g) (shown : (Event.asked (q g)).guards = [g]) (h : (watching ok).Holds m g Q) :
    (watching ok).Holds (fun i => Request.asking q (m i)) g Q := by
  apply Traces.asking (quiet_watched ok).composes _ h
  exact each_singleton.2 (by simpa [Watched, shown] using here)

end
end Request

namespace Environment
variable {env : Environment} {ok : Guard → Prop} {roots : List Expr} {g : Guard} {k : Nat}

/-- The expressions that bound declarations get their types from. -/
def originIds (env : Environment) : List NodeId :=
  env.bindings.entries.filterMap fun b => b.2.source?.map Expr.id

theorem idle_originIds_lt (env : Environment) (g : Guard) :
    g.idle env.originIds < env.bindings.size + 1 :=
  Nat.lt_succ_of_le (Nat.le_trans (g.idle_le env.originIds) (List.length_filterMap_le _ _))

theorem mem_originIds (env : Environment) {name : String} {d : Decl} {e : Expr}
    (bound : env.bindings.get? name = some d) (source : d.source? = some e) :
    e.id ∈ env.originIds :=
  List.mem_filterMap.2 ⟨(name, d), Assoc.mem_of_firstWith bound, by simp [source]⟩

/-- From level `k` on, questions back about bound declarations do the same where fewer than `k` of
the sources are not in flight. -/
def SettledBelow (env : Environment) (ok : Guard → Prop) (k : Nat) : Prop :=
  ∀ name d g, env.bindings.get? name = some d → ok g → g.idle env.originIds < k →
    (watching ok).Holds (fun i => Host.below env.answer (i + k) d) g fun _ => True

section
variable (closed : ∀ g, ok g → ∀ e ∈ env.scope roots, e.id ∉ g.inFlight → ok (g.enter e.id))
include closed

theorem SettledBelow.typeOf (below : env.SettledBelow ok k) {e : Expr}
    (inScope : e ∈ env.scope roots) (here : ok g) (idle : g.idle env.originIds < k) :
    (watching ok).Holds (fun i => env.typeOf (Host.below env.answer (i + k)) e) g
      fun _ => True := by
  -- The induction is on branches alone. At an identifier typing leaves the expression, and `below`
  -- takes over.
  induction e using Expr.branchInduct generalizing g with
  | step e ih =>
    have opens (b : Expr) (mem : b ∈ e.branches) :
        (watching ok).Opens (fun i => env.typeOf (Host.below env.answer (i + k)))
          (fun _ _ _ => True) g b := by
      have inScope := Leads.mem_scope (.branch mem) inScope
      refine ⟨allows_watching here (closed g here b inScope), fun fresh => ?_⟩
      exact ih b mem inScope (closed g here b inScope fresh)
        (Nat.lt_of_le_of_lt (g.idle_enter_le b.id _) idle)
    have typed := (watching ok).typeOf _ (fun _ _ => True) opens fun _ name d _ bound _ =>
      below name d g bound here idle
    exact (watching ok).mono typed fun _ _ => trivial

/-- The answers about an expression do the same once questions back from behind its mark do. -/
theorem SettledBelow.opens (below : env.SettledBelow ok k) {e : Expr}
    (inScope : e ∈ env.scope roots) (here : ok g)
    (idle : e.id ∉ g.inFlight → (g.enter e.id).idle env.originIds < k) :
    (watching ok).Opens (fun i => (env.answer (Host.below env.answer (i + k))).askStaticType)
      (fun _ _ _ => True) g e ∧
    (watching ok).Opens (fun i => (env.answer (Host.below env.answer (i + k))).askElementType)
      (fun _ _ _ => True) g e := by
  have allows := allows_watching here (closed g here e inScope)
  have typed (fresh : e.id ∉ g.inFlight) :=
    below.typeOf closed inScope (closed g here e inScope fresh) (idle fresh)
  constructor
  · refine ⟨allows, fun fresh => ?_⟩
    exact holds_asking (closed g here e inScope fresh) rfl (typed fresh)
  · refine ⟨allows, fun fresh => ?_⟩
    apply holds_asking (closed g here e inScope fresh) rfl
    exact (watching ok).bind (typed fresh) fun _ _ => (watching ok).pure trivial

/-- Inference does the same once questions back from behind the mark of the source do. -/
theorem SettledBelow.infer (below : env.SettledBelow ok k) {d : Decl}
    (inScope : ∀ e, d.source? = some e → e ∈ env.scope roots) (here : ok g)
    (idle : ∀ e, d.source? = some e → e.id ∉ g.inFlight →
      (g.enter e.id).idle env.originIds < k) :
    (watching ok).Holds (fun i => (Host.unroll env.answer (i + k)).infer d) g fun _ => True := by
  simp only [Host.unroll_eq]
  apply (watching ok).infer_any (fun i => env.answer (Host.below env.answer (i + k))) fun _ => rfl
  intro e source v f visits
  have root := inScope e source
  cases visits with
  | source => exact below.opens closed root here (idle e source)
  | branch free mem =>
    refine below.opens closed (Leads.mem_scope (.branch mem) root) (closed g here e root free) ?_
    intro _
    exact Nat.lt_of_le_of_lt (Guard.idle_enter_le _ _ _) (idle e source free)

/-- Each question back enters a source that was not in flight, so one level less is enough. -/
theorem settledBelow (k : Nat) : env.SettledBelow ok k := by
  induction k with
  | zero =>
    intro name d g _ _ idle
    exact absurd idle (Nat.not_lt_zero _)
  | succ k ih =>
    intro name d g bound here idle
    apply ih.infer closed _ here
    · intro e source fresh
      have fewer := Guard.idle_enter_lt fresh (env.mem_originIds bound source)
      omega
    · intro e source
      exact env.mem_scope_of_bound roots bound source e.mem_reach_self

/-- The host comes back with the type of an expression. -/
theorem settles_staticType {e : Expr} (inScope : e ∈ env.scope roots) (here : ok g) :
    Settles (env.host.staticType e) g (fun _ => True) (Watched ok) := by
  have typed := (settledBelow closed (env.bindings.size + 1)).typeOf closed inScope here
    (env.idle_originIds_lt g)
  have first := typed.member 0
  rwa [Nat.zero_add] at first

theorem settles_infer {d : Decl} (inScope : ∀ e, d.source? = some e → e ∈ env.scope roots)
    (here : ok g) : Settles (env.host.infer d) g (fun _ => True) (Watched ok) := by
  have inferred := (settledBelow closed (env.bindings.size + 1)).infer closed inScope here
    fun e _ _ => env.idle_originIds_lt (g.enter e.id)
  have first := inferred.member 0
  rwa [Nat.zero_add] at first

end

/-- Typing does the same at all levels above the number of bindings. -/
theorem typeOf_below (env : Environment) {m n : Nat} (hm : env.bindings.size + 1 ≤ m)
    (hn : env.bindings.size + 1 ≤ n) (e : Expr) :
    env.typeOf (Host.below env.answer m) e = env.typeOf (Host.below env.answer n) e := by
  have closed (g : Guard) (_ : True) (f : Expr) (_ : f ∈ env.scope [e])
      (_ : f.id ∉ g.inFlight) : True := trivial
  have typed (g : Guard) := (settledBelow closed (env.bindings.size + 1)).typeOf closed
    (env.mem_scope_of_root (by simp) e.mem_reach_self) (g := g) trivial (env.idle_originIds_lt g)
  exact eq_of_tracing (fun n => env.typeOf (Host.below env.answer n) e) _ typed hm hn

/-- More levels than there are bindings change nothing. -/
theorem unroll_eq_host (env : Environment) (extra : Nat) :
    Host.unroll env.answer (env.bindings.size + 1 + extra) = env.host := by
  have same : env.typeOf (Host.below env.answer (env.bindings.size + 1 + extra)) =
      env.typeOf (Host.below env.answer (env.bindings.size + 1)) :=
    funext (env.typeOf_below (Nat.le_add_right _ _) (Nat.le_refl _))
  rw [host, Host.unroll_eq, Host.unroll_eq, answer, answer, same]

/-- The host's inference asks the host itself, without any count of levels. -/
theorem answer_host_infer (env : Environment) : env.answer env.host.infer = env.host :=
  env.unroll_eq_host 1

/-- The host types expressions with the help of its own inference. -/
theorem host_staticType (env : Environment) (e : Expr) :
    env.host.staticType e = env.typeOf env.host.infer e :=
  congrFun (congrArg Host.staticType env.answer_host_infer.symm) e

/-- What a loop over an expression yields follows from the expression's type. -/
theorem host_elementType (env : Environment) (e : Expr) :
    env.host.elementType e = do
      return (← env.host.staticType e).bind env.elementOf :=
  rfl

end Environment
end InferredTypes
