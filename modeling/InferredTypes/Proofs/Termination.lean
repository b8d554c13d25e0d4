import InferredTypes.Proofs.Reentry
import Mathlib.Data.List.Dedup

/-! Typing and inference come to an end on every environment, however its bindings refer to each
other, and the guard stays bounded while they run. -/
namespace InferredTypes

/-- The guards that come from `g` by entering, one after the other, expressions with the given ids
that were not in flight. -/
inductive Guard.Grown (ids : List NodeId) (g : Guard) : Guard → Prop
  | refl : Grown ids g g
  | enter {h : Guard} {key : NodeId} (grown : Grown ids g h) (mem : key ∈ ids)
      (fresh : key ∉ h.inFlight) : Grown ids g (h.enter key)

namespace Guard.Grown
variable {ids : List NodeId} {g h : Guard}

theorem inFlight_eq (grown : Grown ids g h) :
    ∃ added, h.inFlight = g.inFlight ++ added ∧ added.Nodup ∧
      ∀ key ∈ added, key ∈ ids ∧ key ∉ g.inFlight := by
  induction grown with
  | refl => exact ⟨[], by simp⟩
  | @enter h key _ mem fresh ih =>
    obtain ⟨added, split, nodup, all⟩ := ih
    rw [split, List.mem_append, not_or] at fresh
    refine ⟨added ++ [key], by simp [Guard.enter, split], ?_, ?_⟩
    · exact List.nodup_append.2 ⟨nodup, by simp, by
        rintro a ha b hb rfl
        exact fresh.2 (List.mem_singleton.1 hb ▸ ha)⟩
    · intro other hother
      rcases List.mem_append.1 hother with hother | hother
      · exact all other hother
      · rw [List.mem_singleton.1 hother]
        exact ⟨mem, fresh.1⟩

theorem nodup (grown : Grown ids g h) (start : g.inFlight.Nodup) : h.inFlight.Nodup := by
  obtain ⟨added, split, nodup, all⟩ := grown.inFlight_eq
  rw [split, List.nodup_append]
  refine ⟨start, nodup, ?_⟩
  rintro a ha b hb rfl
  exact (all a hb).2 ha

theorem mem_or_mem (grown : Grown ids g h) {key : NodeId} (mem : key ∈ h.inFlight) :
    key ∈ g.inFlight ∨ key ∈ ids := by
  obtain ⟨added, split, -, all⟩ := grown.inFlight_eq
  rw [split, List.mem_append] at mem
  exact mem.imp_right fun hadded => (all key hadded).1

theorem depth_le (grown : Grown ids g h) : h.depth ≤ g.depth + ids.dedup.length := by
  obtain ⟨added, split, nodup, all⟩ := grown.inFlight_eq
  have sub : added ⊆ ids.dedup := fun key hkey => List.mem_dedup.2 (all key hkey).1
  have short : added.length ≤ ids.dedup.length := nodup.length_le_of_subset sub
  simp only [Guard.depth, split, List.length_append]
  omega

end Guard.Grown

open Guard (Grown)

namespace Request
variable {α : Type}

/-- All guards there are while a computation runs that started with the guard `g` and noted
`events`: entering an expression is noted, and leaving it goes back to the guard from before. -/
def moments (g : Guard) (events : Journal) : List Guard :=
  g :: events.toList.flatMap Event.guards

/-- From every state the computation returns and leaves the guard as it was. Until then all that is
in flight was in flight at the start or is one of `ids`, with no repetition that was not there at
the start. -/
def Bounded (ids : List NodeId) (m : Request α) : Prop :=
  ∀ s : Context, ∃ a events, m s = .ok a ⟨s.guard, s.journal ++ events⟩ ∧
    ∀ h ∈ moments s.guard events,
      (s.guard.inFlight.Nodup → h.inFlight.Nodup) ∧
      (∀ key ∈ h.inFlight, key ∈ s.guard.inFlight ∨ key ∈ ids) ∧
      h.depth ≤ s.guard.depth + ids.dedup.length

theorem bounded_of_settles {ids : List NodeId} {m : Request α}
    (h : ∀ g, Settles m g (fun _ => True) (Watched (Grown ids g))) : Bounded ids m := by
  intro s
  obtain ⟨a, events, runs, -, watched⟩ := h s.guard
  refine ⟨a, events, runs () s.journal, fun g mem => ?_⟩
  have grown : Grown ids s.guard g := by
    rcases List.mem_cons.1 mem with rfl | mem
    · exact .refl
    · obtain ⟨e, he, shown⟩ := List.mem_flatMap.1 mem
      exact watched e he g shown
  exact ⟨grown.nodup, fun key => grown.mem_or_mem, grown.depth_le⟩

end Request

open Request

namespace Environment

/-- The ids of all expressions that a request about the given ones may enter. -/
def scopeIds (env : Environment) (roots : List Expr) : List NodeId :=
  (env.scope roots).map Expr.id

/-- Entering an expression in scope is one more step of growing. -/
theorem grown_enter (env : Environment) (roots : List Expr) (start g : Guard)
    (grown : Grown (env.scopeIds roots) start g) (e : Expr) (inScope : e ∈ env.scope roots)
    (fresh : e.id ∉ g.inFlight) : Grown (env.scopeIds roots) start (g.enter e.id) :=
  grown.enter (List.mem_map_of_mem inScope) fresh

/-- Every request returns, on every environment and from every guard, cyclic bindings and repeated
ids included. The levels that the host is built with are never used up, and what is in flight on
the way comes without new repetitions from the ids in scope. -/
theorem evaluation_terminates (env : Environment) :
    (∀ d, Bounded (env.scopeIds d.source?.toList) (env.host.infer d)) ∧
    (∀ d, Bounded (env.scopeIds d.source?.toList) (env.variableType env.host.infer d)) ∧
    (∀ e, Bounded (env.scopeIds [e]) (env.host.staticType e)) ∧
    (∀ e, Bounded (env.scopeIds [e]) (env.host.elementType e)) ∧
    (∀ e, Bounded (env.scopeIds e.toList) (env.typeOfBranch env.host.infer e)) ∧
    (∀ extra, Host.unroll env.answer (env.bindings.size + 1 + extra) = env.host) ∧
    env.answer env.host.infer = env.host := by
  have rooted {roots : List Expr} {e : Expr} (mem : e ∈ roots) : e ∈ env.scope roots :=
    env.mem_scope_of_root mem e.mem_reach_self
  have inferred (d : Decl) (g : Guard) : Settles (env.host.infer d) g (fun _ => True)
      (Watched (Grown (env.scopeIds d.source?.toList) g)) := by
    apply settles_infer (env.grown_enter d.source?.toList g) _ .refl
    intro e source
    exact rooted (by simp [source])
  have typed (e : Expr) (g : Guard) : Settles (env.host.staticType e) g (fun _ => True)
      (Watched (Grown (env.scopeIds [e]) g)) :=
    settles_staticType (env.grown_enter [e] g) (rooted (by simp)) .refl
  refine ⟨fun d => ?_, fun d => ?_, fun e => ?_, fun e => ?_, fun e => ?_, env.unroll_eq_host,
    env.answer_host_infer⟩ <;> refine bounded_of_settles fun g => ?_
  · exact inferred d g
  · let J := tracing Unit (quiet_watched (Grown (env.scopeIds d.source?.toList) g)).composes
    exact J.mono (J.variableType (fun _ _ => True) fun _ => inferred d g) fun _ _ => trivial
  · exact typed e g
  · let J := tracing Unit (quiet_watched (Grown (env.scopeIds [e]) g)).composes
    exact J.bind (typed e g) fun _ _ => J.pure trivial
  · let J := tracing Unit (quiet_watched (Grown (env.scopeIds e.toList) g)).composes
    have opens (b : Expr) (mem : b ∈ e.toList) : J.Opens (fun _ => env.typeOf env.host.infer)
        (fun _ _ _ => True) g b := by
      have entering := env.grown_enter e.toList g g .refl b (rooted mem)
      refine ⟨allows_watching .refl entering, fun fresh => ?_⟩
      rw [← env.host_staticType]
      exact settles_staticType (env.grown_enter e.toList g) (rooted mem) (entering fresh)
    exact J.mono (J.typeOfBranch opens) fun _ _ => trivial

end Environment
end InferredTypes
