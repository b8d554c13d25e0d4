import InferredTypes.Environment.Typing

/-! What a request comes to when it returns: its result, the events it notes and the guard it
leaves behind. One rule for each way of building requests, and the results of the parts of inference
that ask nothing about expressions. -/
namespace InferredTypes

/-- The guards that an event shows. An entry shows the guard before and after. -/
def Event.guards : Event → List Guard
  | entered key g => [g, g.enter key]
  | refused _ g => [g]
  | asked (.staticType _ g) | asked (.elementType _ g) => [g]
  | _ => []

namespace Request
variable {α β : Type}

/-- From the guard `g` the computation returns `a`, leaves the guard as it was and adds `events` to
the journal, whatever the journal held before. -/
def Runs (m : Request α) (g : Guard) (a : α) (events : Journal) : Prop :=
  ∀ journal : Journal, m ⟨g, journal⟩ = .ok a ⟨g, journal ++ events⟩

namespace Runs
variable {m : Request α} {g : Guard} {a : α} {events : Journal} {key : NodeId}

theorem pure (a : α) (g : Guard) : Runs (Pure.pure a) g a #[] := by
  intro journal
  simp [Pure.pure, EStateM.pure]

theorem note (e : Event) (g : Guard) : Runs (Request.note e) g () #[e] := by
  intro journal
  rw [Array.append_singleton]
  rfl

theorem bind {f : α → Request β} {b : β} {rest : Journal} (hm : Runs m g a events)
    (hf : Runs (f a) g b rest) : Runs (m >>= f) g b (events ++ rest) := by
  intro journal
  simp only [Bind.bind, EStateM.bind, hm journal, hf (journal ++ events), Array.append_assoc]

theorem map (f : α → β) (hm : Runs m g a events) : Runs (f <$> m) g (f a) events := by
  intro journal
  simp only [Functor.map, EStateM.map, hm journal]

theorem asking (q : Guard → Question) (hm : Runs m g a events) :
    Runs (Request.asking q m) g a (#[.asked (q g)] ++ events) := by
  intro journal
  rw [← Array.append_assoc, Array.append_singleton]
  exact hm (journal.push (.asked (q g)))

theorem refused (held : key ∈ g.inFlight) :
    Runs (Request.guarded key m) g none #[.refused key g] := by
  intro journal
  simp [Request.guarded, Guard.run, held]

theorem entered (fresh : key ∉ g.inFlight) (hm : Runs m (g.enter key) a events) :
    Runs (Request.guarded key m) g (some a) (#[.entered key g] ++ events) := by
  intro journal
  have inside := hm (journal.push (.entered key g))
  rw [← Array.append_assoc, Array.append_singleton]
  simp [Request.guarded, Guard.run, fresh, inside]

end Runs

end Request

namespace Semantics

/-- The placeholder that a written type denotes. -/
def kind (sem : Semantics) : Option TypeRef → Placeholder
  | none => .none
  | some ref => Placeholder.ofName (sem.qualifiedName ref)

/-- The type that a conditional gets from the types of its branches. -/
def wider (sem : Semantics) : Option Ty → Option Ty → Option Ty
  | none, whenFalse => whenFalse
  | some whenTrue, none => some whenTrue
  | some whenTrue, some whenFalse =>
    if sem.assignable whenFalse whenTrue then some whenTrue
    else if sem.assignable whenTrue whenFalse then some whenFalse
    else some whenTrue

/-- The type of an initializer, without the type arguments that a creation leaves open. -/
def closed (sem : Semantics) (e : Expr) (ty : Option Ty) : Option Ty :=
  if e.isDiamondCreation then ty.map sem.erasure else ty

end Semantics
end InferredTypes
