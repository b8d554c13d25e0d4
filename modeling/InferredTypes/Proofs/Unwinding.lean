import InferredTypes.Proofs.Restoration
import InferredTypes.Proofs.SmallPrograms
import InferredTypes.Proofs.Values

/-! Hosts that may abort. As long as they touch the guard only by running computations behind
marks, a request gives the guard back as it was, also when an abort leaves it from deep inside. -/
namespace InferredTypes

namespace Request
variable {α β : Type}

/-- Goes on with `handler` where `m` has been aborted. -/
def rescue (m : Request α) (handler : Request α) : Request α := fun s =>
  match m s with
  | .error .aborted s => handler s
  | result => result

/-- Computations that touch the guard only by running others behind marks. What they do may depend
on the guard and on everything before; they may take notes, abort, catch an abort, and ask `infer`
about declarations. -/
inductive ThroughRuns (infer : Decl → Request (Option Ty)) : {α : Type} → Request α → Prop
  | pure {α : Type} (a : α) : ThroughRuns infer (Pure.pure a : Request α)
  | abort {α : Type} : ThroughRuns infer (throw .aborted : Request α)
  | note (e : Event) : ThroughRuns infer (Request.note e)
  | look {α : Type} {m : Context → Request α} (h : ∀ s, ThroughRuns infer (m s)) :
      ThroughRuns infer fun s => m s s
  | bind {α β : Type} {m : Request α} {f : α → Request β} (hm : ThroughRuns infer m)
      (hf : ∀ a, ThroughRuns infer (f a)) : ThroughRuns infer (m >>= f)
  | rescue {α : Type} {m handler : Request α} (hm : ThroughRuns infer m)
      (hh : ThroughRuns infer handler) : ThroughRuns infer (m.rescue handler)
  | run {α : Type} (key : NodeId) {m : Request α} (hm : ThroughRuns infer m) :
      ThroughRuns infer (Request.guarded key m)
  | infer (d : Decl) : ThroughRuns infer (infer d)

theorem Restores.rescue {m handler : Request α} (hm : Restores m) (hh : Restores handler) :
    Restores (m.rescue handler) := by
  intro s
  have first := hm s
  cases h : m s with
  | ok a s' =>
    rw [after_of_ok h] at first
    simpa [after, Request.rescue, h] using first
  | error stop s' =>
    rw [after_of_error h] at first
    cases stop with
    | aborted =>
      have second := hh s'
      rw [first] at second
      simpa [after, Request.rescue, h] using second
    | exhausted => simpa [after, Request.rescue, h] using first

theorem Restores.of_yields {m : Request α} {value : Guard → α} (h : ∀ g, Yields m g (value g)) :
    Restores m := by
  intro s
  obtain ⟨events, runs⟩ := h s.guard
  rw [after_of_ok (runs s.journal)]

theorem ThroughRuns.restores {infer : Decl → Request (Option Ty)} (back : ∀ d, Restores (infer d))
    {m : Request α} (h : ThroughRuns infer m) : Restores m := by
  induction h with
  | pure a => exact .pure a
  | abort => exact .throw .aborted
  | note e => exact .note e
  | look _ ih =>
    intro s
    exact ih s s
  | bind _ _ first rest => exact .bind first rest
  | rescue _ _ first second => exact .rescue first second
  | run key _ inside => exact .guarded key inside
  | infer d => exact back d

end Request

open Request

namespace Host

/-- A host whose answers touch the guard only by running computations behind marks, however it asks
back into inference. -/
structure Disciplined (answer : (Decl → Request (Option Ty)) → Host) : Prop where
  staticType : ∀ infer e, ThroughRuns infer ((answer infer).staticType e)
  elementType : ∀ infer e, ThroughRuns infer ((answer infer).elementType e)

theorem Disciplined.restoring {answer : (Decl → Request (Option Ty)) → Host}
    (h : Disciplined answer) {infer : Decl → Request (Option Ty)}
    (back : ∀ d, Restores (infer d)) : (answer infer).Restoring where
  staticType e := (h.staticType infer e).restores back
  elementType e := (h.elementType infer e).restores back

/-- Each level of questions back restores the guard once the level below does. -/
theorem Disciplined.restoring_unroll {answer : (Decl → Request (Option Ty)) → Host}
    (h : Disciplined answer) (n : Nat) : (unroll answer n).Restoring := by
  induction n with
  | zero => exact h.restoring fun _ => .throw .exhausted
  | succ n ih => exact h.restoring ih.infer

/-- A request leaves the guard exactly as it found it, whether it returns or an abort of the host
leaves it, from whatever depth of runs and questions back. So do the questions that an environment
answers. -/
theorem guard_restored_on_every_exit (answer : (Decl → Request (Option Ty)) → Host)
    (disciplined : Disciplined answer) (n : Nat) :
    (∀ d, Restores ((unroll answer n).infer d)) ∧
    ∀ (env : Environment) (e : Expr),
      Restores (env.host.staticType e) ∧ Restores (env.host.elementType e) := by
  constructor
  · exact (disciplined.restoring_unroll n).infer
  · intro env e
    exact ⟨.of_yields fun g => env.yields_staticType g e,
      .of_yields fun g => env.yields_elementType g e⟩

/-- A variable whose value is one of two expressions. -/
def choice : Decl :=
  Environment.valDecl 10 "choice" (.conditional ⟨⟨1⟩, ⟨0, 0⟩⟩ (.other ⟨⟨6⟩, ⟨0, 0⟩⟩)
    (some (.other ⟨⟨2⟩, ⟨0, 0⟩⟩)) (some (.other ⟨⟨4⟩, ⟨0, 0⟩⟩)))

/-- A host that takes every written type for a placeholder. It yields the type of `choice` from
every loop, and aborts behind a mark of its own on the first branch of `choice`. -/
def abortingAnswer (infer : Decl → Request (Option Ty)) : Host where
  qualifiedName _ := some "lombok.val"
  assignable _ _ := false
  erasure ty := ty
  topType _ := .null
  staticType e :=
    if e.id = ⟨2⟩ then Option.join <$> Request.guarded ⟨3⟩ (throw .aborted) else pure none
  elementType _ := infer choice

theorem disciplined_abortingAnswer : Disciplined abortingAnswer where
  staticType infer e := by
    simp only [abortingAnswer]
    split
    · exact .bind (.run ⟨3⟩ .abort) fun _ => .pure _
    · exact .pure none
  elementType infer _ := .infer choice

/-- A loop parameter over expression 0. -/
def abortedLoop : Decl :=
  .parameter ⟨⟨⟨11⟩, ⟨0, 0⟩⟩, "x", some ⟨⟨⟨0⟩, ⟨0, 0⟩⟩, "val", [], 0⟩,
    .foreachLoop ⟨⟨12⟩, ⟨0, 0⟩⟩ (some (.other ⟨⟨0⟩, ⟨0, 0⟩⟩))⟩

/-- The abort leaves four runs, of a loop, a conditional, its branch and the host, and what was in
flight before is in flight again. -/
theorem abortedLoop_guard_restored :
    Disciplined abortingAnswer ∧
    ∃ journal, (unroll abortingAnswer 1).infer abortedLoop ⟨⟨[⟨7⟩]⟩, #[]⟩ =
        .error .aborted ⟨⟨[⟨7⟩]⟩, journal⟩ ∧
      journal.back? = some (.entered ⟨3⟩ ⟨[⟨7⟩, ⟨0⟩, ⟨1⟩, ⟨2⟩]⟩) := by
  obtain ⟨s, stopped, last⟩ : ∃ s, (unroll abortingAnswer 1).infer abortedLoop ⟨⟨[⟨7⟩]⟩, #[]⟩ =
      .error .aborted s ∧ s.journal.back? = some (.entered ⟨3⟩ ⟨[⟨7⟩, ⟨0⟩, ⟨1⟩, ⟨2⟩]⟩) :=
    ⟨_, rfl, rfl⟩
  have restores := (guard_restored_on_every_exit abortingAnswer disciplined_abortingAnswer 1).1
  have kept : s.guard = ⟨[⟨7⟩]⟩ := after_of_error stopped ▸ restores abortedLoop ⟨⟨[⟨7⟩]⟩, #[]⟩
  refine ⟨disciplined_abortingAnswer, s.journal, ?_, last⟩
  rw [stopped, ← kept]

end Host
end InferredTypes
