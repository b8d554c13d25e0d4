import InferredTypes.Guard.Script
import Mathlib.Logic.Relation

/-! Scripts on two guards, executed one small step at a time: a machine with a stack of open steps
that an abort unwinds. A whole run of the machine ends where the script ends. -/
namespace InferredTypes.Guard

namespace Bench

/-- Releases what the guard on one side holds beyond the given depth. -/
def release (side : Side) (depth : Nat) (s : Bench) : Bench :=
  (slot side).write ((s.guard side).truncate depth) s

/-- Notes a refusal. -/
def refuse (side : Side) (key : NodeId) (s : Bench) : Bench :=
  (slot side).note (.refused key (s.guard side)) s

/-- Notes an entry and enters. -/
def grant (side : Side) (key : NodeId) (s : Bench) : Bench :=
  (slot side).write ((s.guard side).enter key) ((slot side).note (.entered key (s.guard side)) s)

@[simp] theorem guard_observe (o : Observation) (s : Bench) (side : Side) :
    (s.observe o).guard side = s.guard side := by
  cases side <;> rfl

@[simp] theorem guard_refuse (side other : Side) (key : NodeId) (s : Bench) :
    (s.refuse side key).guard other = s.guard other := by
  cases other <;> rfl

theorem guard_release (side other : Side) (depth : Nat) (s : Bench) :
    (s.release side depth).guard other =
      if other = side then (s.guard side).truncate depth else s.guard other := by
  cases side <;> cases other <;> rfl

theorem guard_grant (side other : Side) (key : NodeId) (s : Bench) :
    (s.grant side key).guard other =
      if other = side then (s.guard side).enter key else s.guard other := by
  cases side <;> cases other <;> rfl

/-- What was entered last is released again, and nothing else. -/
theorem guard_release_grant (side other : Side) (key : NodeId) (s t : Bench)
    (same : ∀ side', t.guard side' = (s.grant side key).guard side') :
    (t.release side (s.guard side).depth).guard other = s.guard other := by
  rw [guard_release]
  split
  · next h =>
    subst h
    rw [same, guard_grant, if_pos rfl, truncate_enter]
  · next h => rw [same, guard_grant, if_neg h]

end Bench

/-- A step that has begun and not ended, with the steps after it. A run keeps the depth that it goes
back to. -/
inductive Frame where
  | run (side : Side) (key : NodeId) (depth : Nat) (rest : List Step)
  | attempt (rest : List Step)

/-- Whether steps are still to be done in the innermost open step, or an abort is on its way out. -/
inductive Mode where
  | running (todo : List Step)
  | unwinding

/-- The open steps stand innermost first. -/
structure Machine where
  frames : List Frame
  mode : Mode
  bench : Bench

namespace Machine

def start (script : List Step) : Machine :=
  ⟨[], .running script, .fresh⟩

/-- One small step. A run frame is left in two ways, by its end and by an abort, and both release
what was entered. -/
inductive Moves : Machine → Machine → Prop
  | refuse {frames side key body todo} {s : Bench} (held : key ∈ (s.guard side).inFlight) :
      Moves ⟨frames, .running (.run side key body :: todo), s⟩
        ⟨frames, .running todo,
          ((s.observe (.enter key)).refuse side key).observe (.exit key false)⟩
  | enter {frames side key body todo} {s : Bench} (fresh : key ∉ (s.guard side).inFlight) :
      Moves ⟨frames, .running (.run side key body :: todo), s⟩
        ⟨.run side key (s.guard side).depth todo :: frames, .running body,
          (s.observe (.enter key)).grant side key⟩
  | leave {frames side key depth rest} {s : Bench} :
      Moves ⟨.run side key depth rest :: frames, .running [], s⟩
        ⟨frames, .running rest, (s.release side depth).observe (.exit key true)⟩
  | unwind {frames side key depth rest} {s : Bench} :
      Moves ⟨.run side key depth rest :: frames, .unwinding, s⟩
        ⟨frames, .unwinding, s.release side depth⟩
  | check {frames key todo} {s : Bench} :
      Moves ⟨frames, .running (.check key :: todo), s⟩
        ⟨frames, .running todo, s.observe (.check key (s.left.holds key) (s.right.holds key))⟩
  | depth {frames todo} {s : Bench} :
      Moves ⟨frames, .running (.depth :: todo), s⟩
        ⟨frames, .running todo, s.observe (.depth s.left.depth s.right.depth)⟩
  | abort {frames todo} {s : Bench} :
      Moves ⟨frames, .running (.abort :: todo), s⟩ ⟨frames, .unwinding, s⟩
  | attempt {frames body todo} {s : Bench} :
      Moves ⟨frames, .running (.attempt body :: todo), s⟩
        ⟨.attempt todo :: frames, .running body, s⟩
  | succeed {frames rest} {s : Bench} :
      Moves ⟨.attempt rest :: frames, .running [], s⟩
        ⟨frames, .running rest, s.observe (.caught false s.left.depth s.right.depth)⟩
  | recover {frames rest} {s : Bench} :
      Moves ⟨.attempt rest :: frames, .unwinding, s⟩
        ⟨frames, .running rest, s.observe (.caught true s.left.depth s.right.depth)⟩

abbrev Reaches : Machine → Machine → Prop :=
  Relation.ReflTransGen Moves

/-- Where the machine stands once a step inside `frames` has had the given outcome. -/
def after (frames : List Frame) (todo : List Step) : EStateM.Result Stop Bench Unit → Machine
  | .ok _ s => ⟨frames, .running todo, s⟩
  | .error _ s => ⟨frames, .unwinding, s⟩

end Machine

open Machine

namespace Step

theorem run_slot {α : Type} (side : Side) (key : NodeId) (body : Script α) (s : Bench) :
    Guard.run (Bench.slot side) key body s =
      if key ∈ (s.guard side).inFlight then .ok none (s.refuse side key)
      else
        match body (s.grant side key) with
        | .ok a t => .ok (some a) (t.release side (s.guard side).depth)
        | .error e t => .error e (t.release side (s.guard side).depth) := by
  have read (t : Bench) : (Bench.slot side).read t = t.guard side := rfl
  unfold Guard.run
  simp only [read, holds_iff]
  by_cases held : key ∈ (s.guard side).inFlight
  · simp only [held, if_true, Bench.refuse]
  · simp only [held, if_false, Bench.grant]
    cases body _ <;> rfl

/-- A run observes its beginning, then is refused or does its body between entry and release. -/
theorem exec_run (side : Side) (key : NodeId) (body : List Step) (s : Bench) :
    (Step.run side key body).exec s =
      if key ∈ (s.guard side).inFlight then
        .ok () (((s.observe (.enter key)).refuse side key).observe (.exit key false))
      else
        match Step.execAll body ((s.observe (.enter key)).grant side key) with
        | .ok _ t => .ok () ((t.release side (s.guard side).depth).observe (.exit key true))
        | .error e t => .error e (t.release side (s.guard side).depth) := by
  have opened : (Step.run side key body).exec s =
      match Guard.run (Bench.slot side) key (Step.execAll body) (s.observe (.enter key)) with
      | .ok result t => .ok () (t.observe (.exit key result.isSome))
      | .error e t => .error e t := by
    unfold Step.exec
    show EStateM.bind (Guard.run (Bench.slot side) key (Step.execAll body)) _
      (s.observe (.enter key)) = _
    unfold EStateM.bind
    cases Guard.run (Bench.slot side) key (Step.execAll body) (s.observe (.enter key)) <;> rfl
  rw [opened, run_slot, Bench.guard_observe]
  by_cases held : key ∈ (s.guard side).inFlight
  · simp only [held, if_true]
    rfl
  · simp only [held, if_false]
    cases Step.execAll body ((s.observe (.enter key)).grant side key) <;> rfl

theorem execAll_cons (step : Step) (steps : List Step) (s : Bench) :
    Step.execAll (step :: steps) s =
      match step.exec s with
      | .ok _ t => Step.execAll steps t
      | .error e t => .error e t := by
  rw [Step.execAll]
  simp only [Bind.bind, EStateM.bind]
  cases step.exec s <;> rfl

/-- An attempt ends normally, with both guards as its body left them. -/
theorem exec_attempt (body : List Step) (s : Bench) :
    (Step.attempt body).exec s =
      match Step.execAll body s with
      | .ok _ t => .ok () (t.observe (.caught false t.left.depth t.right.depth))
      | .error _ t => .ok () (t.observe (.caught true t.left.depth t.right.depth)) := by
  unfold Step.exec
  cases Step.execAll body s <;> rfl

end Step

mutual
/-- The machine does a step as a script does, whatever stands around it. -/
theorem reaches_exec (step : Step) (frames : List Frame) (todo : List Step) (s : Bench) :
    Reaches ⟨frames, .running (step :: todo), s⟩ (after frames todo (step.exec s)) := by
  match step with
  | .run side key body =>
    rw [Step.exec_run]
    by_cases held : key ∈ (s.guard side).inFlight
    · rw [if_pos held]
      exact .single (.refuse held)
    · rw [if_neg held]
      have inside := reaches_execAll body (.run side key (s.guard side).depth todo :: frames)
        ((s.observe (.enter key)).grant side key)
      refine .head (.enter held) (inside.trans ?_)
      cases Step.execAll body ((s.observe (.enter key)).grant side key) with
      | ok _ t => exact .single .leave
      | error e t => exact .single .unwind
  | .check key => exact .single .check
  | .depth => exact .single .depth
  | .abort => exact .single .abort
  | .attempt body =>
    have inside := reaches_execAll body (.attempt todo :: frames) s
    rw [Step.exec_attempt]
    refine .head .attempt (inside.trans ?_)
    cases Step.execAll body s with
    | ok _ t => exact .single .succeed
    | error e t => exact .single .recover

theorem reaches_execAll (steps : List Step) (frames : List Frame) (s : Bench) :
    Reaches ⟨frames, .running steps, s⟩ (after frames [] (Step.execAll steps s)) := by
  match steps with
  | [] =>
    rw [Step.execAll]
    exact .refl
  | step :: steps =>
    have first := reaches_exec step frames steps s
    rw [Step.execAll_cons]
    refine first.trans ?_
    cases step.exec s with
    | ok _ t => exact reaches_execAll steps frames t
    | error e t => exact .refl
end

end InferredTypes.Guard
