import InferredTypes.Proofs.ScriptMachine

/-! Guards follow the text of a script: at every point of its execution each guard holds the keys
of the runs around that point, whatever was run, refused, aborted and caught before. -/
namespace InferredTypes.Guard

namespace Machine

/-- The keys of the open runs on one side, outermost first. -/
def enclosing (side : Side) : List Frame → List NodeId
  | [] => []
  | .run other key _ _ :: frames =>
    if other = side then enclosing side frames ++ [key] else enclosing side frames
  | .attempt _ :: frames => enclosing side frames

/-- The frames are runs and attempts of the script, each one standing in the body of the next, and
the block is the body of the innermost one. -/
inductive Inside (script : List Step) : List Frame → List Step → Prop
  | script : Inside script [] script
  | run {frames block before side key body depth rest} (outer : Inside script frames block)
      (here : block = before ++ .run side key body :: rest) :
      Inside script (.run side key depth rest :: frames) body
  | attempt {frames block before body rest} (outer : Inside script frames block)
      (here : block = before ++ .attempt body :: rest) :
      Inside script (.attempt rest :: frames) body

/-- The open steps of the machine enclose its place in the script. -/
def Placed (script : List Step) (m : Machine) : Prop :=
  ∃ block, Inside script m.frames block ∧ ∀ todo, m.mode = .running todo → todo <:+ block

theorem Inside.placed {script block todo : List Step} {frames : List Frame} {s : Bench}
    (inside : Inside script frames block) (left : todo <:+ block) :
    Placed script ⟨frames, .running todo, s⟩ := by
  refine ⟨block, inside, ?_⟩
  rintro _ ⟨⟩
  exact left

theorem Placed.moves {script : List Step} {m m' : Machine} (placed : m.Placed script)
    (step : Moves m m') : m'.Placed script := by
  obtain ⟨block, inside, left⟩ := placed
  have suffix_after {block before rest : List Step} {step : Step}
      (here : block = before ++ step :: rest) : rest <:+ block :=
    here ▸ (List.suffix_cons _ _).trans (List.suffix_append _ _)
  cases step with
  | refuse | check | depth => exact inside.placed ((List.suffix_cons _ _).trans (left _ rfl))
  | abort => exact ⟨block, inside, nofun⟩
  | enter =>
    obtain ⟨before, here⟩ := left _ rfl
    exact (Inside.run inside here.symm).placed List.suffix_rfl
  | attempt =>
    obtain ⟨before, here⟩ := left _ rfl
    exact (Inside.attempt inside here.symm).placed List.suffix_rfl
  | leave =>
    cases inside with
    | run outer here => exact outer.placed (suffix_after here)
  | succeed | recover =>
    cases inside with
    | attempt outer here => exact outer.placed (suffix_after here)
  | unwind =>
    cases inside with
    | run outer => exact ⟨_, outer, nofun⟩

/-- Every open run goes back to the number of open runs around it on the same side. -/
def Anchored : List Frame → Prop
  | [] => True
  | .run side _ depth _ :: frames => depth = (enclosing side frames).length ∧ Anchored frames
  | .attempt _ :: frames => Anchored frames

/-- Both guards hold the keys of the open runs. -/
structure Lexical (frames : List Frame) (s : Bench) : Prop where
  inFlight : ∀ side, (s.guard side).inFlight = enclosing side frames
  nodup : ∀ side, (enclosing side frames).Nodup
  anchored : Anchored frames

namespace Lexical
variable {frames : List Frame} {s : Bench} {side : Side} {key : NodeId} {rest : List Step}

theorem fresh : Lexical [] .fresh where
  inFlight side := by cases side <;> rfl
  nodup _ := List.nodup_nil
  anchored := trivial

/-- Entering a run whose key is not open yet. -/
theorem enter (h : Lexical frames s) (fresh : key ∉ (s.guard side).inFlight) :
    Lexical (.run side key (s.guard side).depth rest :: frames) (s.grant side key) := by
  refine ⟨fun other => ?_, fun other => ?_, ?_, h.anchored⟩
  · rw [Bench.guard_grant]
    by_cases same : other = side
    · subst same
      simp [enclosing, Guard.enter, h.inFlight other]
    · simp [enclosing, same, Ne.symm same, h.inFlight other]
  · simp only [enclosing]
    split
    · next same =>
      subst same
      rw [h.inFlight side] at fresh
      exact List.nodup_append.2 ⟨h.nodup side, by simp, by
        rintro a ha b hb rfl
        exact fresh (List.mem_singleton.1 hb ▸ ha)⟩
    · exact h.nodup other
  · rw [Guard.depth, h.inFlight side]

/-- Leaving a run, by its end or by an abort. -/
theorem release {depth : Nat} (h : Lexical (.run side key depth rest :: frames) s) :
    Lexical frames (s.release side depth) := by
  obtain ⟨goesBack, anchored⟩ := h.anchored
  refine ⟨fun other => ?_, fun other => ?_, anchored⟩
  · have held := h.inFlight other
    rw [Bench.guard_release]
    split
    · next same =>
      subst same
      simp only [enclosing, if_true] at held
      simp [Guard.truncate, held, goesBack]
    · next different => simpa [enclosing, Ne.symm different] using held
  · have nodup := h.nodup other
    simp only [enclosing] at nodup
    split at nodup
    · exact (List.nodup_append.1 nodup).1
    · exact nodup

theorem attempt_iff : Lexical (.attempt rest :: frames) s ↔ Lexical frames s :=
  ⟨fun h => ⟨h.inFlight, h.nodup, h.anchored⟩, fun h => ⟨h.inFlight, h.nodup, h.anchored⟩⟩

theorem congr {s' : Bench} (h : Lexical frames s) (same : ∀ side, s'.guard side = s.guard side) :
    Lexical frames s' :=
  ⟨fun side => by rw [same, h.inFlight], h.nodup, h.anchored⟩

theorem moves {m m' : Machine} (h : Lexical m.frames m.bench) (step : Moves m m') :
    Lexical m'.frames m'.bench := by
  cases step with
  | refuse => exact h.congr fun side => by simp
  | enter fresh => exact (h.enter fresh).congr fun side => by simp [Bench.guard_grant]
  | leave => exact h.release.congr fun side => by simp
  | unwind => exact h.release
  | check | depth => exact h.congr fun side => by simp
  | abort => exact h
  | attempt => exact attempt_iff.2 h
  | succeed | recover => exact (attempt_iff.1 h).congr fun side => by simp

end Lexical

theorem Reaches.placed_lexical {script : List Step} {m : Machine}
    (run : Reaches (Machine.start script) m) : m.Placed script ∧ Lexical m.frames m.bench := by
  induction run with
  | refl => exact ⟨Inside.script.placed List.suffix_rfl, .fresh⟩
  | tail _ step ih => exact ⟨ih.1.moves step, ih.2.moves step⟩

mutual
/-- A step leaves both guards as they were, whether it ends normally or aborts. -/
theorem guard_after_exec (step : Step) (frames : List Frame) (todo : List Step) (s : Bench)
    (side : Side) : (after frames todo (step.exec s)).bench.guard side = s.guard side := by
  match step with
  | .run other key body =>
    rw [Step.exec_run]
    by_cases held : key ∈ (s.guard other).inFlight
    · simp [held, after]
    · have inside := guard_after_execAll body frames todo ((s.observe (.enter key)).grant other key)
      rw [if_neg held]
      cases h : Step.execAll body ((s.observe (.enter key)).grant other key) with
      | ok _ t | error e t =>
        rw [h] at inside
        have released := Bench.guard_release_grant other side key _ t inside
        simpa [after] using released
  | .check key => exact Bench.guard_observe _ s side
  | .depth => exact Bench.guard_observe _ s side
  | .abort => rfl
  | .attempt body =>
    have inside := guard_after_execAll body frames todo s side
    rw [Step.exec_attempt]
    cases h : Step.execAll body s with
    | ok _ t | error e t =>
      rw [h] at inside
      simpa [after] using inside

theorem guard_after_execAll (steps : List Step) (frames : List Frame) (todo : List Step)
    (s : Bench) (side : Side) :
    (after frames todo (Step.execAll steps s)).bench.guard side = s.guard side := by
  match steps with
  | [] =>
    rw [Step.execAll]
    rfl
  | step :: steps =>
    have first := guard_after_exec step frames todo s side
    rw [Step.execAll_cons]
    cases h : step.exec s with
    | ok _ t =>
      rw [h] at first
      exact (guard_after_execAll steps frames todo t side).trans first
    | error e t =>
      rw [h] at first
      exact first
end

/-- Scripts have a lexical meaning. Every point of an execution stands inside its open steps in the
text, and both guards hold there the keys of the open runs, outermost first and without repetition.
A run is refused exactly when a run around it on the same guard has its key; its body is then
skipped and the guards stay. Any other run does its body behind its mark. An attempt always ends
normally, with the guards it began with, and so does the script with empty ones. -/
theorem script_lexical (script : List Step) :
    (∀ m, Reaches (.start script) m → m.Placed script ∧ ∀ side,
      (m.bench.guard side).inFlight = enclosing side m.frames ∧
      (enclosing side m.frames).Nodup) ∧
    (∀ frames side key body todo s,
      Reaches (.start script) ⟨frames, .running (.run side key body :: todo), s⟩ →
      (key ∈ enclosing side frames → ∃ t, (Step.run side key body).exec s = .ok () t ∧
        (∀ other, t.guard other = s.guard other) ∧
        t.seen = (s.seen.push (.enter key)).push (.exit key false)) ∧
      (key ∉ enclosing side frames → (Step.run side key body).exec s =
        match Step.execAll body ((s.observe (.enter key)).grant side key) with
        | .ok _ t => .ok () ((t.release side (s.guard side).depth).observe (.exit key true))
        | .error e t => .error e (t.release side (s.guard side).depth))) ∧
    (∀ body s, ∃ t, (Step.attempt body).exec s = .ok () t ∧ ∀ side, t.guard side = s.guard side) ∧
    Reaches (.start script) (after [] [] (Step.execAll script .fresh)) ∧
    ∀ side, ((Step.runScript script).2.guard side).depth = 0 := by
  refine ⟨fun m run => ?_, fun frames side key body todo s run => ?_, fun body s => ?_,
    reaches_execAll script [] .fresh, fun side => ?_⟩
  · obtain ⟨placed, lexical⟩ := run.placed_lexical
    exact ⟨placed, fun side => ⟨lexical.inFlight side, lexical.nodup side⟩⟩
  · obtain ⟨-, lexical⟩ := run.placed_lexical
    rw [← lexical.inFlight side]
    rw [Step.exec_run]
    refine ⟨fun held => ?_, fun fresh => if_neg fresh⟩
    rw [if_pos held]
    exact ⟨_, rfl, fun other => by simp, rfl⟩
  · have kept := guard_after_exec (.attempt body) [] [] s
    rw [Step.exec_attempt] at kept ⊢
    cases h : Step.execAll body s with
    | ok _ t | error e t =>
      rw [h] at kept
      exact ⟨_, rfl, kept⟩
  · have kept := guard_after_execAll script [] [] .fresh side
    have empty : (Step.runScript script).2.guard side = .empty := by
      unfold Step.runScript
      cases h : Step.execAll script .fresh with
      | ok _ t | error e t =>
        rw [h] at kept
        exact kept.trans (by cases side <;> rfl)
    rw [empty]
    rfl

end Machine
end InferredTypes.Guard
