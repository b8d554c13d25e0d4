import InferredTypes.Proofs.Judgment

/-! Computations that may stop, from any state on. Every one that touches the guard only by entering
expressions leaves it as it was, whether it returns or stops. -/
namespace InferredTypes

namespace Request
variable {α β : Type} {K : Guard → Guard → Prop} {m : Request α} {Q : α → Prop} {F : Stop → Prop}

/-- From every state the computation returns a result with `Q`, or stops for a reason with `F`. The
guard before and the guard afterwards are related by `K`. -/
def Leaves (K : Guard → Guard → Prop) (m : Request α) (Q : α → Prop) (F : Stop → Prop) : Prop :=
  ∀ s, (∃ a s', m s = .ok a s' ∧ K s.guard s'.guard ∧ Q a) ∨
    ∃ stop s', m s = .error stop s' ∧ K s.guard s'.guard ∧ F stop

/-- A relation of guards that holds across a run if it holds across what runs inside. -/
structure Lasting (K : Guard → Guard → Prop) : Prop where
  refl : ∀ g, K g g
  trans : ∀ {g h i}, K g h → K h i → K g i
  release : ∀ {g h key}, K (g.enter key) h → K g (h.truncate g.depth)

namespace Leaves

theorem pure (law : Lasting K) {a : α} (ha : Q a) : Leaves K (Pure.pure a) Q F := by
  intro s
  exact .inl ⟨a, s, rfl, law.refl s.guard, ha⟩

theorem note (law : Lasting K) (e : Event) : Leaves K (Request.note e) (fun _ => True) F := by
  intro s
  exact .inl ⟨(), _, rfl, law.refl s.guard, trivial⟩

theorem bind (law : Lasting K) {f : α → Request β} {R : β → Prop} (hm : Leaves K m Q F)
    (hf : ∀ a, Q a → Leaves K (f a) R F) : Leaves K (m >>= f) R F := by
  intro s
  rcases hm s with ⟨a, s', ok, kept, ha⟩ | ⟨stop, s', stopped, kept, reason⟩
  · rcases hf a ha s' with ⟨b, s'', ok', kept', hb⟩ | ⟨stop, s'', stopped', kept', reason⟩
    · exact .inl ⟨b, s'', by simp only [Bind.bind, EStateM.bind, ok, ok'], law.trans kept kept', hb⟩
    · exact .inr ⟨stop, s'', by simp only [Bind.bind, EStateM.bind, ok, stopped'],
        law.trans kept kept', reason⟩
  · exact .inr ⟨stop, s', by simp only [Bind.bind, EStateM.bind, stopped], kept, reason⟩

theorem asking (q : Guard → Question) (hm : Leaves K m Q F) :
    Leaves K (Request.asking q m) Q F := by
  intro s
  exact hm ⟨s.guard, s.journal.push (.asked (q s.guard))⟩

/-- A run releases its mark on every way out. -/
theorem guarded (law : Lasting K) (key : NodeId) {R : Option α → Prop} (held : R none)
    (hm : Leaves K m (fun a => R (some a)) F) : Leaves K (Request.guarded key m) R F := by
  intro s
  by_cases h : s.guard.holds key = true
  · refine .inl ⟨none, ⟨s.guard, s.journal.push (.refused key s.guard)⟩, ?_, law.refl _, held⟩
    simp [Request.guarded, Guard.run, h]
  · rcases hm ⟨s.guard.enter key, s.journal.push (.entered key s.guard)⟩ with
      ⟨a, s', ok, kept, ha⟩ | ⟨stop, s', stopped, kept, reason⟩
    · refine .inl ⟨some a, ⟨s'.guard.truncate s.guard.depth, s'.journal⟩, ?_, law.release kept, ha⟩
      simp [Request.guarded, Guard.run, h, ok]
    · refine .inr ⟨stop, ⟨s'.guard.truncate s.guard.depth, s'.journal⟩, ?_, law.release kept,
        reason⟩
      simp [Request.guarded, Guard.run, h, stopped]

end Leaves

/-- The rules for computations that may stop. They hold whatever is in flight. -/
def leaving (law : Lasting K) (F : Stop → Prop) : Judgment Unit .unknown where
  Holds m _ Q := Leaves K (m ()) Q F
  Allows _ _ := True
  pure := .pure law
  bind := .bind law
  note _ := .note law _
  guarded _ held free := .guarded law _ (held trivial) (free trivial)

/-- The state that a computation ends in, with or without a result. -/
def after (m : Request α) (s : Context) : Context :=
  match m s with
  | .ok _ s => s
  | .error _ s => s

def Restores (m : Request α) : Prop :=
  ∀ s, (after m s).guard = s.guard

theorem after_of_ok {s s' : Context} {a : α} (h : m s = .ok a s') : after m s = s' := by
  simp [after, h]

theorem after_of_error {s s' : Context} {e : Stop} (h : m s = .error e s') : after m s = s' := by
  simp [after, h]

theorem lasting_eq : Lasting fun g h => h = g where
  refl _ := rfl
  trans first second := second.trans first
  release := by
    rintro g _ key rfl
    exact g.truncate_enter key

theorem restores_iff :
    Restores m ↔ Leaves (fun g h => h = g) m (fun _ => True) fun _ => True := by
  constructor
  · intro restores s
    have kept := restores s
    cases h : m s with
    | ok a s' => exact .inl ⟨a, s', rfl, after_of_ok h ▸ kept, trivial⟩
    | error stop s' => exact .inr ⟨stop, s', rfl, after_of_error h ▸ kept, trivial⟩
  · intro leaves s
    rcases leaves s with ⟨a, s', ok, kept, -⟩ | ⟨stop, s', stopped, kept, -⟩
    · rw [after_of_ok ok, kept]
    · rw [after_of_error stopped, kept]

namespace Restores

theorem pure (a : α) : Restores (Pure.pure a : Request α) := fun _ => rfl

theorem throw (e : Stop) : Restores (MonadExcept.throw e : Request α) := fun _ => rfl

theorem note (e : Event) : Restores (Request.note e) := fun _ => rfl

theorem bind {f : α → Request β} (hm : Restores m) (hf : ∀ a, Restores (f a)) :
    Restores (m >>= f) :=
  restores_iff.2 (.bind lasting_eq (restores_iff.1 hm) fun a _ => restores_iff.1 (hf a))

theorem guarded (key : NodeId) (hm : Restores m) : Restores (Request.guarded key m) :=
  restores_iff.2 (.guarded lasting_eq key trivial (restores_iff.1 hm))

end Restores
end Request

open Request

/-- A host whose own typing leaves the guard as it was. -/
structure Host.Restoring (host : Host) : Prop where
  staticType : ∀ e, Restores (host.staticType e)
  elementType : ∀ e, Restores (host.elementType e)

theorem Host.Restoring.infer {host : Host} (h : host.Restoring) (d : Decl) :
    Restores (host.infer d) := by
  have inferred := (leaving lasting_eq fun _ => True).infer_any (w := ()) (d := d) (fun _ => host)
    (fun _ => rfl) fun _ _ _ f _ =>
      ⟨⟨trivial, fun _ => .asking _ (restores_iff.1 (h.staticType f))⟩,
        ⟨trivial, fun _ => .asking _ (restores_iff.1 (h.elementType f))⟩⟩
  exact restores_iff.2 inferred

end InferredTypes
