import InferredTypes.Proofs.Judgment

/-! Requests that return, one by one or in families that all do the same, judged by their results
and by what they note. -/
namespace InferredTypes.Request
variable {ι α : Type} {E : List Event → Prop} {P : Event → Prop} {g : Guard}

/-- A condition on journals that events without a guard satisfy and that joined journals keep. -/
structure Composes (E : List Event → Prop) : Prop where
  nil : E []
  note : ∀ e : Event, e.guards = [] → E [e]
  append : ∀ xs ys, E xs → E ys → E (xs ++ ys)

/-- A condition on events that only events with guards can break. -/
def Quiet (P : Event → Prop) : Prop :=
  ∀ e : Event, e.guards = [] → P e

def Each (P : Event → Prop) (events : List Event) : Prop :=
  ∀ e ∈ events, P e

theorem each_singleton {e : Event} : Each P [e] ↔ P e := by
  simp [Each]

theorem Quiet.composes (quiet : Quiet P) : Composes (Each P) where
  nil := List.forall_mem_nil P
  note e guardless := each_singleton.2 (quiet e guardless)
  append _ _ hxs hys := List.forall_mem_append.2 ⟨hxs, hys⟩

/-- From the guard `g` the computations all return the same result, which is in `Q`, leave the guard
as it was and note the same events, which satisfy `E`. -/
def Traces (m : ι → Request α) (g : Guard) (Q : α → Prop) (E : List Event → Prop) : Prop :=
  ∃ a events, (∀ i, Runs (m i) g a events) ∧ Q a ∧ E events.toList

/-- One computation that does so, with a condition on each of the events. -/
abbrev Settles (m : Request α) (g : Guard) (Q : α → Prop) (P : Event → Prop) : Prop :=
  Traces (fun _ : Unit => m) g Q (Each P)

theorem Traces.member {m : ι → Request α} {Q : α → Prop} (h : Traces m g Q E) (i : ι) :
    Traces (fun _ : Unit => m i) g Q E := by
  obtain ⟨a, events, runs, results⟩ := h
  exact ⟨a, events, fun _ => runs i, results⟩

theorem Traces.asking {m : ι → Request α} {Q : α → Prop} {q : Guard → Question} (law : Composes E)
    (noted : E [.asked (q g)]) (h : Traces m g Q E) :
    Traces (fun i => Request.asking q (m i)) g Q E := by
  obtain ⟨a, events, runs, ha, hevents⟩ := h
  refine ⟨a, #[.asked (q g)] ++ events, fun i => (runs i).asking q, ha, ?_⟩
  rw [Array.toList_append]
  exact law.append _ _ noted hevents

/-- The rules for computations that return. A run is refused or entered, and both may be noted. -/
def tracing (ι : Type) (law : Composes E) : Judgment ι .known where
  Holds m g Q := Traces m g Q E
  Allows g key :=
    (key ∈ g.inFlight → E [.refused key g]) ∧ (key ∉ g.inFlight → E [.entered key g])
  pure h := ⟨_, #[], fun _ => .pure _ _, h, law.nil⟩
  bind := by
    rintro α β m f g Q R ⟨a, first, runs, ha, hfirst⟩ hf
    obtain ⟨b, rest, continues, hb, hrest⟩ := hf a ha
    refine ⟨b, first ++ rest, fun i => (runs i).bind (continues i), hb, ?_⟩
    rw [Array.toList_append]
    exact law.append _ _ hfirst hrest
  note {e _} guardless := ⟨(), #[e], fun _ => .note e _, trivial, law.note e guardless⟩
  guarded := by
    rintro α m key g R ⟨refused, entered⟩ held free
    by_cases h : key ∈ g.inFlight
    · exact ⟨none, #[.refused key g], fun _ => .refused h, held h, refused h⟩
    · obtain ⟨a, events, runs, ha, hevents⟩ := free h
      refine ⟨some a, #[.entered key g] ++ events, fun i => .entered h (runs i), ha, ?_⟩
      rw [Array.toList_append]
      exact law.append _ _ (entered h) hevents

/-- Computations that do the same from level `k` on are the same from there. -/
theorem eq_of_tracing (m : Nat → Request α) (k : Nat) {Q : α → Prop} {law : Composes E}
    (h : ∀ g, (tracing Nat law).Holds (fun i => m (i + k)) g Q) {n n' : Nat} (hn : k ≤ n)
    (hn' : k ≤ n') : m n = m n' := by
  funext s
  obtain ⟨a, events, runs, -⟩ := h s.guard
  have runs_at {n : Nat} (hn : k ≤ n) : m n s = .ok a ⟨s.guard, s.journal ++ events⟩ := by
    rw [← Nat.sub_add_cancel hn]
    exact runs (n - k) s.journal
  rw [runs_at hn, runs_at hn']

end InferredTypes.Request
