import InferredTypes.Environment.Standard
import InferredTypes.Proofs.SameTables
import InferredTypes.Proofs.TypeShape

/-! What assumed pairs of types change: the answers for the pairs themselves and for equally deep
arrays of them, and no other answer. -/
namespace InferredTypes

namespace Ty
variable {f t a b source target : Ty}

/-- The two types are `f` and `t` with equally many array layers around them. There are layers only
around types that are not primitive. -/
def LayersOf (f t source target : Ty) : Prop :=
  ∃ n, source = f.arrayOf n ∧ target = t.arrayOf n ∧
    (1 ≤ n → f.isPrimitive = false ∧ t.isPrimitive = false)

/-- The outermost layer of two arrays comes off on both sides. -/
theorem layersOf_array_iff :
    LayersOf f t (.array a) (.array b) ↔
      .array a = f ∧ .array b = t ∨
      a.isPrimitive = false ∧ b.isPrimitive = false ∧ LayersOf f t a b := by
  constructor
  · rintro ⟨n, source, target, plain⟩
    cases n with
    | zero => exact .inl ⟨source, target⟩
    | succ n =>
      obtain rfl := Ty.array.inj source
      obtain rfl := Ty.array.inj target
      obtain ⟨hf, ht⟩ := plain (by omega)
      exact .inr ⟨isPrimitive_arrayOf hf n, isPrimitive_arrayOf ht n, n, rfl, rfl,
        fun _ => ⟨hf, ht⟩⟩
  · rintro (⟨rfl, rfl⟩ | ⟨ha, hb, n, rfl, rfl, plain⟩)
    · exact ⟨0, rfl, rfl, by omega⟩
    · refine ⟨n + 1, rfl, rfl, fun _ => ?_⟩
      cases n with
      | zero => exact ⟨ha, hb⟩
      | succ n => exact plain (by omega)

/-- There is no layer to come off unless both types are arrays. -/
theorem layersOf_iff_of_not_arrays (bare : source.isArray = false ∨ target.isArray = false) :
    LayersOf f t source target ↔ source = f ∧ target = t := by
  constructor
  · rintro ⟨n, rfl, rfl, -⟩
    cases n with
    | zero => exact ⟨rfl, rfl⟩
    | succ n => simp [arrayOf, isArray] at bare
  · rintro ⟨rfl, rfl⟩
    exact ⟨0, rfl, rfl, by omega⟩

/-- Where one side is as in the pair, so is the other. -/
theorem LayersOf.eq_source (layers : LayersOf f t source t) : source = f := by
  obtain ⟨n, rfl, same, -⟩ := layers
  rw [eq_zero_of_eq_arrayOf same]
  rfl

theorem LayersOf.eq_target (layers : LayersOf f t f target) : target = t := by
  obtain ⟨n, same, rfl, -⟩ := layers
  rw [eq_zero_of_eq_arrayOf same]
  rfl

/-- No layer leads to a class type that has the type itself as an argument. -/
theorem not_layersOf_named {name : String} {args : List Ty} (mem : f ∈ args) :
    ¬ LayersOf f t (.named name args) target := by
  rw [layersOf_iff_of_not_arrays (.inl rfl)]
  rintro ⟨rfl, -⟩
  have size := List.sizeOf_lt_of_mem mem
  simp only [Ty.named.sizeOf_spec] at size
  omega

end Ty

namespace Environment
variable {env : Environment} {f t source target : Ty}

/-- Assumes one pair after the other. -/
def assumeAll (env : Environment) (pairs : List (Ty × Ty)) : Environment :=
  env.applyAll (pairs.map fun pair => .assume pair.1 pair.2)

theorem mem_assumed_assume {pair : Ty × Ty} :
    pair ∈ (env.apply (.assume f t)).assumed ↔ pair = (f, t) ∨ pair ∈ env.assumed :=
  List.mem_cons

theorem assignable_iff (env : Environment) (source target : Ty) :
    env.assignable source target = true ↔
      source = target ∨ (source, target) ∈ env.assumed ∨
        env.fits (env.elementsFit source) source target = true := by
  rw [assignable_eq, ← or_assoc]
  split
  · next passed => simp [passed]
  · next ruled => simp [ruled]

theorem fits_array_iff (env : Environment) (a b : Ty) :
    env.fits (env.elementsFit (.array a)) (.array a) (.array b) = true ↔
      (a.isPrimitive = true ∨ b.isPrimitive = true) ∧ a = b ∨
      a.isPrimitive = false ∧ b.isPrimitive = false ∧ env.assignable a b = true := by
  cases ha : a.isPrimitive <;> cases hb : b.isPrimitive <;> simp [fits, elementsFit, ha, hb]

/-- Where the types are not both arrays, an assumption lets its own pair pass and no other. -/
theorem assignable_assume_of_not_arrays (bare : source.isArray = false ∨ target.isArray = false) :
    (env.apply (.assume f t)).assignable source target = true ↔
      env.assignable source target = true ∨ Ty.LayersOf f t source target := by
  have rules : (env.apply (.assume f t)).fits ((env.apply (.assume f t)).elementsFit source) source
      target = env.fits (env.elementsFit source) source target := by
    apply fits_congr
    · intro name
      rfl
    · rintro a b rfl rfl
      simp [Ty.isArray] at bare
  rw [Ty.layersOf_iff_of_not_arrays bare, assignable_iff, assignable_iff, rules,
    mem_assumed_assume, Prod.mk.injEq]
  grind

/-- After an assumption those types fit that fitted before, and equally deep arrays of the two
assumed ones. -/
theorem assignable_assume_iff (env : Environment) (f t source target : Ty) :
    (env.apply (.assume f t)).assignable source target = true ↔
      env.assignable source target = true ∨ Ty.LayersOf f t source target := by
  match source with
  | .array a =>
    match target with
    | .array b =>
      have inner := env.assignable_assume_iff f t a b
      rw [assignable_iff, assignable_iff, fits_array_iff, fits_array_iff, inner,
        mem_assumed_assume, Prod.mk.injEq, Ty.layersOf_array_iff]
      grind
    | .primitive _ | .named _ _ | .var _ | .null =>
      exact assignable_assume_of_not_arrays (.inr rfl)
  | .primitive _ | .named _ _ | .var _ | .null =>
    exact assignable_assume_of_not_arrays (.inl rfl)

theorem assignable_assumeAll_iff (env : Environment) (pairs : List (Ty × Ty)) (source target : Ty) :
    (env.assumeAll pairs).assignable source target = true ↔
      env.assignable source target = true ∨
        ∃ pair ∈ pairs, Ty.LayersOf pair.1 pair.2 source target := by
  induction pairs generalizing env with
  | nil => simp [assumeAll, applyAll]
  | cons pair pairs ih =>
    have rest := ih (env.apply (.assume pair.1 pair.2))
    rw [assignable_assume_iff, or_assoc] at rest
    simp only [List.mem_cons, exists_eq_or_imp]
    exact rest

/-- More assumptions let more types pass. -/
theorem assignable_assumeAll_mono {pairs more : List (Ty × Ty)} (sub : pairs ⊆ more)
    (fit : (env.assumeAll pairs).assignable source target = true) :
    (env.assumeAll more).assignable source target = true := by
  rw [assignable_assumeAll_iff] at fit ⊢
  rcases fit with before | ⟨pair, mem, layers⟩
  · exact .inl before
  · exact .inr ⟨pair, sub mem, layers⟩

theorem assignable_assumeAll_perm {pairs pairs' : List (Ty × Ty)} (perm : pairs.Perm pairs')
    (source target : Ty) :
    (env.assumeAll pairs).assignable source target =
      (env.assumeAll pairs').assignable source target := by
  rw [Bool.eq_iff_iff]
  exact ⟨assignable_assumeAll_mono perm.subset, assignable_assumeAll_mono perm.symm.subset⟩

/-- An assumption leaves the answers for all other pairs as they were. -/
theorem assignable_assume_eq (other : ¬ Ty.LayersOf f t source target) :
    (env.apply (.assume f t)).assignable source target = env.assignable source target := by
  rw [Bool.eq_iff_iff, assignable_assume_iff, or_iff_left other]

/-- A second assumption that starts where the first one ends is not joined to it. -/
theorem assignable_assume_twice {u : Ty} (first : t ≠ f) (second : u ≠ t) :
    (env.assumeAll [(f, t), (t, u)]).assignable f u = env.assignable f u := by
  rw [Bool.eq_iff_iff, assignable_assumeAll_iff, or_iff_left]
  rintro ⟨pair, mem, layers⟩
  simp only [List.mem_cons, List.not_mem_nil, or_false] at mem
  rcases mem with rfl | rfl
  · exact second layers.eq_target
  · exact first layers.eq_source.symm

/-- Assuming the pair does not close the answers under any of these rules. -/
structure NotCarriedOver (env : Environment) (f t : Ty) : Prop where
  transitivity : ∃ above, env.assignable t above = true ∧
    (env.apply (.assume f t)).assignable f above = false
  subclasses : ∃ below, env.subtype below f = true ∧
    (env.apply (.assume f t)).assignable below t = false
  boxing : ∃ p, env.assignable (.primitive p) f = true ∧
    (env.apply (.assume f t)).assignable (.primitive p) t = false
  arguments : ∃ name,
    (env.apply (.assume f t)).assignable (.named name [f]) (.named name [t]) = false

/-- Numbers that are assumed to fit lists of strings do not fit other collections, integers do not
fit lists of strings, whether boxed or not, and lists of numbers do not fit lists of such lists. -/
theorem numbers_as_strings_notCarriedOver :
    standard.NotCarriedOver (.named (langName "Number") [])
      (.named (utilName "List") [.named (langName "String") []]) where
  transitivity := ⟨.named (utilName "Collection") [], by decide +kernel⟩
  subclasses := ⟨.named (langName "Integer") [], by decide +kernel⟩
  boxing := ⟨.int, by decide +kernel⟩
  arguments := ⟨utilName "List", by decide +kernel⟩

/-- After a pair of types is assumed, the types fit that fitted before, and equally deep arrays of
the pair, unless it has a primitive. So more assumptions let more types pass, their order does not
matter, and nothing follows from one: not for other types in place of one of the two, such as
subclasses, boxes or superclasses, not along two assumptions, and not for class types with an
assumed type as argument. -/
theorem assumptions_pass_their_layers (env : Environment) :
    (∀ f t source target, (env.apply (.assume f t)).assignable source target = true ↔
      env.assignable source target = true ∨
        ∃ n, source = f.arrayOf n ∧ target = t.arrayOf n ∧
          (1 ≤ n → f.isPrimitive = false ∧ t.isPrimitive = false)) ∧
    (∀ pairs more source target, pairs ⊆ more →
      (env.assumeAll pairs).assignable source target = true →
        (env.assumeAll more).assignable source target = true) ∧
    (∀ pairs pairs' source target, pairs.Perm pairs' →
      (env.assumeAll pairs).assignable source target =
        (env.assumeAll pairs').assignable source target) ∧
    (∀ f t other, other ≠ f →
      (env.apply (.assume f t)).assignable other t = env.assignable other t) ∧
    (∀ f t other, other ≠ t →
      (env.apply (.assume f t)).assignable f other = env.assignable f other) ∧
    (∀ f t u, t ≠ f → u ≠ t →
      (env.assumeAll [(f, t), (t, u)]).assignable f u = env.assignable f u) ∧
    (∀ f t name args target, f ∈ args →
      (env.apply (.assume f t)).assignable (.named name args) target =
        env.assignable (.named name args) target) ∧
    ∃ (start : Environment) (f t : Ty), start.NotCarriedOver f t := by
  refine ⟨env.assignable_assume_iff, ?_, ?_, ?_, ?_, ?_, ?_,
    standard, _, _, numbers_as_strings_notCarriedOver⟩
  · intro pairs more source target sub
    exact assignable_assumeAll_mono sub
  · intro pairs pairs' source target perm
    exact assignable_assumeAll_perm perm source target
  · intro f t other distinct
    exact assignable_assume_eq fun layers => distinct layers.eq_source
  · intro f t other distinct
    exact assignable_assume_eq fun layers => distinct layers.eq_target
  · intro f t u first second
    exact assignable_assume_twice first second
  · intro f t name args target mem
    exact assignable_assume_eq (Ty.not_layersOf_named mem)

end Environment
end InferredTypes
