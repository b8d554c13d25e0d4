import InferredTypes.Proofs.Supertypes

/-! Assignability between reference types without arguments. It is the order that the names of
declared supertypes give, carried through arrays, with the null type at the bottom and the top class
at the top. -/
namespace InferredTypes

namespace Ty

/-- Classes without arguments, type variables, the null type, and arrays of these or of
primitives. -/
def isRaw : Ty → Bool
  | .named _ args => args.isEmpty
  | .var _ | .null => true
  | .array elem => elem.isPrimitive || elem.isRaw
  | .primitive _ => false

theorem isPrimitive_of_isRaw {ty : Ty} (raw : ty.isRaw = true) : ty.isPrimitive = false := by
  cases ty <;> simp_all [isRaw, isPrimitive]

theorem isRaw_array_iff {elem : Ty} :
    (Ty.array elem).isRaw = true ↔ (∃ p, elem = .primitive p) ∨ elem.isRaw = true := by
  cases elem <;> simp [isRaw, isPrimitive]

end Ty

namespace Environment

/-- The order of raw types. -/
inductive Below (env : Environment) : Ty → Ty → Prop
  | null {ty : Ty} (raw : ty.isRaw = true) : Below env .null ty
  | top {ty : Ty} (raw : ty.isRaw = true) : Below env ty topClass
  | classes {name above : String} (path : Relation.ReflTransGen env.Extends name above) :
      Below env (.named name []) (.named above [])
  | var {name : String} : Below env (.var name) (.var name)
  | primitives {p : Primitive} : Below env (.array (.primitive p)) (.array (.primitive p))
  | arrays {a b : Ty} (inner : Below env a b) : Below env (.array a) (.array b)

/-- The top class is declared without supertypes, or not at all. -/
def TopIsRoot (env : Environment) : Prop :=
  ∀ info, env.classes.get? topName = some info → info.supers = []

variable {env : Environment} {a b c : Ty}

theorem topIsRoot_of_found {params : List String}
    (declared : env.classes.get? topName = some ⟨params, []⟩) : env.TopIsRoot := by
  intro info found
  rw [← Option.some.inj (declared.symm.trans found)]

namespace Below

theorem isRaw (below : env.Below a b) : a.isRaw = true ∧ b.isRaw = true := by
  induction below with
  | null raw => exact ⟨rfl, raw⟩
  | top raw => exact ⟨raw, rfl⟩
  | classes | var | primitives => exact ⟨rfl, rfl⟩
  | arrays _ ih => simp [Ty.isRaw, ih]

theorem refl (env : Environment) (ty : Ty) (raw : ty.isRaw = true) : env.Below ty ty := by
  match ty with
  | .named name args =>
    obtain rfl : args = [] := List.isEmpty_iff.1 raw
    exact .classes .refl
  | .array elem =>
    rcases Ty.isRaw_array_iff.1 raw with ⟨p, rfl⟩ | inner
    · exact .primitives
    · exact .arrays (refl env elem inner)
  | .var _ => exact .var
  | .null => exact .null raw

/-- Nothing but the top class is above the top class. -/
theorem eq_topClass (root : env.TopIsRoot) (below : env.Below a b) (top : a = topClass) :
    b = topClass := by
  cases below with
  | top => rfl
  | classes path =>
    obtain ⟨rfl, -⟩ := Ty.named.inj top
    rcases path.cases_head with rfl | ⟨_, ⟨info, found, args, declared⟩, -⟩
    · rfl
    · simp [root info found] at declared
  | null | var | primitives | arrays => simp [topClass] at top

theorem trans (root : env.TopIsRoot) (first : env.Below a b) (second : env.Below b c) :
    env.Below a c := by
  induction first generalizing c with
  | null => exact .null second.isRaw.2
  | top raw =>
    rw [second.eq_topClass root rfl]
    exact .top raw
  | classes path =>
    cases second with
    | top => exact .top rfl
    | classes further => exact .classes (path.trans further)
  | var | primitives => exact second
  | arrays inner ih =>
    cases second with
    | top => exact .top (Below.arrays inner).isRaw.1
    | primitives => simpa [Ty.isRaw] using inner.isRaw.2
    | arrays further => exact .arrays (ih further)

end Below

/-- The search from a type without arguments follows the declared names. -/
theorem Ascent.extends_raw {name : String} {way : List Ty} {sup : Ty}
    (ascent : env.Ascent (.named name []) way sup) :
    ∀ above aboveArgs, sup = .named above aboveArgs →
      aboveArgs = [] ∧ Relation.ReflTransGen env.Extends name above := by
  induction ascent with
  | here =>
    rintro above aboveArgs ⟨⟩
    exact ⟨rfl, .refl⟩
  | @climb way below belowArgs sup _ mem ih =>
    rintro above aboveArgs rfl
    obtain ⟨rfl, path⟩ := ih below belowArgs rfl
    obtain ⟨raw, step⟩ := extends_of_mem_supersOf_raw mem
    exact ⟨raw, path.tail step⟩

theorem assignable_named_raw_iff (noAssumed : env.assumed = []) {name target : String}
    (proper : target ≠ topName) :
    env.assignable (.named name []) (.named target []) = true ↔
      Relation.ReflTransGen env.Extends name target := by
  rw [assignable_named_iff noAssumed proper]
  constructor
  · rintro ⟨inst, view, -⟩
    obtain ⟨-, -, ascent⟩ := ascent_of_viewAs view
    exact (ascent.extends_raw target inst rfl).2
  · intro path
    obtain ⟨inst, view, -⟩ := viewAs_ascent (viewAs_ne_none [] path)
    exact ⟨inst, view, .inl rfl⟩

theorem assignable_self (env : Environment) (ty : Ty) : env.assignable ty ty = true := by
  rw [assignable_eq]
  simp

theorem assignable_array (noAssumed : env.assumed = []) (a b : Ty) :
    env.assignable (.array a) (.array b) =
      if a.isPrimitive || b.isPrimitive then decide (a = b) else env.assignable a b := by
  rw [assignable_eq, noAssumed]
  by_cases same : a = b
  · subst same
    simp [assignable_self]
  · simp [same, fits, elementsFit]

theorem assignable_of_below (noAssumed : env.assumed = []) (below : env.Below a b) :
    env.assignable a b = true := by
  induction below with
  | null raw =>
    rw [assignable_eq]
    simp [fits, Ty.isPrimitive_of_isRaw raw]
  | top => exact env.assignable_topName _ []
  | @classes name above path =>
    by_cases top : above = topName
    · subst top
      exact env.assignable_topName _ []
    · exact (assignable_named_raw_iff noAssumed top).2 path
  | var | primitives => exact env.assignable_self _
  | @arrays a b inner ih =>
    obtain ⟨ha, hb⟩ := inner.isRaw
    rw [assignable_array noAssumed]
    simp [Ty.isPrimitive_of_isRaw ha, Ty.isPrimitive_of_isRaw hb, ih]

theorem below_of_assignable (noAssumed : env.assumed = []) (a b : Ty) (ha : a.isRaw = true)
    (hb : b.isRaw = true) (fit : env.assignable a b = true) : env.Below a b := by
  by_cases same : a = b
  · subst same
    exact .refl env a ha
  by_cases top : b = topClass
  · subst top
    exact .top ha
  -- What is left are the pairs that a rule other than identity and the top class lets pass.
  match a, b with
  | .null, b => exact .null hb
  | .named name args, .named target targetArgs =>
    obtain rfl : args = [] := List.isEmpty_iff.1 ha
    obtain rfl : targetArgs = [] := List.isEmpty_iff.1 hb
    have proper : target ≠ topName := fun h => top (by rw [h, topClass])
    exact .classes ((assignable_named_raw_iff noAssumed proper).1 fit)
  | .array a, .array b =>
    rw [assignable_array noAssumed] at fit
    have layers : a ≠ b := fun h => same (by rw [h])
    rcases Ty.isRaw_array_iff.1 ha with ⟨p, rfl⟩ | rawA
    · simp [Ty.isPrimitive, layers] at fit
    rcases Ty.isRaw_array_iff.1 hb with ⟨q, rfl⟩ | rawB
    · simp [Ty.isPrimitive, layers] at fit
    simp only [Ty.isPrimitive_of_isRaw rawA, Ty.isPrimitive_of_isRaw rawB] at fit
    exact .arrays (below_of_assignable noAssumed a b rawA rawB fit)
  | .var _, .named target targetArgs | .array _, .named target targetArgs =>
    obtain rfl : targetArgs = [] := List.isEmpty_iff.1 hb
    rw [assignable_eq, noAssumed] at fit
    have name : target = topName := by simpa [fits] using fit
    exact absurd (by rw [name, topClass]) top
  | .named _ _, .array _ | .named _ _, .var _ | .named _ _, .null | .array _, .var _
  | .array _, .null | .var _, .array _ | .var _, .var _ | .var _, .null =>
    rw [assignable_eq, noAssumed] at fit
    simp [same, fits] at fit

/-- Assignability on raw types is their order. -/
theorem assignable_iff_below (noAssumed : env.assumed = []) (ha : a.isRaw = true)
    (hb : b.isRaw = true) : env.assignable a b = true ↔ env.Below a b :=
  ⟨below_of_assignable noAssumed a b ha hb, assignable_of_below noAssumed⟩

/-- Without assumed pairs, and with nothing declared above the top class, assignability is a
preorder on raw types, and the top class is the only greatest one. The hierarchy may be circular. -/
theorem assignable_preorder_on_raw (noAssumed : env.assumed = []) (root : env.TopIsRoot) :
    (∀ a, a.isRaw = true → env.assignable a a = true) ∧
    (∀ a b c, a.isRaw = true → b.isRaw = true → c.isRaw = true →
      env.assignable a b = true → env.assignable b c = true → env.assignable a c = true) ∧
    (∀ a, a.isRaw = true → env.assignable a topClass = true) ∧
    (∀ a, a.isRaw = true → env.assignable topClass a = true → a = topClass) := by
  refine ⟨?_, ?_, ?_, ?_⟩
  · intro a _
    exact env.assignable_self a
  · intro a b c ha hb hc first second
    rw [assignable_iff_below noAssumed ha hb] at first
    rw [assignable_iff_below noAssumed hb hc] at second
    rw [assignable_iff_below noAssumed ha hc]
    exact first.trans root second
  · intro a _
    exact env.assignable_topName a []
  · intro a raw fit
    rw [assignable_iff_below noAssumed rfl raw] at fit
    exact fit.eq_topClass root rfl

/-- Two classes that extend each other. -/
def circle : Environment :=
  initial.applyAll
    [ .declareClass "Ping" ⟨[], [.named "Pong" []]⟩
    , .declareClass "Pong" ⟨[], [.named "Ping" []]⟩ ]

theorem topIsRoot_circle : circle.TopIsRoot :=
  topIsRoot_of_found (show circle.classes.get? topName = some ⟨[], []⟩ from rfl)

/-- Arrays of the one class fit arrays of the other and so arrays of the top class, which fits no
undeclared class. -/
theorem circle_preorder_on_raw :
    let arrays (name : String) := Ty.array (.named name [])
    circle.assumed = [] ∧ circle.TopIsRoot ∧
    circle.assignable (arrays "Ping") (arrays "Pong") = true ∧
    circle.assignable (arrays "Pong") (arrays topName) = true ∧
    circle.assignable (arrays "Ping") (arrays topName) = true ∧
    circle.assignable topClass (.named "Nowhere" []) = false := by
  intro arrays
  have noAssumed : circle.assumed = [] := rfl
  obtain ⟨-, trans, -, only⟩ := assignable_preorder_on_raw noAssumed topIsRoot_circle
  have first : circle.assignable (arrays "Ping") (arrays "Pong") = true := by decide +kernel
  have second : circle.assignable (arrays "Pong") (arrays topName) = true := by decide +kernel
  refine ⟨noAssumed, topIsRoot_circle, first, second, trans _ _ _ rfl rfl rfl first second, ?_⟩
  rw [Bool.eq_false_iff]
  intro fit
  have same := only (.named "Nowhere" []) rfl fit
  simp [topClass, topName] at same

end Environment
end InferredTypes
