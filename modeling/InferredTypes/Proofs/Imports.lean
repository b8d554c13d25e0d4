import InferredTypes.Proofs.Cone
import InferredTypes.Proofs.Sites

/-! Which declarations are placeholders depends on the imports alone. Classes take part in how names
are resolved, but the names of the placeholders have a point in them, so a class that is declared
makes no name a placeholder and keeps none from being one. -/
namespace InferredTypes

open Request

/-- A name without a point denotes no placeholder. -/
theorem Placeholder.ofName_eq_none {name : String} (plain : '.' ∉ name.toList) :
    ofName (some name) = .none := by
  unfold ofName
  split
  · next same => simp [Option.some.inj same] at plain
  · next same => simp [Option.some.inj same] at plain
  · next same => simp [Option.some.inj same] at plain
  · rfl

namespace Semantics
variable {sem sem' : Semantics}

/-- A placeholder is told by one question about the written name. -/
theorem placeholder_eq_asking (sem : Semantics) (ref : TypeRef) :
    sem.placeholder (some ref) =
      .asking (fun _ => .qualifiedName ref.name) (pure (sem.kind (some ref))) :=
  rfl

theorem placeholder_congr (same : sem.kind = sem'.kind) : sem.placeholder = sem'.placeholder := by
  funext ref
  cases ref with
  | none => rfl
  | some ref => rw [placeholder_eq_asking, placeholder_eq_asking, same]

theorem check_congr (same : sem.kind = sem'.kind) : sem.check = sem'.check := by
  funext d found
  cases d with
  | localVariable v => simp only [check, checkVariable, placeholder_congr same]
  | parameter p => simp only [check, checkParameter, placeholder_congr same]

theorem checkAll_congr (same : sem.kind = sem'.kind) (ds : List Decl) (found : Array Diagnostic) :
    sem.checkAll ds found = sem'.checkAll ds found := by
  induction ds generalizing found with
  | nil => rfl
  | cons d ds ih => simp only [checkAll, check_congr same, ih]

end Semantics

namespace Environment
variable {env env' : Environment}

/-- The name that decides whether a written name denotes a placeholder. -/
def importedName (env : Environment) (written : String) : String :=
  (env.imports.get? written).getD written

theorem ofName_qualify (env : Environment) (written : String) :
    Placeholder.ofName (env.qualify written) =
      Placeholder.ofName (some (env.importedName written)) := by
  unfold qualify importedName
  cases env.imports.get? written with
  | some qualified => rfl
  | none =>
    simp only [Option.getD_none]
    split
    · rfl
    · next unknown =>
      have plain : '.' ∉ written.toList := fun point => unknown (.inl point)
      rw [Placeholder.ofName_eq_none plain]
      rfl

theorem kind_eq_of_imports (same : ∀ name, env.imports.get? name = env'.imports.get? name) :
    env.semantics.kind = env'.semantics.kind := by
  funext ref
  cases ref with
  | none => rfl
  | some ref =>
    have known : env.importedName ref.name = env'.importedName ref.name := by
      rw [importedName, importedName, same]
    calc Placeholder.ofName (env.qualify ref.name)
      _ = Placeholder.ofName (some (env.importedName ref.name)) := env.ofName_qualify ref.name
      _ = Placeholder.ofName (some (env'.importedName ref.name)) := by rw [known]
      _ = Placeholder.ofName (env'.qualify ref.name) := (env'.ofName_qualify ref.name).symm

theorem isSome_inferredAt (env : Environment) (g : Guard) (d : Decl) :
    (env.inferredAt g d).isSome = ((env.semantics.kind d.typeRef).isActive && d.origin?.isSome) := by
  unfold inferredAt Semantics.inferredAt
  by_cases active : (env.semantics.kind d.typeRef).isActive = true
  · rw [if_pos active, active, Option.isSome_map, Bool.true_and]
  · rw [if_neg active, Bool.eq_false_iff.2 active]
    rfl

/-- Whatever an environment has gone through, a written name denotes the placeholder that its
imported name denotes, or that it denotes itself if it is not imported. So environments with the
same imports tell the same placeholders, find the same problems and infer types for the same
declarations. -/
theorem placeholders_depend_on_imports (start : Environment) (changes : List Change) :
    let env := start.applyAll changes
    (∀ ref g, Yields (env.host.placeholder (some ref)) g
      (Placeholder.ofName (some ((env.imports.get? ref.name).getD ref.name)))) ∧
    ∀ (start' : Environment) (changes' : List Change),
      let env' := start'.applyAll changes'
      (∀ name, env.imports.get? name = env'.imports.get? name) →
      (∀ ref, env.host.placeholder ref = env'.host.placeholder ref) ∧
      (∀ v, env.host.isVal v = env'.host.isVal v) ∧
      (∀ v, env.host.isValOrVar v = env'.host.isValOrVar v) ∧
      (∀ ds found, env.host.checkAll ds found = env'.host.checkAll ds found ∧
        ∀ g, Yields (env.host.checkAll ds found) g
          (found ++ (ds.filterMap env.semantics.report?).toArray)) ∧
      ∀ d g, SameResult (Option.isSome <$> env.host.infer d) g
        (Option.isSome <$> env'.host.infer d) g := by
  intro env
  constructor
  · intro ref g
    rw [← importedName, ← env.ofName_qualify ref.name]
    exact env.semantics.yields_placeholder (some ref) g
  · intro start' changes' env' same
    have kinds : env.host.kind = env'.host.kind := kind_eq_of_imports same
    have placeholders := Semantics.placeholder_congr kinds
    refine ⟨congrFun placeholders, ?_, ?_, ?_, ?_⟩
    · intro v
      simp only [Host.isVal, placeholders]
    · intro v
      simp only [Host.isValOrVar, placeholders]
    · intro ds found
      exact ⟨Semantics.checkAll_congr kinds ds found, env.semantics.yields_checkAll ds found⟩
    · intro d g
      have known : (env.inferredAt g d).isSome = (env'.inferredAt g d).isSome := by
        rw [isSome_inferredAt, isSome_inferredAt, kind_eq_of_imports same]
      refine ⟨(env.inferredAt g d).isSome, (env.yields_infer g d).map _, ?_⟩
      exact known ▸ (env'.yields_infer g d).map _

def plainHistory : List Change := [.importName "val" "lombok.val"]

/-- The same import in the end, after another one and among classes with the names that decide. -/
def crowdedHistory : List Change :=
  [ .importName "val" "a.val", .declareClass "val" ⟨[], []⟩, .declareClass "lombok.val" ⟨["T"], []⟩
  , .importName "val" "lombok.val", .bind chainRequest, .scriptType ⟨3⟩ .null ]

theorem crowdedHistory_placeholders :
    let env := initial.applyAll plainHistory
    let env' := initial.applyAll crowdedHistory
    (∀ ds found, env.host.checkAll ds found = env'.host.checkAll ds found) ∧
    SameResult (Option.isSome <$> env.host.infer chainRequest) .empty
      (Option.isSome <$> env'.host.infer chainRequest) .empty := by
  have same (name : String) : (initial.applyAll plainHistory).imports.get? name =
      (initial.applyAll crowdedHistory).imports.get? name := by
    by_cases h : name = "val" <;> simp [plainHistory, crowdedHistory, applyAll, apply, initial, h]
  obtain ⟨-, -, -, checks, typed⟩ :=
    (placeholders_depend_on_imports initial plainHistory).2 initial crowdedHistory same
  exact ⟨fun ds found => (checks ds found).1, typed chainRequest .empty⟩

end Environment
end InferredTypes
