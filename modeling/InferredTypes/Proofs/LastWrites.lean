import InferredTypes.Placement
import InferredTypes.Proofs.Reentry
import InferredTypes.Proofs.SameTables
import InferredTypes.Proofs.SmallPrograms

/-! An environment that changes step by step. Of the changes for one key only the last counts, in
whatever order the steps come, and the assumed pairs count as a set. -/
namespace InferredTypes

theorem Assoc.get?_insert_eq_or {κ α : Type} [DecidableEq κ] (m : Assoc κ α) (k x : κ) (a : α) :
    (m.insert k a).get? x = (if k = x then some a else none).or (m.get? x) := by
  by_cases same : k = x
  · simp [same]
  · have other : x ≠ k := fun h => same h.symm
    simp [same, other]

namespace Environment

/-! What the tables hold after a number of changes. -/

namespace Change

def importOf (name : String) : Change → Option String
  | importName simple qualified => if simple = name then some qualified else none
  | _ => none

def classOf (name : String) : Change → Option ClassInfo
  | declareClass declared info => if declared = name then some info else none
  | _ => none

def scriptOf (id : NodeId) : Change → Option Ty
  | scriptType expr ty => if expr = id then some ty else none
  | _ => none

def bindingOf (name : String) : Change → Option Decl
  | bind d => if d.name = name then some d else none
  | _ => none

end Change

/-- What the last of the changes that write anything writes. -/
def lastWrite {α : Type} (writes : Change → Option α) (changes : List Change) : Option α :=
  changes.reverse.findSome? writes

/-- A table holds what was last written to it, else what it held at the start. -/
theorem get?_applyAll {κ α : Type} [DecidableEq κ] {table : Environment → Assoc κ α}
    {writes : κ → Change → Option α}
    (step : ∀ env c k, (table (env.apply c)).get? k = (writes k c).or ((table env).get? k))
    (env : Environment) (changes : List Change) (k : κ) :
    (table (env.applyAll changes)).get? k =
      (lastWrite (writes k) changes).or ((table env).get? k) := by
  -- The first change is the last to be looked for, so it stands behind all the others.
  induction changes generalizing env with
  | nil => rfl
  | cons c changes ih =>
    have rest := ih (env.apply c)
    rw [step] at rest
    simp only [lastWrite, List.reverse_cons, List.findSome?_append, List.findSome?_singleton,
      Option.or_assoc] at rest ⊢
    exact rest

theorem get?_imports_apply (env : Environment) (c : Change) (name : String) :
    (env.apply c).imports.get? name = (c.importOf name).or (env.imports.get? name) := by
  cases c with
  | importName simple qualified => exact Assoc.get?_insert_eq_or ..
  | declareClass | scriptType | assume | bind => rfl

theorem get?_classes_apply (env : Environment) (c : Change) (name : String) :
    (env.apply c).classes.get? name = (c.classOf name).or (env.classes.get? name) := by
  cases c with
  | declareClass declared info => exact Assoc.get?_insert_eq_or ..
  | importName | scriptType | assume | bind => rfl

theorem get?_scripted_apply (env : Environment) (c : Change) (id : NodeId) :
    (env.apply c).scripted.get? id = (c.scriptOf id).or (env.scripted.get? id) := by
  cases c with
  | scriptType expr ty => exact Assoc.get?_insert_eq_or ..
  | importName | declareClass | assume | bind => rfl

theorem get?_bindings_apply (env : Environment) (c : Change) (name : String) :
    (env.apply c).bindings.get? name = (c.bindingOf name).or (env.bindings.get? name) := by
  cases c with
  | bind d => exact Assoc.get?_insert_eq_or ..
  | importName | declareClass | scriptType | assume => rfl

theorem mem_assumed_applyAll (env : Environment) {changes : List Change} {source target : Ty} :
    (source, target) ∈ (env.applyAll changes).assumed ↔
      .assume source target ∈ changes ∨ (source, target) ∈ env.assumed := by
  induction changes generalizing env with
  | nil => simp [applyAll]
  | cons c changes ih =>
    have rest := ih (env.apply c)
    cases c with
    | assume source' target' =>
      simp only [applyAll, List.foldl_cons, apply, List.mem_cons, Prod.mk.injEq,
        Change.assume.injEq] at rest ⊢
      rw [rest, or_left_comm, or_assoc]
    | importName | declareClass | scriptType | bind =>
      simpa [applyAll, apply] using rest

/-- The same last import of every name, declaration of every class, scripted type of every
expression and binding of every variable, and the same assumed pairs. -/
structure SameWrites (changes changes' : List Change) : Prop where
  imports : ∀ name, lastWrite (Change.importOf name) changes =
    lastWrite (Change.importOf name) changes'
  classes : ∀ name, lastWrite (Change.classOf name) changes =
    lastWrite (Change.classOf name) changes'
  scripted : ∀ id, lastWrite (Change.scriptOf id) changes = lastWrite (Change.scriptOf id) changes'
  bindings : ∀ name, lastWrite (Change.bindingOf name) changes =
    lastWrite (Change.bindingOf name) changes'
  assumed : ∀ source target, .assume source target ∈ changes ↔ .assume source target ∈ changes'

/-! Environments whose tables hold the same give the same answers. -/

/-- The tables of the two environments hold the same. -/
structure SameTables (env env' : Environment) : Prop extends Alike env env' where
  scripted : ∀ id, env.scripted.get? id = env'.scripted.get? id
  bindings : ∀ name, env.bindings.get? name = env'.bindings.get? name

theorem SameWrites.sameTables {changes changes' : List Change}
    (same : SameWrites changes changes') (start : Environment) :
    (start.applyAll changes).SameTables (start.applyAll changes') where
  imports name := by
    rw [get?_applyAll get?_imports_apply, get?_applyAll get?_imports_apply, same.imports]
  classes name := by
    rw [get?_applyAll get?_classes_apply, get?_applyAll get?_classes_apply, same.classes]
  scripted id := by
    rw [get?_applyAll get?_scripted_apply, get?_applyAll get?_scripted_apply, same.scripted]
  bindings name := by
    rw [get?_applyAll get?_bindings_apply, get?_applyAll get?_bindings_apply, same.bindings]
  assumed := by
    rintro ⟨source, target⟩
    rw [mem_assumed_applyAll, mem_assumed_applyAll, same.assumed]

namespace SameTables
variable {env env' : Environment}

theorem variableType (same : env.SameTables env') (infer : Decl → Request (Option Ty)) (d : Decl) :
    env.variableType infer d = env'.variableType infer d := by
  have declared : env.declaredType = env'.declaredType := funext same.declaredType
  simp only [Environment.variableType, same.semantics, declared]

mutual
theorem typeOf (same : env.SameTables env') (infer : Decl → Request (Option Ty)) (e : Expr) :
    env.typeOf infer e = env'.typeOf infer e := by
  unfold Environment.typeOf
  rw [same.scripted]
  cases env'.scripted.get? e.id with
  | some ty => rfl
  | none =>
    match e with
    | .literal _ _ => rfl
    | .ident _ name =>
      dsimp only
      rw [same.bindings]
      cases env'.bindings.get? name with
      | none => rfl
      | some d => exact same.variableType infer d
    | .creation _ (some ref) => exact congrArg pure (same.creationType ref)
    | .conditional _ _ whenTrue whenFalse =>
      simp only [same.typeOfBranch infer whenTrue, same.typeOfBranch infer whenFalse,
        same.semantics]
    | .creation _ none => rfl
    | .lambda _ => rfl
    | .braceList _ _ => rfl
    | .other _ => rfl

theorem typeOfBranch (same : env.SameTables env') (infer : Decl → Request (Option Ty))
    (e : Option Expr) : env.typeOfBranch infer e = env'.typeOfBranch infer e := by
  match e with
  | none =>
    unfold Environment.typeOfBranch
    rfl
  | some e =>
    unfold Environment.typeOfBranch
    rw [same.typeOf infer e]
end

theorem answer (same : env.SameTables env') : env.answer = env'.answer := by
  funext infer
  have typed : env.typeOf infer = env'.typeOf infer := funext (same.typeOf infer)
  have elements : env.elementOf = env'.elementOf := funext same.elementOf
  simp only [Environment.answer, same.semantics, typed, elements]

/-- The hosts are the same also where the tables differ in length: the levels that one of them is
built with and the other is not change nothing. -/
theorem host (same : env.SameTables env') : env.host = env'.host := by
  have levels : env.bindings.size + 1 + env'.bindings.size =
      env'.bindings.size + 1 + env.bindings.size := by omega
  calc env.host
    _ = Host.unroll env.answer (env.bindings.size + 1 + env'.bindings.size) :=
      (env.unroll_eq_host _).symm
    _ = Host.unroll env'.answer (env'.bindings.size + 1 + env.bindings.size) := by
      rw [same.answer, levels]
    _ = env'.host := env'.unroll_eq_host _

end SameTables

/-- Every question to the one environment has the answer that the other gives: the same result and
the same notes from every guard. -/
structure SameAnswers (env env' : Environment) : Prop where
  placeholder : ∀ ref, env.host.placeholder ref = env'.host.placeholder ref
  checkAll : ∀ ds found, env.host.checkAll ds found = env'.host.checkAll ds found
  infer : ∀ d, env.host.infer d = env'.host.infer d
  staticType : ∀ e, env.host.staticType e = env'.host.staticType e
  elementType : ∀ e, env.host.elementType e = env'.host.elementType e
  unify : ∀ whenTrue whenFalse, env.host.unify whenTrue whenFalse =
    env'.host.unify whenTrue whenFalse
  assignable : ∀ source target, env.assignable source target = env'.assignable source target
  declaredType : ∀ ref, env.declaredType ref = env'.declaredType ref

theorem SameTables.sameAnswers {env env' : Environment} (same : env.SameTables env') :
    env.SameAnswers env' where
  placeholder ref := by rw [same.host]
  checkAll ds found := by rw [same.host]
  infer d := by rw [same.host]
  staticType e := by rw [same.host]
  elementType e := by rw [same.host]
  unify whenTrue whenFalse := by rw [same.host]
  assignable := same.assignable
  declaredType := same.declaredType

/-- Changes with the same last writes, made from the same start in any order and with any
repetitions, lead to environments that no question tells apart. -/
theorem answers_depend_on_last_writes (start : Environment) {changes changes' : List Change}
    (same : SameWrites changes changes') :
    SameAnswers (start.applyAll changes) (start.applyAll changes') := by
  have tables := same.sameTables start
  exact tables.sameAnswers

/-- A variable that refers to itself. -/
def loopDecl (id : Nat) : Decl :=
  valDecl id "x" (.ident ⟨⟨1⟩, ⟨0, 0⟩⟩ "x")

/-- Every key is written twice, and one pair is assumed twice. -/
def drafts : List Change :=
  [ .importName "val" "a.val", .declareClass "Box" ⟨[], []⟩, .scriptType ⟨1⟩ .null
  , .bind (loopDecl 10), .assume .null (.var "T"), .declareClass "Box" ⟨["T"], [.var "T"]⟩
  , .importName "val" "lombok.val", .bind (loopDecl 11), .scriptType ⟨1⟩ (.named "Box" [])
  , .assume .null (.var "T") ]

/-- The same without repetitions, in another order. -/
def finalDraft : List Change :=
  [ .bind (loopDecl 11), .scriptType ⟨1⟩ (.named "Box" []), .assume .null (.var "T")
  , .importName "val" "lombok.val", .declareClass "Box" ⟨["T"], [.var "T"]⟩ ]

theorem sameWrites_drafts : SameWrites drafts finalDraft where
  imports name := by
    by_cases h : "val" = name <;>
      simp [lastWrite, List.findSome?, drafts, finalDraft, Change.importOf, h]
  classes name := by
    by_cases h : "Box" = name <;>
      simp [lastWrite, List.findSome?, drafts, finalDraft, Change.classOf, h]
  scripted id := by
    by_cases h : (⟨1⟩ : NodeId) = id <;>
      simp [lastWrite, List.findSome?, drafts, finalDraft, Change.scriptOf, h]
  bindings name := by
    by_cases h : "x" = name <;>
      simp [lastWrite, List.findSome?, drafts, finalDraft, Change.bindingOf, loopDecl, valDecl,
        Decl.name, h]
  assumed source target := by simp [drafts, finalDraft]

theorem drafts_answers :
    SameWrites drafts finalDraft ∧
    SameAnswers (standard.applyAll drafts) (standard.applyAll finalDraft) :=
  ⟨sameWrites_drafts, answers_depend_on_last_writes standard sameWrites_drafts⟩

end Environment
end InferredTypes
