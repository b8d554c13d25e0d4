import InferredTypes.Placement
import InferredTypes.Proofs.Restoration
import InferredTypes.Proofs.Values

/-! Which placeholder declarations get a type and which are reported. Inference and the placement
rules decide this apart from each other, and agree over every host. -/
namespace InferredTypes

namespace Request
variable {α : Type} {m : Request α} {Q : α → Prop} {F : Stop → Prop}

/-- From every state the computation returns a result with `Q`, or stops for a reason with `F`. It
may do anything to the guard. -/
def Ends (m : Request α) (Q : α → Prop) (F : Stop → Prop) : Prop :=
  ∀ s, (∃ a s', m s = .ok a s' ∧ Q a) ∨ ∃ stop s', m s = .error stop s' ∧ F stop

theorem lasting_true : Lasting fun _ _ => True where
  refl _ := trivial
  trans _ _ := trivial
  release _ := trivial

theorem Ends.mono {Q' : α → Prop} (hm : Ends m Q F) (h : ∀ a, Q a → Q' a) : Ends m Q' F := by
  intro s
  exact (hm s).imp_left fun ⟨a, s', ok, ha⟩ => ⟨a, s', ok, h a ha⟩

theorem ends_iff : Ends m Q F ↔ Leaves (fun _ _ => True) m Q F := by
  simp [Ends, Leaves]

end Request

open Request

namespace Decl

/-- Local variables and the parameters of foreach loops. -/
def Inferable (d : Decl) : Prop :=
  (∃ v, d = .localVariable v) ∨
    ∃ p head iterated, d = .parameter p ∧ p.scope = .foreachLoop head iterated

/-- The parameters of counted loops. -/
def InCountedLoop (d : Decl) : Prop :=
  ∃ p head, d = .parameter p ∧ p.scope = .countedLoop head

/-- The expressions whose types inference may ask for: the source and its branches. -/
def asked (d : Decl) : List Expr :=
  d.source?.toList.flatMap fun e => e :: e.branches

theorem isSome_origin?_iff (d : Decl) : d.origin?.isSome = true ↔ d.Inferable := by
  cases d with
  | localVariable v => simp [origin?, Inferable]
  | parameter p => cases scope : p.scope <;> simp [origin?, Inferable, scope]

theorem mem_asked {W : Type} {F : Flight W} {w v : W} {d : Decl} {e f : Expr}
    (source : d.source? = some e) (visits : F.Visits w e v f) : f ∈ d.asked := by
  cases visits with
  | source => simp [asked, source]
  | branch _ mem => simp [asked, source, mem]

end Decl

namespace Host
variable {host : Host}

/-- The host can stop for this reason while it answers about one of the expressions. -/
def StopsOn (host : Host) (es : List Expr) (stop : Stop) : Prop :=
  ∃ e ∈ es, ∃ s s', host.staticType e s = .error stop s' ∨ host.elementType e s = .error stop s'

theorem ends_staticType (host : Host) {es : List Expr} {e : Expr} (mem : e ∈ es) :
    Ends (host.staticType e) (fun _ => True) (host.StopsOn es) := by
  intro s
  cases h : host.staticType e s with
  | ok ty s' => exact .inl ⟨ty, s', rfl, trivial⟩
  | error stop s' => exact .inr ⟨stop, s', rfl, e, mem, s, s', .inl h⟩

theorem ends_elementType (host : Host) {es : List Expr} {e : Expr} (mem : e ∈ es) :
    Ends (host.elementType e) (fun _ => True) (host.StopsOn es) := by
  intro s
  cases h : host.elementType e s with
  | ok ty s' => exact .inl ⟨ty, s', rfl, trivial⟩
  | error stop s' => exact .inr ⟨stop, s', rfl, e, mem, s, s', .inr h⟩

/-- Inference gives a type to the placeholder declarations that have an origin, and to no others.
Only the host can stop it. -/
theorem ends_infer (host : Host) (d : Decl) :
    Ends (host.infer d)
      (fun ty => ty.isSome = true ↔ (host.kind d.typeRef).isActive = true ∧ d.Inferable)
      (host.StopsOn d.asked) := by
  let J := leaving lasting_true (host.StopsOn d.asked)
  have answers {f : Expr} (mem : f ∈ d.asked) :
      J.Opens (fun _ => host.askStaticType) (fun _ _ _ => True) () f ∧
      J.Opens (fun _ => host.askElementType) (fun _ _ _ => True) () f :=
    ⟨⟨trivial, fun _ => .asking _ (ends_iff.1 (host.ends_staticType mem))⟩,
      ⟨trivial, fun _ => .asking _ (ends_iff.1 (host.ends_elementType mem))⟩⟩
  have inferred := J.infer (w := ()) (d := d) (fun _ => host) (fun _ => rfl) _ _
    fun e source _ f visits => answers (Decl.mem_asked source visits)
  rw [← d.isSome_origin?_iff]
  exact ends_iff.2 (J.mono inferred fun ty result => result.isSome_iff)

theorem origin?_eq_none_of_infer {d : Decl} {s s' : Context}
    (active : (host.kind d.typeRef).isActive = true) (untyped : host.infer d s = .ok none s') :
    d.origin? = none := by
  rcases host.ends_infer d s with ⟨ty, after, ok, typed⟩ | ⟨stop, after, stopped, -⟩
  · rw [untyped] at ok
    cases ok
    rw [← d.isSome_origin?_iff] at typed
    simpa [active] using typed
  · simp [untyped] at stopped

/-- A placeholder variable without an initializer, or with a brace list, gets the top type, and the
host is not asked about any expression. -/
theorem yields_infer_top {v : LocalVariable} (active : (host.kind v.typeRef).isActive = true)
    (bare : v.initializer = none ∨ ∃ node elems, v.initializer = some (.braceList node elems))
    (g : Guard) :
    Yields (host.infer (.localVariable v)) g (some (host.topType v.node.id)) := by
  have untyped : returning.Holds (fun _ => host.originType (.initializer v.initializer)) g
      (· = none) := by
    rcases bare with missing | ⟨node, elems, list⟩
    · rw [missing]
      exact returning.pure rfl
    · rw [list]
      exact returning.pure rfl
  have inferred : returning.Holds (fun _ => host.infer (.localVariable v)) g
      (host.OfDeclFrom (fun _ ty => ty = none) (.localVariable v)) :=
    returning.infer_of_origin (fun _ => rfl) _ fun origin found => Option.some.inj found ▸ untyped
  refine .of_settles (returning.mono inferred ?_)
  intro ty result
  simpa [Semantics.OfDeclFrom, Decl.typeRef, active, Decl.origin?, Decl.id, Decl.node] using result

end Host

namespace Semantics
variable {sem : Semantics}

/-- What is wrong with a declaration. -/
def fault? (sem : Semantics) : Decl → Option Problem
  | .localVariable v => v.fault? (sem.kind v.typeRef)
  | .parameter p => p.fault? (sem.kind p.typeRef)

/-- The report on a declaration, if anything is wrong with it. -/
def report? (sem : Semantics) (d : Decl) : Option Diagnostic :=
  (sem.fault? d).map (.error d.node)

theorem yields_placeholder (sem : Semantics) (ref : Option TypeRef) (g : Guard) :
    Yields (sem.placeholder ref) g (sem.kind ref) :=
  .of_settles (returning.placeholder sem ref)

/-- A check adds the report on the declaration to what was found before, and nothing else. -/
theorem yields_check (sem : Semantics) (d : Decl) (found : Array Diagnostic) (g : Guard) :
    Yields (sem.check d found) g (found ++ (sem.report? d).toArray) := by
  cases d with
  | localVariable v =>
    apply Yields.bind (sem.yields_placeholder v.typeRef g)
    simp only [report?, fault?, Decl.node]
    cases v.fault? (sem.kind v.typeRef) with
    | none => simpa using Yields.pure found
    | some problem =>
      apply Yields.bind (.note _)
      simpa using Yields.pure (found.push (.error v.node problem))
  | parameter p =>
    apply Yields.bind (sem.yields_placeholder p.typeRef g)
    simp only [report?, fault?, Decl.node]
    cases p.fault? (sem.kind p.typeRef) with
    | none => simpa using Yields.pure found
    | some problem =>
      apply Yields.bind (.note _)
      simpa using Yields.pure (found.push (.error p.node problem))

/-- The reports come in the order of the declarations, after what was found before. -/
theorem yields_checkAll (sem : Semantics) (ds : List Decl) (found : Array Diagnostic) (g : Guard) :
    Yields (sem.checkAll ds found) g (found ++ (ds.filterMap sem.report?).toArray) := by
  induction ds generalizing found with
  | nil => simpa [checkAll] using Yields.pure found
  | cons d ds ih =>
    have rest := ih (found ++ (sem.report? d).toArray)
    apply Yields.bind (sem.yields_check d found g)
    cases h : sem.report? d <;> simpa [h] using rest

theorem fault?_of_yields_check {d : Decl} {found : Array Diagnostic} {report : Diagnostic}
    {g : Guard} (reported : Yields (sem.check d found) g (found.push report)) :
    sem.fault? d = some report.problem := by
  have same := (sem.yields_check d found g).unique reported
  cases h : sem.fault? d with
  | none =>
    have sizes := congrArg Array.size same
    simp [report?, h] at sizes
  | some problem =>
    have equal : Diagnostic.error d.node problem = report := by
      simpa [report?, h, Array.push_inj_right] using same
    rw [← equal]
    rfl

/-- A placeholder without an origin is misplaced: outside of loops always, and on a counted loop if
it is `val`. -/
theorem fault?_of_origin?_eq_none {d : Decl} (active : (sem.kind d.typeRef).isActive = true)
    (rootless : d.origin? = none) :
    (sem.kind d.typeRef = .var ∧ d.InCountedLoop ∧ sem.fault? d = none) ∨
      ∃ problem, sem.fault? d = some problem ∧ problem.category = .illegalPlacement := by
  cases d with
  | localVariable v => simp [Decl.origin?] at rootless
  | parameter p =>
    simp only [Decl.typeRef] at active ⊢
    cases scope : p.scope with
    | foreachLoop head iterated => simp [Decl.origin?, scope] at rootless
    | countedLoop head =>
      cases kind : sem.kind p.typeRef with
      | none => simp [kind, Placeholder.isActive] at active
      | val => exact .inr ⟨.valParameter, by simp [fault?, Parameter.fault?, kind, scope], rfl⟩
      | var =>
        have sound : sem.fault? (.parameter p) = none := by
          simp [fault?, Parameter.fault?, kind, scope]
        exact .inl ⟨rfl, ⟨p, head, rfl, scope⟩, sound⟩
    | owned owner =>
      cases kind : sem.kind p.typeRef with
      | none => simp [kind, Placeholder.isActive] at active
      | val => exact .inr ⟨.valParameter, by simp [fault?, Parameter.fault?, kind, scope], rfl⟩
      | var => exact .inr ⟨.varParameter, by simp [fault?, Parameter.fault?, kind, scope], rfl⟩

/-- A variable reported for a missing initializer or a brace list has none, or a brace list. -/
theorem initializer_of_fault? {v : LocalVariable} {problem : Problem}
    (reported : sem.fault? (.localVariable v) = some problem)
    (initial : ∃ kind, problem = .missingInitializer kind ∨ problem = .arrayInitializer kind) :
    (sem.kind v.typeRef).isActive = true ∧
      (v.initializer = none ∨ ∃ node elems, v.initializer = some (.braceList node elems)) := by
  simp only [fault?, LocalVariable.fault?] at reported
  split at reported
  · next active =>
    refine ⟨active, ?_⟩
    split at reported
    · next missing => exact .inl missing
    · next node elems list => exact .inr ⟨node, elems, list⟩
    · obtain rfl := Option.some.inj reported
      simp at initial
    · split at reported
      · obtain rfl := Option.some.inj reported
        simp at initial
      · simp at reported
  · simp at reported

end Semantics

namespace Host
variable {host : Host}

/-- A test of the placeholder of a variable that passes only with an initializer. -/
theorem yields_initialized (host : Host) (v : LocalVariable) (test : Placeholder → Bool)
    (g : Guard) :
    Yields (if v.initializer.isSome then do return test (← host.placeholder v.typeRef)
      else pure false) g (v.initializer.isSome && test (host.kind v.typeRef)) := by
  split
  · next given =>
    rw [given, Bool.true_and]
    exact .bind (host.yields_placeholder v.typeRef g) (.pure _)
  · next missing =>
    rw [Bool.eq_false_iff.2 missing]
    exact .pure false

theorem yields_isVal (host : Host) (v : LocalVariable) (g : Guard) :
    Yields (host.isVal v) g (v.initializer.isSome && decide (host.kind v.typeRef = .val)) :=
  host.yields_initialized v (fun kind => decide (kind = .val)) g

theorem yields_isValOrVar (host : Host) (v : LocalVariable) (g : Guard) :
    Yields (host.isValOrVar v) g (v.initializer.isSome && (host.kind v.typeRef).isActive) :=
  host.yields_initialized v Placeholder.isActive g

theorem isValOrVar_of_isVal {v : LocalVariable} {g : Guard} (val : Yields (host.isVal v) g true) :
    Yields (host.isValOrVar v) g true := by
  have known := (host.yields_isVal v g).unique val
  simp only [Bool.and_eq_true, decide_eq_true_eq] at known
  have passes := host.yields_isValOrVar v g
  rwa [known.1, known.2] at passes

theorem ends_infer_of_isValOrVar {v : LocalVariable} {g : Guard}
    (passes : Yields (host.isValOrVar v) g true) :
    Ends (host.infer (.localVariable v)) (fun ty => ty.isSome = true)
      (host.StopsOn (Decl.localVariable v).asked) := by
  have known := (host.yields_isValOrVar v g).unique passes
  rw [Bool.and_eq_true] at known
  exact (host.ends_infer (.localVariable v)).mono fun ty typed =>
    typed.2 ⟨known.2, .inl ⟨v, rfl⟩⟩

/-- Inference and the placement rules agree over every host, from every state. A declaration gets a
type exactly if it is a placeholder, and a local variable or a foreach parameter; only the host can
stop that, and only while it answers about the source of the declaration. A placeholder that gets
no type is reported once, as misplaced; a `var` parameter of a counted loop alone is not reported. A
variable reported for a missing initializer or a brace list has the top type. What passes as `val`
passes as `val` or `var`, and then has a type. -/
theorem inference_agrees_with_placement (host : Host) :
    (∀ d, (∀ g, Yields (host.placeholder d.typeRef) g (host.kind d.typeRef)) ∧
      Ends (host.infer d)
        (fun ty => ty.isSome = true ↔ (host.kind d.typeRef).isActive = true ∧ d.Inferable)
        (host.StopsOn d.asked)) ∧
    (∀ d s s', (host.kind d.typeRef).isActive = true → host.infer d s = .ok none s' →
      (host.kind d.typeRef = .var ∧ d.InCountedLoop ∧
        ∀ found g, Yields (host.check d found) g found) ∨
      ∃ report, report.node = d.node ∧ report.problem.category = .illegalPlacement ∧
        ∀ found g, Yields (host.check d found) g (found.push report)) ∧
    (∀ v found g report, Yields (host.check (.localVariable v) found) g (found.push report) →
      (∃ kind, report.problem = .missingInitializer kind ∨
        report.problem = .arrayInitializer kind) →
      ∀ g, Yields (host.infer (.localVariable v)) g (some (host.topType v.node.id))) ∧
    (∀ v g, Yields (host.isVal v) g true → Yields (host.isValOrVar v) g true) ∧
    ∀ v g, Yields (host.isValOrVar v) g true →
      Ends (host.infer (.localVariable v)) (fun ty => ty.isSome = true)
        (host.StopsOn (Decl.localVariable v).asked) := by
  refine ⟨fun d => ⟨host.yields_placeholder d.typeRef, host.ends_infer d⟩, ?_, ?_,
    fun v g => isValOrVar_of_isVal, fun v g => ends_infer_of_isValOrVar⟩
  · intro d s s' active untyped
    have checked := host.yields_check d
    rcases Semantics.fault?_of_origin?_eq_none active (origin?_eq_none_of_infer active untyped) with
      ⟨var, counted, sound⟩ | ⟨problem, reported, misplaced⟩
    · exact .inl ⟨var, counted, by simpa [Semantics.report?, sound] using checked⟩
    · exact .inr ⟨.error d.node problem, rfl, misplaced,
        by simpa [Semantics.report?, reported] using checked⟩
  · intro v found g report reported initial
    obtain ⟨active, bare⟩ :=
      Semantics.initializer_of_fault? (Semantics.fault?_of_yields_check reported) initial
    exact yields_infer_top active bare

/-- The host of a program that imports `val` and nothing else. -/
def valHost : Host :=
  (Environment.initial.apply (.importName "val" "lombok.val")).host

def valVariable (value : Option Expr) : LocalVariable :=
  ⟨⟨⟨1⟩, ⟨0, 0⟩⟩, "x", some ⟨⟨⟨0⟩, ⟨0, 0⟩⟩, "val", [], 0⟩, value, .block⟩

def valParameter : Parameter :=
  ⟨⟨⟨2⟩, ⟨0, 0⟩⟩, "p", some ⟨⟨⟨0⟩, ⟨0, 0⟩⟩, "val", [], 0⟩, .owned .method⟩

/-- A `val` parameter of a method is misplaced, a `val` without a value has the top type, and one
with a value has a type. -/
theorem val_declarations_placed :
    (∃ report, report.node = valParameter.node ∧ report.problem.category = .illegalPlacement ∧
      ∀ found g, Yields (valHost.check (.parameter valParameter) found) g (found.push report)) ∧
    (∀ g, Yields (valHost.infer (.localVariable (valVariable none))) g
      (some (valHost.topType ⟨1⟩))) ∧
    ∀ value, Ends (valHost.infer (.localVariable (valVariable (some value))))
      (fun ty => ty.isSome = true)
      (valHost.StopsOn (Decl.localVariable (valVariable (some value))).asked) := by
  obtain ⟨-, misplaced, topTyped, passes, typed⟩ := inference_agrees_with_placement valHost
  refine ⟨?_, ?_, ?_⟩
  · rcases misplaced (.parameter valParameter) .fresh _ rfl rfl with ⟨var, -⟩ | reported
    · exact absurd var (by decide)
    · exact reported
  · exact topTyped (valVariable none) #[] .empty _
      (valHost.yields_check (.localVariable (valVariable none)) #[] .empty) ⟨.val, .inl rfl⟩
  · intro value
    have val : Yields (valHost.isVal (valVariable (some value))) .empty true :=
      valHost.yields_isVal (valVariable (some value)) .empty
    exact typed _ .empty (passes _ .empty val)

end Host
end InferredTypes
