import InferredTypes.Proofs.OpenCreations
import InferredTypes.Proofs.SmallPrograms
import InferredTypes.Proofs.TypeShape
import InferredTypes.Proofs.WrittenArguments

/-! Types written out and read back. A type comes back exactly if it is made of primitives, classes
and arrays and each class is known under the name that is written. -/
namespace InferredTypes

/-- The written type with one more array layer. -/
def TypeRef.layered (ref : TypeRef) : TypeRef :=
  { ref with dims := ref.dims + 1 }

namespace Ty

mutual
/-- The type as a program writes it, with a node for every place in it: `node []` for the type and
`node (i :: path)` for the places in its argument `i`. -/
def write (node : List Nat → Node) : Ty → TypeRef
  | .primitive p => ⟨node [], p.name, [], 0⟩
  | .named name args => ⟨node [], name, writeAll node 0 args, 0⟩
  | .array elem => (elem.write node).layered
  | .var name => ⟨node [], name, [], 0⟩
  | .null => ⟨node [], "null", [], 0⟩

def writeAll (node : List Nat → Node) (first : Nat) : List Ty → List (TypeArg TypeRef)
  | [] => []
  | ty :: tys => .type (ty.write fun path => node (first :: path)) :: writeAll node (first + 1) tys
end

mutual
/-- Nowhere in the type do more than `limit` array layers lie on each other. -/
def layersWithin (limit : Nat) : Ty → Bool
  | .array elem => elem.layers < limit && elem.layersWithin limit
  | .named _ args => layersWithinAll limit args
  | .primitive _ | .var _ | .null => true

def layersWithinAll (limit : Nat) : List Ty → Bool
  | [] => true
  | ty :: tys => ty.layersWithin limit && layersWithinAll limit tys
end

end Ty

namespace TypeRef

mutual
def dimsWithin (limit : Nat) : TypeRef → Bool
  | ⟨_, _, args, dims⟩ => dims ≤ limit && dimsWithinAll limit args

def dimsWithinAll (limit : Nat) : List (TypeArg TypeRef) → Bool
  | [] => true
  | .type ref :: args => ref.dimsWithin limit && dimsWithinAll limit args
  | .diamond :: args => dimsWithinAll limit args
end

theorem dimsWithin_layered (limit : Nat) (ref : TypeRef) :
    ref.layered.dimsWithin limit = (ref.dims < limit && ref.dimsWithin limit) := by
  obtain ⟨node, name, args, dims⟩ := ref
  rw [layered, dimsWithin, dimsWithin, ← Bool.and_assoc, ← Bool.decide_and]
  congr 2
  simp only [eq_iff_iff]
  omega

end TypeRef

namespace Ty

theorem dims_write (node : List Nat → Node) (ty : Ty) : (ty.write node).dims = ty.layers := by
  induction ty using Ty.induct with
  | array elem ih => rw [write, TypeRef.layered, ih, layers]
  | primitive | named | var | null => rw [write, layers]

mutual
/-- The dimensions that are written are the layers of the type. -/
theorem dimsWithin_write (limit : Nat) (node : List Nat → Node) (ty : Ty) :
    (ty.write node).dimsWithin limit = ty.layersWithin limit := by
  match ty with
  | .primitive _ | .var _ | .null =>
    simp [write, TypeRef.dimsWithin, TypeRef.dimsWithinAll, layersWithin]
  | .named name args =>
    have inner := dimsWithinAll_writeAll limit node 0 args
    simp [write, TypeRef.dimsWithin, layersWithin, inner]
  | .array elem =>
    have inner := dimsWithin_write limit node elem
    rw [write, TypeRef.dimsWithin_layered, inner, dims_write, layersWithin]

theorem dimsWithinAll_writeAll (limit : Nat) (node : List Nat → Node) (first : Nat)
    (tys : List Ty) :
    TypeRef.dimsWithinAll limit (writeAll node first tys) = layersWithinAll limit tys := by
  match tys with
  | [] => simp [writeAll, TypeRef.dimsWithinAll, layersWithinAll]
  | ty :: tys =>
    have here := dimsWithin_write limit (fun path => node (first :: path)) ty
    have rest := dimsWithinAll_writeAll limit node (first + 1) tys
    simp [writeAll, TypeRef.dimsWithinAll, layersWithinAll, here, rest]
end

theorem length_writeAll (node : List Nat → Node) (first : Nat) (tys : List Ty) :
    (writeAll node first tys).length = tys.length := by
  induction tys generalizing first with
  | nil => simp [writeAll]
  | cons ty tys ih => simp [writeAll, ih]

/-- No argument is left open where a type is written out. -/
theorem isDiamond_write (node : List Nat → Node) (ty : Ty) :
    (ty.write node).isDiamond = false := by
  induction ty using Ty.induct with
  | array elem ih => exact ih
  | named name args => cases args <;> simp [write, writeAll, TypeRef.isDiamond]
  | primitive | var | null => simp [write, TypeRef.isDiamond]

theorem name_write (node : List Nat → Node) {ty : Ty} {name : String} {args : List Ty}
    (base : ty.base = .named name args) : (ty.write node).name = name := by
  induction ty using Ty.induct with
  | array elem ih => exact ih base
  | named other => exact (Ty.named.inj base).1
  | primitive | var | null => simp [Ty.base] at base

end Ty

namespace Environment

/-- The name is imported as itself, or it is not imported and has a point in it or is a declared
class. -/
def namesItself (env : Environment) (name : String) : Bool :=
  match env.imports.get? name with
  | some qualified => qualified = name
  | none => '.' ∈ name.toList || env.classes.contains name

mutual
/-- Made of primitives, arrays and classes, whose names are no primitives' and name themselves. -/
def legible (env : Environment) : Ty → Bool
  | .named name args =>
    (Primitive.ofName? name).isNone && env.namesItself name && env.legibleAll args
  | .array elem => env.legible elem
  | .primitive _ => true
  | .var _ | .null => false

def legibleAll (env : Environment) : List Ty → Bool
  | [] => true
  | ty :: tys => env.legible ty && env.legibleAll tys
end

variable {env : Environment} {ty : Ty}

theorem qualify_eq_self_iff {name : String} :
    env.qualify name = some name ↔ env.namesItself name = true := by
  unfold qualify namesItself
  cases env.imports.get? name with
  | some qualified => simp
  | none =>
    rw [Option.ite_none_right_eq_some]
    simp

theorem declaredType_layered (ref : TypeRef) :
    env.declaredType ref.layered = (env.declaredType ref).map .array := by
  obtain ⟨node, name, args, dims⟩ := ref
  rw [TypeRef.layered, declaredType, declaredType]
  cases Primitive.ofName? name with
  | some p => rfl
  | none => cases env.qualify name <;> rfl

/-- A written class has the types of its arguments, under the name that it is known by. -/
theorem declaredType_plain_eq_named {node : Node} {name : String}
    {written : List (TypeArg TypeRef)} {args : List Ty} :
    env.declaredType ⟨node, name, written, 0⟩ = some (.named name args) ↔
      Primitive.ofName? name = none ∧ env.namesItself name = true ∧
        env.argumentTypes written = args := by
  rw [← qualify_eq_self_iff, declaredType_eq_some_iff]
  simp [Ty.arrayOf, @eq_comm _ args]

theorem length_argumentTypes_writeAll_le (env : Environment) (node : List Nat → Node) (first : Nat)
    (tys : List Ty) : (env.argumentTypes (Ty.writeAll node first tys)).length ≤ tys.length := by
  rw [length_argumentTypes, ← Ty.length_writeAll node first tys]
  exact List.countP_le_length

mutual
theorem declaredType_write (env : Environment) (node : List Nat → Node) (ty : Ty) :
    env.declaredType (ty.write node) = some ty ↔ env.legible ty = true := by
  match ty with
  | .primitive p => simp [Ty.write, declaredType, Primitive.ofName?_name, Ty.arrayOf, legible]
  | .named name args =>
    have inner := argumentTypes_writeAll env node 0 args
    rw [Ty.write, declaredType_plain_eq_named, inner, legible]
    simp [and_assoc]
  | .array elem =>
    have inner := declaredType_write env node elem
    rw [Ty.write, declaredType_layered, legible, ← inner]
    simp
  | .var _ | .null => simp [Ty.write, declaredType_eq_some_iff, Ty.arrayOf, legible]

theorem argumentTypes_writeAll (env : Environment) (node : List Nat → Node) (first : Nat)
    (tys : List Ty) :
    env.argumentTypes (Ty.writeAll node first tys) = tys ↔ env.legibleAll tys = true := by
  match tys with
  | [] => simp [Ty.writeAll, argumentTypes, legibleAll]
  | ty :: tys =>
    have here := declaredType_write env (fun path => node (first :: path)) ty
    have rest := argumentTypes_writeAll env node (first + 1) tys
    rw [Ty.writeAll, argumentTypes, legibleAll, Bool.and_eq_true, ← here, ← rest]
    cases env.declaredType (ty.write fun path => node (first :: path)) with
    | some denoted => simp
    | none =>
      -- The types that are left are too few.
      have fewer := length_argumentTypes_writeAll_le env node (first + 1) tys
      simp only [reduceCtorEq, false_and, iff_false]
      intro same
      rw [same, List.length_cons] at fewer
      omega
end

theorem namesItself_of_legible {name : String} {args : List Ty} (legible : env.legible ty = true)
    (base : ty.base = .named name args) : env.namesItself name = true := by
  induction ty using Ty.induct with
  | array elem ih => exact ih legible base
  | named other =>
    obtain ⟨rfl, rfl⟩ := Ty.named.inj base
    simp only [Environment.legible, Bool.and_eq_true] at legible
    exact legible.1.2
  | primitive | var | null => simp [Ty.base] at base

/-- The creation of an object resolves the name on its own before it reads the whole type. -/
theorem creationType_write {name : String} {args : List Ty} (node : List Nat → Node)
    (legible : env.legible ty = true) (base : ty.base = .named name args) :
    env.creationType (ty.write node) = some ty := by
  have known : env.qualify (ty.write node).name = some name := by
    rw [Ty.name_write node base]
    exact qualify_eq_self_iff.2 (namesItself_of_legible legible base)
  have read := (declaredType_write env node ty).2 legible
  simp [creationType, known, Ty.isDiamond_write, read]

/-- A type that is written out, whatever the nodes, is read back exactly if it is legible. The
dimensions that are written keep the same limits as the array layers of the type. If the type is a
class or has one under its layers, a creation with the written type gives the type, from every
guard. -/
theorem written_type_reads_back (env : Environment) (ty : Ty) (node : List Nat → Node) :
    (env.declaredType (ty.write node) = some ty ↔ env.legible ty = true) ∧
    (∀ limit, (ty.write node).dimsWithin limit = ty.layersWithin limit) ∧
    ∀ name args, env.legible ty = true → ty.base = .named name args →
      ∀ creation : Node, env.scripted.get? creation.id = none → ∀ g,
        Request.Yields (env.host.staticType (.creation creation (some (ty.write node)))) g
          (some ty) := by
  refine ⟨declaredType_write env node ty, fun limit => Ty.dimsWithin_write limit node ty, ?_⟩
  intro name args legible base creation unscripted g
  have yields := env.yields_staticType g (.creation creation (some (ty.write node)))
  rw [typeAt_creation unscripted, creationType_write node legible base] at yields
  exact yields

/-- The entries, and a class that is imported under its own name. -/
def withBoxes : Environment :=
  withEntries.apply (.importName "Box" "Box")

def boxesType : Ty :=
  .array (.named "Entry" [.array (.named "Box" [(Ty.primitive .int).arrayOf 2]),
    listType "ArrayList"])

theorem boxes_read_back :
    let node (path : List Nat) : Node := ⟨⟨path.headD 0⟩, ⟨path.length, 9⟩⟩
    let ref := boxesType.write node
    withBoxes.legible boxesType = true ∧ withBoxes.declaredType ref = some boxesType ∧
    ref.dimsWithin 255 = true ∧
    Request.Yields (withBoxes.host.staticType (.creation (nodeOf 3) (some ref))) ⟨[⟨3⟩]⟩
      (some boxesType) := by
  intro node ref
  have legible : withBoxes.legible boxesType = true := by decide +kernel
  obtain ⟨read, dims, created⟩ := written_type_reads_back withBoxes boxesType node
  exact ⟨legible, read.2 legible, (dims 255).trans (by decide +kernel),
    created _ _ legible rfl (nodeOf 3) rfl ⟨[⟨3⟩]⟩⟩

end Environment
end InferredTypes
