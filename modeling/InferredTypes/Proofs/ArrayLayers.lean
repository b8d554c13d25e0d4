import InferredTypes.Environment.Standard
import InferredTypes.Proofs.RawOrder
import InferredTypes.Proofs.TypeShape

/-! Assignability of arrays of any depth. The layers that both sides have come off together; what is
left decides, and primitives that were under a layer fit only themselves. -/
namespace InferredTypes

namespace Environment
variable {env : Environment} {a b : Ty}

/-- Equally many layers come off both sides, and at the last one primitives are told apart. -/
theorem assignable_arrayOf_succ (noAssumed : env.assumed = []) (a b : Ty) (n : Nat) :
    env.assignable (a.arrayOf (n + 1)) (b.arrayOf (n + 1)) =
      if a.isPrimitive || b.isPrimitive then decide (a = b) else env.assignable a b := by
  induction n with
  | zero => exact assignable_array noAssumed a b
  | succ n ih =>
    have outer : env.assignable (a.arrayOf (n + 2)) (b.arrayOf (n + 2)) =
        env.assignable (a.arrayOf (n + 1)) (b.arrayOf (n + 1)) :=
      assignable_array noAssumed _ _
    rw [outer, ih]

/-- An array fits the top class and no other type that is not an array. -/
theorem assignable_array_left_iff (noAssumed : env.assumed = []) (other : b.isArray = false) :
    env.assignable (.array a) b = true ↔ ∃ args, b = .named topName args := by
  rw [assignable_eq, noAssumed]
  cases b with
  | array => simp [Ty.isArray] at other
  | named name args => simp [fits]
  | primitive | var | null => simp [fits]

/-- Nothing but the null type and arrays fits an array. -/
theorem assignable_array_right_iff (noAssumed : env.assumed = []) (other : a.isArray = false) :
    env.assignable a (.array b) = true ↔ a = .null := by
  rw [assignable_eq, noAssumed]
  cases a with
  | array => simp [Ty.isArray] at other
  | null => simp [fits, Ty.isPrimitive]
  | named | primitive | var => simp [fits, subtype]

section
variable (noAssumed : env.assumed = []) {m n : Nat}
include noAssumed

theorem assignable_same_depth_iff (layer : 1 ≤ n) :
    env.assignable (a.arrayOf n) (b.arrayOf n) = true ↔
      a = b ∨ a.isPrimitive = false ∧ b.isPrimitive = false ∧ env.assignable a b = true := by
  obtain ⟨n, rfl⟩ := Nat.exists_eq_add_of_le' layer
  rw [assignable_arrayOf_succ noAssumed]
  by_cases same : a = b
  · subst same
    simp [assignable_self]
  · cases a.isPrimitive <;> cases b.isPrimitive <;> simp [same]

/-- The source is still an array when the layers of the target have come off. -/
theorem assignable_deeper_source_iff (layer : 1 ≤ m) (deeper : m < n) (elem : b.isArray = false) :
    env.assignable (a.arrayOf n) (b.arrayOf m) = true ↔ ∃ args, b = .named topName args := by
  obtain ⟨k, rfl⟩ : ∃ k, n = m + (k + 1) := ⟨n - m - 1, by omega⟩
  rw [a.arrayOf_add, assignable_same_depth_iff noAssumed layer, Ty.arrayOf,
    assignable_array_left_iff noAssumed elem]
  constructor
  · rintro (rfl | ⟨-, -, top⟩)
    · simp [Ty.isArray] at elem
    · exact top
  · rintro ⟨args, rfl⟩
    exact .inr ⟨rfl, rfl, args, rfl⟩

theorem assignable_deeper_target_iff (layer : 1 ≤ n) (deeper : n < m) (elem : a.isArray = false) :
    env.assignable (a.arrayOf n) (b.arrayOf m) = true ↔ a = .null := by
  obtain ⟨k, rfl⟩ : ∃ k, m = n + (k + 1) := ⟨m - n - 1, by omega⟩
  rw [b.arrayOf_add, assignable_same_depth_iff noAssumed layer, Ty.arrayOf,
    assignable_array_right_iff noAssumed elem]
  constructor
  · rintro (rfl | ⟨-, -, null⟩)
    · simp [Ty.isArray] at elem
    · exact null
  · rintro rfl
    exact .inr ⟨rfl, rfl, rfl⟩

theorem assignable_layers_iff (source : 1 ≤ n) (target : 1 ≤ m) (sourceElem : a.isArray = false)
    (targetElem : b.isArray = false) :
    env.assignable (a.arrayOf n) (b.arrayOf m) = true ↔
      n = m ∧ a = b ∨
      n = m ∧ a.isPrimitive = false ∧ b.isPrimitive = false ∧ env.assignable a b = true ∨
      m < n ∧ (∃ args, b = .named topName args) ∨
      n < m ∧ a = .null := by
  rcases Nat.lt_trichotomy n m with shallower | rfl | deeper
  · rw [assignable_deeper_target_iff noAssumed source shallower sourceElem]
    simp [shallower, Nat.ne_of_lt shallower, Nat.lt_asymm shallower]
  · rw [assignable_same_depth_iff noAssumed source]
    simp
  · rw [assignable_deeper_source_iff noAssumed target deeper targetElem]
    simp [deeper, Nat.ne_of_gt deeper, Nat.lt_asymm deeper]

end

/-- When an array fits an array: at the same depth the elements are the same, or neither is
primitive and the one fits the other; a deeper one fits arrays of the top class; and arrays of the
null type fit deeper ones. So primitives under a layer are neither widened nor boxed nor unboxed. -/
theorem assignable_arrayOf_iff (noAssumed : env.assumed = []) {m n : Nat} (source : 1 ≤ n)
    (target : 1 ≤ m) (sourceElem : a.isArray = false) (targetElem : b.isArray = false) :
    (env.assignable (a.arrayOf n) (b.arrayOf m) = true ↔
      n = m ∧ a = b ∨
      n = m ∧ a.isPrimitive = false ∧ b.isPrimitive = false ∧ env.assignable a b = true ∨
      m < n ∧ (∃ args, b = .named topName args) ∨
      n < m ∧ a = .null) ∧
    (∀ p, a = .primitive p →
      (env.assignable (a.arrayOf n) (b.arrayOf m) = true ↔
        n = m ∧ b = .primitive p ∨ m < n ∧ ∃ args, b = .named topName args)) ∧
    ∀ p, b = .primitive p →
      (env.assignable (a.arrayOf n) (b.arrayOf m) = true ↔
        n = m ∧ a = .primitive p ∨ n < m ∧ a = .null) := by
  have fit := assignable_layers_iff noAssumed source target sourceElem targetElem
  refine ⟨fit, ?_, ?_⟩
  · rintro p rfl
    simp [fit, Ty.isPrimitive, @eq_comm _ b]
  · rintro p rfl
    simp [fit, Ty.isPrimitive]

/-- Arrays of boxes fit like the boxes. Numbers under two layers are not boxed, but arrays of them
are objects. -/
theorem number_arrays_fit :
    let boxed (simple : String) := Ty.named (langName simple) []
    standard.assumed = [] ∧ standard.assignable (boxed "Integer") (boxed "Number") = true ∧
    standard.assignable ((boxed "Integer").arrayOf 2) ((boxed "Number").arrayOf 2) = true ∧
    standard.assignable (.primitive .int) (boxed "Number") = true ∧
    standard.assignable ((Ty.primitive .int).arrayOf 2) ((boxed "Number").arrayOf 2) = false ∧
    standard.assignable ((Ty.primitive .int).arrayOf 2) (topClass.arrayOf 1) = true := by
  intro boxed
  have noAssumed : standard.assumed = [] := rfl
  have subclass : standard.assignable (boxed "Integer") (boxed "Number") = true := by
    decide +kernel
  have boxes := assignable_arrayOf_iff noAssumed (a := boxed "Integer") (b := boxed "Number")
    (m := 2) (n := 2) (by decide) (by decide) rfl rfl
  have ints (b : Ty) (m : Nat) (layer : 1 ≤ m) (elem : b.isArray = false) :=
    (assignable_arrayOf_iff noAssumed (a := .primitive .int) (n := 2) (by decide) layer rfl
      elem).2.1 .int rfl
  have unboxed := ints (boxed "Number") 2 (by decide) rfl
  have object := ints topClass 1 (by decide) rfl
  refine ⟨noAssumed, subclass, boxes.1.2 (.inr (.inl ⟨rfl, rfl, rfl, subclass⟩)),
    by decide +kernel, ?_, object.2 (.inr ⟨by decide, [], rfl⟩)⟩
  rw [Bool.eq_false_iff, ne_eq, unboxed]
  simp [boxed]

end Environment
end InferredTypes
