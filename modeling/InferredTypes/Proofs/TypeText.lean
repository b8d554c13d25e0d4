import InferredTypes.Proofs.TypeShape
import InferredTypes.Ty.Render
import InferredTypes.Ty.Substitution
import Mathlib.Data.Set.Insert

/-! The text of a type determines the type. The text is a word, arguments between angle brackets and
a pair of square brackets for each array layer, and since no word holds a mark, each of the three
ends in one place only, whatever follows. -/
namespace InferredTypes

/-- The names of classes and of type variables, of which none is both or a keyword. -/
structure Vocabulary where
  classes : Set String
  vars : Set String
  disjoint : ∀ name, name ∈ classes → name ∉ vars
  notPrimitive : ∀ p : Primitive, p.name ∉ classes ∧ p.name ∉ vars
  notNull : "null" ∉ classes ∧ "null" ∉ vars

namespace Ty

/-- The characters that separate the words in the text of a type. -/
def isMark (c : Char) : Bool :=
  c ∈ ['<', '>', '[', ']', ',', ' ']

def NoMarks (word : List Char) : Prop :=
  ∀ c ∈ word, isMark c = false

instance : DecidablePred NoMarks :=
  fun word => List.decidableBAll (fun c => isMark c = false) word

mutual
/-- All names in the type are from the vocabulary and hold no marks. -/
def Spelled (words : Vocabulary) : Ty → Prop
  | .named name args => name ∈ words.classes ∧ NoMarks name.toList ∧ SpelledAll words args
  | .array elem => elem.Spelled words
  | .var name => name ∈ words.vars ∧ NoMarks name.toList
  | .primitive _ | .null => True

def SpelledAll (words : Vocabulary) : List Ty → Prop
  | [] => True
  | ty :: tys => ty.Spelled words ∧ SpelledAll words tys
end

/-! The three parts of a text. -/

/-- What the text of a type starts with. -/
def word : Ty → String
  | .primitive p => p.name
  | .named name _ => name
  | .array elem => elem.word
  | .var name => name
  | .null => "null"

/-- The arguments of the type under all array layers. -/
def inner : Ty → List Ty
  | .named _ args => args
  | .array elem => elem.inner
  | .primitive _ | .var _ | .null => []

def brackets : Nat → List Char
  | 0 => []
  | n + 1 => '[' :: ']' :: brackets n

theorem brackets_append (n : Nat) : brackets n ++ ['[', ']'] = brackets (n + 1) := by
  induction n with
  | zero => rfl
  | succ n ih => simp only [brackets, List.cons_append, ih]

theorem toList_text (ty : Ty) :
    ty.text.toList = ty.word.toList ++ (argumentText ty.inner).toList ++ brackets ty.layers := by
  induction ty using Ty.induct with
  | array elem ih =>
    rw [text, String.toList_append, ih, word, inner, layers, ← brackets_append,
      ← List.append_assoc]
    rfl
  | named name args => simp [text, word, inner, layers, brackets]
  | primitive | var | null => simp [text, word, inner, layers, brackets, argumentText]

/-- Induction that goes from the arguments under all array layers to the type. -/
theorem inner_induct {motive : Ty → Prop}
    (step : ∀ ty, (∀ a ∈ ty.inner, motive a) → motive ty) (ty : Ty) : motive ty := by
  apply step
  -- The arguments under a layer are those of the element, so layers pass the statement on.
  induction ty using Ty.induct with
  | named name args ih => exact fun a mem => step a (ih a mem)
  | array elem ih => exact ih
  | primitive | var | null => simp [inner]

/-! What the parts say. -/

section
variable {words : Vocabulary} {t u : Ty}

@[simp] theorem spelledAll_iff (tys : List Ty) :
    SpelledAll words tys ↔ ∀ ty ∈ tys, ty.Spelled words := by
  induction tys with
  | nil => simp [SpelledAll]
  | cons ty tys ih => simp [SpelledAll, ih]

theorem Spelled.inner (spelled : t.Spelled words) : ∀ a ∈ t.inner, a.Spelled words := by
  induction t using Ty.induct with
  | named name args =>
    simp only [Spelled, spelledAll_iff] at spelled
    exact spelled.2.2
  | array elem ih => exact ih spelled
  | primitive | var | null => simp [Ty.inner]

theorem noMarks_primitive (p : Primitive) : NoMarks p.name.toList := by
  cases p <;> decide

theorem Spelled.noMarks_word (spelled : t.Spelled words) : NoMarks t.word.toList := by
  induction t using Ty.induct with
  | named name args => exact spelled.2.1
  | array elem ih => exact ih spelled
  | var name => exact spelled.2
  | primitive p => exact noMarks_primitive p
  | null => exact (by decide : NoMarks "null".toList)

open scoped Classical in
/-- The type that a word with arguments stands for. -/
noncomputable def reading (words : Vocabulary) (word : String) (args : List Ty) : Ty :=
  if word ∈ words.classes then .named word args
  else if word ∈ words.vars then .var word
  else ((Primitive.ofName? word).map .primitive).getD .null

/-- The three parts determine the type. -/
theorem Spelled.eq_reading (spelled : t.Spelled words) :
    t = (reading words t.word t.inner).arrayOf t.layers := by
  induction t using Ty.induct with
  | named name args => simp [reading, word, Ty.inner, layers, arrayOf, spelled.1]
  | array elem ih =>
    rw [word, Ty.inner, layers, arrayOf, ← ih spelled]
  | var name =>
    have noClass : name ∉ words.classes := fun mem => words.disjoint name mem spelled.1
    simp [reading, word, layers, arrayOf, noClass, spelled.1]
  | primitive p =>
    obtain ⟨noClass, noVar⟩ := words.notPrimitive p
    simp [reading, word, layers, arrayOf, noClass, noVar, Primitive.ofName?_name]
  | null =>
    obtain ⟨noClass, noVar⟩ := words.notNull
    have noPrimitive : Primitive.ofName? "null" = none := by decide
    simp [reading, word, layers, arrayOf, noClass, noVar, noPrimitive]

end

/-! Where the parts end. -/

section
variable {rest rest' : List Char}

/-- The text after a word is at its end or goes on with a mark. -/
def Marked (rest : List Char) : Prop :=
  ∀ c, rest.head? = some c → isMark c = true

/-- The text after a type is at its end or goes on in a list of arguments. -/
def Closes (rest : List Char) : Prop :=
  ∀ c, rest.head? = some c → c = ',' ∨ c = '>'

theorem takeWhile_word {word : List Char} (plain : NoMarks word) (marked : Marked rest) :
    (word ++ rest).takeWhile (fun c => !isMark c) = word := by
  have all : ∀ c ∈ word, (!isMark c) = true := fun c mem => by simp [plain c mem]
  rw [List.takeWhile_append_of_pos all]
  cases rest with
  | nil => simp
  | cons c rest => simp [marked c rfl]

theorem word_append_inj {word word' : List Char} (plain : NoMarks word) (plain' : NoMarks word')
    (marked : Marked rest) (marked' : Marked rest') (same : word ++ rest = word' ++ rest') :
    word = word' ∧ rest = rest' := by
  obtain rfl : word = word' := by
    rw [← takeWhile_word plain marked, same, takeWhile_word plain' marked']
  exact ⟨rfl, List.append_cancel_left same⟩

theorem brackets_append_inj {m n : Nat} (closes : Closes rest) (closes' : Closes rest')
    (same : brackets m ++ rest = brackets n ++ rest') : m = n ∧ rest = rest' := by
  induction m generalizing n with
  | zero =>
    cases n with
    | zero => exact ⟨rfl, same⟩
    | succ n =>
      obtain rfl : rest = '[' :: ']' :: (brackets n ++ rest') := same
      have := closes '[' rfl
      simp at this
  | succ m ih =>
    cases n with
    | zero =>
      obtain rfl : '[' :: ']' :: (brackets m ++ rest) = rest' := same
      have := closes' '[' rfl
      simp at this
    | succ n =>
      simp only [brackets, List.cons_append, List.cons.injEq, true_and] at same
      obtain ⟨rfl, rest⟩ := ih same
      exact ⟨rfl, rest⟩

end

/-! Unique reading. -/

/-- Where a text starts with the text of the type and goes on as it may after a type, no other type can
be read. -/
def EndsOnce (words : Vocabulary) (t : Ty) : Prop :=
  ∀ u rest rest', u.Spelled words → Closes rest → Closes rest' →
    t.text.toList ++ rest = u.text.toList ++ rest' → t = u ∧ rest = rest'

section
variable {words : Vocabulary} {as bs : List Ty} {rest rest' : List Char}

theorem toList_moreText_cons (ty : Ty) (tys : List Ty) :
    (moreText (ty :: tys)).toList = ',' :: ' ' :: (ty.text.toList ++ (moreText tys).toList) := by
  simp [moreText]

theorem toList_argumentText_cons (ty : Ty) (tys : List Ty) :
    (argumentText (ty :: tys)).toList =
      '<' :: (ty.text.toList ++ ((moreText tys).toList ++ ['>'])) := by
  simp [argumentText]

theorem closes_moreText (tys : List Ty) (rest : List Char) :
    Closes ((moreText tys).toList ++ '>' :: rest) := by
  intro c head
  cases tys with
  | nil => exact .inr (by simpa [moreText, eq_comm] using head)
  | cons ty tys => exact .inl (by simpa [toList_moreText_cons, eq_comm] using head)

theorem moreText_append_inj (ends : ∀ a ∈ as, EndsOnce words a)
    (spelled : ∀ b ∈ bs, b.Spelled words)
    (same : (moreText as).toList ++ '>' :: rest = (moreText bs).toList ++ '>' :: rest') :
    as = bs ∧ rest = rest' := by
  induction as generalizing bs with
  | nil =>
    cases bs with
    | nil => simpa [moreText] using same
    | cons b bs => simp [moreText] at same
  | cons a as ih =>
    cases bs with
    | nil => simp [moreText] at same
    | cons b bs =>
      obtain ⟨endsHere, endsLater⟩ := List.forall_mem_cons.1 ends
      obtain ⟨spelledHere, spelledLater⟩ := List.forall_mem_cons.1 spelled
      simp only [toList_moreText_cons, List.cons_append, List.append_assoc, List.cons.injEq,
        true_and] at same
      obtain ⟨rfl, others⟩ := endsHere b _ _ spelledHere (closes_moreText as rest)
        (closes_moreText bs rest') same
      obtain ⟨rfl, sameRest⟩ := ih endsLater spelledLater others
      exact ⟨rfl, sameRest⟩

theorem argumentText_append_inj (ends : ∀ a ∈ as, EndsOnce words a)
    (spelled : ∀ b ∈ bs, b.Spelled words) (closed : rest.head? ≠ some '<')
    (closed' : rest'.head? ≠ some '<')
    (same : (argumentText as).toList ++ rest = (argumentText bs).toList ++ rest') :
    as = bs ∧ rest = rest' := by
  cases as with
  | nil =>
    cases bs with
    | nil => simpa [argumentText] using same
    | cons b bs =>
      have starts : rest.head? = some '<' := by
        simpa [argumentText] using congrArg List.head? same
      exact absurd starts closed
  | cons a as =>
    cases bs with
    | nil =>
      have starts : rest'.head? = some '<' := by
        simpa [argumentText] using (congrArg List.head? same).symm
      exact absurd starts closed'
    | cons b bs =>
      -- Behind the bracket the arguments read as they do behind a comma.
      have listed : (moreText (a :: as)).toList ++ '>' :: rest =
          (moreText (b :: bs)).toList ++ '>' :: rest' := by
        simp only [toList_argumentText_cons, List.cons_append, List.append_assoc, List.cons.injEq,
          true_and, List.nil_append] at same
        simp only [toList_moreText_cons, List.cons_append, List.append_assoc, same]
      exact moreText_append_inj ends spelled listed

theorem head?_brackets (n : Nat) (closes : Closes rest) (c : Char)
    (head : (brackets n ++ rest).head? = some c) : c = '[' ∨ c = ',' ∨ c = '>' := by
  cases n with
  | zero => exact .inr (closes c head)
  | succ n => exact .inl (Option.some.inj head).symm

theorem marked_arguments (args : List Ty) (n : Nat) (closes : Closes rest) :
    Marked ((argumentText args).toList ++ (brackets n ++ rest)) := by
  intro c head
  cases args with
  | nil =>
    obtain rfl | rfl | rfl := head?_brackets n closes c head <;> decide
  | cons ty tys =>
    obtain rfl : '<' = c := by simpa [toList_argumentText_cons] using head
    decide

/-- One part after the other ends in the same place on both sides. -/
theorem Spelled.endsOnce {t : Ty} (spelled : t.Spelled words) : EndsOnce words t := by
  induction t using inner_induct with
  | step t ih =>
    intro u rest rest' spelled' closes closes' same
    simp only [toList_text, List.append_assoc] at same
    -- A word ends at the first mark, the arguments where their bracket closes, and the layers where
    -- something else than a square bracket follows.
    obtain ⟨sameWord, same⟩ := word_append_inj spelled.noMarks_word spelled'.noMarks_word
      (marked_arguments t.inner t.layers closes) (marked_arguments u.inner u.layers closes') same
    have ends : ∀ a ∈ t.inner, EndsOnce words a := fun a mem => ih a mem (spelled.inner a mem)
    have closed (n : Nat) {rest : List Char} (closes : Closes rest) :
        (brackets n ++ rest).head? ≠ some '<' := by
      intro head
      simpa using head?_brackets n closes '<' head
    obtain ⟨sameInner, same⟩ := argumentText_append_inj ends spelled'.inner
      (closed t.layers closes) (closed u.layers closes') same
    obtain ⟨sameLayers, same⟩ := brackets_append_inj closes closes' same
    refine ⟨?_, same⟩
    rw [spelled.eq_reading, spelled'.eq_reading, String.toList_inj.1 sameWord, sameInner, sameLayers]

end

/-- Types that are spelled in one vocabulary and have the same text are the same. -/
theorem text_determines_type (words : Vocabulary) {t u : Ty} (first : t.Spelled words)
    (second : u.Spelled words) (same : t.text = u.text) : t = u := by
  have atEnd : Closes [] := by simp [Closes]
  exact (first.endsOnce u [] [] second atEnd atEnd (by rw [same])).1

def mapWords : Vocabulary where
  classes := {"Map", "List"}
  vars := {"K", "V"}
  disjoint := by simp
  notPrimitive p := by cases p <;> simp [Primitive.name]
  notNull := by simp

/-- Maps to arrays of lists, written out and put together by a substitution. -/
theorem nestedMap_text :
    let nested := Ty.array (.named "Map" [.var "K", .array (.named "List" [.var "V"])])
    let filled := (Ty.array (.named "Map" [.var "K", .var "V"])).subst ["V"]
      [.array (.named "List" [.var "V"])]
    nested.Spelled mapWords ∧ filled.Spelled mapWords ∧ nested.text = filled.text ∧
      nested = filled := by
  intro nested filled
  have spelled : nested.Spelled mapWords := by
    simp [nested, Spelled, mapWords, NoMarks, isMark]
  have spelled' : filled.Spelled mapWords := spelled
  have same : nested.text = filled.text := by rfl
  exact ⟨spelled, spelled', same, text_determines_type mapWords spelled spelled' same⟩

end Ty
end InferredTypes
