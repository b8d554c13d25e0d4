import InferredTypes.Text.Blank
import InferredTypes.Text.Lines
import Mathlib.Data.List.Basic
import Mathlib.Data.List.Induction
import Mathlib.Data.List.TakeWhile

/-! What trimming and cutting into lines do to a text, said without reference to how they are
computed: what is left after trimming has no white space at its ends, and what is cut away is white
space; the lines hold no newlines, and newlines between them give the text back. -/
namespace InferredTypes.Text
variable {cs line other before after rest : List Char}

def AllBlank (cs : List Char) : Prop :=
  ∀ c ∈ cs, isBlank c = true

instance : DecidablePred AllBlank :=
  fun cs => List.decidableBAll (fun c => isBlank c = true) cs

theorem AllBlank.append (first : AllBlank before) (second : AllBlank after) :
    AllBlank (before ++ after) := by
  intro c mem
  rcases List.mem_append.1 mem with mem | mem
  · exact first c mem
  · exact second c mem

theorem AllBlank.notMem {c : Char} (blank : AllBlank cs) (visible : isBlank c = false) :
    c ∉ cs := by
  intro mem
  simp [blank c mem] at visible

/-- Neither the first nor the last character is white space. -/
structure Bare (line : List Char) : Prop where
  first : ∀ c, line.head? = some c → isBlank c = false
  last : ∀ c, line.getLast? = some c → isBlank c = false

theorem bare_nil : Bare [] :=
  ⟨by simp, by simp⟩

/-- The line is what remains of the text without the white space around it. -/
structure Trims (cs line : List Char) : Prop where
  bare : Bare line
  around : ∃ before after, AllBlank before ∧ AllBlank after ∧ cs = before ++ line ++ after

theorem trimEnd_of_allBlank (blank : AllBlank cs) : trimEnd cs = [] := by
  induction cs with
  | nil => rfl
  | cons c cs ih =>
    have rest := ih fun d mem => blank d (List.mem_cons_of_mem _ mem)
    simp [trimEnd, rest, blank c List.mem_cons_self]

theorem trimEnd_append (cs : List Char) (blank : AllBlank after) :
    trimEnd (cs ++ after) = trimEnd cs := by
  induction cs with
  | nil => exact trimEnd_of_allBlank blank
  | cons c cs ih => simp only [List.cons_append, trimEnd, ih]

theorem trimEnd_concat {c : Char} (visible : isBlank c = false) (cs : List Char) :
    trimEnd (cs ++ [c]) = cs ++ [c] := by
  induction cs with
  | nil => simp [trimEnd, visible]
  | cons d cs ih => simp [trimEnd, ih]

theorem trimEnd_of_last (last : ∀ c, line.getLast? = some c → isBlank c = false) :
    trimEnd line = line := by
  rcases List.eq_nil_or_concat' line with rfl | ⟨cs, c, rfl⟩
  · rfl
  · exact trimEnd_concat (last c (by simp)) cs

/-- Trimming at the end cuts off white space, up to a character that is none. -/
theorem exists_trimEnd (cs : List Char) :
    ∃ after, AllBlank after ∧ cs = trimEnd cs ++ after ∧
      ∀ c, (trimEnd cs).getLast? = some c → isBlank c = false := by
  induction cs using List.reverseRecOn with
  | nil => exact ⟨[], by simp [AllBlank], rfl, by simp [trimEnd]⟩
  | append_singleton cs c ih =>
    cases visible : isBlank c with
    | false =>
      rw [trimEnd_concat visible]
      refine ⟨[], by simp [AllBlank], by simp, ?_⟩
      simpa using visible
    | true =>
      obtain ⟨after, blank, split, last⟩ := ih
      have single : AllBlank [c] := by simpa [AllBlank] using visible
      rw [trimEnd_append _ single]
      refine ⟨after ++ [c], blank.append single, ?_, last⟩
      rw [← List.append_assoc, ← split]

/-- There is only one way to trim. -/
theorem Trims.trim_eq (trims : Trims cs line) : trim cs = line := by
  obtain ⟨⟨first, last⟩, before, after, blankBefore, blankAfter, rfl⟩ := trims
  have start : trimStart (before ++ line ++ after) = trimStart (line ++ after) := by
    rw [List.append_assoc]
    exact List.dropWhile_append_of_pos blankBefore
  rw [trim, start]
  cases line with
  | nil =>
    have none : trimStart after = [] := List.dropWhile_eq_nil_iff.2 blankAfter
    rw [List.nil_append, none]
    rfl
  | cons c line =>
    have kept : trimStart (c :: line ++ after) = c :: line ++ after := by
      simp [trimStart, first c rfl]
    rw [kept, trimEnd_append _ blankAfter, trimEnd_of_last last]

theorem trims_trim (cs : List Char) : Trims cs (trim cs) := by
  obtain ⟨after, blank, split, last⟩ := exists_trimEnd (trimStart cs)
  rw [← trim] at split last
  have start : cs = cs.takeWhile isBlank ++ trimStart cs :=
    List.takeWhile_append_dropWhile.symm
  refine ⟨⟨?_, last⟩, cs.takeWhile isBlank, after, ?_, blank, ?_⟩
  · intro c head
    have visible := List.head?_dropWhile_not isBlank cs
    rw [← trimStart, split, List.head?_append, head] at visible
    exact visible
  · intro c mem
    exact List.mem_takeWhile_imp mem
  · rw [List.append_assoc, ← split, ← start]

theorem trims_iff : Trims cs line ↔ trim cs = line := by
  constructor
  · exact Trims.trim_eq
  · rintro rfl
    exact trims_trim cs

theorem Trims.unique (first : Trims cs line) (second : Trims cs other) : line = other :=
  first.trim_eq.symm.trans second.trim_eq

theorem Bare.trims (bare : Bare line) : Trims line line :=
  ⟨bare, [], [], by simp [AllBlank], by simp [AllBlank], by simp⟩

theorem bare_iff : Bare line ↔ trim line = line := by
  constructor
  · intro bare
    exact bare.trims.trim_eq
  · intro same
    exact same ▸ (trims_trim line).bare

theorem Trims.subset (trims : Trims cs line) : line ⊆ cs := by
  obtain ⟨-, before, after, -, -, rfl⟩ := trims
  intro c mem
  simp [mem]

/-! Lines. -/

theorem lines_eq_splitOn (cs : List Char) : lines cs = cs.splitOn '\n' := by
  induction cs with
  | nil => rw [lines, List.splitOn_nil]
  | cons c cs ih =>
    rw [List.splitOn_cons_eq_if_modifyHead, ← ih, lines]
    by_cases newline : c = '\n'
    · simp [newline]
    · cases found : lines cs with
      | nil => exact absurd found (lines_ne_nil cs)
      | cons line rest => simp [newline]

theorem intercalate_lines (cs : List Char) : ['\n'].intercalate (lines cs) = cs := by
  rw [lines_eq_splitOn]
  exact List.intercalate_splitOn '\n'

theorem newline_notMem_of_mem_lines (mem : line ∈ lines cs) : '\n' ∉ line := by
  induction cs generalizing line with
  | nil =>
    obtain rfl : line = [] := by simpa [lines] using mem
    simp
  | cons c cs ih =>
    rw [lines] at mem
    split at mem
    · rcases List.mem_cons.1 mem with rfl | mem
      · simp
      · exact ih mem
    · next other =>
      cases found : lines cs with
      | nil => exact absurd found (lines_ne_nil cs)
      | cons first rest =>
        rw [found] at mem ih
        rcases List.mem_cons.1 mem with rfl | mem
        · have inside := ih List.mem_cons_self
          simp [inside, Ne.symm other]
        · exact ih (List.mem_cons_of_mem _ mem)

/-- A newline ends the line before it. -/
theorem lines_append_newline (noNewline : '\n' ∉ line) (rest : List Char) :
    lines (line ++ '\n' :: rest) = line :: lines rest := by
  rw [lines_eq_splitOn, lines_eq_splitOn]
  exact List.splitOn_append_cons_self_of_not_mem noNewline rest

theorem lines_append_cons_newline (cs rest : List Char) :
    lines (cs ++ '\n' :: rest) = lines cs ++ lines rest := by
  rw [lines_eq_splitOn, lines_eq_splitOn, lines_eq_splitOn]
  exact List.splitOn_append_cons_self cs rest

theorem length_lines (cs : List Char) : (lines cs).length = cs.count '\n' + 1 := by
  induction cs with
  | nil => rfl
  | cons c cs ih =>
    obtain ⟨line, rest, found⟩ := List.exists_cons_of_ne_nil (lines_ne_nil cs)
    rw [found, List.length_cons] at ih
    by_cases newline : c = '\n' <;> simp [lines, newline, found, ih]

end InferredTypes.Text
