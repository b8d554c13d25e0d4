import InferredTypes.Proofs.TextLines
import InferredTypes.Settings.Properties

/-! The grammar of properties text. Each line is ignored, assigns a value to a key or is bad,
whatever stands on the lines around it. A text is read if none of its lines is bad, and then a key
has the value that the last line for it assigns. -/
namespace InferredTypes.Settings
open Text

/-- Without the white space around it the line is empty or starts with a comment mark. -/
def Ignored (raw : List Char) : Prop :=
  ∃ line, Trims raw line ∧ (line = [] ∨ ∃ rest, line = '#' :: rest ∨ line = '!' :: rest)

/-- The line is not ignored, the key is what stands before its first separator and the value is what
stands after it. -/
structure Assigns (raw : List Char) (key value : String) : Prop where
  notIgnored : ¬ Ignored raw
  nonempty : key ≠ ""
  parts : ∃ before sep after, Trims raw (before ++ sep :: after) ∧ (sep = '=' ∨ sep = ':') ∧
    '=' ∉ before ∧ ':' ∉ before ∧ Trims before key.toList ∧ Trims after value.toList

def Bad (raw : List Char) : Prop :=
  ¬ Ignored raw ∧ ∀ key value, ¬ Assigns raw key value

/-- What is wrong with a bad line. -/
def FaultOf (number : Nat) (raw : List Char) (fault : Fault) : Prop :=
  ∃ line, Trims raw line ∧
    (('=' ∈ line ∨ ':' ∈ line) ∧ fault = .emptyKey number ∨
      '=' ∉ line ∧ ':' ∉ line ∧ fault = .malformedLine number (String.ofList line))

/-- No row assigns anything to the key. -/
def Unassigned (rows : List (List Char)) (key : String) : Prop :=
  ∀ raw ∈ rows, ∀ value, ¬ Assigns raw key value

/-- The last of the rows that assign anything to the key assigns it the value. -/
def LastAssigned (rows : List (List Char)) (key value : String) : Prop :=
  ∃ before raw after, rows = before ++ raw :: after ∧ Assigns raw key value ∧ Unassigned after key

/-- The fault of the first bad row, when the first row of all has the given number. -/
def FirstFault (number : Nat) (rows : List (List Char)) (fault : Fault) : Prop :=
  ∃ before raw after, rows = before ++ raw :: after ∧ (∀ earlier ∈ before, ¬ Bad earlier) ∧
    Bad raw ∧ FaultOf (number + before.length) raw fault

/-- The same text but for the case of the letters from A to Z. -/
def SameLetters (a b : String) : Prop :=
  a.toList.map Char.toLower = b.toList.map Char.toLower

/-! One line. -/

section
variable {raw line before after : List Char} {sep : Char} {key value : String} {number : Nat}

theorem isSeparator_iff {c : Char} : isSeparator c = true ↔ c = '=' ∨ c = ':' := by
  simp [isSeparator]

theorem ignored_iff : Ignored raw ↔ isSkipped (trim raw) = true := by
  simp only [Ignored, trims_iff, exists_eq_left']
  cases trim raw <;> simp [isSkipped, exists_or]

/-- A line is cut in one way only at its first separator. -/
theorem cut_iff :
    line = before ++ sep :: after ∧ (sep = '=' ∨ sep = ':') ∧ '=' ∉ before ∧ ':' ∉ before ↔
      line.takeWhile (fun c => !isSeparator c) = before ∧
      line.dropWhile (fun c => !isSeparator c) = sep :: after := by
  constructor
  · rintro ⟨rfl, separates, noEquals, noColon⟩
    have inside : ∀ c ∈ before, (!isSeparator c) = true := by
      intro c mem
      have other : ¬ (c = '=' ∨ c = ':') := by
        rintro (rfl | rfl)
        · exact noEquals mem
        · exact noColon mem
      simpa [isSeparator] using other
    have stop : isSeparator sep = true := isSeparator_iff.2 separates
    rw [List.takeWhile_append_of_pos inside, List.dropWhile_append_of_pos inside]
    simp [stop]
  · rintro ⟨rfl, rest⟩
    have outside (c : Char) (separates : isSeparator c = true) :
        c ∉ line.takeWhile fun c => !isSeparator c := by
      intro mem
      have none := List.mem_takeWhile_imp mem
      simp [separates] at none
    have stop := List.head?_dropWhile_not (fun c => !isSeparator c) line
    rw [rest] at stop
    refine ⟨?_, isSeparator_iff.1 (by simpa using stop), outside '=' rfl, outside ':' rfl⟩
    rw [← rest, List.takeWhile_append_dropWhile]

theorem assigns_iff :
    Assigns raw key value ↔ isSkipped (trim raw) = false ∧ key ≠ "" ∧ ∃ sep after,
      (trim raw).dropWhile (fun c => !isSeparator c) = sep :: after ∧
      trim ((trim raw).takeWhile fun c => !isSeparator c) = key.toList ∧
      trim after = value.toList := by
  constructor
  · rintro ⟨notIgnored, nonempty, before, sep, after, trims, separates, noEquals, noColon, isKey,
      isValue⟩
    obtain ⟨first, rest⟩ := cut_iff.1 ⟨trims.trim_eq, separates, noEquals, noColon⟩
    refine ⟨by simpa [ignored_iff] using notIgnored, nonempty, sep, after, rest, ?_,
      isValue.trim_eq⟩
    rw [first]
    exact isKey.trim_eq
  · rintro ⟨kept, nonempty, sep, after, rest, isKey, isValue⟩
    obtain ⟨split, separates, noEquals, noColon⟩ := cut_iff.2 ⟨rfl, rest⟩
    exact ⟨by simp [ignored_iff, kept], nonempty, _, sep, after, trims_iff.2 split, separates,
      noEquals, noColon, trims_iff.2 isKey, trims_iff.2 isValue⟩

theorem Assigns.unique {key' value' : String} (first : Assigns raw key value)
    (second : Assigns raw key' value') : key = key' ∧ value = value' := by
  obtain ⟨-, -, sep, after, rest, isKey, isValue⟩ := assigns_iff.1 first
  obtain ⟨-, -, sep', after', rest', isKey', isValue'⟩ := assigns_iff.1 second
  obtain ⟨rfl, rfl⟩ := List.cons.inj (rest.symm.trans rest')
  exact ⟨String.toList_inj.1 (isKey.symm.trans isKey'),
    String.toList_inj.1 (isValue.symm.trans isValue')⟩

theorem FaultOf.unique {fault fault' : Fault} (first : FaultOf number raw fault)
    (second : FaultOf number raw fault') : fault = fault' := by
  obtain ⟨line, trims, cases⟩ := first
  obtain ⟨line', trims', cases'⟩ := second
  obtain rfl := trims.unique trims'
  grind

theorem bad_of_no_separator (notIgnored : ¬ Ignored raw)
    (rest : (trim raw).dropWhile (fun c => !isSeparator c) = []) :
    Bad raw ∧ FaultOf number raw (.malformedLine number (String.ofList (trim raw))) := by
  have plain : ∀ c ∈ trim raw, (!isSeparator c) = true := List.dropWhile_eq_nil_iff.1 rest
  have noEquals : '=' ∉ trim raw := fun mem => by simpa [isSeparator] using plain _ mem
  have noColon : ':' ∉ trim raw := fun mem => by simpa [isSeparator] using plain _ mem
  refine ⟨⟨notIgnored, ?_⟩, trim raw, trims_trim raw, .inr ⟨noEquals, noColon, rfl⟩⟩
  intro key value assigns
  obtain ⟨-, -, sep, after, found, -⟩ := assigns_iff.1 assigns
  simp [rest] at found

theorem bad_of_no_key (notIgnored : ¬ Ignored raw)
    (rest : (trim raw).dropWhile (fun c => !isSeparator c) = sep :: after)
    (noKey : trim ((trim raw).takeWhile fun c => !isSeparator c) = []) :
    Bad raw ∧ FaultOf number raw (.emptyKey number) := by
  obtain ⟨split, separates, -⟩ := cut_iff.2 ⟨rfl, rest⟩
  have separated : '=' ∈ trim raw ∨ ':' ∈ trim raw := by
    rw [split]
    rcases separates with rfl | rfl <;> simp
  refine ⟨⟨notIgnored, ?_⟩, trim raw, trims_trim raw, .inl ⟨separated, rfl⟩⟩
  intro key value assigns
  obtain ⟨-, nonempty, -, -, -, isKey, -⟩ := assigns_iff.1 assigns
  rw [noKey] at isKey
  exact nonempty (String.toList_eq_nil_iff.1 isKey.symm)

/-- Reading a line tells which of the three kinds it is of. -/
theorem readLine_cases (number : Nat) (raw : List Char) :
    Ignored raw ∧ readLine number raw = .ok none ∨
    (∃ key value, Assigns raw key value ∧ readLine number raw = .ok (some (key, value))) ∨
    Bad raw ∧ ∃ fault, FaultOf number raw fault ∧ readLine number raw = .error fault := by
  by_cases skipped : isSkipped (trim raw) = true
  · exact .inl ⟨ignored_iff.2 skipped, by simp [readLine, skipped]⟩
  have notIgnored : ¬ Ignored raw := mt ignored_iff.1 skipped
  cases rest : (trim raw).dropWhile fun c => !isSeparator c with
  | nil =>
    obtain ⟨bad, fault⟩ := bad_of_no_separator notIgnored rest
    exact .inr (.inr ⟨bad, _, fault, by simp [readLine, skipped, rest]⟩)
  | cons sep after =>
    cases isKey : trim ((trim raw).takeWhile fun c => !isSeparator c) with
    | nil =>
      obtain ⟨bad, fault⟩ := bad_of_no_key notIgnored rest isKey
      exact .inr (.inr ⟨bad, _, fault, by simp [readLine, skipped, rest, isKey]⟩)
    | cons c cs =>
      have assigns : Assigns raw (String.ofList (c :: cs)) (String.ofList (trim after)) :=
        assigns_iff.2 ⟨by simpa using skipped, by simp, sep, after, rest, by simp [isKey], by simp⟩
      exact .inr (.inl ⟨_, _, assigns, by simp [readLine, skipped, rest, isKey]⟩)

end

/-! All lines of a text. -/

section
variable {s s' : Settings} {raw : List Char} {rows : List (List Char)} {key value : String}
  {number : Nat} {fault : Fault}

theorem unassigned_cons_iff :
    Unassigned (raw :: rows) key ↔ (∀ value, ¬ Assigns raw key value) ∧ Unassigned rows key :=
  List.forall_mem_cons

theorem lastAssigned_cons_iff :
    LastAssigned (raw :: rows) key value ↔
      LastAssigned rows key value ∨ Assigns raw key value ∧ Unassigned rows key := by
  constructor
  · rintro ⟨before, row, after, split, assigns, none⟩
    rcases List.cons_eq_append_iff.1 split with ⟨rfl, same⟩ | ⟨before, rfl, rfl⟩
    · obtain ⟨rfl, rfl⟩ := List.cons.inj same
      exact .inr ⟨assigns, none⟩
    · exact .inl ⟨before, row, after, rfl, assigns, none⟩
  · rintro (⟨before, row, after, rfl, assigns, none⟩ | ⟨assigns, none⟩)
    · exact ⟨raw :: before, row, after, rfl, assigns, none⟩
    · exact ⟨[], raw, rows, rfl, assigns, none⟩

theorem LastAssigned.exists_assigns (last : LastAssigned rows key value) :
    ∃ raw ∈ rows, Assigns raw key value := by
  obtain ⟨before, raw, after, rfl, assigns, -⟩ := last
  exact ⟨raw, by simp, assigns⟩

theorem unassigned_iff : Unassigned rows key ↔ ∀ value, ¬ LastAssigned rows key value := by
  induction rows with
  | nil => simp [Unassigned, LastAssigned]
  | cons raw rows ih =>
    simp only [unassigned_cons_iff, lastAssigned_cons_iff, not_or, forall_and, ← ih]
    constructor
    · rintro ⟨none, rest⟩
      exact ⟨rest, fun value last => none value last.1⟩
    · rintro ⟨rest, none⟩
      exact ⟨fun value assigns => none value ⟨assigns, rest⟩, rest⟩

theorem firstFault_cons_iff :
    FirstFault number (raw :: rows) fault ↔
      Bad raw ∧ FaultOf number raw fault ∨ ¬ Bad raw ∧ FirstFault (number + 1) rows fault := by
  constructor
  · rintro ⟨before, row, after, split, good, bad, fault⟩
    rcases List.cons_eq_append_iff.1 split with ⟨rfl, same⟩ | ⟨before, rfl, rfl⟩
    · obtain ⟨rfl, rfl⟩ := List.cons.inj same
      exact .inl ⟨bad, fault⟩
    · obtain ⟨first, others⟩ := List.forall_mem_cons.1 good
      have shift : number + (raw :: before).length = number + 1 + before.length := by
        rw [List.length_cons]
        omega
      rw [shift] at fault
      exact .inr ⟨first, before, row, after, rfl, others, bad, fault⟩
  · rintro (⟨bad, fault⟩ | ⟨first, before, row, after, rfl, good, bad, fault⟩)
    · exact ⟨[], raw, rows, rfl, by simp, bad, fault⟩
    · have shift : number + 1 + before.length = number + (raw :: before).length := by
        rw [List.length_cons]
        omega
      rw [shift] at fault
      exact ⟨raw :: before, row, after, rfl, List.forall_mem_cons.2 ⟨first, good⟩, bad, fault⟩

/-- What becomes of the first row. -/
theorem addLines_cons_cases (s : Settings) (number : Nat) (raw : List Char)
    (rows : List (List Char)) :
    Ignored raw ∧ s.addLines number (raw :: rows) = s.addLines (number + 1) rows ∨
    (∃ key value, Assigns raw key value ∧
      s.addLines number (raw :: rows) = (s.set key value).addLines (number + 1) rows) ∨
    Bad raw ∧ ∃ fault, FaultOf number raw fault ∧ s.addLines number (raw :: rows) = .error fault := by
  rw [addLines]
  rcases readLine_cases number raw with ⟨ignored, read⟩ | ⟨key, value, assigns, read⟩ |
    ⟨bad, fault, isFault, read⟩
  · exact .inl ⟨ignored, by rw [read]⟩
  · exact .inr (.inl ⟨key, value, assigns, by rw [read]⟩)
  · exact .inr (.inr ⟨bad, fault, isFault, by rw [read]⟩)

theorem Ignored.not_bad (ignored : Ignored raw) : ¬ Bad raw :=
  fun bad => bad.1 ignored

theorem Assigns.not_bad (assigns : Assigns raw key value) : ¬ Bad raw :=
  fun bad => bad.2 key value assigns

theorem exists_addLines_eq_ok_iff :
    (∃ s', s.addLines number rows = .ok s') ↔ ∀ raw ∈ rows, ¬ Bad raw := by
  induction rows generalizing s number with
  | nil => simp [addLines]
  | cons raw rows ih =>
    rw [List.forall_mem_cons]
    rcases s.addLines_cons_cases number raw rows with ⟨ignored, step⟩ |
      ⟨key, value, assigns, step⟩ | ⟨bad, fault, isFault, step⟩
    · rw [step, ih, and_iff_right ignored.not_bad]
    · rw [step, ih, and_iff_right assigns.not_bad]
    · simp [step, bad]

theorem addLines_eq_error_iff :
    s.addLines number rows = .error fault ↔ FirstFault number rows fault := by
  induction rows generalizing s number with
  | nil => simp [addLines, FirstFault]
  | cons raw rows ih =>
    rw [firstFault_cons_iff]
    rcases s.addLines_cons_cases number raw rows with ⟨ignored, step⟩ |
      ⟨key, value, assigns, step⟩ | ⟨bad, found, isFault, step⟩
    · simp [step, ih, ignored.not_bad]
    · simp [step, ih, assigns.not_bad]
    · rw [step]
      constructor
      · rintro ⟨⟩
        exact .inl ⟨bad, isFault⟩
      · rintro (⟨-, same⟩ | ⟨good, -⟩)
        · rw [isFault.unique same]
        · exact absurd bad good

/-- A key has the value of its last assignment, and the one it had before if there is none. -/
theorem get?_of_addLines (read : s.addLines number rows = .ok s') :
    s'.get? key = some value ↔
      LastAssigned rows key value ∨ Unassigned rows key ∧ s.get? key = some value := by
  induction rows generalizing s number with
  | nil =>
    obtain rfl : s = s' := by simpa [addLines] using read
    simp [LastAssigned, Unassigned]
  | cons raw rows ih =>
    rw [lastAssigned_cons_iff, unassigned_cons_iff]
    rcases s.addLines_cons_cases number raw rows with ⟨ignored, step⟩ |
      ⟨assignedKey, assigned, assigns, step⟩ | ⟨bad, fault, isFault, step⟩
    · have none (value : String) : ¬ Assigns raw key value := fun h => h.notIgnored ignored
      rw [ih (step.symm.trans read)]
      simp [none]
    · have here (k v : String) : Assigns raw k v ↔ k = assignedKey ∧ v = assigned := by
        constructor
        · exact fun other => other.unique assigns
        · rintro ⟨rfl, rfl⟩
          exact assigns
      rw [ih (step.symm.trans read), get?_set]
      by_cases same : key = assignedKey
      · grind
      · simp [here, same]
    · simp [step] at read

theorem get?_of_parse {text : String} (read : parse text = .ok s) :
    s.get? key = some value ↔ LastAssigned (lines text.toList) key value := by
  rw [get?_of_addLines read]
  simp [empty, get?]

theorem get?_eq_none_of_parse {text : String} (read : parse text = .ok s) :
    s.get? key = none ↔ Unassigned (lines text.toList) key := by
  rw [unassigned_iff, Option.eq_none_iff_forall_ne_some]
  simp only [ne_eq, get?_of_parse read]

end

/-! The switch. -/

theorem readBool_eq_false_iff (value : String) :
    readBool value = some false ↔ SameLetters value "false" := by
  have word : "false".toList.map Char.toLower = ['f', 'a', 'l', 's', 'e'] := by decide
  rw [SameLetters, word, readBool]
  split <;> simp_all

theorem isEnabled_eq_false_iff (s : Settings) :
    s.isEnabled = false ↔ ∃ value, s.get? enabledKey = some value ∧ SameLetters value "false" := by
  simp only [← readBool_eq_false_iff, ← Option.bind_eq_some_iff, isEnabled, enabledDefault]
  cases (s.get? enabledKey).bind readBool <;> simp

/-- Reading a text goes by its lines. It succeeds if no line is bad, and then a key has the value of
the last line that assigns it one, and no value if there is no such line; inference is switched off
if the switch has the value `false` in any case of letters. Else the fault is that of the first bad
line, and the number counts all lines up to there. -/
theorem parse_goes_by_lines (text : String) :
    let rows := lines text.toList
    ((∀ row ∈ rows, '\n' ∉ row) ∧ ['\n'].intercalate rows = text.toList) ∧
    ((∃ s, parse text = .ok s) ↔ ∀ row ∈ rows, ¬ Bad row) ∧
    (∀ s, parse text = .ok s →
      (∀ key value, s.get? key = some value ↔ LastAssigned rows key value) ∧
      (∀ key, s.get? key = none ↔ Unassigned rows key) ∧
      (s.isEnabled = false ↔
        ∃ value, LastAssigned rows "valvar.enabled" value ∧ SameLetters value "false")) ∧
    ∀ fault, parse text = .error fault ↔ FirstFault 1 rows fault := by
  refine ⟨⟨fun row mem => newline_notMem_of_mem_lines mem, intercalate_lines _⟩,
    exists_addLines_eq_ok_iff, ?_, fun fault => addLines_eq_error_iff⟩
  intro s read
  refine ⟨fun key value => get?_of_parse read, fun key => get?_eq_none_of_parse read, ?_⟩
  rw [isEnabled_eq_false_iff]
  simp only [get?_of_parse read, enabledKey]

end InferredTypes.Settings
