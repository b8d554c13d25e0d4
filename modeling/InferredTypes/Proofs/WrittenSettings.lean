import InferredTypes.Proofs.LineGrammar

/-! Settings written out as properties text. However the text is laid out, reading it gives the
settings back, and all settings that are ever read can be written. -/
namespace InferredTypes.Settings
open Text

/-! The ways to write settings. -/

/-- White space within a line. -/
structure Padding where
  chars : List Char
  blank : AllBlank chars
  noNewline : '\n' ∉ chars

def Padding.none : Padding := ⟨[], by decide, by simp⟩

inductive Separator where
  | equals | colon

def Separator.char : Separator → Char
  | equals => '='
  | colon => ':'

inductive CommentMark where
  | hash | exclamation

def CommentMark.char : CommentMark → Char
  | hash => '#'
  | exclamation => '!'

inductive LineEnd where
  | newline | returnNewline

/-- What stands before the newline. -/
def LineEnd.chars : LineEnd → List Char
  | newline => []
  | returnNewline => ['\r']

/-- A line of a properties text, with all that can be chosen about it. -/
inductive Layout where
  | setting (key value : String) (sep : Separator)
      (beforeKey afterKey beforeValue afterValue : Padding)
  | blank (padding : Padding)
  | comment (padding : Padding) (mark : CommentMark) (text : List Char) (noNewline : '\n' ∉ text)

namespace Layout

def chars : Layout → List Char
  | setting key value sep beforeKey afterKey beforeValue afterValue =>
    beforeKey.chars ++ key.toList ++ afterKey.chars ++
      sep.char :: (beforeValue.chars ++ value.toList ++ afterValue.chars)
  | blank padding => padding.chars
  | comment padding mark text _ => padding.chars ++ mark.char :: text

def setting? : Layout → Option (String × String)
  | setting key value _ _ _ _ _ => some (key, value)
  | blank _ | comment _ _ _ _ => none

end Layout

/-- A line and how it ends. -/
structure Row where
  layout : Layout
  lineEnd : LineEnd

def Row.chars (row : Row) : List Char :=
  row.layout.chars ++ row.lineEnd.chars

def written (rows : List Row) : String :=
  String.ofList (rows.flatMap fun row => row.chars ++ ['\n'])

/-- The rows hold all the settings, in any order, and no others. -/
def Lists (rows : List Row) (s : Settings) : Prop :=
  ∀ key value, (∃ row ∈ rows, row.layout.setting? = some (key, value)) ↔ s.get? key = some value

/-- Reading what the rows write gives the settings. -/
def ReadsBack (rows : List Row) (s : Settings) : Prop :=
  ∃ s', parse (written rows) = .ok s' ∧ s'.agrees s = true

/-- What can stand for a key on a line of its own. -/
structure IsKey (key : String) : Prop where
  nonempty : key ≠ ""
  trimmed : trim key.toList = key.toList
  noEquals : '=' ∉ key.toList
  noColon : ':' ∉ key.toList
  noNewline : '\n' ∉ key.toList
  noMark : ∀ rest, key.toList ≠ '#' :: rest ∧ key.toList ≠ '!' :: rest

structure IsValue (value : String) : Prop where
  trimmed : trim value.toList = value.toList
  noNewline : '\n' ∉ value.toList

def Admissible (s : Settings) : Prop :=
  ∀ key value, s.get? key = some value → IsKey key ∧ IsValue value

/-! What is written can be read. -/

section
variable {key value : String} {before after cs : List Char} {sep : Char}

theorem Separator.separates (sep : Separator) : sep.char = '=' ∨ sep.char = ':' := by
  cases sep <;> simp [char]

theorem Separator.isBlank_char (sep : Separator) : isBlank sep.char = false := by
  cases sep <;> decide

theorem CommentMark.isBlank_char (mark : CommentMark) : isBlank mark.char = false := by
  cases mark <;> decide

theorem LineEnd.allBlank (lineEnd : LineEnd) : AllBlank lineEnd.chars := by
  cases lineEnd <;> simp [AllBlank, chars]
  decide

theorem LineEnd.noNewline (lineEnd : LineEnd) : '\n' ∉ lineEnd.chars := by
  cases lineEnd <;> simp [chars]

theorem ignored_of_allBlank (blank : AllBlank cs) : Ignored cs :=
  ⟨[], ⟨bare_nil, cs, [], blank, by decide, by simp⟩, .inl rfl⟩

theorem ignored_nil : Ignored [] :=
  ignored_of_allBlank (by decide)

theorem ignored_of_trims {raw rest : List Char} (mark : CommentMark)
    (trims : Trims raw (mark.char :: rest)) : Ignored raw := by
  refine ⟨_, trims, .inr ⟨rest, ?_⟩⟩
  cases mark <;> simp [CommentMark.char]

/-- White space at the end of a comment is cut off, but the mark stays. -/
theorem ignored_of_mark (mark : CommentMark) (blank : AllBlank before) (cs : List Char) :
    Ignored (before ++ mark.char :: cs) := by
  obtain ⟨after, blankAfter, split, last⟩ := exists_trimEnd (mark.char :: cs)
  obtain ⟨rest, kept⟩ : ∃ rest, trimEnd (mark.char :: cs) = mark.char :: rest := by
    rw [trimEnd]
    cases trimEnd cs <;> simp [mark.isBlank_char]
  rw [kept] at split last
  apply ignored_of_trims mark
  refine ⟨⟨?_, last⟩, before, after, blank, blankAfter, by rw [split, List.append_assoc]⟩
  rintro _ ⟨⟩
  exact mark.isBlank_char

/-- The white space after a value is cut off with the end of the line; if the value is empty, so is
the white space before it. -/
theorem exists_kept_value (isValue : IsValue value) (visible : isBlank sep = false)
    (blankBefore : AllBlank before) (blankAfter : AllBlank after) :
    ∃ kept cut, AllBlank cut ∧ before ++ value.toList ++ after = kept ++ cut ∧
      Trims kept value.toList ∧ ∀ c, (sep :: kept).getLast? = some c → isBlank c = false := by
  have bare : Bare value.toList := bare_iff.2 isValue.trimmed
  rcases List.eq_nil_or_concat' value.toList with empty | ⟨cs, last, ends⟩
  · refine ⟨[], before ++ after, blankBefore.append blankAfter, by simp [empty], ?_, ?_⟩
    · rw [empty]
      exact bare_nil.trims
    · rintro _ ⟨⟩
      exact visible
  · refine ⟨before ++ value.toList, after, blankAfter, rfl, ?_, ?_⟩
    · exact ⟨bare, before, [], blankBefore, by decide, by simp⟩
    · intro c found
      apply bare.last
      rw [ends] at found ⊢
      rw [← List.append_assoc, ← List.cons_append, List.getLast?_concat] at found
      rw [List.getLast?_concat, found]

theorem IsKey.head_ne_nil (isKey : IsKey key) : key.toList ≠ [] :=
  mt String.toList_eq_nil_iff.1 isKey.nonempty

/-- A written setting is read as it is. -/
theorem assigns_of_setting (isKey : IsKey key) (isValue : IsValue value) (sep : Separator)
    (beforeKey afterKey beforeValue afterValue : Padding) (lineEnd : LineEnd) :
    Assigns (Row.chars ⟨.setting key value sep beforeKey afterKey beforeValue afterValue, lineEnd⟩)
      key value := by
  obtain ⟨kept, cut, blankCut, split, isKept, last⟩ := exists_kept_value isValue sep.isBlank_char
    beforeValue.blank (afterValue.blank.append lineEnd.allBlank)
  obtain ⟨first, rest, starts⟩ := List.exists_cons_of_ne_nil isKey.head_ne_nil
  have bare : Bare key.toList := bare_iff.2 isKey.trimmed
  have trims : Trims
      (Row.chars ⟨.setting key value sep beforeKey afterKey beforeValue afterValue, lineEnd⟩)
      (key.toList ++ afterKey.chars ++ sep.char :: kept) := by
    refine ⟨⟨?_, ?_⟩, beforeKey.chars, cut, beforeKey.blank, blankCut, ?_⟩
    · intro c head
      apply bare.first
      simpa [starts] using head
    · intro c found
      apply last
      rwa [List.getLast?_append_of_ne_nil _ (by simp)] at found
    · simp only [List.append_assoc] at split
      simp [Row.chars, Layout.chars, split]
  refine ⟨?_, isKey.nonempty, key.toList ++ afterKey.chars, sep.char, kept, trims, sep.separates,
    ?_, ?_, ?_, isKept⟩
  · rintro ⟨line, trims', ignored⟩
    obtain rfl := trims.unique trims'
    have noMark := isKey.noMark rest
    simp_all
  · simp [isKey.noEquals, afterKey.blank.notMem (c := '=') (by decide)]
  · simp [isKey.noColon, afterKey.blank.notMem (c := ':') (by decide)]
  · exact ⟨bare, [], afterKey.chars, by decide, afterKey.blank, by simp⟩

end

/-- The setting on the row, if there is one, has a key and a value. -/
def Row.Legible (row : Row) : Prop :=
  ∀ key value, row.layout.setting? = some (key, value) → IsKey key ∧ IsValue value

namespace Row
variable {row : Row} {key value : String}

theorem Legible.noNewline (legible : row.Legible) : '\n' ∉ row.chars := by
  obtain ⟨layout, lineEnd⟩ := row
  cases layout with
  | setting key value sep beforeKey afterKey beforeValue afterValue =>
    obtain ⟨isKey, isValue⟩ := legible key value rfl
    have other : '\n' ≠ sep.char := by cases sep <;> decide
    simp [chars, Layout.chars, beforeKey.noNewline, isKey.noNewline, afterKey.noNewline, other,
      beforeValue.noNewline, isValue.noNewline, afterValue.noNewline, lineEnd.noNewline]
  | blank padding => simp [chars, Layout.chars, padding.noNewline, lineEnd.noNewline]
  | comment padding mark text noNewline =>
    have other : '\n' ≠ mark.char := by cases mark <;> decide
    simp [chars, Layout.chars, padding.noNewline, other, noNewline, lineEnd.noNewline]

/-- A row is ignored if it has no setting, and else assigns just its setting. -/
theorem Legible.cases (legible : row.Legible) :
    row.layout.setting? = none ∧ Ignored row.chars ∨
    ∃ key value, row.layout.setting? = some (key, value) ∧ Assigns row.chars key value := by
  obtain ⟨layout, lineEnd⟩ := row
  cases layout with
  | setting key value sep beforeKey afterKey beforeValue afterValue =>
    obtain ⟨isKey, isValue⟩ := legible key value rfl
    exact .inr ⟨key, value, rfl, assigns_of_setting isKey isValue ..⟩
  | blank padding =>
    exact .inl ⟨rfl, ignored_of_allBlank (padding.blank.append lineEnd.allBlank)⟩
  | comment padding mark text =>
    refine .inl ⟨rfl, ?_⟩
    simp only [chars, Layout.chars, List.append_assoc, List.cons_append]
    exact ignored_of_mark mark padding.blank _

theorem Legible.not_bad (legible : row.Legible) : ¬ Bad row.chars := by
  rcases legible.cases with ⟨-, ignored⟩ | ⟨key, value, -, assigns⟩
  · exact ignored.not_bad
  · exact assigns.not_bad

theorem Legible.assigns_iff (legible : row.Legible) :
    Assigns row.chars key value ↔ row.layout.setting? = some (key, value) := by
  rcases legible.cases with ⟨none, ignored⟩ | ⟨key', value', found, assigns⟩
  · simp only [none, reduceCtorEq, iff_false]
    exact fun assigns => assigns.notIgnored ignored
  · rw [found]
    constructor
    · intro other
      obtain ⟨rfl, rfl⟩ := assigns.unique other
      rfl
    · rintro ⟨⟩
      exact assigns

end Row

theorem lines_written {rows : List Row} (noNewline : ∀ row ∈ rows, '\n' ∉ row.chars) :
    lines (written rows).toList = rows.map Row.chars ++ [[]] := by
  rw [written, String.toList_ofList]
  induction rows with
  | nil => rfl
  | cons row rows ih =>
    obtain ⟨first, rest⟩ := List.forall_mem_cons.1 noNewline
    rw [List.flatMap_cons, List.append_assoc, List.singleton_append, lines_append_newline first,
      ih rest]
    rfl

section
variable {s : Settings} {rows : List Row} {key value : String}

theorem Lists.legible (lists : Lists rows s) (admissible : s.Admissible) (row : Row)
    (mem : row ∈ rows) : row.Legible :=
  fun key value found => admissible key value ((lists key value).1 ⟨row, mem, found⟩)

/-- The lines of the text assign all settings and nothing else. -/
theorem Lists.assigned_iff (lists : Lists rows s) (admissible : s.Admissible) :
    (∃ raw ∈ lines (written rows).toList, Assigns raw key value) ↔ s.get? key = some value := by
  have legible := lists.legible admissible
  rw [lines_written fun row mem => (legible row mem).noNewline, ← lists key value]
  constructor
  · rintro ⟨raw, mem, assigns⟩
    rcases List.mem_append.1 mem with mem | mem
    · obtain ⟨row, inRows, rfl⟩ := List.mem_map.1 mem
      exact ⟨row, inRows, (legible row inRows).assigns_iff.1 assigns⟩
    · obtain rfl := List.mem_singleton.1 mem
      exact absurd ignored_nil assigns.notIgnored
  · rintro ⟨row, mem, found⟩
    exact ⟨row.chars, List.mem_append_left _ (List.mem_map_of_mem mem),
      (legible row mem).assigns_iff.2 found⟩

theorem Lists.not_bad (lists : Lists rows s) (admissible : s.Admissible) (raw : List Char)
    (mem : raw ∈ lines (written rows).toList) : ¬ Bad raw := by
  have legible := lists.legible admissible
  rw [lines_written fun row mem => (legible row mem).noNewline] at mem
  rcases List.mem_append.1 mem with mem | mem
  · obtain ⟨row, inRows, rfl⟩ := List.mem_map.1 mem
    exact (legible row inRows).not_bad
  · obtain rfl := List.mem_singleton.1 mem
    exact ignored_nil.not_bad

/-- Reading gives the settings that are listed. No two lines disagree about a key, so it does not
matter which one is the last. -/
theorem Lists.readsBack (lists : Lists rows s) (admissible : s.Admissible) :
    ReadsBack rows s := by
  obtain ⟨s', read⟩ : ∃ s', parse (written rows) = .ok s' :=
    exists_addLines_eq_ok_iff.2 (lists.not_bad admissible)
  have sound (key value : String) (stored : s'.get? key = some value) : s.get? key = some value :=
    (lists.assigned_iff admissible).1 ((get?_of_parse read).1 stored).exists_assigns
  refine ⟨s', read, (Assoc.agrees_iff _ _).2 fun key => ?_⟩
  change s'.get? key = s.get? key
  cases stored : s'.get? key with
  | some value => exact (sound key value stored).symm
  | none =>
    have unassigned := (get?_eq_none_of_parse read).1 stored
    symm
    rw [Option.eq_none_iff_forall_ne_some]
    intro value listed
    obtain ⟨raw, mem, assigns⟩ := (lists.assigned_iff admissible).2 listed
    exact unassigned raw mem value assigns

/-! What is read can be written. -/

theorem Assigns.isValue {raw : List Char} (assigns : Assigns raw key value)
    (noNewline : '\n' ∉ raw) : IsValue value := by
  obtain ⟨before, sep, after, trims, -, -, -, -, isValue⟩ := assigns.parts
  refine ⟨bare_iff.1 isValue.bare, fun mem => noNewline (trims.subset ?_)⟩
  simp [isValue.subset mem]

/-- A key starts where its line does, so a line would be a comment if its key had a mark. -/
theorem Assigns.key_unmarked {raw : List Char} (assigns : Assigns raw key value)
    (mark : CommentMark) (rest : List Char) : key.toList ≠ mark.char :: rest := by
  intro starts
  obtain ⟨before, sep, after, trims, -, -, -, isKey, -⟩ := assigns.parts
  obtain ⟨-, padding, tail, blank, -, rfl⟩ := isKey
  cases padding with
  | nil =>
    rw [starts] at trims
    exact assigns.notIgnored (ignored_of_trims mark trims)
  | cons c padding =>
    have visible := trims.bare.first c (by simp)
    simp [blank c List.mem_cons_self] at visible

theorem Assigns.isKey {raw : List Char} (assigns : Assigns raw key value)
    (noNewline : '\n' ∉ raw) : IsKey key := by
  obtain ⟨before, sep, after, trims, -, noEquals, noColon, isKey, -⟩ := assigns.parts
  refine ⟨assigns.nonempty, bare_iff.1 isKey.bare, fun mem => noEquals (isKey.subset mem),
    fun mem => noColon (isKey.subset mem), fun mem => noNewline (trims.subset ?_), ?_⟩
  · simp [isKey.subset mem]
  · intro rest
    exact ⟨assigns.key_unmarked .hash rest, assigns.key_unmarked .exclamation rest⟩

theorem admissible_of_parse {text : String} (read : parse text = .ok s) : s.Admissible := by
  intro key value stored
  obtain ⟨raw, mem, assigns⟩ := ((get?_of_parse read).1 stored).exists_assigns
  have noNewline := newline_notMem_of_mem_lines mem
  exact ⟨assigns.isKey noNewline, assigns.isValue noNewline⟩

/-- One line for each setting, without any white space. -/
def plainRows (s : Settings) : List Row :=
  (s.values.entries.filter fun entry => s.get? entry.1 = some entry.2).map fun entry =>
    ⟨.setting entry.1 entry.2 .equals .none .none .none .none, .newline⟩

theorem lists_plainRows (s : Settings) : Lists s.plainRows s := by
  intro key value
  have listed : s.get? key = some value → (key, value) ∈ s.values.entries := Assoc.mem_of_firstWith
  constructor
  · rintro ⟨row, mem, found⟩
    obtain ⟨entry, kept, rfl⟩ := List.mem_map.1 mem
    obtain rfl : entry = (key, value) := Option.some.inj found
    simpa using (List.mem_filter.1 kept).2
  · intro stored
    exact ⟨_, List.mem_map_of_mem (List.mem_filter.2 ⟨listed stored, by simpa using stored⟩), rfl⟩

theorem get?_eq_of_agrees {s' : Settings} (same : s'.agrees s = true) (key : String) :
    s'.get? key = s.get? key :=
  (Assoc.agrees_iff _ _).1 same key

/-- Just the admissible settings are ever read. -/
theorem admissible_iff_exists_parse :
    s.Admissible ↔ ∃ text s', parse text = .ok s' ∧ s'.agrees s = true := by
  constructor
  · intro admissible
    exact ⟨written s.plainRows, s.lists_plainRows.readsBack admissible⟩
  · rintro ⟨text, s', read, same⟩ key value stored
    rw [← get?_eq_of_agrees same] at stored
    exact admissible_of_parse read key value stored

end

/-- Settings can be read from some text just if they are admissible, and then every text that lists
them gives them back. So what was read once is read again from any text that lists it, and there is
such a text. -/
theorem settings_read_back (s : Settings) :
    (s.Admissible ↔ ∃ text s', parse text = .ok s' ∧ s'.agrees s = true) ∧
    (s.Admissible → ∀ rows, Lists rows s → ReadsBack rows s) ∧
    (∀ text, parse text = .ok s → s.Admissible ∧ ∀ rows, Lists rows s → ReadsBack rows s) ∧
    ∃ rows, Lists rows s := by
  refine ⟨admissible_iff_exists_parse, ?_, ?_, s.plainRows, s.lists_plainRows⟩
  · intro admissible rows lists
    exact lists.readsBack admissible
  · intro text read
    have admissible := admissible_of_parse read
    exact ⟨admissible, fun rows lists => lists.readsBack admissible⟩

/-- A value that looks like a comment with separators in it, and an empty one. -/
def oddSettings : Settings :=
  (empty.set "valvar.note" "").set "valvar.enabled" "#no=a: b"

def oddPadding : Padding :=
  ⟨[' ', '\t', '\r', '\u2003'], by decide, by decide⟩

/-- Both separators, line ends and comment marks. -/
def oddRows : List Row := [
  ⟨.comment .none .hash "valvar.enabled = yes".toList (by decide), .returnNewline⟩,
  ⟨.setting "valvar.enabled" "#no=a: b" .colon oddPadding .none oddPadding oddPadding,
    .returnNewline⟩,
  ⟨.blank oddPadding, .newline⟩,
  ⟨.comment oddPadding .exclamation [] (by decide), .newline⟩,
  ⟨.setting "valvar.note" "" .equals .none oddPadding .none oddPadding, .newline⟩]

theorem get?_oddSettings {key value : String} :
    oddSettings.get? key = some value ↔
      key = "valvar.enabled" ∧ value = "#no=a: b" ∨ key = "valvar.note" ∧ value = "" := by
  simp only [oddSettings, get?_set]
  grind [empty, get?, Assoc.get?_empty]

theorem oddSettings_read_back :
    oddSettings.Admissible ∧ Lists oddRows oddSettings ∧ ReadsBack oddRows oddSettings := by
  have admissible : oddSettings.Admissible := by
    intro key value stored
    rcases get?_oddSettings.1 stored with ⟨rfl, rfl⟩ | ⟨rfl, rfl⟩
    · exact ⟨⟨by decide, by decide, by decide, by decide, by decide, by simp⟩, by decide, by decide⟩
    · exact ⟨⟨by decide, by decide, by decide, by decide, by decide, by simp⟩, by decide, by decide⟩
  have lists : Lists oddRows oddSettings := by
    intro key value
    rw [get?_oddSettings]
    simp [oddRows, Layout.setting?, eq_comm]
  exact ⟨admissible, lists, (settings_read_back oddSettings).2.1 admissible oddRows lists⟩

end InferredTypes.Settings
