import InferredTypes.Proofs.LineGrammar

/-! Properties texts one after the other. Where a text ends with a line, the text after it is cut
into lines as if it stood alone. So it is read alone too, but for two things: the line numbers of its
faults count on, and its settings go on top of those of the text before. -/
namespace InferredTypes

namespace Text

/-- The text ends where a line does. -/
def EndsLine (text : String) : Prop :=
  text = "" ∨ ∃ before, text = before ++ "\n"

/-- The lines of such a text stand before the lines of any text that follows it. -/
theorem EndsLine.exists_rows {text : String} (ends : EndsLine text) :
    ∃ rows, rows.length = text.toList.count '\n' ∧
      ∀ rest, lines (text.toList ++ rest) = rows ++ lines rest := by
  obtain rfl | ⟨before, rfl⟩ := ends
  · exact ⟨[], by simp, by simp⟩
  · have last : (before ++ "\n").toList = before.toList ++ ['\n'] := String.toList_append
    refine ⟨lines before.toList, ?_, fun rest => ?_⟩
    · rw [length_lines, last, List.count_append]
      rfl
    · rw [last, List.append_assoc]
      exact lines_append_cons_newline before.toList rest

end Text

namespace Settings
open Text

/-- The same fault, so many lines further down. -/
def Fault.later (count : Nat) : Fault → Fault
  | malformedLine line text => malformedLine (line + count) text
  | emptyKey line => emptyKey (line + count)

/-- The settings `joined` have the values of `upper`, and where it has none those of `lower`. -/
def Overlays (upper lower joined : Settings) : Prop :=
  ∀ key, joined.get? key = (upper.get? key).or (lower.get? key)

/-! Numbered rows. -/

theorem readLine_add (number count : Nat) (raw : List Char) :
    readLine (number + count) raw = (readLine number raw).mapError (Fault.later count) := by
  unfold readLine
  by_cases skipped : isSkipped (trim raw) = true
  · simp [skipped, Except.mapError]
  · cases rest : (trim raw).dropWhile fun c => !isSeparator c with
    | nil => simp [skipped, rest, Except.mapError, Fault.later]
    | cons sep after =>
      cases key : trim ((trim raw).takeWhile fun c => !isSeparator c) with
      | nil => simp [skipped, rest, key, Except.mapError, Fault.later]
      | cons c cs => simp [skipped, rest, key, Except.mapError]

/-- Under other numbers the rows give the same settings, or the same fault further down. -/
theorem addLines_add (s : Settings) (number count : Nat) (rows : List (List Char)) :
    s.addLines (number + count) rows =
      (s.addLines number rows).mapError (Fault.later count) := by
  induction rows generalizing s number with
  | nil => rfl
  | cons raw rows ih =>
    rw [addLines, addLines, readLine_add, Nat.add_right_comm]
    cases readLine number raw with
    | error fault => rfl
    | ok setting =>
      cases setting with
      | none => exact ih s (number + 1)
      | some entry => exact ih (s.set entry.1 entry.2) (number + 1)

theorem addLines_append (s : Settings) (number : Nat) (rows more : List (List Char)) :
    s.addLines number (rows ++ more) =
      (s.addLines number rows).bind fun s => s.addLines (number + rows.length) more := by
  induction rows generalizing s number with
  | nil => rfl
  | cons raw rows ih =>
    have shift : number + (raw :: rows).length = number + 1 + rows.length := by
      rw [List.length_cons]
      omega
    rw [List.cons_append, addLines, addLines, shift]
    cases readLine number raw with
    | error fault => rfl
    | ok setting =>
      cases setting with
      | none => exact ih s (number + 1)
      | some entry => exact ih (s.set entry.1 entry.2) (number + 1)

/-- Reading a joined text goes on in the second part with what the first part gives. -/
theorem parse_append {first : String} (ends : EndsLine first) (second : String) :
    parse (first ++ second) = (parse first).bind fun s =>
      (s.addLines 1 (lines second.toList)).mapError (Fault.later (first.toList.count '\n')) := by
  obtain ⟨rows, length, split⟩ := ends.exists_rows
  have joined : parse (first ++ second) =
      (empty.addLines 1 rows).bind fun s => s.addLines (1 + rows.length) (lines second.toList) := by
    rw [parse, String.toList_append, split, addLines_append]
  -- Alone, the first text has one more row, the empty one after its last newline.
  have alone : parse first = empty.addLines 1 rows := by
    have extra : lines first.toList = rows ++ [[]] := by simpa [lines] using split []
    rw [parse, extra, addLines_append]
    cases empty.addLines 1 rows <;> rfl
  rw [joined, alone, length]
  simp only [addLines_add]

/-! Settings that are there already. -/

section
variable {upper lower joined : Settings}

theorem overlays_empty (lower : Settings) : Overlays empty lower lower := by
  intro key
  simp [empty, get?]

theorem Overlays.set (overlays : Overlays upper lower joined) (key value : String) :
    Overlays (upper.set key value) lower (joined.set key value) := by
  intro other
  by_cases same : other = key
  · simp [same]
  · simp [same, overlays other]

/-- The rows have the same fault, or their settings go on top again. -/
theorem Overlays.addLines (overlays : Overlays upper lower joined) (number : Nat)
    (rows : List (List Char)) :
    (∃ fault, upper.addLines number rows = .error fault ∧
      joined.addLines number rows = .error fault) ∨
    ∃ upper' joined', upper.addLines number rows = .ok upper' ∧
      joined.addLines number rows = .ok joined' ∧ Overlays upper' lower joined' := by
  induction rows generalizing upper joined number with
  | nil => exact .inr ⟨upper, joined, rfl, rfl, overlays⟩
  | cons raw rows ih =>
    simp only [Settings.addLines]
    cases readLine number raw with
    | error fault => exact .inl ⟨fault, rfl, rfl⟩
    | ok setting =>
      cases setting with
      | none => exact ih overlays (number + 1)
      | some entry => exact ih (overlays.set entry.1 entry.2) (number + 1)

end

/-- A text that ends with a line and a text after it are read one after the other. A fault of the
first is the fault of both. Else a fault of the second is found as many lines further down as the
first has newlines, and without a fault the settings of the second go on top of those of the
first. -/
theorem joined_texts_parse {first : String} (ends : EndsLine first) (second : String) :
    (∀ fault, parse first = .error fault → parse (first ++ second) = .error fault) ∧
    (∀ lower fault, parse first = .ok lower → parse second = .error fault →
      parse (first ++ second) = .error (fault.later (first.toList.count '\n'))) ∧
    ∀ lower upper, parse first = .ok lower → parse second = .ok upper →
      ∃ joined, parse (first ++ second) = .ok joined ∧
        ∀ key, joined.get? key = (upper.get? key).or (lower.get? key) := by
  have read := parse_append ends second
  refine ⟨?_, ?_, ?_⟩
  · intro fault failed
    rw [read, failed]
    rfl
  · intro lower fault below failed
    rw [read, below]
    show (lower.addLines 1 (lines second.toList)).mapError _ = _
    obtain ⟨fault', alone, after⟩ | ⟨upper, _, alone, _⟩ :=
      (overlays_empty lower).addLines 1 (lines second.toList)
    · obtain rfl : fault = fault' := Except.error.inj (failed.symm.trans alone)
      rw [after]
      rfl
    · exact absurd (failed.symm.trans alone) (by simp)
  · intro lower upper below above
    rw [read, below]
    show ∃ joined, (lower.addLines 1 (lines second.toList)).mapError _ = .ok joined ∧ _
    obtain ⟨fault, alone, _⟩ | ⟨upper', joined, alone, after, overlays⟩ :=
      (overlays_empty lower).addLines 1 (lines second.toList)
    · exact absurd (above.symm.trans alone) (by simp)
    · obtain rfl : upper = upper' := Except.ok.inj (above.symm.trans alone)
      rw [after]
      exact ⟨joined, rfl, overlays⟩

/-- Both kinds of line ends, a comment and an empty line. -/
def mixedText : String := "a = 1\r\n# note\n\nb: 2\n"

theorem parse_mixedText : parse mixedText = .ok ((empty.set "a" "1").set "b" "2") := rfl

/-- What follows assigns a key again, with a bad line after it or not. -/
theorem mixedText_joined :
    EndsLine mixedText ∧
    parse (mixedText ++ "\nb = 3\n= 4") = .error (.emptyKey 7) ∧
    ∃ joined, parse (mixedText ++ "b = 3") = .ok joined ∧
      joined.get? "a" = some "1" ∧ joined.get? "b" = some "3" := by
  have ends : EndsLine mixedText := .inr ⟨"a = 1\r\n# note\n\nb: 2", rfl⟩
  have bad : parse "\nb = 3\n= 4" = .error (.emptyKey 3) := rfl
  have good : parse "b = 3" = .ok (empty.set "b" "3") := rfl
  refine ⟨ends, (joined_texts_parse ends _).2.1 _ _ parse_mixedText bad, ?_⟩
  obtain ⟨joined, read, values⟩ := (joined_texts_parse ends _).2.2 _ _ parse_mixedText good
  exact ⟨joined, read, values "a", values "b"⟩

end Settings
end InferredTypes
