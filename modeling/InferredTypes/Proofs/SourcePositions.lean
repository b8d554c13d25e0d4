import InferredTypes.Program.Location
import Mathlib.Data.Nat.Count

/-! Positions of byte offsets. One byte further on, the position has moved by the character that
starts at that byte, or not at all if none does. So lines and columns count characters, and positions
stand in the order of their offsets. -/
namespace InferredTypes.Position
variable {source : String} {byte offset first last : Nat} {c : Char}

/-- The character starts at the byte: what stands before it takes up so many bytes. -/
def StartsAt (source : String) (byte : Nat) (c : Char) : Prop :=
  ∃ before after : String, source = before ++ String.singleton c ++ after ∧
    before.utf8ByteSize = byte

def CharStarts (source : String) (byte : Nat) : Prop :=
  ∃ c, StartsAt source byte c

/-- A character starts at the byte, after all newlines that start before the offset. -/
def OnLineOf (source : String) (offset byte : Nat) : Prop :=
  CharStarts source byte ∧
    ∀ newline, newline < offset → StartsAt source newline '\n' → newline < byte

/-- Earlier by line, or on the same line by column. -/
def Before (p q : Position) : Prop :=
  p.line < q.line ∨ p.line = q.line ∧ p.column < q.column

def AtMost (p q : Position) : Prop :=
  p.line < q.line ∨ p.line = q.line ∧ p.column ≤ q.column

/-! The character at a byte. -/

/-- The character at the byte, when the first one starts at `base`. -/
def charFrom (byte base : Nat) : List Char → Option Char
  | [] => none
  | c :: cs => if base = byte then some c else charFrom byte (base + c.utf8Size) cs

def charAt? (source : String) (byte : Nat) : Option Char :=
  charFrom byte 0 source.toList

theorem utf8ByteSize_ofList_cons (c : Char) (cs : List Char) :
    (String.ofList (c :: cs)).utf8ByteSize = c.utf8Size + (String.ofList cs).utf8ByteSize := by
  rw [String.ofList_cons, String.utf8ByteSize_append, String.utf8ByteSize_singleton]

theorem charFrom_of_lt {base : Nat} (cs : List Char) (passed : byte < base) :
    charFrom byte base cs = none := by
  induction cs generalizing base with
  | nil => rfl
  | cons d cs ih =>
    rw [charFrom, if_neg (by omega)]
    exact ih (by omega)

theorem charFrom_eq_some_iff {base : Nat} {cs : List Char} :
    charFrom byte base cs = some c ↔
      ∃ before after, cs = before ++ c :: after ∧
        base + (String.ofList before).utf8ByteSize = byte := by
  constructor
  · intro found
    induction cs generalizing base with
    | nil => simp [charFrom] at found
    | cons d cs ih =>
      rw [charFrom] at found
      split at found
      · next here =>
        obtain rfl := Option.some.inj found
        exact ⟨[], cs, rfl, by simpa using here⟩
      · obtain ⟨before, after, rfl, reached⟩ := ih found
        refine ⟨d :: before, after, rfl, ?_⟩
        rw [utf8ByteSize_ofList_cons]
        omega
  · rintro ⟨before, after, rfl, rfl⟩
    induction before generalizing base with
    | nil => simp [charFrom]
    | cons d before ih =>
      have wide := d.utf8Size_pos
      rw [utf8ByteSize_ofList_cons, List.cons_append, charFrom, if_neg (by omega), ← ih]
      congr 1
      omega

theorem charAt?_eq_some_iff : charAt? source byte = some c ↔ StartsAt source byte c := by
  rw [charAt?, charFrom_eq_some_iff, StartsAt]
  constructor
  · rintro ⟨before, after, split, reached⟩
    refine ⟨String.ofList before, String.ofList after, ?_, by simpa using reached⟩
    rw [← String.toList_inj]
    simp [split]
  · rintro ⟨before, after, rfl, reached⟩
    exact ⟨before.toList, after.toList, by simp, by simpa using reached⟩

theorem isSome_charAt? : (charAt? source byte).isSome = true ↔ CharStarts source byte := by
  rw [Option.isSome_iff_exists]
  exact exists_congr fun _ => charAt?_eq_some_iff

instance : Decidable (StartsAt source byte c) :=
  decidable_of_iff _ charAt?_eq_some_iff

instance : Decidable (CharStarts source byte) :=
  decidable_of_iff _ isSome_charAt?

instance : DecidablePred (OnLineOf source offset) := fun byte =>
  @instDecidableAnd _ _ _ (Nat.decidableBallLT offset fun newline _ =>
    StartsAt source newline '\n' → newline < byte)

/-! One byte further. -/

theorem charsBefore_succ (offset base : Nat) (cs : List Char) :
    charsBefore (offset + 1) base cs =
      charsBefore offset base cs ++ (charFrom offset base cs).toList := by
  induction cs generalizing base with
  | nil => rfl
  | cons c cs ih =>
    have wide := c.utf8Size_pos
    rw [charsBefore, charsBefore, charFrom]
    obtain below | here | above := Nat.lt_trichotomy base offset
    · rw [if_pos (by omega), if_pos below, if_neg (by omega), ih]
      rfl
    · -- Only this character is new: the next one starts at least one byte later.
      have beyond : charsBefore (offset + 1) (base + c.utf8Size) cs = [] := by
        cases cs with
        | nil => rfl
        | cons d cs => rw [charsBefore, if_neg (by omega)]
      simp [here ▸ beyond, here]
    · rw [if_neg (by omega), if_neg (by omega), if_neg (by omega), charFrom_of_lt cs (by omega)]
      rfl

theorem ofOffset_succ (source : String) (offset : Nat) :
    ofOffset source (offset + 1) =
      (charAt? source offset).toList.foldl advance (ofOffset source offset) := by
  rw [ofOffset, charsBefore_succ, List.foldl_append]
  rfl

theorem ofOffset_zero (source : String) : ofOffset source 0 = start := by
  rw [ofOffset]
  cases source.toList <;> rfl

/-- All that can happen from one byte to the next. -/
theorem ofOffset_succ_cases (source : String) (offset : Nat) :
    ¬ CharStarts source offset ∧ ofOffset source (offset + 1) = ofOffset source offset ∨
    StartsAt source offset '\n' ∧
      ofOffset source (offset + 1) = ⟨(ofOffset source offset).line + 1, 1⟩ ∨
    CharStarts source offset ∧ ¬ StartsAt source offset '\n' ∧ ofOffset source (offset + 1) =
      ⟨(ofOffset source offset).line, (ofOffset source offset).column + 1⟩ := by
  rw [ofOffset_succ]
  simp only [← charAt?_eq_some_iff, ← isSome_charAt?]
  cases charAt? source offset with
  | none => simp
  | some c => by_cases newline : c = '\n' <;> simp [newline, advance]

/-! Lines and columns. -/

theorem line_ofOffset (source : String) (offset : Nat) :
    (ofOffset source offset).line =
      1 + Nat.count (fun byte => StartsAt source byte '\n') offset := by
  induction offset with
  | zero => rw [ofOffset_zero, Nat.count_zero, start]
  | succ offset ih =>
    rw [Nat.count_succ]
    obtain ⟨none, step⟩ | ⟨newline, step⟩ | ⟨-, other, step⟩ := ofOffset_succ_cases source offset
    · rw [step, ih, if_neg fun newline => none ⟨_, newline⟩, Nat.add_zero]
    · rw [step, ih, if_pos newline, Nat.add_assoc]
    · rw [step, ih, if_neg other, Nat.add_zero]

theorem count_onLineOf_succ (other : ¬ StartsAt source offset '\n') :
    Nat.count (OnLineOf source (offset + 1)) offset = Nat.count (OnLineOf source offset) offset := by
  have same (byte : Nat) : OnLineOf source (offset + 1) byte ↔ OnLineOf source offset byte := by
    apply and_congr_right
    intro _
    constructor
    · intro after newline below
      exact after newline (by omega)
    · intro after newline below starts
      have : newline ≠ offset := fun here => other (here ▸ starts)
      exact after newline (by omega) starts
  apply le_antisymm
  · exact Nat.count_mono_left fun byte _ => (same byte).1
  · exact Nat.count_mono_left fun byte _ => (same byte).2

theorem column_ofOffset (source : String) (offset : Nat) :
    (ofOffset source offset).column = 1 + Nat.count (OnLineOf source offset) offset := by
  induction offset with
  | zero => rw [ofOffset_zero, Nat.count_zero, start]
  | succ offset ih =>
    obtain ⟨none, step⟩ | ⟨newline, step⟩ | ⟨starts, other, step⟩ :=
      ofOffset_succ_cases source offset
    · have outside : ¬ OnLineOf source (offset + 1) offset := fun onLine => none onLine.1
      have other : ¬ StartsAt source offset '\n' := fun newline => none ⟨_, newline⟩
      rw [step, ih, Nat.count_succ, if_neg outside, count_onLineOf_succ other, Nat.add_zero]
    · -- No byte before the next offset is after this newline.
      have empty : Nat.count (OnLineOf source (offset + 1)) (offset + 1) = 0 := by
        apply Nat.count_iff_forall_not.2
        intro byte below onLine
        have := onLine.2 offset (by omega) newline
        omega
      rw [step, empty]
    · have inside : OnLineOf source (offset + 1) offset := by
        refine ⟨starts, fun newline below isNewline => ?_⟩
        have : newline ≠ offset := fun here => other (here ▸ isNewline)
        omega
      rw [step, ih, Nat.count_succ, if_pos inside, count_onLineOf_succ other, Nat.add_assoc]

/-! The order of positions. -/

section
variable {p q r : Position}

theorem Before.trans (before : Before p q) (after : Before q r) : Before p r := by
  unfold Before at *
  omega

theorem Before.ne (before : Before p q) : p ≠ q := by
  rintro rfl
  unfold Before at before
  omega

theorem Before.atMost (before : Before p q) : AtMost p q := by
  unfold Before at before
  unfold AtMost
  omega

theorem atMost_refl (p : Position) : AtMost p p :=
  .inr ⟨rfl, le_rfl⟩

theorem compare_ne_gt_iff : compare p q ≠ .gt ↔ AtMost p q := by
  show (compare p.line q.line).then (compare p.column q.column) ≠ .gt ↔ _
  unfold AtMost
  obtain line | line | line := Nat.lt_trichotomy p.line q.line
  · simp [Nat.compare_eq_lt.2 line, line]
  · simp [line, Nat.compare_ne_gt]
  · simp [Nat.compare_eq_gt.2 line, line.ne', line.not_gt]

end

/-- A character moves the position on. -/
theorem ofOffset_succ_eq_or_before (source : String) (offset : Nat) :
    ¬ CharStarts source offset ∧ ofOffset source offset = ofOffset source (offset + 1) ∨
    CharStarts source offset ∧ Before (ofOffset source offset) (ofOffset source (offset + 1)) := by
  obtain ⟨none, step⟩ | ⟨newline, step⟩ | ⟨starts, -, step⟩ := ofOffset_succ_cases source offset
  · exact .inl ⟨none, step.symm⟩
  · exact .inr ⟨⟨_, newline⟩, .inl (by simp [step])⟩
  · exact .inr ⟨starts, .inr (by simp [step])⟩

/-- Offsets without the start of a character between them have the same position; all others have
positions in their order. -/
theorem ofOffset_eq_or_before (source : String) (ordered : first ≤ last) :
    ofOffset source first = ofOffset source last ∧
      (∀ byte, first ≤ byte → byte < last → ¬ CharStarts source byte) ∨
    Before (ofOffset source first) (ofOffset source last) ∧
      ∃ byte, first ≤ byte ∧ byte < last ∧ CharStarts source byte := by
  induction last, ordered using Nat.le_induction with
  | base => exact .inl ⟨rfl, fun byte _ _ => by omega⟩
  | succ last ordered ih =>
    obtain ⟨none, step⟩ | ⟨starts, step⟩ := ofOffset_succ_eq_or_before source last
    · obtain ⟨same, clear⟩ | ⟨before, byte, after, below, starts⟩ := ih
      · refine .inl ⟨same.trans step, fun byte after below => ?_⟩
        by_cases here : byte = last
        · rwa [here]
        · exact clear byte after (by omega)
      · exact .inr ⟨step ▸ before, byte, after, by omega, starts⟩
    · refine .inr ⟨?_, last, ordered, by omega, starts⟩
      obtain ⟨same, -⟩ | ⟨before, -⟩ := ih
      · rwa [same]
      · exact before.trans step

theorem ofOffset_atMost (source : String) (ordered : first ≤ last) :
    AtMost (ofOffset source first) (ofOffset source last) := by
  obtain ⟨same, -⟩ | ⟨before, -⟩ := ofOffset_eq_or_before source ordered
  · rw [same]
    exact atMost_refl _
  · exact before.atMost

theorem ofOffset_eq_iff (source : String) (ordered : first ≤ last) :
    ofOffset source first = ofOffset source last ↔
      ∀ byte, first ≤ byte → byte < last → ¬ CharStarts source byte := by
  obtain ⟨same, clear⟩ | ⟨before, byte, after, below, starts⟩ :=
    ofOffset_eq_or_before source ordered
  · exact iff_of_true same clear
  · exact iff_of_false before.ne fun clear => clear byte after below starts

/-- At every boundary of the text but its end a character starts. -/
theorem charStarts_of_lt {p q : source.Pos} (lt : p.offset.byteIdx < q.offset.byteIdx) :
    CharStarts source p.offset.byteIdx := by
  obtain ⟨before, after, split, reached⟩ := String.Pos.Raw.isValid_iff_exists_append.1 p.isValid
  have size : source.utf8ByteSize = before.utf8ByteSize + after.utf8ByteSize := by
    rw [split, String.utf8ByteSize_append]
  have start : p.offset.byteIdx = before.utf8ByteSize := by
    rw [reached]
    rfl
  have within : q.offset.byteIdx ≤ source.utf8ByteSize := String.Pos.byteIdx_offset_le_utf8ByteSize
  cases found : after.toList with
  | nil =>
    have empty : after.utf8ByteSize = 0 := by simp [String.toList_eq_nil_iff.1 found]
    omega
  | cons c rest =>
    refine ⟨c, before, String.ofList rest, ?_, start.symm⟩
    rw [split, ← String.toList_inj]
    simp [found]

theorem ofOffset_injective (source : String) :
    Function.Injective fun boundary : source.Pos => ofOffset source boundary.offset.byteIdx := by
  intro p q same
  apply String.Pos.ext
  apply String.Pos.Raw.ext
  obtain lt | same | gt := Nat.lt_trichotomy p.offset.byteIdx q.offset.byteIdx
  · exact absurd (charStarts_of_lt lt) ((ofOffset_eq_iff source lt.le).1 same _ le_rfl lt)
  · assumption
  · exact absurd (charStarts_of_lt gt) ((ofOffset_eq_iff source gt.le).1 same.symm _ le_rfl gt)

/-- Positions are faithful to offsets. The line counts the newlines that start before the offset, and
the column counts the characters that start after the last of these. Ordered offsets have ordered
positions, the same one just if no character starts between them; so different boundaries of
characters have different positions, and a span of ordered offsets does not start after its end. -/
theorem positions_follow_offsets (source : String) :
    (∀ offset,
      (ofOffset source offset).line =
        1 + Nat.count (fun byte => StartsAt source byte '\n') offset ∧
      (ofOffset source offset).column = 1 + Nat.count (OnLineOf source offset) offset) ∧
    (∀ first last, first ≤ last →
      AtMost (ofOffset source first) (ofOffset source last) ∧
      (ofOffset source first = ofOffset source last ↔
        ∀ byte, first ≤ byte → byte < last → ¬ CharStarts source byte)) ∧
    (Function.Injective fun boundary : source.Pos => ofOffset source boundary.offset.byteIdx) ∧
    ∀ span : Span, span.first ≤ span.last →
      compare (span.startPosition source) (span.endPosition source) ≠ .gt := by
  refine ⟨fun offset => ⟨line_ofOffset source offset, column_ofOffset source offset⟩, ?_,
    ofOffset_injective source, ?_⟩
  · intro first last ordered
    exact ⟨ofOffset_atMost source ordered, ofOffset_eq_iff source ordered⟩
  · intro span ordered
    exact compare_ne_gt_iff.2 (ofOffset_atMost source ordered)

/-- Characters of one, two and three bytes on two lines, and offsets inside the longer ones. -/
def mixedSource : String := "aé\r\n€b"

theorem mixedSource_positions :
    (AtMost (ofOffset mixedSource 2) (ofOffset mixedSource 6) ∧
      ofOffset mixedSource 2 ≠ ofOffset mixedSource 6) ∧
    ofOffset mixedSource 6 = ofOffset mixedSource 8 ∧
    compare (Span.startPosition ⟨2, 6⟩ mixedSource) (Span.endPosition ⟨2, 6⟩ mixedSource) ≠ .gt := by
  obtain ⟨-, order, -, spans⟩ := positions_follow_offsets mixedSource
  have newline : CharStarts mixedSource 4 := by decide +kernel
  have inside (byte : Nat) (after : 6 ≤ byte) (below : byte < 8) : ¬ CharStarts mixedSource byte := by
    obtain rfl | rfl : byte = 6 ∨ byte = 7 := by omega
    · decide +kernel
    · decide +kernel
  obtain ⟨atMost, same⟩ := order 2 6 (by decide)
  refine ⟨⟨atMost, ?_⟩, (order 6 8 (by decide)).2.2 inside, spans ⟨2, 6⟩ (by decide)⟩
  intro equal
  exact same.1 equal 4 (by decide) (by decide) newline

end InferredTypes.Position
