/-! Where things stand in a program text: node ids, byte ranges and line positions. -/
namespace InferredTypes

structure NodeId where
  index : Nat
  deriving DecidableEq

def NodeId.text (id : NodeId) : String :=
  "#" ++ toString id.index

/-- A range of byte offsets. The start may lie after the end. -/
structure Span where
  first : Nat
  last : Nat
  deriving DecidableEq

def Span.text (span : Span) : String :=
  "Span(" ++ toString span.first ++ "-" ++ toString span.last ++ ")"

/-- What every node of a program carries. Ids need not be unique. -/
structure Node where
  id : NodeId
  span : Span
  deriving DecidableEq

/-- A line and a column, both counted from one. -/
structure Position where
  line : Nat
  column : Nat
  deriving DecidableEq

namespace Position

def start : Position := ⟨1, 1⟩

def advance (p : Position) (c : Char) : Position :=
  if c = '\n' then ⟨p.line + 1, 1⟩ else ⟨p.line, p.column + 1⟩

/-- The characters that start before the given byte offset, when the first one starts at `base`. -/
def charsBefore (offset base : Nat) : List Char → List Char
  | [] => []
  | c :: cs => if base < offset then c :: charsBefore offset (base + c.utf8Size) cs else []

/-- The position of a byte offset. A character that the offset falls into counts as passed, and
an offset beyond the text is its end. -/
def ofOffset (source : String) (offset : Nat) : Position :=
  (charsBefore offset 0 source.toList).foldl advance start

def text (p : Position) : String :=
  toString p.line ++ ":" ++ toString p.column

instance : Ord Position where
  compare p q := (compare p.line q.line).then (compare p.column q.column)

end Position

def Span.startPosition (span : Span) (source : String) : Position :=
  Position.ofOffset source span.first

def Span.endPosition (span : Span) (source : String) : Position :=
  Position.ofOffset source span.last

end InferredTypes
