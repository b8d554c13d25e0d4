import InferredTypes.Assoc
import InferredTypes.Inference

/-! Hosts whose answers are listed beforehand. They let one watch which questions inference asks,
also when answers lead back into inference. -/
namespace InferredTypes

/-- A listed answer about an expression: a type, or the inferred type of a declaration. -/
inductive Reply where
  | known (ty : Ty)
  | inferred (d : Decl)

/-- Answers about expressions, by id. The first entry for an id counts. -/
structure ReplySheet where
  semantics : Semantics
  types : List (NodeId × Reply)
  elements : List (NodeId × Reply)

namespace ReplySheet

/-- The answer to a question about an expression; one that is not listed has no type. -/
def reply (infer : Decl → Request (Option Ty)) (replies : List (NodeId × Reply)) (expr : NodeId) :
    Request (Option Ty) :=
  match Assoc.firstWith expr replies with
  | none => pure none
  | some (.known ty) => pure (some ty)
  | some (.inferred d) => infer d

def answer (sheet : ReplySheet) (infer : Decl → Request (Option Ty)) : Host where
  toSemantics := sheet.semantics
  staticType e := reply infer sheet.types e.id
  elementType e := reply infer sheet.elements e.id

/-- A question back puts the origin of a listed declaration in flight, or is refused and goes no
deeper. So such questions nest at most once more than there are entries. -/
def host (sheet : ReplySheet) : Host :=
  .unroll sheet.answer (sheet.types.length + sheet.elements.length + 1)

end ReplySheet

/-- Semantics from lists. Only listed pairs are assignable, a type that is not listed erases to
itself, and every node has a top type of its own. -/
def Semantics.listed (names : List (String × String)) (assignable erasures : List (Ty × Ty)) :
    Semantics where
  qualifiedName ref := Assoc.firstWith ref.name names
  assignable source target := (source, target) ∈ assignable
  erasure ty := (Assoc.firstWith ty erasures).getD ty
  topType node := .named ("Top" ++ node.text) []

end InferredTypes
