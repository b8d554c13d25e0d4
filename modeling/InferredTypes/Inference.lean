import InferredTypes.Host

/-! The type that a placeholder declaration stands for. -/
namespace InferredTypes.Host

/-- The type of an expression, computed with that expression in flight. -/
def guardedType (host : Host) (e : Expr) : Request (Option Ty) :=
  Option.join <$> Request.guarded e.id (host.askStaticType e)

def branchType (host : Host) : Option Expr → Request (Option Ty)
  | none => pure none
  | some e => host.guardedType e

/-- The type arguments that a creation leaves open must not show in the type of the variable. -/
def closeDiamond (host : Host) (e : Expr) : Option Ty → Request (Option Ty)
  | none => pure none
  | some ty =>
    if e.isDiamondCreation then do
      let erased ← host.askErasure ty
      Request.note (.diamondErased e.id ty erased)
      return some erased
    else
      pure (some ty)

/-- A brace list alone has no type; a conditional is in flight while its branches are typed. -/
def initializerType (host : Host) (e : Expr) : Request (Option Ty) :=
  match e with
  | .braceList _ _ => pure none
  | .conditional node _ whenTrue whenFalse =>
    Option.join <$> Request.guarded node.id do
      let whenTrue ← host.branchType whenTrue
      let whenFalse ← host.branchType whenFalse
      host.unify whenTrue whenFalse
  | _ => do
    let ty ← host.guardedType e
    host.closeDiamond e ty

def iteratedType (host : Host) (e : Expr) : Request (Option Ty) :=
  Option.join <$> Request.guarded e.id (host.askElementType e)

def originType (host : Host) : Origin → Request (Option Ty)
  | .initializer none | .iterated none => pure none
  | .initializer (some e) => host.initializerType e
  | .iterated (some e) => host.iteratedType e

/-- An origin without a type gives the host's top type. -/
def settle (host : Host) (kind : Placeholder) (decl : NodeId) : Option Ty → Request Ty
  | some ty => do
    Request.note (.inferred kind decl ty)
    return ty
  | none => do
    let top ← host.askTop decl
    Request.note (.fellBack kind decl top)
    return top

/-- The type of a placeholder declaration. There is none for a declaration that is no placeholder,
and for a parameter that is not a foreach parameter; the declared type stands there. -/
def infer (host : Host) (d : Decl) : Request (Option Ty) := do
  let kind ← host.placeholder d.typeRef
  if kind.isActive then
    match d.origin? with
    | none => return none
    | some origin =>
      let ty ← host.originType origin
      return some (← host.settle kind d.id ty)
  else
    return none

/-- Whether a local variable is a `val` placeholder with something to infer from. -/
def isVal (host : Host) (v : LocalVariable) : Request Bool :=
  if v.initializer.isSome then do
    return (← host.placeholder v.typeRef) = .val
  else
    pure false

/-- Whether a local variable is any placeholder with something to infer from. -/
def isValOrVar (host : Host) (v : LocalVariable) : Request Bool :=
  if v.initializer.isSome then do
    return (← host.placeholder v.typeRef).isActive
  else
    pure false

/-- A host whose typing asks back into inference, with at most `n` such questions inside each
other. One more stops the request. -/
def unroll (answer : (Decl → Request (Option Ty)) → Host) : Nat → Host
  | 0 => answer fun _ => throw .exhausted
  | n + 1 => answer (unroll answer n).infer

end InferredTypes.Host
