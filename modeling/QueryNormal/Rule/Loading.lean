import QueryNormal.Operator.Metadata
import QueryNormal.Reduction

/-!
# Eager loading

* `loadsOrdered`: eager loading of a collection that is ordered in memory.
* `reloaded`: the same loading once the order is the order of a query.
-/

namespace QueryNormal

/-- Whether the call loads a navigation that is ordered in memory. -/
def loadsOrdered (m : Method) (args : List Expr) : Bool :=
  m.isGeneric && Metadata.loading.any (fun s => m.is s) &&
    match args[1]?.bind Expr.lambda? with
    | some selector => selector.body.ty.isSeqOf .orderedEnumerable
    | none => false

/-- The list with its last element replaced. -/
def replaceLast {α : Type} (as : List α) (a : α) : List α :=
  match as with
  | [] => []
  | _ :: _ => as.dropLast ++ [a]

/-- The method for a navigation of the given type. Its last type argument is the type of the
navigation, and changes only if that has become an ordered query. -/
def reloaded (m : Method) (navigation : Ty) : Method :=
  if navigation.isSeqOf .orderedQueryable then
    m.withTypeArgs (replaceLast m.typeArgs navigation)
  else m

/-- Whether the expression is a quote. -/
def isQuote : Expr → Bool
  | .quote _ => true
  | _ => false

/-- The navigation selector, which must have one parameter. -/
def navigationSelector (m : Method) (selector : Expr) : Except Misuse Lambda :=
  match selector.lambda? with
  | none => .error (.notALambda selector.unquote)
  | some l =>
      if l.params.length = Selector.navigation.arity then .ok l
      else .error (.selectorArity .navigation m l.params.length)

end QueryNormal
