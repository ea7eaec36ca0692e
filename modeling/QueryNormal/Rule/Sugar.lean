import QueryNormal.Operator.Sequence
import QueryNormal.Expr.Basic

/-!
# Shorthand

* `Sugar.of?`: binary operations that stand for an operator on a sequence.
* `indexedElement?`: calls of an indexer.
* `membershipElement?`: calls of a collection that ask for an item.

Indexing is the element at a position, and a collection that counts more than nothing has an
element.
-/

namespace QueryNormal

/-- What a binary operation is short for. -/
inductive Sugar where
  /-- The element of a sequence at a position. -/
  | elementAt (element : Ty)
  /-- Whether a sequence has an element. -/
  | nonEmpty (element : Ty)
deriving DecidableEq, Repr, Inhabited

/-- The collection that is counted: the target of a count, or the array of a length. -/
def countedSource? : Expr → Option Expr
  | .member (some source) m =>
      if m.name = "Count" ∧ m.owner.has .collection then some source else none
  | .unary .arrayLength operand => some operand
  | _ => none

/-- Whether the expression is the integer zero. -/
def isZero : Expr → Bool
  | .const value _ => value.isZero
  | _ => false

/-- What the binary operation is short for. -/
def Sugar.of? (op : BinOp) (lhs rhs : Expr) : Option Sugar :=
  match op with
  | .arrayIndex => lhs.ty.element?.map .elementAt
  | .greater | .notEqual =>
      if isZero rhs then do
        let source ← countedSource? lhs
        let element ← source.ty.element?
        return .nonEmpty element
      else none
  | _ => none

/-- The element type of the receiver, if the call reads a list at a position. -/
def indexedElement? (m : Method) (receiver : Option Expr) (args : List Expr) : Option Ty :=
  if m.name = "get_Item" ∧ ¬ m.isStatic ∧ args.length = 1 then do
    let owner ← m.owner?
    let _ ← owner.elementAs? .readOnlyList
    let target ← receiver
    target.ty.element?
  else none

/-- The element type of the declaring collection, if the call asks for an item of it. -/
def membershipElement? (m : Method) : Option Ty :=
  if m.name = "Contains" ∧ ¬ m.isStatic then do
    let owner ← m.owner?
    owner.elementAs? .collection
  else none

end QueryNormal
