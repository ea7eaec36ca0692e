import QueryNormal.Error

/-!
# Projections

* `checkProjection`: a projection must not yield a sequence that is still deferred.

A query or an ordered in-memory sequence cannot be materialized into a result, unless it is deep
inside something else. Object constructions are looked into; everything else is a leaf.
-/

namespace QueryNormal

/-- Whether a value of the type is a sequence that has not been materialized. -/
def Ty.isDeferred (t : Ty) : Bool := t.has .orderedEnumerable || t.has .queryable

mutual
/-- The first leaf of the body that is deferred. -/
def Expr.deferredLeaf? : Expr → Option Expr
  | .new _ args _ => deferredLeafList? args
  | .newWith _ args _ bindings => (deferredLeafList? args).or (deferredLeafBindings? bindings)
  | e => if e.ty.isDeferred then some e else none

/-- The first deferred leaf in a list. -/
def deferredLeafList? : List Expr → Option Expr
  | [] => none
  | e :: es => e.deferredLeaf?.or (deferredLeafList? es)

/-- The first deferred leaf in assignments. -/
def deferredLeafBindings? : List Binding → Option Expr
  | [] => none
  | .assign _ value :: bs => value.deferredLeaf?.or (deferredLeafBindings? bs)
  | .items .. :: bs => deferredLeafBindings? bs
end

/-- Refuses the projection of `parameter` to `body` if a leaf of the body is deferred. -/
def checkProjection (parameter : Param) (body : Expr) : Except Problem Unit :=
  match body.deferredLeaf? with
  | some leaf => .error (.deferredProjection parameter leaf)
  | none => .ok ()

end QueryNormal
