import QueryNormal.Expr.Basic
import QueryNormal.Operator.Sequence

/-!
# Correlation

* `Expr.correlated`: whether an expression over a group is more than a filter of the group.

An expression that is not correlated with its surroundings can be moved to the inner side of a
join. It may refer to the group and to the parameters of its own lambdas only, and may reach the
group through filters, conversions to a query and projections of each element to itself.
-/

namespace QueryNormal

/-- Whether the operator on queries of that name passes its source through. -/
def passesThrough (name : String) : Bool := name = "Where" || name = "AsQueryable"

/-- Whether the call projects each element to itself. -/
def selectsItself (method : Method) (args : List Expr) : Bool :=
  method.is Queryable.select &&
    match args[1]?.bind Expr.lambda? with
    | some ⟨p :: _, .param q⟩ => q.id = p.id
    | _ => false

/-- What a scan has seen: how often the group is referred to, and whether anything makes the
expression correlated. -/
structure Scan where
  roots : Nat
  correlated : Bool
deriving DecidableEq, Repr, Inhabited

namespace Scan

/-- The scan after something that makes the expression correlated. -/
def correlate (s : Scan) : Scan := { s with correlated := true }

/-- The scan after a reference to a parameter. -/
def reference (root : UInt32) (bound : List UInt32) (id : UInt32) (s : Scan) : Scan :=
  if bound.contains id then s
  else if id = root then { s with roots := s.roots + 1 }
  else s.correlate

end Scan

namespace Expr

mutual
/-- Scans an expression under the parameters `bound` by the lambdas around it. The arguments of an
operator on queries that does not pass its source through are not looked at. -/
def scan (root : UInt32) (bound : List UInt32) : Expr → Scan → Scan
  | .call method receiver args, s =>
      if s.correlated then s
      else if method.family = .queryable ∧ ¬ passesThrough method.name then
        if selectsItself method args then s else s.correlate
      else
        let s := match receiver with
          | none => s
          | some r => r.scan root bound s
        scanList root bound args s
  | .lambda params body, s => body.scan root (bound ++ params.map Param.id) s
  | .quote inner, s => inner.scan root bound s
  | .param p, s => s.reference root bound p.id
  | .member target _, s =>
      match target with
      | none => s
      | some t => t.scan root bound s
  | .binary _ lhs rhs, s => rhs.scan root bound (lhs.scan root bound s)
  | .unary _ operand, s => operand.scan root bound s
  | .const _ _, s => s
  | .new _ args _, s => scanList root bound args s
  | .newWith _ args _ bindings, s => scanBindings root bound bindings (scanList root bound args s)
  | .cond test whenTrue whenFalse, s =>
      whenFalse.scan root bound (whenTrue.scan root bound (test.scan root bound s))
  | .placeholder _, s => s

/-- Scans a list. -/
def scanList (root : UInt32) (bound : List UInt32) : List Expr → Scan → Scan
  | [], s => s
  | e :: es, s => scanList root bound es (e.scan root bound s)

/-- Scans bindings. -/
def scanBindings (root : UInt32) (bound : List UInt32) : List Binding → Scan → Scan
  | [], s => s
  | .assign _ value :: bs, s => scanBindings root bound bs (value.scan root bound s)
  | .items _ values :: bs, s => scanBindings root bound bs (scanList root bound values s)
end

/-- Whether the chain of member targets and sources of operators on queries ends in the parameter
`root`, or in a static member. -/
def startsAt (root : UInt32) : Expr → Bool
  | .member (some target) _ => target.startsAt root
  | .member none _ => true
  | .call method _ (source :: _) =>
      if method.family = .queryable then source.startsAt root else false
  | .param p => p.id = root
  | _ => false

/-- Whether the expression depends on anything but the parameter `root`, or reaches it other than
through what passes its source through. The chain of sources is looked at only if `root` is
referred to exactly once. -/
def correlated (root : UInt32) (body : Expr) : Bool :=
  let s := body.scan root [] ⟨0, false⟩
  s.correlated || (s.roots == 1 && !body.startsAt root)

end Expr

end QueryNormal
