import QueryNormal.Join.Grouped
import QueryNormal.Reduce

/-!
# Normal forms

* `normalize`: the normal form of a query and the context after it.

Operators are reduced first. The grouped joins that were not flattened become correlated
projections afterwards.
-/

namespace QueryNormal

/-- How deep visits of what reduction has built may nest: twice as deep for each node of the
tree. -/
def Expr.budget (e : Expr) : Nat := Nat.pow 2 e.size

/-- The grouped-join pass, where there is a grouped join. -/
def finishGroupJoins (e : Expr) : Except Failure Expr :=
  if e.hasCallTo Queryable.groupJoin then reduceGroupJoins e.budget e else .ok e

/-- The normal form of a query. -/
def reduceQuery (provider : Provider) (e : Expr) : Reduction Expr := do
  let e ← reduceOperators provider e.budget e
  Reduction.ofExcept (finishGroupJoins e)

/-- The normal form of a query, or why it has none, and the context as it is left. -/
def normalize (provider : Provider) (context : Context) (e : Expr) :
    Except Failure Expr × Context :=
  let (result, state) := (reduceQuery provider e).run.run ⟨context, .after e⟩
  (result, state.context)

end QueryNormal
