import QueryNormal.Join.Correlated
import QueryNormal.Expr.Replace
import QueryNormal.Reduction
import QueryNormal.Rule.Loading

/-!
# Flattening grouped joins

* `GroupJoin`: the pieces of a grouped join.
* `Flattening.of?`: how a `SelectMany` over a grouped join becomes a flat join.
* `flatten`: the flat join.

A grouped join whose groups are taken apart at once is a join, or a left join when empty groups
count as one default element. What is done to the group in between must not be correlated; it is
done to the inner source instead, and the inner source is then visited again.
-/

namespace QueryNormal

/-- The pieces of a grouped join. -/
structure GroupJoin where
  typeArgs : List Ty
  outer : Expr
  inner : Expr
  outerKey : Expr
  innerKey : Expr
  innerKeySelector : Lambda
  result : Lambda

namespace GroupJoin

/-- The pieces of the expression, if it is a grouped join of five arguments whose selectors are
lambdas. -/
def of? : Expr → Option GroupJoin
  | .call m _ [outer, inner, outerKey, innerKey, result] =>
      if m.is Queryable.groupJoin then do
        let _ ← outerKey.lambda?
        let innerKeySelector ← innerKey.lambda?
        let result ← result.lambda?
        return ⟨m.typeArgs, outer, inner, outerKey, innerKey, innerKeySelector, result⟩
      else none
  | _ => none

/-- The join, or the left join, of the outer source with another inner source. -/
def flat (g : GroupJoin) (left : Bool) (inner : Expr) (result : Lambda) : Expr :=
  .apply (if left then Queryable.leftJoin else Queryable.join)
    (replaceLast g.typeArgs result.body.ty)
    [g.outer, inner, g.outerKey, g.innerKey, result.quoted]

end GroupJoin

/-- The source of a trailing `DefaultIfEmpty`, and whether there was one. -/
def peelDefault : Expr → Expr × Bool
  | .call m receiver (source :: rest) =>
      if m.is Queryable.defaultIfEmpty then (source, true)
      else (.call m receiver (source :: rest), false)
  | e => (e, false)

/-- The expression without the conversions to a query that do not change the type, along the
chain of sources. -/
def unwrapQueryable : Expr → Expr
  | .call m receiver (source :: rest) =>
      if m.is Queryable.asQueryable ∧ rest.isEmpty ∧ source.ty = m.result then
        unwrapQueryable source
      else if m.family = .queryable ∧ m.isGeneric then
        .call m receiver (unwrapQueryable source :: rest)
      else .call m receiver (source :: rest)
  | e => e

/-- How a `SelectMany` over a grouped join becomes a flat join. In both cases `inner` is the inner
source with what was done to the group. -/
inductive Flattening where
  /-- A result is made of each pair. -/
  | pairs (join : GroupJoin) (left : Bool) (inner : Expr) (result : Lambda)
  /-- The members of the groups are the result; `element` says how to name one. -/
  | members (join : GroupJoin) (left : Bool) (inner : Expr) (outer element : Param)

namespace Flattening

/-- Reads `GroupJoin(…, (o, g) => r).SelectMany(x => c, (x, e) => s)`, where `c` with `r` for `x`
only filters `g`. -/
def ofPairs? (source collection result : Expr) : Option Flattening := do
  let join ← GroupJoin.of? source
  let collection ← collection.lambda?
  let result ← result.lambda?
  match join.result.params, collection.params, result.params with
  | outer :: group :: _, [x], [y, element] =>
      let (body, left) := peelDefault collection.body
      let body := Expr.replace x.id join.result.body body
      if body.correlated group.id then none
      else
        return .pairs join left (Expr.replace group.id join.inner body)
          ⟨[outer, element], Expr.replace y.id join.result.body result.body⟩
  | _, _, _ => none

/-- Reads `GroupJoin(…, (o, g) => r).SelectMany(x => c)`, where `r` only filters `g`. -/
def ofMembers? (source selector : Expr) : Option Flattening := do
  let join ← GroupJoin.of? source
  let selector ← selector.lambda?
  match join.result.params, selector.params, join.innerKeySelector.params with
  | outer :: group :: _, [x], [element] =>
      let (body, left) := peelDefault join.result.body
      if body.correlated group.id then none
      else
        let inner := Expr.replace group.id join.inner body
        return .members join left (Expr.replace x.id inner selector.body) outer element
  | _, _, _ => none

/-- How the call becomes a flat join, if it can. -/
def of? (c : Call) : Option Flattening :=
  if c.is Queryable.selectManyPairs then
    match c.args with
    | [source, collection, result] => ofPairs? source collection result
    | _ => none
  else if c.is Queryable.selectMany then
    match c.args with
    | [source, selector] => ofMembers? source selector
    | _ => none
  else none

end Flattening

/-- The flat join that the call becomes, or the call unchanged. The inner source is visited by
`again`. -/
def flatten (again : Expr → Reduction Expr) (c : Call) : Reduction Expr :=
  match Flattening.of? c with
  | none => pure c.toExpr
  | some (.pairs join left inner result) => do
      let inner ← again inner
      return join.flat left (unwrapQueryable inner) result
  | some (.members join left inner outer element) => do
      let inner ← again inner
      let element ← Reduction.fresh element.name element.ty
      return join.flat left inner ⟨[outer, element], .param element⟩

end QueryNormal
