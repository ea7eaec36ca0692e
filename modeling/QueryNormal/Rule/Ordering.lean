import QueryNormal.Operator.Sequence
import QueryNormal.Reduction

/-!
# Orderings

* `orderByItself`: an ordering by the elements becomes an ordering by a key that is the element.
-/

namespace QueryNormal

/-- The ordering by a key that stands for an ordering by the elements. -/
def keyedOrdering? (m : Method) : Option Signature :=
  if m.is Queryable.order then some Queryable.orderBy
  else if m.is Queryable.orderDescending then some Queryable.orderByDescending
  else none

/-- The call with its ordering by the elements spelled out. Any other call is unchanged. -/
def orderByItself (c : Call) : Reduction Call :=
  match keyedOrdering? c.method with
  | none => pure c
  | some ordering =>
      match c.method.typeArgs, c.args with
      | element :: _, [source] => do
          let p ← Reduction.fresh "p" element
          let key : Lambda := ⟨[p], .param p⟩
          return ⟨⟨ordering, [element, element]⟩, none, [source, key.quoted]⟩
      | _, _ => Reduction.misuse (.malformed c.method)

end QueryNormal
