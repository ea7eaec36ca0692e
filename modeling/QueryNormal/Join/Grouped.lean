import QueryNormal.Error
import QueryNormal.Expr.Replace
import QueryNormal.Rule.InMemory

/-!
# The grouped-join pass

* `correlate`: a grouped join as a projection of the outer source, in which the group is a filter
  of the inner source.
* `Expr.ungroup`: the pass. It reduces grouped joins outermost first and goes on into what it has
  built.
* `reduceGroupJoins`: the pass with a budget.
-/

namespace QueryNormal

/-! ## Predicates -/

/-- Whether two values are equal. -/
def Expr.equals (lhs rhs : Expr) : Expr := .binary .equal lhs rhs

/-- Whether a value is not null. -/
def Expr.notNull (e : Expr) : Expr := .binary .notEqual e (.null e.ty)

/-- Whether both conditions hold. -/
def Expr.both (lhs rhs : Expr) : Expr := .binary .and lhs rhs

/-- All the conditions, from left to right. -/
def allOf (first : Expr) (rest : List Expr) : Expr := rest.foldl Expr.both first

/-- Whether the keys match: the outer key is not null and equals the inner one. Composite keys of
the same number of parts match part by part. -/
def keysMatch (outer inner : Expr) : Expr :=
  match outer, inner with
  | .new _ (o :: os) _, .new _ (i :: is) _ =>
      if os.length = is.length then
        .both (allOf o.notNull (os.map Expr.notNull)) (allOf (o.equals i) (os.zipWith .equals is))
      else .both outer.notNull (outer.equals inner)
  | _, _ => .both outer.notNull (outer.equals inner)

/-! ## One grouped join -/

/-- A sequence that is not exactly a query is treated as one. -/
def asQuery (e : Expr) : Expr :=
  match e.ty.element? with
  | some element => if e.ty.isSeqOf .queryable then e else asQueryable e element
  | none => e

/-- The lambda that an argument is, or quotes. -/
def requireLambda (e : Expr) : Except Misuse Lambda :=
  match e.lambda? with
  | some l => .ok l
  | none => .error (.notALambda e.unquote)

/-- The projection that yields what the grouped join would. A result that is an in-memory sequence
stays one. -/
def groupedSelector (resultType : Ty) (body : Expr) : Expr :=
  match resultType with
  | .seq .enumerable element => .apply Enumerable.asEnumerable [element] [body]
  | _ => body

/-- The grouped join as a projection: its method, its source and its selector. -/
def correlate (m : Method) (args : List Expr) : Except Misuse (Method × Expr × Expr) :=
  match m.typeArgs, args with
  | [outerElement, innerElement, _, resultType], [outer, inner, outerKey, innerKey, result] => do
      let outerKey ← requireLambda outerKey
      let innerKey ← requireLambda innerKey
      let result ← requireLambda result
      match outerKey.params with
      | [key] =>
          match result.params with
          | [element, group] =>
              let predicate :=
                Expr.replace key.id (.param element) (keysMatch outerKey.body innerKey.body)
              let filtered := .apply Queryable.filter [innerElement]
                [asQuery inner, Lambda.quoted ⟨innerKey.params, predicate⟩]
              let selector :=
                groupedSelector resultType (Expr.replace group.id filtered result.body)
              return (⟨Queryable.select, [outerElement, resultType]⟩, outer,
                Lambda.quoted ⟨[element], selector⟩)
          | params => .error (.selectorArity .groupResult m params.length)
      | params => .error (.selectorArity .outerKey m params.length)
  | _, _ => .error (.malformed m)

/-! ## The pass -/

namespace Expr

mutual
/-- Reduces every grouped join. What a grouped join becomes is gone into by `again`. -/
def ungroup (again : Expr → Except Failure Expr) : Expr → Except Failure Expr
  | .call m receiver args =>
      if m.is Queryable.groupJoin then
        match correlate m args with
        | .ok (select, outer, selector) => do
            let outer ← again outer
            return .call select none [outer, ← again selector]
        | .error cause => .error (.problem (.misuse cause))
      else do
        let receiver ← ungroupOption again receiver
        return .call m receiver (← ungroupList again args)
  | .lambda params body => do return .lambda params (← body.ungroup again)
  | .quote inner => do return .quote (← inner.ungroup again)
  | .param p => return .param p
  | .member target m => do return .member (← ungroupOption again target) m
  | .binary op lhs rhs => do
      let lhs ← lhs.ungroup again
      return .binary op lhs (← rhs.ungroup again)
  | .unary op operand => do return .unary op (← operand.ungroup again)
  | .const value type => return .const value type
  | .new type args names => do return .new type (← ungroupList again args) names
  | .newWith type args names bindings => do
      let args ← ungroupList again args
      return .newWith type args names (← ungroupBindings again bindings)
  | .cond test whenTrue whenFalse => do
      let test ← test.ungroup again
      let whenTrue ← whenTrue.ungroup again
      return .cond test whenTrue (← whenFalse.ungroup again)
  | .placeholder p => return .placeholder p

/-- Reduces a receiver or a target. -/
def ungroupOption (again : Expr → Except Failure Expr) :
    Option Expr → Except Failure (Option Expr)
  | none => return none
  | some e => do return some (← e.ungroup again)

/-- Reduces a list of expressions. -/
def ungroupList (again : Expr → Except Failure Expr) : List Expr → Except Failure (List Expr)
  | [] => return []
  | e :: es => do
      let e ← e.ungroup again
      return e :: (← ungroupList again es)

/-- Reduces the values in bindings. -/
def ungroupBindings (again : Expr → Except Failure Expr) :
    List Binding → Except Failure (List Binding)
  | [] => return []
  | .assign name value :: bs => do
      let value ← value.ungroup again
      return .assign name value :: (← ungroupBindings again bs)
  | .items name values :: bs => do
      let values ← ungroupList again values
      return .items name values :: (← ungroupBindings again bs)
end

end Expr

/-- The grouped-join pass, with at most `budget` reductions inside one another. -/
def reduceGroupJoins : Nat → Expr → Except Failure Expr
  | 0, _ => .error .exhausted
  | budget + 1, e => e.ungroup (reduceGroupJoins budget)

end QueryNormal
