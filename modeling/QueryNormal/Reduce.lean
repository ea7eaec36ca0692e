import QueryNormal.Projection
import QueryNormal.Join.Flat
import QueryNormal.Rule.Hinting
import QueryNormal.Rule.InMemory
import QueryNormal.Rule.Loading
import QueryNormal.Rule.Note
import QueryNormal.Rule.Ordering
import QueryNormal.Rule.Sugar

/-!
# The operator pass

* `Rule.of`: the rule that applies to a call, decided before anything in it is visited.
* `Expr.reduce`: the pass. It reduces calls bottom-up.
* `reduceOperators`: the pass with a budget for visiting again what flattening has built.

The rules are tried in the order of `Rule.of`; a call takes the first that applies.
-/

namespace QueryNormal

/-- What is done with a call. -/
inductive Rule where
  /-- It is replaced by its source, and its effect is carried out. -/
  | note (n : Note)
  /-- It is replaced by its placeholder. -/
  | hint (mode : Mode)
  /-- It reads a list at a position. -/
  | index (element : Ty)
  /-- It is an operator on an in-memory sequence. -/
  | inMemory
  /-- It asks a collection for an item. -/
  | membership (element : Ty)
  /-- It loads a navigation that is ordered in memory. -/
  | loading
  /-- Only what it holds is reduced, orderings and joins apart. -/
  | other
deriving Repr, Inhabited

/-- The rule that applies to a call. -/
def Rule.of (m : Method) (receiver : Option Expr) (args : List Expr) : Rule :=
  if let some n := Note.of? m then .note n
  else if let some mode := Mode.hinted? m then .hint mode
  else if let some element := indexedElement? m receiver args then .index element
  else if m.family = .enumerable then .inMemory
  else if let some element := membershipElement? m then .membership element
  else if loadsOrdered m args then .loading
  else .other

/-- Refuses a projection of queries that yields something deferred. -/
def checkSelect (m : Method) (args : List Expr) : Reduction Unit :=
  if m.is Queryable.select then
    match args[1]?.bind Expr.lambda? with
    | some ⟨[p], body⟩ =>
        match checkProjection p body with
        | .ok () => pure ()
        | .error problem => Reduction.fail (.problem problem)
    | _ => pure ()
  else pure ()

/-- Spells out the ordering and flattens the join of a call whose parts are normal. -/
def settle (again : Expr → Reduction Expr) (c : Call) : Reduction Expr :=
  if c.isGenericQuery then do
    let c ← orderByItself c
    flatten again c
  else pure c.toExpr

/-- The call on queries that stands for an in-memory call with normal arguments, if there is one. -/
def convertCall (again : Expr → Reduction Expr) (m : Method) (args : List Expr) :
    Reduction (Option Expr) := do
  match ← Reduction.ofExcept (toQueryable m args) with
  | some (m, args) => return some (← settle again ⟨m, none, args⟩)
  | none => return none

/-- A static in-memory call with normal arguments, on queries if it can be. `raw` is the source
before it was visited. -/
def callInMemory (again : Expr → Reduction Expr) (s : Signature) (element : Ty) (raw : Expr)
    (args : List Expr) : Reduction Expr :=
  if raw.isConstruction then return .apply s [element] args
  else do
    match ← convertCall again ⟨s, [element]⟩ args with
    | some e => return e
    | none => return .apply s [element] args

/-- Whether the item is in the collection, asked of the collection as a query. `raw` is the
collection before it was visited; one that is a value is converted to a sequence first. -/
def contains (element : Ty) (raw collection item : Expr) : Expr :=
  let source := if raw.ty.isValueType then .unary (.convert (.enumerable element)) collection
    else collection
  .apply Queryable.contains [element] [asQueryable source element, item]

namespace Expr

mutual
/-- Reduces the expression. What flattening builds is visited by `again`. -/
def reduce (provider : Provider) (again : Expr → Reduction Expr) : Expr → Reduction Expr
  | .call m receiver args =>
      match Rule.of m receiver args with
      | .note n =>
          match args with
          | [] => Reduction.misuse (.noSource m)
          | source :: rest => do
              let source ← source.reduce provider again
              n.perform m rest
              return source
      | .hint mode =>
          if mode.supportedBy provider then
            match args with
            | [] => Reduction.misuse (.noArgument m)
            | argument :: _ => do
                match mode.mark m (← argument.reduce provider again) with
                | .ok e => return e
                | .error cause => Reduction.misuse cause
          else Reduction.fail (.problem .constantsUnsupported)
      | .index element =>
          match receiver with
          | none => return .call m none args
          | some target => do
              let normal ← target.reduce provider again
              let args ← reduceList provider again args
              callInMemory again Enumerable.elementAt element target (normal :: args)
      | .inMemory =>
          if staysInMemory m args then do
            let receiver ← reduceOption provider again receiver
            return .call m receiver (← reduceList provider again args)
          else do
            let args ← reduceList provider again args
            match ← convertCall again m args with
            | some e => return e
            | none => return .call m (← reduceOption provider again receiver) args
      | .membership element =>
          match receiver, args with
          | some collection, args =>
              if collection.isConstruction then do
                let collection ← collection.reduce provider again
                return .call m (some collection) (← reduceList provider again args)
              else
                match args with
                | [item] => do
                    let normal ← collection.reduce provider again
                    let item ← item.reduce provider again
                    return contains element collection normal item
                | _ => Reduction.misuse (.malformed m)
          | none, _ => Reduction.misuse (.malformed m)
      | .loading =>
          match args with
          | [source, selector] => do
              let source ← source.reduce provider again
              match navigationSelector m selector with
              | .error cause => Reduction.misuse cause
              | .ok _ => do
                  let normal ← selector.reduce provider again
                  match normal.unquote with
                  | .lambda params body =>
                      let l : Lambda := ⟨params, body⟩
                      return .call (reloaded m body.ty) receiver
                        [source, if isQuote selector then l.quoted else l.toExpr]
                  | e => Reduction.misuse (.notALambda e)
          | _ => Reduction.misuse (.malformed m)
      | .other => do
          checkSelect m args
          let receiver ← reduceOption provider again receiver
          let args ← reduceList provider again args
          settle again ⟨m, receiver, args⟩
  | .lambda params body => do return .lambda params (← body.reduce provider again)
  | .quote inner => do return .quote (← inner.reduce provider again)
  | .param p => return .param p
  | .member target m => do return .member (← reduceOption provider again target) m
  | .binary op lhs rhs =>
      match Sugar.of? op lhs rhs with
      | some (.elementAt element) => do
          let source ← lhs.reduce provider again
          let position ← rhs.reduce provider again
          callInMemory again Enumerable.elementAt element lhs [source, position]
      | some (.nonEmpty element) =>
          match lhs with
          | .member (some source) _ => do
              let normal ← source.reduce provider again
              callInMemory again Enumerable.any element source [normal]
          | .unary _ source => do
              let normal ← source.reduce provider again
              callInMemory again Enumerable.any element source [normal]
          | lhs => return .binary op lhs rhs
      | none => do
          let lhs ← lhs.reduce provider again
          return .binary op lhs (← rhs.reduce provider again)
  | .unary op operand => do return .unary op (← operand.reduce provider again)
  | .const value type => return .const value type
  | .new type args names => do return .new type (← reduceList provider again args) names
  | .newWith type args names bindings => do
      let args ← reduceList provider again args
      return .newWith type args names (← reduceBindings provider again bindings)
  | .cond test whenTrue whenFalse => do
      let test ← test.reduce provider again
      let whenTrue ← whenTrue.reduce provider again
      return .cond test whenTrue (← whenFalse.reduce provider again)
  | .placeholder p => return .placeholder p

/-- Reduces a receiver or a target. -/
def reduceOption (provider : Provider) (again : Expr → Reduction Expr) :
    Option Expr → Reduction (Option Expr)
  | none => return none
  | some e => do return some (← e.reduce provider again)

/-- Reduces a list of expressions. -/
def reduceList (provider : Provider) (again : Expr → Reduction Expr) :
    List Expr → Reduction (List Expr)
  | [] => return []
  | e :: es => do
      let e ← e.reduce provider again
      return e :: (← reduceList provider again es)

/-- Reduces the values in bindings. -/
def reduceBindings (provider : Provider) (again : Expr → Reduction Expr) :
    List Binding → Reduction (List Binding)
  | [] => return []
  | .assign name value :: bs => do
      let value ← value.reduce provider again
      return .assign name value :: (← reduceBindings provider again bs)
  | .items name values :: bs => do
      let values ← reduceList provider again values
      return .items name values :: (← reduceBindings provider again bs)
end

end Expr

/-- The operator pass, with at most `budget` visits inside one another. -/
def reduceOperators (provider : Provider) : Nat → Expr → Reduction Expr
  | 0, _ => Reduction.fail .exhausted
  | budget + 1, e => e.reduce provider (reduceOperators provider budget)

end QueryNormal
