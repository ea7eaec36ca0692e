import QueryNormal.Expr.Text

/-!
# Walks

* `Expr.trace`: a walk that records an event for everything it enters, up to a limit.
* `Expr.edit`: the same walk, which also edits the leaves that it has entered.

A walk that meets its limit stops: it enters nothing more and leaves the rest of the tree as it
is. Parameter declarations of lambdas are not entered.
-/

namespace QueryNormal

/-- The kinds of nodes. -/
inductive NodeKind where
  | call
  | lambda
  | quote
  | param
  | member
  | binary
  | unary
  | const
  | new
  | newWith
  | cond
  | placeholder
deriving DecidableEq, Repr, Inhabited

/-- The kind of a node. -/
def Expr.kind : Expr → NodeKind
  | .call .. => .call
  | .lambda .. => .lambda
  | .quote _ => .quote
  | .param _ => .param
  | .member .. => .member
  | .binary .. => .binary
  | .unary .. => .unary
  | .const .. => .const
  | .new .. => .new
  | .newWith .. => .newWith
  | .cond .. => .cond
  | .placeholder _ => .placeholder

/-- What a walk enters. -/
inductive Event where
  | node (kind : NodeKind)
  | call (name : String)
  | lambda (params : Nat)
  | param (id : UInt32)
  | placeholder (name : String)
  | literal (value : Literal)
  | new (args : Nat)
  | binding (name : String)
deriving Repr, Inhabited

/-- What a walk has recorded, and whether it has stopped. -/
structure Trace where
  events : List Event
  stopped : Bool
deriving Repr, Inhabited

namespace Trace

/-- Nothing recorded yet. -/
def empty : Trace := ⟨[], false⟩

/-- Whether as many events are recorded as the limit allows. -/
def isFull (limit : Option Nat) (t : Trace) : Bool :=
  match limit with
  | none => false
  | some n => n ≤ t.events.length

/-- Records an event, or stops at the limit. A stopped walk records nothing. -/
def enter (limit : Option Nat) (event : Event) (t : Trace) : Trace :=
  if t.stopped then t
  else if t.isFull limit then { t with stopped := true }
  else { t with events := t.events ++ [event] }

end Trace

namespace Expr

/-! ## Recording -/

mutual
/-- Records the events of the tree. -/
def trace (limit : Option Nat) : Expr → Trace → Trace
  | .call method receiver args, t =>
      let t := (t.enter limit (.node .call)).enter limit (.call method.name)
      traceList limit args (traceOption limit receiver t)
  | .lambda params body, t =>
      body.trace limit ((t.enter limit (.node .lambda)).enter limit (.lambda params.length))
  | .quote inner, t => inner.trace limit (t.enter limit (.node .quote))
  | .param p, t => (t.enter limit (.node .param)).enter limit (.param p.id)
  | .member target _, t => traceOption limit target (t.enter limit (.node .member))
  | .binary _ lhs rhs, t => rhs.trace limit (lhs.trace limit (t.enter limit (.node .binary)))
  | .unary _ operand, t => operand.trace limit (t.enter limit (.node .unary))
  | .const value _, t => (t.enter limit (.node .const)).enter limit (.literal value)
  | .new _ args _, t =>
      traceList limit args ((t.enter limit (.node .new)).enter limit (.new args.length))
  | .newWith _ args _ bindings, t =>
      traceBindings limit bindings
        (traceList limit args ((t.enter limit (.node .newWith)).enter limit (.new args.length)))
  | .cond test whenTrue whenFalse, t =>
      whenFalse.trace limit
        (whenTrue.trace limit (test.trace limit (t.enter limit (.node .cond))))
  | .placeholder p, t =>
      (t.enter limit (.node .placeholder)).enter limit (.placeholder p.name)

/-- Records the events of a receiver or a target. -/
def traceOption (limit : Option Nat) : Option Expr → Trace → Trace
  | none, t => t
  | some e, t => e.trace limit t

/-- Records the events of a list of trees. -/
def traceList (limit : Option Nat) : List Expr → Trace → Trace
  | [], t => t
  | e :: es, t => traceList limit es (e.trace limit t)

/-- Records the events of bindings. -/
def traceBindings (limit : Option Nat) : List Binding → Trace → Trace
  | [], t => t
  | .assign name value :: bs, t =>
      traceBindings limit bs (value.trace limit (t.enter limit (.binding name)))
  | .items name values :: bs, t =>
      traceBindings limit bs (traceList limit values (t.enter limit (.binding name)))
end

end Expr

/-! ## Editing -/

/-- What an editing walk does to the leaves that it enters. -/
structure Edits where
  param : Param → Param
  placeholder : Placeholder → Placeholder
  literal : Literal → Literal

namespace Edits

/-- Parameter ids grow by `n`, wrapping around; placeholders become parameters; literals become
null. -/
def shift (n : UInt32) : Edits where
  param p := { p with id := p.id + n }
  placeholder p := { p with mode := .parameter }
  literal _ := .null

/-- Every reference gets a longer name. -/
def rename (suffix : String) : Edits where
  param p := { p with name := p.name ++ suffix }
  placeholder := id
  literal := id

end Edits

/-- The edited value, unless the walk has stopped. -/
def Trace.edited {α : Type} (t : Trace) (f : α → α) (a : α) : α := if t.stopped then a else f a

namespace Expr

mutual
/-- Records the events of the tree and edits the leaves that were entered. -/
def edit (edits : Edits) (limit : Option Nat) : Expr → Trace → Expr × Trace
  | .call method receiver args, t =>
      let t := (t.enter limit (.node .call)).enter limit (.call method.name)
      let (receiver, t) := match receiver with
        | none => (none, t)
        | some r =>
            let (r, t) := r.edit edits limit t
            (some r, t)
      let (args, t) := editList edits limit args t
      (.call method receiver args, t)
  | .lambda params body, t =>
      let t := (t.enter limit (.node .lambda)).enter limit (.lambda params.length)
      let (body, t) := body.edit edits limit t
      (.lambda params body, t)
  | .quote inner, t =>
      let (inner, t) := inner.edit edits limit (t.enter limit (.node .quote))
      (.quote inner, t)
  | .param p, t =>
      let t := (t.enter limit (.node .param)).enter limit (.param p.id)
      (.param (t.edited edits.param p), t)
  | .member target m, t =>
      let t := t.enter limit (.node .member)
      match target with
      | none => (.member none m, t)
      | some e =>
          let (e, t) := e.edit edits limit t
          (.member (some e) m, t)
  | .binary op lhs rhs, t =>
      let (lhs, t) := lhs.edit edits limit (t.enter limit (.node .binary))
      let (rhs, t) := rhs.edit edits limit t
      (.binary op lhs rhs, t)
  | .unary op operand, t =>
      let (operand, t) := operand.edit edits limit (t.enter limit (.node .unary))
      (.unary op operand, t)
  | .const value type, t =>
      let t := (t.enter limit (.node .const)).enter limit (.literal value)
      (.const (t.edited edits.literal value) type, t)
  | .new type args names, t =>
      let t := (t.enter limit (.node .new)).enter limit (.new args.length)
      let (args, t) := editList edits limit args t
      (.new type args names, t)
  | .newWith type args names bindings, t =>
      let t := (t.enter limit (.node .newWith)).enter limit (.new args.length)
      let (args, t) := editList edits limit args t
      let (bindings, t) := editBindings edits limit bindings t
      (.newWith type args names bindings, t)
  | .cond test whenTrue whenFalse, t =>
      let (test, t) := test.edit edits limit (t.enter limit (.node .cond))
      let (whenTrue, t) := whenTrue.edit edits limit t
      let (whenFalse, t) := whenFalse.edit edits limit t
      (.cond test whenTrue whenFalse, t)
  | .placeholder p, t =>
      let t := (t.enter limit (.node .placeholder)).enter limit (.placeholder p.name)
      (.placeholder (t.edited edits.placeholder p), t)

/-- Records the events of a list of trees and edits the leaves that were entered. -/
def editList (edits : Edits) (limit : Option Nat) : List Expr → Trace → List Expr × Trace
  | [], t => ([], t)
  | e :: es, t =>
      let (e, t) := e.edit edits limit t
      let (es, t) := editList edits limit es t
      (e :: es, t)

/-- Records the events of bindings and edits the leaves that were entered. -/
def editBindings (edits : Edits) (limit : Option Nat) :
    List Binding → Trace → List Binding × Trace
  | [], t => ([], t)
  | .assign name value :: bs, t =>
      let (value, t) := value.edit edits limit (t.enter limit (.binding name))
      let (bs, t) := editBindings edits limit bs t
      (.assign name value :: bs, t)
  | .items name values :: bs, t =>
      let (values, t) := editList edits limit values (t.enter limit (.binding name))
      let (bs, t) := editBindings edits limit bs t
      (.items name values :: bs, t)
end

/-- The tree with every leaf edited. -/
def editAll (edits : Edits) (e : Expr) : Expr := (e.edit edits none .empty).1

end Expr

end QueryNormal
