import QueryNormal.Expr.Visit
import QueryNormal.Operator.Table

/-!
# The nodes of a tree

* `Expr.nodes`: every node, each before what it holds.
* `Expr.hasCall`: whether a call at any depth satisfies a predicate.
* `ParamSupply`: ids that no parameter of a tree has.
-/

namespace QueryNormal

namespace Expr

mutual
/-- Every node of the tree, each before what it holds, from left to right. -/
def nodes : Expr → List Expr
  | .call method receiver args =>
      .call method receiver args ::
        ((match receiver with | none => [] | some r => r.nodes) ++ nodesList args)
  | .lambda params body => .lambda params body :: body.nodes
  | .quote inner => .quote inner :: inner.nodes
  | .param p => [.param p]
  | .member target m =>
      .member target m :: (match target with | none => [] | some t => t.nodes)
  | .binary op lhs rhs => .binary op lhs rhs :: (lhs.nodes ++ rhs.nodes)
  | .unary op operand => .unary op operand :: operand.nodes
  | .const value type => [.const value type]
  | .new type args names => .new type args names :: nodesList args
  | .newWith type args names bindings =>
      .newWith type args names bindings :: (nodesList args ++ nodesBindings bindings)
  | .cond test whenTrue whenFalse =>
      .cond test whenTrue whenFalse :: (test.nodes ++ whenTrue.nodes ++ whenFalse.nodes)
  | .placeholder p => [.placeholder p]

/-- Every node of a list of trees. -/
def nodesList : List Expr → List Expr
  | [] => []
  | e :: es => e.nodes ++ nodesList es

/-- Every node of the values in bindings. -/
def nodesBindings : List Binding → List Expr
  | [] => []
  | .assign _ value :: bs => value.nodes ++ nodesBindings bs
  | .items _ values :: bs => nodesList values ++ nodesBindings bs
end

/-! ## Calls -/

/-- The call at the root. -/
def call? : Expr → Option Call
  | .call method receiver args => some ⟨method, receiver, args⟩
  | _ => none

/-- Every call of the tree. -/
def calls (e : Expr) : List Call := e.nodes.filterMap call?

/-- Stops at the first call that satisfies the predicate. -/
def callFinder (p : Call → Bool) : Visitor (Except Unit) where
  node e := match e.call? with
    | some c => if p c then throw () else pure ()
    | none => pure ()
  binding _ := pure ()

/-- Whether a call at any depth satisfies the predicate. -/
def hasCall (p : Call → Bool) (e : Expr) : Bool := !(e.accept (callFinder p)).isOk

/-- Whether the tree calls the signature. -/
def hasCallTo (s : Signature) (e : Expr) : Bool := e.hasCall (·.is s)

/-- Whether the tree calls a method of the family. -/
def hasCallIn (family : Family) (e : Expr) : Bool :=
  e.hasCall fun c => c.method.family = family

/-- The families of the table that the tree calls. -/
def familiesCalled (e : Expr) : List Family := Family.tabled.filter fun f => e.hasCallIn f

/-- The operators of the table that the tree calls, in table order. -/
def operatorsCalled (e : Expr) : List Signature :=
  let calls := e.calls
  Table.all.filter fun s => calls.any (·.is s)

/-! ## Parameters -/

/-- The parameter that a node refers to. -/
def param? : Expr → Option Param
  | .param p => some p
  | _ => none

/-- Every reference to a parameter. -/
def references (e : Expr) : List Param := e.nodes.filterMap param?

/-- The parameters that a node refers to or declares. -/
def ownParams : Expr → List Param
  | .param p => [p]
  | .lambda params _ => params
  | _ => []

/-- Keeps the largest id of a reference or a declaration. -/
def idMaximizer : Visitor (StateM (Option UInt32)) where
  node e := modify fun top => e.ownParams.foldl (fun top p => max top (some p.id)) top
  binding _ := pure ()

/-- The largest id of a reference or a declaration in the tree. -/
def maxId? (e : Expr) : Option UInt32 := ((e.accept idMaximizer).run none).2

end Expr

/-! ## Fresh parameters -/

/-- Hands out consecutive ids, and begins again at zero after the largest. -/
structure ParamSupply where
  next : UInt32
deriving DecidableEq, Repr, Inhabited

namespace ParamSupply

/-- The supply whose ids follow the largest id of the tree; zero comes first if there is none. -/
def after (e : Expr) : ParamSupply :=
  match e.maxId? with
  | none => ⟨0⟩
  | some id => ⟨id + 1⟩

/-- The next parameter and the supply after it. -/
def fresh (s : ParamSupply) (name : String) (ty : Ty) : Param × ParamSupply :=
  (⟨s.next, name, ty⟩, ⟨s.next + 1⟩)

end ParamSupply

end QueryNormal
