import QueryNormal.Expr.Basic

/-!
# Visitors

* `Visitor`: what is done on entering a node or a member binding.
* `Expr.accept`: the walk of a visitor.

What is done is a computation: a visitor that throws stops there, and one with a state collects. The
parameters that a lambda declares are not entered, but the visitor has the lambda.
-/

namespace QueryNormal

/-- What is done on entering a node or a member binding. -/
structure Visitor (M : Type → Type) where
  node : Expr → M Unit
  binding : Binding → M Unit

namespace Expr

variable {M : Type → Type} [Monad M]

mutual
/-- The visitor enters every node of the tree, each before what it holds, from left to right. -/
def accept (v : Visitor M) : Expr → M Unit
  | .call method receiver args => do
      v.node (.call method receiver args)
      acceptOption v receiver
      acceptList v args
  | .lambda params body => do
      v.node (.lambda params body)
      body.accept v
  | .quote inner => do
      v.node (.quote inner)
      inner.accept v
  | .param p => v.node (.param p)
  | .member target m => do
      v.node (.member target m)
      acceptOption v target
  | .binary op lhs rhs => do
      v.node (.binary op lhs rhs)
      lhs.accept v
      rhs.accept v
  | .unary op operand => do
      v.node (.unary op operand)
      operand.accept v
  | .const value type => v.node (.const value type)
  | .new type args names => do
      v.node (.new type args names)
      acceptList v args
  | .newWith type args names bindings => do
      v.node (.newWith type args names bindings)
      acceptList v args
      acceptBindings v bindings
  | .cond test whenTrue whenFalse => do
      v.node (.cond test whenTrue whenFalse)
      test.accept v
      whenTrue.accept v
      whenFalse.accept v
  | .placeholder p => v.node (.placeholder p)

/-- The visitor enters a receiver or a target. -/
def acceptOption (v : Visitor M) : Option Expr → M Unit
  | none => pure ()
  | some e => e.accept v

/-- The visitor enters a list of trees. -/
def acceptList (v : Visitor M) : List Expr → M Unit
  | [] => pure ()
  | e :: es => do
      e.accept v
      acceptList v es

/-- The visitor enters bindings and their values. -/
def acceptBindings (v : Visitor M) : List Binding → M Unit
  | [] => pure ()
  | .assign name value :: bs => do
      v.binding (.assign name value)
      value.accept v
      acceptBindings v bs
  | .items name values :: bs => do
      v.binding (.items name values)
      acceptList v values
      acceptBindings v bs
end

end Expr

end QueryNormal
