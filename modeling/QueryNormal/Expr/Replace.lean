import QueryNormal.Expr.Basic

/-!
# Replacing a parameter

* `Expr.replace`: an expression with every reference to a parameter replaced.

Access of a member of an object construction becomes what the construction initializes the member
with, so replacing `x` by `new { o, g }` in `x.g` gives `g`. Lambdas that declare the same id again
do not protect their bodies.
-/

namespace QueryNormal

namespace Expr

/-- Access of a member of the target, or what the target initializes the member with. -/
def project (target : Expr) (m : Member) : Expr :=
  (target.initializer? m.name).getD (.member (some target) m)

mutual
/-- The expression with every reference to the parameter `id` replaced by `value`. -/
def replace (id : UInt32) (value : Expr) : Expr → Expr
  | .param p => if p.id = id then value else .param p
  | .member (some target) m => (replace id value target).project m
  | .member none m => .member none m
  | .call method receiver args =>
      .call method (match receiver with | none => none | some r => some (replace id value r))
        (replaceList id value args)
  | .lambda params body => .lambda params (replace id value body)
  | .quote inner => .quote (replace id value inner)
  | .binary op lhs rhs => .binary op (replace id value lhs) (replace id value rhs)
  | .unary op operand => .unary op (replace id value operand)
  | .const literal type => .const literal type
  | .new type args names => .new type (replaceList id value args) names
  | .newWith type args names bindings =>
      .newWith type (replaceList id value args) names (replaceBindings id value bindings)
  | .cond test whenTrue whenFalse =>
      .cond (replace id value test) (replace id value whenTrue) (replace id value whenFalse)
  | .placeholder p => .placeholder p

/-- Replaces in every expression of a list. -/
def replaceList (id : UInt32) (value : Expr) : List Expr → List Expr
  | [] => []
  | e :: es => replace id value e :: replaceList id value es

/-- Replaces in the values of bindings. -/
def replaceBindings (id : UInt32) (value : Expr) : List Binding → List Binding
  | [] => []
  | .assign name e :: bs => .assign name (replace id value e) :: replaceBindings id value bs
  | .items name es :: bs => .items name (replaceList id value es) :: replaceBindings id value bs
end

end Expr

end QueryNormal
