import QueryNormal.Literal
import QueryNormal.Method

/-!
# Query expressions

* `Expr`: a node of a query expression tree.
* `Param`: a lambda parameter. Its id is its identity; its name is for display only.
* `Placeholder`: a value that is supplied when the query runs.
* `Expr.ty`: the static type of an expression.
* `Expr.lambda?`: the lambda that an expression is, or quotes.
-/

namespace QueryNormal

/-- A lambda parameter, or a reference to one. -/
structure Param where
  id : UInt32
  name : String
  ty : Ty
deriving DecidableEq, Repr, Inhabited

/-- A field or property. -/
structure Member where
  name : String
  owner : Ty
  ty : Ty
deriving DecidableEq, Repr, Inhabited

/-- Binary operators. -/
inductive BinOp where
  | equal
  | notEqual
  | greater
  | greaterOrEqual
  | less
  | lessOrEqual
  | and
  | or
  | add
  | subtract
  | multiply
  | divide
  | modulo
  | coalesce
  | arrayIndex
deriving DecidableEq, Repr, Inhabited

/-- Whether the result is a truth value. -/
def BinOp.yieldsBool : BinOp → Bool
  | .equal | .notEqual | .greater | .greaterOrEqual | .less | .lessOrEqual | .and | .or => true
  | _ => false

/-- Unary operators. -/
inductive UnOp where
  | arrayLength
  | convert (ty : Ty)
  | typeAs (ty : Ty)
  | not
  | negate
deriving DecidableEq, Repr, Inhabited

/-- How a placeholder is sent to the database. -/
inductive Mode where
  /-- The provider decides. -/
  | plain
  | constant
  | parameter
  | multipleParameters
deriving DecidableEq, Repr, Inhabited

/-- A value that is supplied when the query runs. -/
structure Placeholder where
  name : String
  ty : Ty
  mode : Mode
  nonNullable : Bool
deriving DecidableEq, Repr, Inhabited

/-- A placeholder without a hint. -/
def Placeholder.ofName (name : String) (ty : Ty) : Placeholder := ⟨name, ty, .plain, false⟩

mutual
/-- A node of a query expression tree. -/
inductive Expr where
  /-- A method call; a static method has no receiver. -/
  | call (method : Method) (receiver : Option Expr) (args : List Expr)
  | lambda (params : List Param) (body : Expr)
  /-- A lambda passed as data. -/
  | quote (inner : Expr)
  | param (p : Param)
  /-- Access of a member; a static member has no target. -/
  | member (target : Option Expr) (m : Member)
  | binary (op : BinOp) (lhs rhs : Expr)
  | unary (op : UnOp) (operand : Expr)
  | const (value : Literal) (type : Ty)
  /-- Construction of an object; an anonymous one names the member of each argument. -/
  | new (type : Ty) (args : List Expr) (names : Option (List String))
  /-- Construction of an object, followed by member bindings. -/
  | newWith (type : Ty) (args : List Expr) (names : Option (List String))
      (bindings : List Binding)
  | cond (test whenTrue whenFalse : Expr)
  | placeholder (p : Placeholder)

/-- A member binding of an object construction. -/
inductive Binding where
  /-- The member is given a value. -/
  | assign (name : String) (value : Expr)
  /-- Items are added to the collection in the member. -/
  | items (name : String) (values : List Expr)
end

/-- The parameters and the body of a lambda. -/
structure Lambda where
  params : List Param
  body : Expr

/-- The name of the member that a binding initializes. -/
def Binding.name : Binding → String
  | .assign name _ => name
  | .items name _ => name

namespace Expr

/-! ## Building expressions -/

/-- The null of a type. -/
def null (type : Ty) : Expr := .const .null type

instance : Inhabited Expr := ⟨null .object⟩

/-- A call of a static method. -/
def callStatic (method : Method) (args : List Expr) : Expr := .call method none args

/-- A static call of a signature with the given type arguments. -/
def apply (signature : Signature) (typeArgs : List Ty) (args : List Expr) : Expr :=
  .call ⟨signature, typeArgs⟩ none args

/-! ## Static types -/

/-- The static type of an expression. -/
def ty : Expr → Ty
  | .call method _ _ => method.result
  | .lambda params body => .func (params.map Param.ty) body.ty
  | .quote inner => .quoted inner.ty
  | .param p => p.ty
  | .member _ m => m.ty
  | .binary op lhs rhs =>
      if op.yieldsBool then .bool
      else match op with
        | .arrayIndex => lhs.ty.element?.getD .object
        | .coalesce => rhs.ty
        | _ => lhs.ty
  | .unary op operand =>
      match op with
      | .arrayLength => .int
      | .convert type | .typeAs type => type
      | .not | .negate => operand.ty
  | .const _ type => type
  | .new type _ _ => type
  | .newWith type _ _ _ => type
  | .cond _ whenTrue _ => whenTrue.ty
  | .placeholder p => p.ty

/-- Access of a member that the type of the target declares. -/
def access (target : Expr) (name : String) (type : Ty) : Expr :=
  .member (some target) ⟨name, target.ty, type⟩

/-- Construction of an anonymous object from named values. -/
def anonymous (fields : List (String × Expr)) : Expr :=
  .new (.anonymous (fields.map fun field => (field.1, field.2.ty))) (fields.map Prod.snd)
    (some (fields.map Prod.fst))

/-! ## Looking at expressions -/

/-- Whether the expression constructs an object. -/
def isConstruction : Expr → Bool
  | .new .. | .newWith .. => true
  | _ => false

/-- What is left when every quote around the expression is taken off. -/
def unquote : Expr → Expr
  | .quote inner => inner.unquote
  | e => e

/-- The lambda that the expression is, or quotes. -/
def lambda? (e : Expr) : Option Lambda :=
  match e.unquote with
  | .lambda params body => some ⟨params, body⟩
  | _ => none

/-- The argument for the first member of that name, by the position of the name. -/
def argumentNamed? (args : List Expr) (names : Option (List String)) (name : String) :
    Option Expr := do
  let index ← (← names).idxOf? name
  args[index]?

/-- The value of the first assignment to that name. -/
def assignedTo? (bindings : List Binding) (name : String) : Option Expr :=
  bindings.findSome? fun
    | .assign n value => if n = name then some value else none
    | .items .. => none

/-- The expression that an object construction initializes the member with. -/
def initializer? (e : Expr) (name : String) : Option Expr :=
  match e with
  | .new _ args names => argumentNamed? args names name
  | .newWith _ _ _ bindings => assignedTo? bindings name
  | _ => none

mutual
/-- The number of nodes of the tree. -/
def size : Expr → Nat
  | .call _ receiver args =>
      1 + (match receiver with | none => 0 | some r => r.size) + sizeList args
  | .lambda _ body => 1 + body.size
  | .quote inner => 1 + inner.size
  | .param _ => 1
  | .member target _ => 1 + (match target with | none => 0 | some t => t.size)
  | .binary _ lhs rhs => 1 + lhs.size + rhs.size
  | .unary _ operand => 1 + operand.size
  | .const _ _ => 1
  | .new _ args _ => 1 + sizeList args
  | .newWith _ args _ bindings => 1 + sizeList args + sizeBindings bindings
  | .cond test whenTrue whenFalse => 1 + test.size + whenTrue.size + whenFalse.size
  | .placeholder _ => 1

/-- The number of nodes of a list of trees. -/
def sizeList : List Expr → Nat
  | [] => 0
  | e :: es => e.size + sizeList es

/-- The number of nodes of bindings. -/
def sizeBindings : List Binding → Nat
  | [] => 0
  | .assign _ value :: bs => value.size + sizeBindings bs
  | .items _ values :: bs => sizeList values + sizeBindings bs
end

end Expr

/-- A call, taken apart. -/
structure Call where
  method : Method
  receiver : Option Expr
  args : List Expr

namespace Call

/-- The call as an expression. -/
def toExpr (c : Call) : Expr := .call c.method c.receiver c.args

/-- Whether the call is to the signature. -/
def is (c : Call) (s : Signature) : Bool := c.method.is s

/-- Whether the call is to a generic operator on queries. -/
def isGenericQuery (c : Call) : Bool := c.method.family = .queryable ∧ c.method.isGeneric

end Call

namespace Lambda

/-- The delegate type. -/
def ty (l : Lambda) : Ty := .func (l.params.map Param.ty) l.body.ty

/-- The lambda as an expression. -/
def toExpr (l : Lambda) : Expr := .lambda l.params l.body

/-- The lambda passed as data. -/
def quoted (l : Lambda) : Expr := .quote l.toExpr

end Lambda

end QueryNormal
