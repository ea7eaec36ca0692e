import QueryNormal.Expr.Basic

/-!
# The text of expressions

* `Expr.text`: an expression as diagnostics show it.

An operand is put in parentheses when it is a binary operation other than indexing, a conditional
or a lambda. A quote is not shown, so a quoted lambda gets no parentheses. A static operator on
sequences or queries shows its first argument as the receiver.
-/

namespace QueryNormal

/-- The symbol of a binary operator. -/
def BinOp.symbol : BinOp → String
  | .equal => "=="
  | .notEqual => "!="
  | .greater => ">"
  | .greaterOrEqual => ">="
  | .less => "<"
  | .lessOrEqual => "<="
  | .and => "&&"
  | .or => "||"
  | .add => "+"
  | .subtract => "-"
  | .multiply => "*"
  | .divide => "/"
  | .modulo => "%"
  | .coalesce => "??"
  | .arrayIndex => "[]"

/-- A parameter shows its name, or its id when it has none. -/
def Param.text (p : Param) : String :=
  if p.name.isEmpty then "p" ++ toString p.id.toNat else p.name

/-- The parameters of a lambda; one alone stands without parentheses. -/
def Param.listText : List Param → String
  | [p] => p.text
  | ps => "(" ++ commaJoined (ps.map Param.text) ++ ")"

/-- Whether a static method of the family shows its first argument as the receiver. -/
def Family.showsReceiver : Family → Bool
  | .queryable | .enumerable | .metadata => true
  | _ => false

namespace Expr

/-- Whether the expression is put in parentheses as an operand. -/
def isCompound : Expr → Bool
  | .binary op _ _ => op ≠ .arrayIndex
  | .cond .. | .lambda .. => true
  | _ => false

/-- The text in parentheses if they are needed. -/
def parens (needed : Bool) (text : String) : String :=
  if needed then "(" ++ text ++ ")" else text

/-- Named values in braces. -/
def bracedText (items : List String) : String :=
  "\x7b " ++ commaJoined items ++ " \x7d"

/-- The text of `left = right`. -/
def namedText (name value : String) : String := name ++ " = " ++ value

/-- The text of an object construction whose arguments have the given texts. -/
def newText (type : Ty) (names : Option (List String)) (args : List String) : String :=
  match names with
  | some names => "new " ++ bracedText (names.zipWith namedText args)
  | none => "new " ++ type.text ++ "(" ++ commaJoined args ++ ")"

mutual
/-- The text of an expression. -/
def text : Expr → String
  | .call method (some receiver) args =>
      parens receiver.isCompound receiver.text ++ "." ++ method.name ++
        "(" ++ commaJoined (textList args) ++ ")"
  | .call method none [] => method.family.text ++ "." ++ method.name ++ "()"
  | .call method none (first :: rest) =>
      if method.family.showsReceiver then
        parens first.isCompound first.text ++ "." ++ method.name ++
          "(" ++ commaJoined (textList rest) ++ ")"
      else
        method.family.text ++ "." ++ method.name ++
          "(" ++ commaJoined (first.text :: textList rest) ++ ")"
  | .lambda params body => Param.listText params ++ " => " ++ body.text
  | .quote inner => inner.text
  | .param p => p.text
  | .member (some target) m => parens target.isCompound target.text ++ "." ++ m.name
  | .member none m => m.owner.text ++ "." ++ m.name
  | .binary op lhs rhs =>
      match op with
      | .arrayIndex => parens lhs.isCompound lhs.text ++ "[" ++ rhs.text ++ "]"
      | op =>
          parens lhs.isCompound lhs.text ++ " " ++ op.symbol ++ " " ++
            parens rhs.isCompound rhs.text
  | .unary op operand =>
      match op with
      | .arrayLength => parens operand.isCompound operand.text ++ ".Length"
      | .convert type => "(" ++ type.text ++ ")" ++ parens operand.isCompound operand.text
      | .typeAs type =>
          "(" ++ parens operand.isCompound operand.text ++ " as " ++ type.text ++ ")"
      | .not => "!" ++ parens operand.isCompound operand.text
      | .negate => "-" ++ parens operand.isCompound operand.text
  | .const value _ => value.text
  | .new type args names => newText type names (textList args)
  | .newWith type args names bindings =>
      newText type names (textList args) ++ " " ++ bracedText (textBindings bindings)
  | .cond test whenTrue whenFalse =>
      parens test.isCompound test.text ++ " ? " ++
        parens whenTrue.isCompound whenTrue.text ++ " : " ++
        parens whenFalse.isCompound whenFalse.text
  | .placeholder p => "@" ++ p.name

/-- The texts of a list of expressions. -/
def textList : List Expr → List String
  | [] => []
  | e :: es => e.text :: textList es

/-- The texts of bindings. -/
def textBindings : List Binding → List String
  | [] => []
  | .assign name value :: bs => namedText name value.text :: textBindings bs
  | .items name values :: bs =>
      namedText name (bracedText (textList values)) :: textBindings bs
end

end Expr

/-- The text of a lambda. -/
def Lambda.text (l : Lambda) : String := l.toExpr.text

end QueryNormal
