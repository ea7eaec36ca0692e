import QueryNormal.Ty.Text

/-!
# Constant values

* `Literal`: the value of a constant expression.
* `Literal.text`, `Literal.compare`: its text and its order.
-/

namespace QueryNormal

/-- The value of a constant expression. -/
inductive Literal where
  | null
  | bool (value : Bool)
  | int (value : Int)
  | string (value : String)
  /-- An in-memory collection. -/
  | list (values : List Literal)
  /-- An object known by its display name only, such as an entity set. -/
  | reference (name : String)
deriving Repr, Inhabited

namespace Literal

/-- Whether the literal is the integer zero. -/
def isZero : Literal → Bool
  | .int value => value = 0
  | _ => false

/-- The value of a string literal. -/
def string? : Literal → Option String
  | .string value => some value
  | _ => none

/-- The value of an integer literal. -/
def int? : Literal → Option Int
  | .int value => some value
  | _ => none

/-! ## Text -/

/-- A string in double quotes, with a backslash before every double quote in it. -/
def quotedText (s : String) : String := "\"" ++ s.replace "\"" "\\\"" ++ "\""

mutual
/-- The text of a literal. -/
def text : Literal → String
  | .null => "null"
  | .bool true => "true"
  | .bool false => "false"
  | .int value => toString value
  | .string value => quotedText value
  | .list values => "\x7b " ++ commaJoined (textList values) ++ " \x7d"
  | .reference name => name

/-- The texts of a list of literals. -/
def textList : List Literal → List String
  | [] => []
  | l :: ls => l.text :: textList ls
end

/-! ## Order -/

/-- The position of the constructor in the order. -/
def rank : Literal → Nat
  | .null => 0
  | .bool _ => 1
  | .int _ => 2
  | .string _ => 3
  | .list _ => 4
  | .reference _ => 5

mutual
/-- Compares two literals by constructor, then by value. -/
protected def compare : Literal → Literal → Ordering
  | .bool a, .bool b => Ord.compare a b
  | .int a, .int b => Ord.compare a b
  | .string a, .string b => Ord.compare a b
  | .list as, .list bs => Literal.compareList as bs
  | .reference a, .reference b => Ord.compare a b
  | a, b => Ord.compare a.rank b.rank

/-- Compares two lists of literals lexicographically. -/
protected def compareList : List Literal → List Literal → Ordering
  | [], [] => .eq
  | [], _ :: _ => .lt
  | _ :: _, [] => .gt
  | a :: as, b :: bs => (Literal.compare a b).then (Literal.compareList as bs)
end

instance : Ord Literal := ⟨Literal.compare⟩

end Literal

end QueryNormal
