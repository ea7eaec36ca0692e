import QueryNormal.Ty.Basic

/-!
# The text of types

* `Ty.text`: the name of a type as diagnostics show it.

A named record shows its name only; an unnamed one shows the types of its fields.
-/

namespace QueryNormal

/-- The items separated by a comma and a blank. -/
def commaJoined (items : List String) : String := ", ".intercalate items

/-- The keyword or name of a scalar. -/
def Scalar.text : Scalar → String
  | .bool => "bool"
  | .int => "int"
  | .long => "long"
  | .double => "double"
  | .decimal => "decimal"
  | .string => "string"
  | .bytes => "byte[]"
  | .dateTime => "DateTime"
  | .guid => "Guid"
  | .char => "char"

/-- The text of a sequence type whose element has the given text. -/
def SeqKind.textOf (kind : SeqKind) (element : String) : String :=
  match kind with
  | .array => element ++ "[]"
  | .enumerable => "IEnumerable<" ++ element ++ ">"
  | .orderedEnumerable => "IOrderedEnumerable<" ++ element ++ ">"
  | .queryable => "IQueryable<" ++ element ++ ">"
  | .orderedQueryable => "IOrderedQueryable<" ++ element ++ ">"
  | .collection => "ICollection<" ++ element ++ ">"
  | .readOnlyList => "IReadOnlyList<" ++ element ++ ">"
  | .list => "List<" ++ element ++ ">"
  | .hashSet => "HashSet<" ++ element ++ ">"
  | .immutableArray => "ImmutableArray<" ++ element ++ ">"

namespace Ty

mutual
/-- The text of a type. -/
def text : Ty → String
  | .object => "object"
  | .scalar s => s.text
  | .entity name => name
  | .record (some name) _ _ => name
  | .record none fields true => "ValueTuple<" ++ commaJoined (textFields fields) ++ ">"
  | .record none fields false => "AnonymousType<" ++ commaJoined (textFields fields) ++ ">"
  | .seq kind element => kind.textOf element.text
  | .grouping key element => "IGrouping<" ++ key.text ++ ", " ++ element.text ++ ">"
  | .includable root property =>
      "IIncludableQueryable<" ++ root.text ++ ", " ++ property.text ++ ">"
  | .func params result => "Func<" ++ commaJoined (textList params ++ [result.text]) ++ ">"
  | .quoted delegate => "Expression<" ++ delegate.text ++ ">"
  | .slot index => "T" ++ toString index

/-- The texts of a list of types. -/
def textList : List Ty → List String
  | [] => []
  | t :: ts => t.text :: textList ts

/-- The texts of the types of fields. -/
def textFields : List (String × Ty) → List String
  | [] => []
  | (_, t) :: fields => t.text :: textFields fields
end

end Ty

end QueryNormal
