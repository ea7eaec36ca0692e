import QueryNormal.Ty.Text
import QueryNormal.Ty.Order

/-!
# Methods

* `Family`: where a method is declared.
* `Signature`: a possibly generic method, with slots for its type parameters.
* `Method`: a signature with the type arguments that a call gives it.

Two signatures are the same method exactly when they are structurally equal.
-/

namespace QueryNormal

/-- Where a method is declared. -/
inductive Family where
  /-- Operators on in-memory sequences. -/
  | enumerable
  /-- Operators on queries. -/
  | queryable
  /-- Operators that say something about a query and do not shape its result. -/
  | metadata
  /-- Hints on how a parameter is sent. -/
  | hint
  /-- Hints that only relational providers understand. -/
  | relationalHint
  /-- Methods declared on a type. -/
  | ofType (owner : Ty)
  /-- Any other static class. -/
  | other (name : String)
deriving DecidableEq, Repr, Inhabited

namespace Family

/-- The families that the operator table covers. -/
def tabled : List Family := [.queryable, .enumerable, .metadata, .hint, .relationalHint]

/-- The text of a family: the class that declares its methods. -/
def text : Family → String
  | .enumerable => "Enumerable"
  | .queryable => "Queryable"
  | .metadata => "EntityFrameworkQueryableExtensions"
  | .hint => "EF"
  | .relationalHint => "EF.Relational"
  | .ofType owner => owner.text
  | .other name => name

/-- The position of the constructor in the order. -/
def rank : Family → Nat
  | .enumerable => 0
  | .queryable => 1
  | .metadata => 2
  | .hint => 3
  | .relationalHint => 4
  | .ofType _ => 5
  | .other _ => 6

/-- Compares two families by constructor, then by type or name. -/
protected def compare : Family → Family → Ordering
  | .ofType a, .ofType b => Ord.compare a b
  | .other a, .other b => Ord.compare a b
  | a, b => Ord.compare a.rank b.rank

instance : Ord Family := ⟨Family.compare⟩

end Family

/-- A method before its type parameters are given. -/
structure Signature where
  family : Family
  name : String
  /-- The number of type parameters; zero for a method that is not generic. -/
  typeParams : Nat
  params : List Ty
  result : Ty
  isStatic : Bool
deriving DecidableEq, Repr, Inhabited

namespace Signature

/-- A method declared on `owner` and called on a receiver. -/
def onType (owner : Ty) (name : String) (params : List Ty) (result : Ty) : Signature :=
  ⟨.ofType owner, name, 0, params, result, false⟩

/-- Whether the method has type parameters. -/
def isGeneric (s : Signature) : Bool := 0 < s.typeParams

/-- The type that declares the method. -/
def owner? (s : Signature) : Option Ty :=
  match s.family with
  | .ofType owner => some owner
  | _ => none

end Signature

/-- A method as a call names it. The number of type arguments is not tied to the signature. -/
structure Method where
  signature : Signature
  typeArgs : List Ty
deriving DecidableEq, Repr, Inhabited

namespace Method

/-- The name of the method. -/
def name (m : Method) : String := m.signature.name

/-- The family of the method. -/
def family (m : Method) : Family := m.signature.family

/-- Whether the method has type parameters. -/
def isGeneric (m : Method) : Bool := m.signature.isGeneric

/-- Whether the method takes no receiver. -/
def isStatic (m : Method) : Bool := m.signature.isStatic

/-- The type that declares the method. -/
def owner? (m : Method) : Option Ty := m.signature.owner?

/-- Whether the method instantiates the signature. -/
def is (m : Method) (s : Signature) : Bool := m.signature = s

/-- The parameter types with the type arguments filled in. -/
def params (m : Method) : List Ty := m.signature.params.map (Ty.instantiate m.typeArgs)

/-- The result type with the type arguments filled in. -/
def result (m : Method) : Ty := m.signature.result.instantiate m.typeArgs

/-- The same signature with other type arguments. -/
def withTypeArgs (m : Method) (typeArgs : List Ty) : Method := ⟨m.signature, typeArgs⟩

/-- The text of a method: class, name and type arguments. -/
def text (m : Method) : String :=
  m.family.text ++ "." ++ m.name ++
    if m.typeArgs.isEmpty then "" else "<" ++ commaJoined (m.typeArgs.map Ty.text) ++ ">"

end Method

end QueryNormal
