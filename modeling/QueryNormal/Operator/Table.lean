import QueryNormal.Operator.Sequence
import QueryNormal.Operator.Metadata

/-!
# The operator table

* `Table.all`: every operator that is known by its signature.
* `Table.overloads`: the overloads of a name with a given number of parameters.
* `Table.Entry`: an operator named by its position among its overloads.
-/

namespace QueryNormal

namespace Table

/-- Every known operator, family by family, in declaration order. -/
def all : List Signature := Queryable.all ++ Enumerable.all ++ Metadata.all ++ Hint.all

/-- The operators of a family. -/
def ofFamily (family : Family) : List Signature := all.filter fun s => s.family = family

/-- The operators of a family with the name and number of parameters, in declaration order. -/
def overloads (family : Family) (name : String) (params : Nat) : List Signature :=
  all.filter fun s => s.family = family ∧ s.name = name ∧ s.params.length = params

/-- Whether the family has an operator of the name, with any number of parameters. -/
def hasName (family : Family) (name : String) : Bool :=
  all.any fun s => s.family = family ∧ s.name = name

/-- An operator as a position among the overloads of its name. -/
structure Entry where
  family : Family
  name : String
  params : Nat
  index : Nat
deriving DecidableEq, Repr, Inhabited

/-- The operator at an entry. -/
def Entry.signature? (e : Entry) : Option Signature :=
  (overloads e.family e.name e.params)[e.index]?

/-- The entry of an operator, if the table has it. -/
def entryOf? (s : Signature) : Option Entry :=
  ((overloads s.family s.name s.params.length).idxOf? s).map fun index =>
    ⟨s.family, s.name, s.params.length, index⟩

end Table

end QueryNormal
