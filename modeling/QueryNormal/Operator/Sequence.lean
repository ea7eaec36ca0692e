import QueryNormal.Method

/-!
# Sequence operators

* `Domain`: what differs between operators on in-memory sequences and operators on queries.
* `Domain.shared`: the operators that both domains have, in one list.
* `Queryable.all`, `Enumerable.all`: the operators of each family, in declaration order.

A sequence passed beside the source (the inner side of a join, the second operand of a set
operator) is an in-memory sequence in both domains.
-/

namespace QueryNormal

/-- How a family of sequence operators spells its sources and its lambda parameters. -/
structure Domain where
  family : Family
  source : Ty → Ty
  ordered : Ty → Ty
  delegate : List Ty → Ty → Ty

namespace Domain

/-- Operators on queries take quoted delegates. -/
def queries : Domain where
  family := .queryable
  source := .queryable
  ordered := .orderedQueryable
  delegate params result := .quoted (.func params result)

/-- Operators on in-memory sequences take plain delegates. -/
def memory : Domain where
  family := .enumerable
  source := .enumerable
  ordered := .orderedEnumerable
  delegate := .func

/-- An operator of the domain. -/
def operator (d : Domain) (name : String) (typeParams : Nat) (params : List Ty) (result : Ty) :
    Signature :=
  ⟨d.family, name, typeParams, params, result, true⟩

/-- A predicate on elements. -/
def predicate (d : Domain) (element : Ty) : Ty := d.delegate [element] .bool

/-! ## Operators that reduction builds or looks for -/

/-- Keeps the elements that satisfy a predicate. -/
def filter (d : Domain) : Signature :=
  d.operator "Where" 1 [d.source (.slot 0), d.predicate (.slot 0)] (d.source (.slot 0))

/-- Maps the elements. -/
def select (d : Domain) : Signature :=
  d.operator "Select" 2 [d.source (.slot 0), d.delegate [.slot 0] (.slot 1)] (d.source (.slot 1))

/-- Maps each element to a sequence and concatenates. -/
def selectMany (d : Domain) : Signature :=
  d.operator "SelectMany" 2
    [d.source (.slot 0), d.delegate [.slot 0] (.enumerable (.slot 1))] (d.source (.slot 1))

/-- Maps each element to a sequence, and each pair of an element and a member of its sequence to
a result. -/
def selectManyPairs (d : Domain) : Signature :=
  d.operator "SelectMany" 3
    [d.source (.slot 0), d.delegate [.slot 0] (.enumerable (.slot 1)),
      d.delegate [.slot 0, .slot 1] (.slot 2)]
    (d.source (.slot 2))

/-- The parameters of a join: two sources, two key selectors and a result selector. -/
def joinParams (d : Domain) (paired : Ty) : List Ty :=
  [d.source (.slot 0), .enumerable (.slot 1), d.delegate [.slot 0] (.slot 2),
    d.delegate [.slot 1] (.slot 2), d.delegate [.slot 0, paired] (.slot 3)]

/-- Pairs the elements with equal keys. -/
def join (d : Domain) : Signature :=
  d.operator "Join" 4 (d.joinParams (.slot 1)) (d.source (.slot 3))

/-- Pairs the elements with equal keys, and each element without a partner with a default. -/
def leftJoin (d : Domain) : Signature :=
  d.operator "LeftJoin" 4 (d.joinParams (.slot 1)) (d.source (.slot 3))

/-- Pairs each element with the group of its partners. -/
def groupJoin (d : Domain) : Signature :=
  d.operator "GroupJoin" 4 (d.joinParams (.enumerable (.slot 1))) (d.source (.slot 3))

/-- Orders by a key. -/
def orderBy (d : Domain) : Signature :=
  d.operator "OrderBy" 2 [d.source (.slot 0), d.delegate [.slot 0] (.slot 1)]
    (d.ordered (.slot 0))

/-- Orders by a key, largest first. -/
def orderByDescending (d : Domain) : Signature :=
  d.operator "OrderByDescending" 2 [d.source (.slot 0), d.delegate [.slot 0] (.slot 1)]
    (d.ordered (.slot 0))

/-- Orders by the elements themselves. -/
def order (d : Domain) : Signature :=
  d.operator "Order" 1 [d.source (.slot 0)] (d.ordered (.slot 0))

/-- Orders by the elements themselves, largest first. -/
def orderDescending (d : Domain) : Signature :=
  d.operator "OrderDescending" 1 [d.source (.slot 0)] (d.ordered (.slot 0))

/-- Whether there is an element. -/
def any (d : Domain) : Signature := d.operator "Any" 1 [d.source (.slot 0)] .bool

/-- The element at a position. -/
def elementAt (d : Domain) : Signature :=
  d.operator "ElementAt" 1 [d.source (.slot 0), .int] (.slot 0)

/-- Whether a value is an element. -/
def contains (d : Domain) : Signature :=
  d.operator "Contains" 1 [d.source (.slot 0), .slot 0] .bool

/-- The source, or a default element when it is empty. -/
def defaultIfEmpty (d : Domain) : Signature :=
  d.operator "DefaultIfEmpty" 1 [d.source (.slot 0)] (d.source (.slot 0))

/-! ## Groups of operators -/

/-- The operators that pick one element, each without and with a predicate. -/
def picking (d : Domain) : List Signature :=
  ["First", "FirstOrDefault", "Single", "SingleOrDefault", "Last", "LastOrDefault"].flatMap
    fun name =>
      [d.operator name 1 [d.source (.slot 0)] (.slot 0),
        d.operator name 1 [d.source (.slot 0), d.predicate (.slot 0)] (.slot 0)]

/-- The operators that combine two sequences of the same elements. -/
def combining (d : Domain) : List Signature :=
  ["Concat", "Union", "Intersect", "Except"].map fun name =>
    d.operator name 1 [d.source (.slot 0), .enumerable (.slot 0)] (d.source (.slot 0))

/-- The numeric types that sums and averages are taken over. -/
def numeric : List Ty := [.int, .double]

/-- Sums and averages, of numbers and of numbers read off the elements. -/
def totals (d : Domain) : List Signature :=
  numeric.flatMap fun number =>
    [d.operator "Sum" 0 [d.source number] number,
      d.operator "Sum" 1 [d.source (.slot 0), d.delegate [.slot 0] number] number,
      d.operator "Average" 0 [d.source number] .double,
      d.operator "Average" 1 [d.source (.slot 0), d.delegate [.slot 0] number] .double]

/-- The extremum of the elements, and of a value read off them. -/
def extremum (d : Domain) (name : String) : List Signature :=
  [d.operator name 1 [d.source (.slot 0)] (.slot 0),
    d.operator name 2 [d.source (.slot 0), d.delegate [.slot 0] (.slot 1)] (.slot 1)]

/-- Whether two sequences have equal elements in order. -/
def sequenceEqual (d : Domain) : Signature :=
  d.operator "SequenceEqual" 1 [d.source (.slot 0), .enumerable (.slot 0)] .bool

/-- The operators that both domains declare alike. -/
def shared (d : Domain) : List Signature :=
  [d.filter,
    d.operator "Where" 1 [d.source (.slot 0), d.delegate [.slot 0, .int] .bool]
      (d.source (.slot 0)),
    d.select,
    d.operator "Select" 2 [d.source (.slot 0), d.delegate [.slot 0, .int] (.slot 1)]
      (d.source (.slot 1)),
    d.selectMany,
    d.selectManyPairs,
    d.join,
    d.leftJoin,
    d.groupJoin,
    d.orderBy,
    d.orderByDescending,
    d.operator "ThenBy" 2 [d.ordered (.slot 0), d.delegate [.slot 0] (.slot 1)]
      (d.ordered (.slot 0)),
    d.operator "ThenByDescending" 2 [d.ordered (.slot 0), d.delegate [.slot 0] (.slot 1)]
      (d.ordered (.slot 0)),
    d.order,
    d.orderDescending,
    d.operator "GroupBy" 2 [d.source (.slot 0), d.delegate [.slot 0] (.slot 1)]
      (d.source (.grouping (.slot 1) (.slot 0))),
    d.any,
    d.operator "Any" 1 [d.source (.slot 0), d.predicate (.slot 0)] .bool,
    d.operator "All" 1 [d.source (.slot 0), d.predicate (.slot 0)] .bool,
    d.operator "Count" 1 [d.source (.slot 0)] .int,
    d.operator "Count" 1 [d.source (.slot 0), d.predicate (.slot 0)] .int,
    d.operator "LongCount" 1 [d.source (.slot 0)] .long] ++
  d.picking ++
  [d.elementAt,
    d.operator "ElementAtOrDefault" 1 [d.source (.slot 0), .int] (.slot 0),
    d.operator "Skip" 1 [d.source (.slot 0), .int] (d.source (.slot 0)),
    d.operator "Take" 1 [d.source (.slot 0), .int] (d.source (.slot 0)),
    d.operator "Distinct" 1 [d.source (.slot 0)] (d.source (.slot 0)),
    d.operator "Reverse" 1 [d.source (.slot 0)] (d.source (.slot 0)),
    d.contains] ++
  d.combining ++
  [d.defaultIfEmpty,
    d.operator "DefaultIfEmpty" 1 [d.source (.slot 0), .slot 0] (d.source (.slot 0))]

end Domain

/-! ## Operators on queries -/

namespace Queryable

/-- Treats a sequence as a query. -/
def asQueryable : Signature :=
  Domain.queries.operator "AsQueryable" 1 [.enumerable (.slot 0)] (.queryable (.slot 0))

/-- Keeps the elements that satisfy a predicate. -/
def filter : Signature := Domain.queries.filter

/-- Maps the elements. -/
def select : Signature := Domain.queries.select

/-- Maps each element to a sequence and concatenates. -/
def selectMany : Signature := Domain.queries.selectMany

/-- Maps each pair of an element and a member of its sequence. -/
def selectManyPairs : Signature := Domain.queries.selectManyPairs

/-- Pairs the elements with equal keys. -/
def join : Signature := Domain.queries.join

/-- Pairs the elements with equal keys and keeps those without a partner. -/
def leftJoin : Signature := Domain.queries.leftJoin

/-- Pairs each element with the group of its partners. -/
def groupJoin : Signature := Domain.queries.groupJoin

/-- Orders by a key. -/
def orderBy : Signature := Domain.queries.orderBy

/-- Orders by a key, largest first. -/
def orderByDescending : Signature := Domain.queries.orderByDescending

/-- Orders by the elements themselves. -/
def order : Signature := Domain.queries.order

/-- Orders by the elements themselves, largest first. -/
def orderDescending : Signature := Domain.queries.orderDescending

/-- Whether a value is an element. -/
def contains : Signature := Domain.queries.contains

/-- The source, or a default element when it is empty. -/
def defaultIfEmpty : Signature := Domain.queries.defaultIfEmpty

/-- Every operator on queries. Extrema are generic in what they compare. -/
def all : List Signature :=
  [asQueryable] ++ Domain.queries.shared ++
  ["Min", "Max"].flatMap Domain.queries.extremum ++
  Domain.queries.totals ++ [Domain.queries.sequenceEqual]

end Queryable

/-! ## Operators on in-memory sequences -/

namespace Enumerable

/-- Treats a sequence as an in-memory one. -/
def asEnumerable : Signature :=
  Domain.memory.operator "AsEnumerable" 1 [.enumerable (.slot 0)] (.enumerable (.slot 0))

/-- Copies a sequence into a list. -/
def toList : Signature :=
  Domain.memory.operator "ToList" 1 [.enumerable (.slot 0)] (.seq .list (.slot 0))

/-- Copies a sequence into an array. -/
def toArray : Signature :=
  Domain.memory.operator "ToArray" 1 [.enumerable (.slot 0)] (.seq .array (.slot 0))

/-- Whether there is an element. -/
def any : Signature := Domain.memory.any

/-- The element at a position. -/
def elementAt : Signature := Domain.memory.elementAt

/-- The source, or a default element when it is empty. -/
def defaultIfEmpty : Signature := Domain.memory.defaultIfEmpty

/-- The extrema of numbers, which in memory are overloads of their own. -/
def numericExtremum (name : String) : List Signature :=
  Domain.numeric.flatMap fun number =>
    [Domain.memory.operator name 0 [.enumerable number] number,
      Domain.memory.operator name 1 [.enumerable (.slot 0), .func [.slot 0] number] number]

/-- Every operator on in-memory sequences. -/
def all : List Signature :=
  [asEnumerable, toList, toArray] ++ Domain.memory.shared ++
  (["Min", "Max"].flatMap fun name => numericExtremum name ++ Domain.memory.extremum name) ++
  Domain.memory.totals ++ [Domain.memory.sequenceEqual]

end Enumerable

end QueryNormal
