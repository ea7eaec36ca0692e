import QueryNormal.Ty.Basic

/-!
# The order of types

* `Ty.compare`: types ordered by constructor, then by fields from left to right.

Strings compare by code point, an absent name comes before every name, and lists compare
lexicographically.
-/

namespace QueryNormal

namespace Ty

/-- The position of the constructor in the order. -/
def rank : Ty → Nat
  | .object => 0
  | .scalar _ => 1
  | .entity _ => 2
  | .record .. => 3
  | .seq .. => 4
  | .grouping .. => 5
  | .includable .. => 6
  | .func .. => 7
  | .quoted _ => 8
  | .slot _ => 9

mutual
/-- Compares two types. -/
protected def compare : Ty → Ty → Ordering
  | .scalar s, .scalar t => Ord.compare s t
  | .entity m, .entity n => Ord.compare m n
  | .record m fs v, .record n gs w =>
      (Ord.compare m n).then ((Ty.compareFields fs gs).then (Ord.compare v w))
  | .seq k a, .seq l b => (Ord.compare k l).then (Ty.compare a b)
  | .grouping a b, .grouping c d => (Ty.compare a c).then (Ty.compare b d)
  | .includable a b, .includable c d => (Ty.compare a c).then (Ty.compare b d)
  | .func ps a, .func qs b => (Ty.compareList ps qs).then (Ty.compare a b)
  | .quoted a, .quoted b => Ty.compare a b
  | .slot i, .slot j => Ord.compare i j
  | a, b => Ord.compare a.rank b.rank

/-- Compares two lists of types lexicographically. -/
protected def compareList : List Ty → List Ty → Ordering
  | [], [] => .eq
  | [], _ :: _ => .lt
  | _ :: _, [] => .gt
  | a :: as, b :: bs => (Ty.compare a b).then (Ty.compareList as bs)

/-- Compares two lists of fields lexicographically, a field by its name first. -/
protected def compareFields : List (String × Ty) → List (String × Ty) → Ordering
  | [], [] => .eq
  | [], _ :: _ => .lt
  | _ :: _, [] => .gt
  | (m, a) :: as, (n, b) :: bs =>
      (Ord.compare m n).then ((Ty.compare a b).then (Ty.compareFields as bs))
end

instance : Ord Ty := ⟨Ty.compare⟩

end Ty

end QueryNormal
