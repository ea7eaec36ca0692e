/-!
# Static types of query expressions

* `Ty`: scalars, entities, records, sequences, groupings, delegates and generic slots.
* `Ty.elementAs?`: the element type of a type that has a sequence capability.
* `Ty.instantiate`: a type with its generic slots filled.

Types are compared structurally, and `Ty` has decidable equality.
-/

namespace QueryNormal

/-- The primitive value types. -/
inductive Scalar where
  | bool
  | int
  | long
  | double
  | decimal
  | string
  /-- Binary data, a scalar and not a sequence of bytes. -/
  | bytes
  | dateTime
  | guid
  | char
deriving DecidableEq, Repr, Inhabited, Ord

/-- Strings and binary data are passed by reference, every other scalar by value. -/
def Scalar.isValueType : Scalar → Bool
  | .string | .bytes => false
  | _ => true

/-- The concrete shape of a sequence type. -/
inductive SeqKind where
  | enumerable
  | orderedEnumerable
  | queryable
  | orderedQueryable
  | collection
  | readOnlyList
  | list
  | array
  | hashSet
  | immutableArray
deriving DecidableEq, Repr, Inhabited, Ord

/-- What a sequence type can be used as. -/
inductive Capability where
  | enumerable
  | orderedEnumerable
  | queryable
  | orderedQueryable
  | collection
  | readOnlyList
deriving DecidableEq, Repr, Inhabited

/-- Whether a sequence of the kind has the capability. Every kind is enumerable. An ordered
queryable is queryable, but it is not an ordered enumerable. -/
def SeqKind.has : SeqKind → Capability → Bool
  | _, .enumerable => true
  | .orderedEnumerable, .orderedEnumerable => true
  | .queryable, .queryable => true
  | .orderedQueryable, .queryable => true
  | .orderedQueryable, .orderedQueryable => true
  | .collection, .collection => true
  | .hashSet, .collection => true
  | .list, .collection => true
  | .array, .collection => true
  | .immutableArray, .collection => true
  | .readOnlyList, .readOnlyList => true
  | .list, .readOnlyList => true
  | .array, .readOnlyList => true
  | .immutableArray, .readOnlyList => true
  | _, _ => false

/-- The static type of an expression. -/
inductive Ty where
  /-- The type of everything, and of untyped operands. -/
  | object
  | scalar (s : Scalar)
  /-- A mapped entity, identified by its name. -/
  | entity (name : String)
  /-- A structural record; an anonymous one has no name. -/
  | record (name : Option String) (fields : List (String × Ty)) (byValue : Bool)
  | seq (kind : SeqKind) (element : Ty)
  /-- A key with a sequence of the elements that have it. -/
  | grouping (key element : Ty)
  /-- A query of `root` whose `property` is loaded with it. -/
  | includable (root property : Ty)
  /-- A delegate. -/
  | func (params : List Ty) (result : Ty)
  /-- A delegate passed as data. -/
  | quoted (delegate : Ty)
  /-- A generic slot, filled by `Ty.instantiate`. -/
  | slot (index : Nat)
deriving Repr, Inhabited

namespace Ty

/-! ## Decidable equality -/

mutual
/-- Whether two types are equal. -/
protected def beq : Ty → Ty → Bool
  | .object, .object => true
  | .scalar s, .scalar t => s == t
  | .entity m, .entity n => m == n
  | .record m fs v, .record n gs w => m == n && Ty.beqFields fs gs && v == w
  | .seq k a, .seq l b => k == l && Ty.beq a b
  | .grouping a b, .grouping c d => Ty.beq a c && Ty.beq b d
  | .includable a b, .includable c d => Ty.beq a c && Ty.beq b d
  | .func ps a, .func qs b => Ty.beqList ps qs && Ty.beq a b
  | .quoted a, .quoted b => Ty.beq a b
  | .slot i, .slot j => i == j
  | _, _ => false

/-- Whether two lists of types are equal. -/
protected def beqList : List Ty → List Ty → Bool
  | [], [] => true
  | a :: as, b :: bs => Ty.beq a b && Ty.beqList as bs
  | _, _ => false

/-- Whether two lists of fields are equal. -/
protected def beqFields : List (String × Ty) → List (String × Ty) → Bool
  | [], [] => true
  | (m, a) :: as, (n, b) :: bs => m == n && Ty.beq a b && Ty.beqFields as bs
  | _, _ => false
end

instance : BEq Ty := ⟨Ty.beq⟩

mutual
private theorem eq_of_beq_ty : ∀ {a b : Ty}, Ty.beq a b = true → a = b
  | .object, b, h => by cases b <;> simp_all [Ty.beq]
  | .scalar _, b, h => by cases b <;> simp_all [Ty.beq]
  | .entity _, b, h => by cases b <;> simp_all [Ty.beq]
  | .record _ fs _, b, h => by
      cases b <;> simp_all [Ty.beq]
      exact eq_of_beqFields h.1.2
  | .seq _ a, b, h => by
      cases b <;> simp_all [Ty.beq]
      exact eq_of_beq_ty h.2
  | .grouping a b, c, h => by
      cases c <;> simp_all [Ty.beq]
      exact ⟨eq_of_beq_ty h.1, eq_of_beq_ty h.2⟩
  | .includable a b, c, h => by
      cases c <;> simp_all [Ty.beq]
      exact ⟨eq_of_beq_ty h.1, eq_of_beq_ty h.2⟩
  | .func ps a, b, h => by
      cases b <;> simp_all [Ty.beq]
      exact ⟨eq_of_beqList h.1, eq_of_beq_ty h.2⟩
  | .quoted a, b, h => by
      cases b <;> simp_all [Ty.beq]
      exact eq_of_beq_ty h
  | .slot _, b, h => by cases b <;> simp_all [Ty.beq]

private theorem eq_of_beqList : ∀ {as bs : List Ty}, Ty.beqList as bs = true → as = bs
  | [], bs, h => by cases bs <;> simp_all [Ty.beqList]
  | a :: as, bs, h => by
      cases bs <;> simp_all [Ty.beqList]
      exact ⟨eq_of_beq_ty h.1, eq_of_beqList h.2⟩

private theorem eq_of_beqFields :
    ∀ {as bs : List (String × Ty)}, Ty.beqFields as bs = true → as = bs
  | [], bs, h => by cases bs <;> simp_all [Ty.beqFields]
  | (m, a) :: as, [], h => by simp [Ty.beqFields] at h
  | (m, a) :: as, (n, b) :: bs, h => by
      simp only [Ty.beqFields, Bool.and_eq_true, beq_iff_eq] at h
      rw [h.1.1, eq_of_beq_ty h.1.2, eq_of_beqFields h.2]
end

mutual
private theorem beq_ty_refl : ∀ a : Ty, Ty.beq a a = true
  | .object => rfl
  | .scalar _ | .entity _ | .slot _ => by simp [Ty.beq]
  | .record _ fs _ => by simp [Ty.beq, beqFields_refl fs]
  | .seq _ a => by simp [Ty.beq, beq_ty_refl a]
  | .grouping a b | .includable a b => by simp [Ty.beq, beq_ty_refl a, beq_ty_refl b]
  | .func ps a => by simp [Ty.beq, beqList_refl ps, beq_ty_refl a]
  | .quoted a => by simp [Ty.beq, beq_ty_refl a]

private theorem beqList_refl : ∀ as : List Ty, Ty.beqList as as = true
  | [] => rfl
  | a :: as => by simp [Ty.beqList, beq_ty_refl a, beqList_refl as]

private theorem beqFields_refl : ∀ as : List (String × Ty), Ty.beqFields as as = true
  | [] => rfl
  | (_, a) :: as => by simp [Ty.beqFields, beq_ty_refl a, beqFields_refl as]
end

instance : LawfulBEq Ty where
  eq_of_beq := eq_of_beq_ty
  rfl := beq_ty_refl _

instance : DecidableEq Ty := instDecidableEqOfLawfulBEq

/-! ## Common types -/

/-- Truth values. -/
abbrev bool : Ty := .scalar .bool

/-- 32-bit integers. -/
abbrev int : Ty := .scalar .int

/-- 64-bit integers. -/
abbrev long : Ty := .scalar .long

/-- Floating-point numbers. -/
abbrev double : Ty := .scalar .double

/-- Text. -/
abbrev string : Ty := .scalar .string

/-- In-memory sequences. -/
abbrev enumerable (element : Ty) : Ty := .seq .enumerable element

/-- In-memory sequences with an order that can be refined. -/
abbrev orderedEnumerable (element : Ty) : Ty := .seq .orderedEnumerable element

/-- Queries. -/
abbrev queryable (element : Ty) : Ty := .seq .queryable element

/-- Queries with an order that can be refined. -/
abbrev orderedQueryable (element : Ty) : Ty := .seq .orderedQueryable element

/-- The anonymous record type with the given fields. -/
def anonymous (fields : List (String × Ty)) : Ty := .record none fields false

/-! ## Sequence capabilities -/

/-- The element type of a type that has the capability. A grouping enumerates its elements; an
includable is a query of its entity. -/
def elementAs? (c : Capability) : Ty → Option Ty
  | .seq kind element => if kind.has c then some element else none
  | .grouping _ element => if c = .enumerable then some element else none
  | .includable root _ => if c = .enumerable ∨ c = .queryable then some root else none
  | _ => none

/-- The element type of any kind of sequence. -/
def element? (t : Ty) : Option Ty := t.elementAs? .enumerable

/-- Whether the type has the capability. -/
def has (t : Ty) (c : Capability) : Bool := (t.elementAs? c).isSome

/-- Whether the type is a sequence of exactly this kind. -/
def isSeqOf (k : SeqKind) : Ty → Bool
  | .seq kind _ => kind = k
  | _ => false

/-- Whether values of the type are passed by value. An immutable array is the only sequence
that is. -/
def isValueType : Ty → Bool
  | .scalar s => s.isValueType
  | .record _ _ byValue => byValue
  | .seq kind _ => kind = .immutableArray
  | _ => false

/-- The delegate of a quoted delegate. -/
def delegate? : Ty → Option Ty
  | .quoted delegate => some delegate
  | _ => none

/-- The fields of a record. -/
def fields? : Ty → Option (List (String × Ty))
  | .record _ fields _ => some fields
  | _ => none

/-- The type of the first field of that name. -/
def fieldNamed? (fields : List (String × Ty)) (name : String) : Option Ty :=
  (fields.find? fun field => field.1 = name).map Prod.snd

/-! ## Generic slots -/

mutual
/-- The type with slot `i` filled by the `i`-th argument. A slot without an argument stays. -/
def instantiate (args : List Ty) : Ty → Ty
  | .slot i => args.getD i (.slot i)
  | .object => .object
  | .scalar s => .scalar s
  | .entity name => .entity name
  | .record name fields byValue => .record name (instantiateFields args fields) byValue
  | .seq kind element => .seq kind (element.instantiate args)
  | .grouping key element => .grouping (key.instantiate args) (element.instantiate args)
  | .includable root property => .includable (root.instantiate args) (property.instantiate args)
  | .func params result => .func (instantiateList args params) (result.instantiate args)
  | .quoted delegate => .quoted (delegate.instantiate args)

/-- Instantiates every type of a list. -/
def instantiateList (args : List Ty) : List Ty → List Ty
  | [] => []
  | t :: ts => t.instantiate args :: instantiateList args ts

/-- Instantiates the type of every field. -/
def instantiateFields (args : List Ty) : List (String × Ty) → List (String × Ty)
  | [] => []
  | (name, t) :: fields => (name, t.instantiate args) :: instantiateFields args fields
end

theorem instantiateList_eq_map (args ts : List Ty) :
    instantiateList args ts = ts.map (instantiate args) := by
  induction ts with
  | nil => rfl
  | cons t ts ih => simp [instantiateList, ih]

theorem instantiateFields_eq_map (args : List Ty) (fields : List (String × Ty)) :
    instantiateFields args fields = fields.map fun field => (field.1, field.2.instantiate args) := by
  induction fields with
  | nil => rfl
  | cons field fields ih => simp [instantiateFields, ih]

end Ty

end QueryNormal
