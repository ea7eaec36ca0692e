import Mathlib.Data.Fin.VecNotation
import QueryNormal.Proofs.Substitution

/-!
# Sequences as finite lists

* `Interpretation.Lists`, `Interpretation.Joins`: operators on queries mean the usual operations on
  finite lists.
* `eval_filter`, `eval_select`, `eval_selectMany`, `eval_selectManyPairs`, `eval_groupJoin`: what a
  call of an operator with lambdas means.
* `BuiltOf`: an expression that only reads members of parameters and constructs, so that it makes
  data of data.
* `Interpretation.Lists.Restricts`: restricting the sequence in a parameter restricts the value of
  an expression alike.
* `FilterChain`: an expression that only filters the sequence in a parameter.
* `restricts_of_filterChain`: such an expression restricts.

Lists hold data, and functions are applied to data. What a list keeps of a value is its data: a list
of arbitrary functions on all values, itself a value, cannot be had.
-/

universe u

namespace QueryNormal

open QueryNormal.Expr

variable {V : Type u}

/-- Filters and projections mean the usual operations on finite lists, and conditions are truth
values. -/
structure Interpretation.Lists (I : Interpretation V) where
  /-- The elements of a sequence. -/
  items : V → List V
  /-- The sequence of the data of some values. -/
  seq : List V → V
  /-- The data of a value, which is what a sequence keeps of it. -/
  data : V → V
  /-- Whether a condition holds. -/
  holds : V → Bool
  isNull : V → Bool
  /-- Whether two values are equal. -/
  same : V → V → Bool
  items_seq (vs : List V) : items (seq vs) = vs.map data
  data_of_mem {v x : V} : x ∈ items v → data x = x
  data_seq (vs : List V) : data (seq vs) = seq vs
  constructs : I.Constructs
  quote (v : V) : I.quote v = v
  asQueryable (v : V) : I.call .queryable "AsQueryable" none [v] = v
  asEnumerable (v : V) : I.call .enumerable "AsEnumerable" none [v] = v
  filter (v : V) (f : (Fin 1 → V) → V) : I.call .queryable "Where" none [v, I.lambda 1 f] =
    seq ((items v).filter fun x => holds (f ![x]))
  select (v : V) (f : (Fin 1 → V) → V) : I.call .queryable "Select" none [v, I.lambda 1 f] =
    seq ((items v).map fun x => f ![x])
  both (v w : V) : holds (I.binary .and v w) = (holds v && holds w)
  notNull (v : V) (type : Ty) :
    holds (I.binary .notEqual v (I.const .null type)) = !isNull v
  equals (v w : V) : holds (I.binary .equal v w) = same v w

/-- The list, or one element in the place of none. -/
def orSingle (v : V) (vs : List V) : List V := if vs.isEmpty then [v] else vs

/-- Grouped and flat joins, too, mean the usual operations on finite lists, for some way in which
keys match. -/
structure Interpretation.Joins (I : Interpretation V) extends Interpretation.Lists I where
  /-- The element that stands for a missing one. -/
  missing : V
  /-- Whether two key selectors match an outer and an inner element. -/
  matchKeys : V → V → V → V → Bool
  data_missing : data missing = missing
  /-- A conversion to a query has no use for a receiver. -/
  asQueryableOn (r v : V) : I.call .queryable "AsQueryable" (some r) [v] = v
  selectMany (v : V) (f : (Fin 1 → V) → V) :
    I.call .queryable "SelectMany" none [v, I.lambda 1 f] =
      seq ((items v).flatMap fun x => items (f ![x]))
  selectManyPairs (v : V) (f : (Fin 1 → V) → V) (g : (Fin 2 → V) → V) :
    I.call .queryable "SelectMany" none [v, I.lambda 1 f, I.lambda 2 g] =
      seq ((items v).flatMap fun x => (items (f ![x])).map fun y => g ![x, y])
  defaultIfEmpty (v : V) : I.call .queryable "DefaultIfEmpty" none [v] =
    seq (orSingle missing (items v))
  groupJoin (v w k l : V) (f : (Fin 2 → V) → V) :
    I.call .queryable "GroupJoin" none [v, w, k, l, I.lambda 2 f] =
      seq ((items v).map fun x => f ![x, seq ((items w).filter (matchKeys k l x))])
  join (v w k l : V) (f : (Fin 2 → V) → V) :
    I.call .queryable "Join" none [v, w, k, l, I.lambda 2 f] =
      seq ((items v).flatMap fun x =>
        ((items w).filter (matchKeys k l x)).map fun y => f ![x, y])
  leftJoin (v w k l : V) (f : (Fin 2 → V) → V) :
    I.call .queryable "LeftJoin" none [v, w, k, l, I.lambda 2 f] =
      seq ((items v).flatMap fun x =>
        (orSingle missing ((items w).filter (matchKeys k l x))).map fun y => f ![x, y])

namespace Interpretation.Lists

variable {I : Interpretation V} (H : I.Lists) {v : V} {vs : List V} {keep : V → Bool}

/-- A sequence of data keeps them. -/
theorem items_seq_of_data (h : ∀ x ∈ vs, H.data x = x) : H.items (H.seq vs) = vs := by
  rw [H.items_seq, List.map_congr_left h, List.map_id'']
  exact fun _ => rfl

@[simp] theorem items_seq_items : H.items (H.seq (H.items v)) = H.items v :=
  H.items_seq_of_data fun _ => H.data_of_mem

@[simp] theorem items_seq_filter :
    H.items (H.seq ((H.items v).filter keep)) = (H.items v).filter keep :=
  H.items_seq_of_data fun _ hx => H.data_of_mem (List.mem_of_mem_filter hx)

end Interpretation.Lists

/-! ## Calls of operators -/

section Operators

variable {I : Interpretation V} {m : Method} {e source collection pair : Expr}
  {x y p q : Param} {body pairBody : Expr} {env : Env V}

theorem eval_of_lambda (H : I.Lists) {l : Lambda} (h : e.lambda? = some l) (env : Env V) :
    e.eval I env =
      I.lambda l.params.length fun values => l.body.eval I (env.bind l.params values) := by
  refine induction_lambda (P := fun e => e.eval I env = I.lambda l.params.length fun values =>
    l.body.eval I (env.bind l.params values)) h rfl fun x hx => ?_
  rw [Expr.eval, H.quote, hx]

/-- A lambda of one parameter. -/
theorem eval_of_lambda₁ (H : I.Lists) (h : e.lambda? = some ⟨[p], body⟩) (env : Env V) :
    e.eval I env = I.lambda 1 fun values => body.eval I (Function.update env p.id (values 0)) :=
  eval_of_lambda H h env

/-- A lambda of two parameters. -/
theorem eval_of_lambda₂ (H : I.Lists) (h : e.lambda? = some ⟨[p, q], body⟩) (env : Env V) :
    e.eval I env = I.lambda 2 fun values =>
      body.eval I (Function.update (Function.update env p.id (values 0)) q.id (values 1)) :=
  eval_of_lambda H h env

theorem eval_filter (H : I.Lists) (hfamily : m.family = .queryable) (hname : m.name = "Where")
    (h : e.lambda? = some ⟨[p], body⟩) (env : Env V) :
    (Expr.call m none [source, e]).eval I env = H.seq ((H.items (source.eval I env)).filter
      fun v => H.holds (body.eval I (Function.update env p.id v))) := by
  rw [eval_call, hfamily, hname]
  simp only [evalList, eval_of_lambda₁ H h]
  exact H.filter _ _

theorem eval_select (H : I.Lists) (hfamily : m.family = .queryable) (hname : m.name = "Select")
    (h : e.lambda? = some ⟨[p], body⟩) (env : Env V) :
    (Expr.call m none [source, e]).eval I env = H.seq ((H.items (source.eval I env)).map
      fun v => body.eval I (Function.update env p.id v)) := by
  rw [eval_call, hfamily, hname]
  simp only [evalList, eval_of_lambda₁ H h]
  exact H.select _ _

theorem eval_selectMany (H : I.Joins) (hm : m.signature = Queryable.selectMany)
    (h : collection.lambda? = some ⟨[x], body⟩) (env : Env V) :
    (Expr.call m none [source, collection]).eval I env =
      H.seq ((H.items (source.eval I env)).flatMap fun v =>
        H.items (body.eval I (Function.update env x.id v))) := by
  have hfamily : m.family = .queryable := congrArg Signature.family hm
  have hname : m.name = "SelectMany" := congrArg Signature.name hm
  rw [eval_call, hfamily, hname]
  simp only [evalList, eval_of_lambda₁ H.toLists h]
  exact H.selectMany _ _

theorem eval_selectManyPairs (H : I.Joins) (hm : m.signature = Queryable.selectManyPairs)
    (h : collection.lambda? = some ⟨[x], body⟩) (h' : pair.lambda? = some ⟨[y, q], pairBody⟩)
    (env : Env V) :
    (Expr.call m none [source, collection, pair]).eval I env =
      H.seq ((H.items (source.eval I env)).flatMap fun v =>
        (H.items (body.eval I (Function.update env x.id v))).map fun w =>
          pairBody.eval I (Function.update (Function.update env y.id v) q.id w)) := by
  have hfamily : m.family = .queryable := congrArg Signature.family hm
  have hname : m.name = "SelectMany" := congrArg Signature.name hm
  rw [eval_call, hfamily, hname]
  simp only [evalList, eval_of_lambda₁ H.toLists h, eval_of_lambda₂ H.toLists h']
  exact H.selectManyPairs _ _ _

/-- The elements of the inner source that match an outer element. -/
def Interpretation.Joins.matching (H : I.Joins) (outerKey innerKey inner : Expr) (env : Env V)
    (v : V) : List V :=
  (H.items (inner.eval I env)).filter (H.matchKeys (outerKey.eval I env) (innerKey.eval I env) v)

@[simp] theorem Interpretation.Joins.items_seq_matching (H : I.Joins)
    {outerKey innerKey inner : Expr} {v : V} :
    H.items (H.seq (H.matching outerKey innerKey inner env v)) =
      H.matching outerKey innerKey inner env v := H.items_seq_filter

/-- The result of a grouped join at an outer element. -/
def Interpretation.Joins.grouped (H : I.Joins) (outerKey innerKey inner result : Expr) (o g : Param)
    (env : Env V) (v : V) : V :=
  result.eval I (Function.update (Function.update env o.id v) g.id
    (H.seq (H.matching outerKey innerKey inner env v)))

theorem eval_groupJoin (H : I.Joins) {outer inner outerKey innerKey result : Expr}
    (hm : m.signature = Queryable.groupJoin) (h : result.lambda? = some ⟨[p, q], body⟩)
    (env : Env V) :
    (Expr.call m none [outer, inner, outerKey, innerKey, result]).eval I env =
      H.seq ((H.items (outer.eval I env)).map
        (H.grouped outerKey innerKey inner body p q env)) := by
  have hfamily : m.family = .queryable := congrArg Signature.family hm
  have hname : m.name = "GroupJoin" := congrArg Signature.name hm
  rw [eval_call, hfamily, hname]
  simp only [evalList, eval_of_lambda₂ H.toLists h]
  exact H.groupJoin _ _ _ _ _

end Operators

/-! ## Data -/

/-- Members of data and constructions of data are data. -/
structure Interpretation.Lists.KeepsData {I : Interpretation V} (H : I.Lists) : Prop where
  member {m : Member} {v : V} : H.data v = v → H.data (I.member m (some v)) = I.member m (some v)
  new {type : Ty} {names : Option (List String)} {vs : List V} : (∀ v ∈ vs, H.data v = v) →
    H.data (I.new type names vs) = I.new type names vs

/-- The expression is built of the parameters by members and constructions. -/
inductive BuiltOf (ids : List UInt32) : Expr → Prop
  | param {p : Param} : p.id ∈ ids → BuiltOf ids (.param p)
  | member {target : Expr} {m : Member} : BuiltOf ids target →
      BuiltOf ids (.member (some target) m)
  | new {type : Ty} {args : List Expr} {names : Option (List String)} :
      (∀ x ∈ args, BuiltOf ids x) → BuiltOf ids (.new type args names)

section Data

variable {I : Interpretation V} {ids : List UInt32} {e : Expr} {env : Env V}

theorem evalList_eq_map (args : List Expr) :
    evalList I args env = args.map fun x => x.eval I env := by
  induction args with
  | nil => rfl
  | cons x args ih => rw [evalList, ih, List.map_cons]

/-- What is built of data is data. -/
theorem BuiltOf.data {H : I.Lists} (h : BuiltOf ids e) (hH : H.KeepsData)
    (henv : ∀ i ∈ ids, H.data (env i) = env i) : H.data (e.eval I env) = e.eval I env := by
  induction h with
  | param hp => exact henv _ hp
  | member _ ih => exact hH.member ih
  | new _ ih =>
    rw [Expr.eval, evalList_eq_map]
    exact hH.new (List.forall_mem_map.mpr ih)

/-- The results of a grouped join are data if they are built of the element and its group. -/
theorem BuiltOf.data_grouped {H : I.Joins} {outerKey innerKey inner result : Expr} {o g : Param}
    (h : BuiltOf [o.id, g.id] result) (hH : H.KeepsData) {v w : V} (hv : v ∈ H.items w) :
    H.data (H.grouped outerKey innerKey inner result o g env v) =
      H.grouped outerKey innerKey inner result o g env v := by
  refine h.data hH fun i hi => ?_
  by_cases hg : i = g.id
  · rw [hg, Function.update_self, H.data_seq]
  · obtain rfl : i = o.id := by simpa [hg] using hi
    rw [Function.update_of_ne hg, Function.update_self, H.data_of_mem hv]

end Data

/-! ## Filters -/

/-- Restricting the sequence in the parameter restricts the value of the expression alike. -/
def Interpretation.Lists.Restricts {I : Interpretation V} (H : I.Lists) (root : UInt32)
    (e : Expr) : Prop :=
  ∀ (env : Env V) (v : V) (keep : V → Bool),
    e.eval I (Function.update env root (H.seq ((H.items v).filter keep))) =
      H.seq ((H.items (e.eval I (Function.update env root v))).filter keep)

/-- The expression comes from the parameter by conversions to a query, projections of each element
to itself and filters, whose predicates have the property. -/
inductive FilterChain (Q : Expr → Prop) (root : UInt32) : Expr → Prop
  | group {p : Param} : p.id = root → FilterChain Q root (.param p)
  | asQueryable {m : Method} {source : Expr} : m.family = .queryable → m.name = "AsQueryable" →
      FilterChain Q root source → FilterChain Q root (.call m none [source])
  | select {m : Method} {source selector : Expr} {p q : Param} :
      m.signature = Queryable.select → selector.lambda? = some ⟨[p], .param q⟩ → q.id = p.id →
      FilterChain Q root source → FilterChain Q root (.call m none [source, selector])
  | filter {m : Method} {source predicate body : Expr} {p : Param} : m.family = .queryable →
      m.name = "Where" → predicate.lambda? = some ⟨[p], body⟩ → Q predicate →
      FilterChain Q root source → FilterChain Q root (.call m none [source, predicate])

section Filters

variable {I : Interpretation V} {Q Q' : Expr → Prop} {root : UInt32} {e : Expr}

theorem FilterChain.mono (h : FilterChain Q root e) (hQ : ∀ predicate, Q predicate → Q' predicate) :
    FilterChain Q' root e := by
  induction h with
  | group hp => exact .group hp
  | asQueryable hfamily hname _ ih => exact .asQueryable hfamily hname ih
  | select hm hselector hq _ ih => exact .select hm hselector hq ih
  | filter hfamily hname hpredicate hQp _ ih =>
    exact .filter hfamily hname hpredicate (hQ _ hQp) ih

/-- A chain of filters by closed predicates refers to the parameter only. -/
theorem FilterChain.free (h : FilterChain Q root e)
    (hQ : ∀ predicate, Q predicate → predicate.free = []) : ∀ id ∈ e.free, id = root := by
  induction h with
  | group hp => simpa [Expr.free] using hp
  | asQueryable _ _ _ ih => simpa [Expr.free, freeList] using ih
  | @select m source selector p q _ hselector hq _ ih =>
    have hclosed (id : UInt32) : id ∉ selector.free := by
      rw [mem_free_of_lambda hselector]
      simp [Expr.free, hq]
    simpa [Expr.free, freeList, hclosed] using ih
  | filter _ _ _ hQp _ ih => simpa [Expr.free, freeList, hQ _ hQp] using ih

/-- Projecting each element to itself keeps the elements. -/
theorem eval_selectItself (H : I.Lists) {m : Method} {source selector : Expr} {p q : Param}
    (hm : m.signature = Queryable.select) (hselector : selector.lambda? = some ⟨[p], .param q⟩)
    (hq : q.id = p.id) (env : Env V) :
    (Expr.call m none [source, selector]).eval I env = H.seq (H.items (source.eval I env)) := by
  have hfamily : m.family = .queryable := congrArg Signature.family hm
  have hname : m.name = "Select" := congrArg Signature.name hm
  rw [eval_select H hfamily hname hselector]
  congr 1
  refine (List.map_congr_left fun v _ => ?_).trans (List.map_id _)
  rw [Expr.eval, hq, Function.update_self, id]

/-- **Filters restrict.** What only filters a sequence, by predicates that do not refer to it,
commutes with restricting the sequence. -/
theorem restricts_of_filterChain (H : I.Lists) (h : FilterChain Q root e)
    (hQ : ∀ predicate, Q predicate → root ∉ predicate.free) : H.Restricts root e := by
  intro env v keep
  induction h with
  | group hp => simp only [Expr.eval, hp, Function.update_self]
  | asQueryable hfamily hname _ ih =>
    simpa only [eval_call, hfamily, hname, evalList, Option.map_none, H.asQueryable] using ih
  | select hm hselector hq _ ih =>
    rw [eval_selectItself H hm hselector hq, eval_selectItself H hm hselector hq, ih,
      H.items_seq_filter, H.items_seq_items]
  | @filter m source predicate body p hfamily hname hpredicate hQp _ ih =>
    -- The predicate means the same for both values of the parameter.
    have hbody (w w' x : V) :
        body.eval I (Function.update (Function.update env root w) p.id x) =
          body.eval I (Function.update (Function.update env root w') p.id x) := by
      refine eval_congr fun i hi => update_congr fun hp => ?_
      have hroot : i ≠ root := by
        rintro rfl
        exact hQ _ hQp ((mem_free_of_lambda hpredicate).mpr ⟨hi, by simpa using hp⟩)
      rw [Function.update_of_ne hroot, Function.update_of_ne hroot]
    rw [eval_filter H hfamily hname hpredicate, eval_filter H hfamily hname hpredicate, ih,
      H.items_seq_filter, H.items_seq_filter, List.filter_filter, List.filter_filter]
    simp only [hbody _ v, Bool.and_comm]

end Filters

end QueryNormal
