import QueryNormal.Proofs.Failures
import QueryNormal.Proofs.Idempotence

/-!
# Refused projections

* `Expr.leaves`: what a projection puts into its results, below object constructions.
* `checkProjection_reports_first`: a projection is refused exactly if a leaf is deferred, and for
  the first one that is.
* `Call.Refused`: a call projects a parameter to something with a deferred leaf.
* `refused_of_normalize`: if no projection of a tree is refused, normalizing the tree refuses one only
  in what a flattening of its run visits again.

A projection is looked at before its selector is visited. Flattening visits again what has been
visited, and so looks at projections that rewriting has changed (`normalize_refuses_accepted`).
-/

namespace QueryNormal

open QueryNormal.Expr

/-! ## Leaves -/

mutual
/-- The leaves of a projection, from left to right. Object constructions are looked into, and
everything else is a leaf; items that are added to a collection do not count. -/
def Expr.leaves : Expr → List Expr
  | .new _ args _ => leavesList args
  | .newWith _ args _ bindings => leavesList args ++ leavesBindings bindings
  | e => [e]

/-- The leaves of a list of expressions. -/
def leavesList : List Expr → List Expr
  | [] => []
  | e :: es => e.leaves ++ leavesList es

/-- The leaves of what bindings assign. -/
def leavesBindings : List Binding → List Expr
  | [] => []
  | .assign _ value :: bs => value.leaves ++ leavesBindings bs
  | .items .. :: bs => leavesBindings bs
end

theorem deferredLeafList?_eq_find {es : List Expr}
    (h : ∀ e ∈ es, e.deferredLeaf? = e.leaves.find? (·.ty.isDeferred)) :
    deferredLeafList? es = (leavesList es).find? (·.ty.isDeferred) := by
  induction es with
  | nil => rfl
  | cons e es ih =>
    rw [List.forall_mem_cons] at h
    rw [deferredLeafList?, leavesList, List.find?_append, h.1, ih h.2]

theorem deferredLeafBindings?_eq_find {bs : List Binding}
    (h : ∀ e ∈ bs.flatMap Binding.values, e.deferredLeaf? = e.leaves.find? (·.ty.isDeferred)) :
    deferredLeafBindings? bs = (leavesBindings bs).find? (·.ty.isDeferred) := by
  induction bs with
  | nil => rfl
  | cons b bs ih =>
    rw [List.flatMap_cons, List.forall_mem_append] at h
    cases b with
    | assign _ value =>
      rw [deferredLeafBindings?, leavesBindings, List.find?_append,
        h.1 value (by simp [Binding.values]), ih h.2]
    | items => rw [deferredLeafBindings?, leavesBindings, ih h.2]

/-- The leaf for which a projection is refused is the first one that is deferred. -/
theorem deferredLeaf?_eq_find (e : Expr) :
    e.deferredLeaf? = e.leaves.find? (·.ty.isDeferred) := by
  induction e using Expr.induction_parts with
  | _ e ih =>
    cases e with
    | new =>
      rw [Expr.deferredLeaf?, Expr.leaves]
      exact deferredLeafList?_eq_find ih
    | newWith =>
      rw [Expr.parts, List.forall_mem_append] at ih
      rw [Expr.deferredLeaf?, Expr.leaves, List.find?_append, deferredLeafList?_eq_find ih.1,
        deferredLeafBindings?_eq_find ih.2]
    | _ => simp [Expr.deferredLeaf?, Expr.leaves, List.find?_singleton]

/-- The value of the expression is an ordered sequence or a query. -/
def Expr.Deferred (e : Expr) : Prop := e.ty.has .orderedEnumerable ∨ e.ty.has .queryable

theorem isDeferred_iff (e : Expr) : e.ty.isDeferred ↔ e.Deferred := Bool.or_eq_true_iff

/-- **Projections are refused for the first deferred leaf.** The check accepts a body without a
deferred leaf. Otherwise it reports the parameter, the first deferred leaf and the type of that. -/
theorem checkProjection_reports_first (p : Param) (body : Expr) :
    (checkProjection p body = .ok () ↔ ∀ leaf ∈ body.leaves, ¬ leaf.Deferred) ∧
      (checkProjection p body = .ok () ∨
        ∃ before leaf after problem, body.leaves = before ++ leaf :: after ∧
          (∀ x ∈ before, ¬ x.Deferred) ∧ leaf.Deferred ∧
          checkProjection p body = .error problem ∧
          problem.report = .deferredProjection (p.text ++ " => " ++ leaf.text) leaf.ty.text) := by
  simp only [← isDeferred_iff]
  cases h : body.leaves.find? (·.ty.isDeferred) with
  | none =>
    have hok : checkProjection p body = .ok () := by
      rw [checkProjection, deferredLeaf?_eq_find, h]
    exact ⟨⟨fun _ => List.find?_eq_none.mp h, fun _ => hok⟩, .inl hok⟩
  | some leaf =>
    have herror : checkProjection p body = .error (.deferredProjection p leaf) := by
      rw [checkProjection, deferredLeaf?_eq_find, h]
    obtain ⟨hleaf, before, after, hsplit, hbefore⟩ := List.find?_eq_some_iff_append.mp h
    constructor
    · constructor
      · intro hok
        cases herror.symm.trans hok
      · intro hnone
        exact absurd hleaf (hnone leaf (List.mem_of_find?_eq_some h))
    · exact .inr ⟨before, leaf, after, _, hsplit, by simpa using hbefore, hleaf, herror, rfl⟩

/-! ## Refused calls -/

/-- The call projects the parameter to a body with a leaf that is deferred, for which it is
refused. -/
def Call.Refused (c : Call) (p : Param) (leaf : Expr) : Prop :=
  c.is Queryable.select = true ∧ ∃ body, c.args[1]?.bind Expr.lambda? = some ⟨[p], body⟩ ∧
    checkProjection p body = .error (.deferredProjection p leaf)

section Refused

variable {provider : Provider} {context context' : Context} {e n : Expr} {p : Param} {leaf : Expr}
  {s : ReductionState}

theorem parameter_of_checkProjection {q : Param} {body : Expr}
    (h : checkProjection q body = .error (.deferredProjection p leaf)) : q = p := by
  unfold checkProjection at h
  split at h <;> cases h
  rfl

/-- Only a projection is refused as one. -/
theorem refused_of_cause (h : Cause provider n s (.problem (.deferredProjection p leaf))) :
    ∃ c : Call, n.call? = some c ∧ c.Refused p leaf := by
  generalize hf : Failure.problem (.deferredProjection p leaf) = f at h
  cases h with
  | @projection m r args q body _ _ _ hm hlambda hrefused =>
    cases hf
    obtain rfl := parameter_of_checkProjection hrefused
    exact ⟨⟨m, r, args⟩, rfl, hm, body, hlambda, hrefused⟩
  | unconverted _ _ _ hfailed =>
    subst hf
    cases outOfRange_of_toQueryable hfailed
  | _ => cases hf

/-- **Which projections are refused.** If the projections of a tree are accepted, normalizing it
refuses one only in the inner source that a flattening of its run visits again, where rewriting has put
it. -/
theorem refused_of_normalize
    (haccepted : ∀ c ∈ e.calls, c.is Queryable.select → ∀ p body,
      c.args[1]?.bind Expr.lambda? = some ⟨[p], body⟩ → checkProjection p body = .ok ())
    (h : normalize provider context e =
      (.error (.problem (.deferredProjection p leaf)), context')) :
    ∃ c f t, Reaches provider e ⟨context, .after e⟩ c t ∧ Flattening.of? c = some f ∧
      ∃ c' ∈ f.inner.calls, c'.Refused p leaf ∧ ∃ u, Meets provider f.inner t c'.toExpr u := by
  rcases failure_of_normalize h with h | ⟨n, u, hmeets, hcause⟩ | ⟨_, _, _, _, _, h⟩
  · cases h
  · obtain ⟨c', hc', hrefused⟩ := refused_of_cause hcause
    rcases hmeets.mem_or_rebuilt with hn | ⟨c, f, t, hreach, hflat, hn, hmeets'⟩
    · obtain ⟨hm, body, hlambda, hcheck⟩ := hrefused
      have hmem : c' ∈ e.calls := List.mem_filterMap.mpr ⟨n, hn, hc'⟩
      cases hcheck.symm.trans (haccepted c' hmem hm p body hlambda)
    · obtain rfl := call?_eq_some.mp hc'
      exact ⟨c, f, t, hreach, hflat, c', List.mem_filterMap.mpr ⟨_, hn, hc'⟩, hrefused, u, hmeets'⟩
  · cases h

end Refused

/-! ## Paid orders by customer -/

theorem accepted_of_deferredProjection {c : Call}
    (h : (deferredProjection? c.method c.args).isNone = true) (hm : c.is Queryable.select = true)
    (p : Param) (body : Expr) (hlambda : c.args[1]?.bind Expr.lambda? = some ⟨[p], body⟩) :
    checkProjection p body = .ok () := by
  have hleaf : body.deferredLeaf? = none := by
    have hm' : c.method.is Queryable.select = true := hm
    simpa [deferredProjection?, hm', hlambda] using h
  simp [checkProjection, hleaf]

/-- The paid orders of a customer. -/
def paidOrdersOf (filtered : Expr → Expr → Expr) (c : Param) : Expr :=
  let order : Ty := .entity "Order"
  let p : Param := ⟨8, "p", order⟩
  filtered (.access (.param c) "Orders" (.seq .list order))
    (.lambda [p] (.access (.param p) "Paid" .bool))

/-- A customer, named by the id, with orders. -/
def withOrders (c : Param) (orders : Expr) : Expr :=
  .anonymous [("Id", .access (.param c) "Id" .int), ("Orders", orders)]

/-- The elements of the inner source with the id of a customer, by a grouped join whose groups are
taken apart. -/
def taken (inner : Expr) (element : Ty) : Expr :=
  let customer : Ty := .entity "Customer"
  let a : Param := ⟨0, "a", customer⟩
  let b : Param := ⟨1, "b", element⟩
  let o : Param := ⟨2, "o", customer⟩
  let g : Param := ⟨3, "g", .enumerable element⟩
  let both : Expr := .anonymous [("o", .param o), ("g", .param g)]
  let x : Param := ⟨4, "x", both.ty⟩
  let y : Param := ⟨5, "y", both.ty⟩
  let e : Param := ⟨6, "e", element⟩
  .apply Queryable.selectManyPairs [x.ty, element, element]
    [.apply Queryable.groupJoin [customer, element, .int, both.ty]
      [.const (.reference "DbSet<Customer>()") (.queryable customer), inner,
        .quote (.lambda [a] (.access (.param a) "Id" .int)),
        .quote (.lambda [b] (.access (.param b) "Id" .int)), .quote (.lambda [o, g] both)],
      .quote (.lambda [x] (.access (.param x) "g" g.ty)), .quote (.lambda [y, e] (.param e))]

/-- A customer whose orders are projected. -/
def projected : Param := ⟨7, "c", .entity "Customer"⟩

/-- The customers are projected to their paid orders, which are filtered in memory. -/
def takenPaid : Expr :=
  let result : Expr := withOrders projected (paidOrdersOf filteredInMemory projected)
  taken (.apply Queryable.select [projected.ty, result.ty]
    [.const (.reference "DbSet<Customer>()") (.queryable projected.ty),
      .quote (.lambda [projected] result)]) result.ty

/-- A list of customers is projected in memory to a query of all orders. -/
def takenInMemory : Expr :=
  let order : Ty := .entity "Order"
  let orders : Expr := .const (.reference "DbSet<Order>()") (.queryable order)
  let result : Expr := withOrders projected orders
  taken (.apply Domain.memory.select [projected.ty, result.ty]
    [.const (.reference "customers") (.seq .list projected.ty), .lambda [projected] result]) result.ty

theorem refused_takenPaid :
    (∀ c ∈ takenPaid.calls, c.is Queryable.select → ∀ p body,
        c.args[1]?.bind Expr.lambda? = some ⟨[p], body⟩ → checkProjection p body = .ok ()) ∧
      normalize ⟨false⟩ default takenPaid =
        (.error (.problem (.deferredProjection projected (paidOrdersOf filteredByQuery projected))),
          default) ∧
      ∃ c f t, Reaches ⟨false⟩ takenPaid ⟨default, .after takenPaid⟩ c t ∧
        Flattening.of? c = some f ∧
        ∃ c' ∈ f.inner.calls, c'.Refused projected (paidOrdersOf filteredByQuery projected) ∧
          ∃ u, Meets ⟨false⟩ f.inner t c'.toExpr u := by
  have haccepted : ∀ c ∈ takenPaid.calls, c.is Queryable.select → ∀ p body,
      c.args[1]?.bind Expr.lambda? = some ⟨[p], body⟩ → checkProjection p body = .ok () := by
    have hcalls : ∀ c ∈ takenPaid.calls, (deferredProjection? c.method c.args).isNone := by decide
    exact fun c hc => accepted_of_deferredProjection (hcalls c hc)
  have hrefused : normalize ⟨false⟩ default takenPaid =
      (.error (.problem (.deferredProjection projected (paidOrdersOf filteredByQuery projected))),
        default) := rfl
  exact ⟨haccepted, hrefused, refused_of_normalize haccepted hrefused⟩

/-- A tree whose projections are accepted may have no normal form because one is refused: a
projection of orders that have been filtered in memory, and a projection that has been made in
memory. -/
theorem normalize_refuses_accepted :
    ((∀ c ∈ takenPaid.calls, (deferredProjection? c.method c.args).isNone) ∧
      ∃ p leaf, normalize ⟨false⟩ default takenPaid =
        (.error (.problem (.deferredProjection p leaf)), default)) ∧
    (∀ c ∈ takenInMemory.calls, (deferredProjection? c.method c.args).isNone) ∧
      ∃ p leaf, normalize ⟨false⟩ default takenInMemory =
        (.error (.problem (.deferredProjection p leaf)), default) :=
  ⟨⟨by decide, _, _, rfl⟩, by decide, _, _, rfl⟩

end QueryNormal
