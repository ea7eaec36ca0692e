import QueryNormal.Proofs.Reduced

/-!
# Normalizing a normal form

* `idle_of_runs`: a run that gives back a tree of reduced calls has found nothing pending.
* `normalize_normalize_iff`: normalizing a normal form again gives back the same tree and context
  exactly if no node of it is pending.

Nothing else can be left for a second run: annotations, hints, orderings by the elements and grouped
joins are gone, and what is still in memory or asks a collection for an item stays so. A node can be
pending because the first run has changed the type of a part.
-/

namespace QueryNormal

open QueryNormal.Expr Reduction

/-! ## Grouped joins -/

theorem not_is {c : Call} {s : Signature} (h : c.method.signature ≠ s) : ¬ c.is s :=
  fun hc => h (of_decide_eq_true hc)

/-- The grouped-join pass leaves no grouped join. -/
theorem not_groupJoin_of_ungroups {e e' : Expr} (h : Ungroups e e') :
    e'.EveryCall fun c => ¬ c.is Queryable.groupJoin := by
  refine Ungroups.induction (P := fun _ y => y.EveryCall fun c => ¬ c.is Queryable.groupJoin) ?_ h
  intro x y hlayer
  cases hlayer with
  | node hnot hwalk =>
    refine everyCall_iff.mpr ⟨fun c hc => ?_, fun z hz => ?_⟩
    · cases hwalk with
      | call =>
        cases hc
        simpa [isGroupJoin, Call.is] using hnot
      | _ => cases hc
    · obtain ⟨_, _, hz⟩ := exists_of_forall₂ (hwalk.forall₂ fun h => h) hz
      exact hz
  | join _ hcorrelate houter hselector =>
    cases correlatePieces hcorrelate with
    | intro =>
      have hselect : Queryable.select ≠ Queryable.groupJoin := by decide
      refine everyCall_call.mpr ⟨not_is hselect, by simp, ?_⟩
      rintro a ha
      rcases List.mem_pair.mp ha with rfl | rfl
      · exact houter
      · exact hselector

/-- In a tree without a grouped join there is nothing to flatten. -/
theorem not_flattening {e : Expr} (he : e.EveryCall fun c => ¬ c.is Queryable.groupJoin) :
    e.EveryCall fun c => Flattening.of? c = none := by
  induction e using induction_parts with
  | _ e ih =>
    refine everyCall_iff.mpr ⟨fun c hc => ?_, fun x hx => ih x hx (he.part hx)⟩
    cases e with
    | call m r args =>
      cases hc
      exact flattening_eq_none fun a ha =>
        not_isGroupJoin_of_everyCall (he.part (by simp [parts, ha]))
    | _ => cases hc

/-- The calls of a normal form: reduced, and none of them a grouped join. -/
def Call.Normal (c : Call) : Prop := c.Reduced ∧ ¬ c.is Queryable.groupJoin

/-- The operator pass makes no grouped join out of the calls of a normal form. -/
theorem established_normal : Established Call.Normal Call.Normal where
  reshaped h hc := ⟨h.reduced hc.1, by rw [Call.is, h.method]; exact hc.2⟩
  built hc := by
    refine ⟨hc.reduced, not_is fun hm => ?_⟩
    have hbuilt := hc.mem
    rw [hm] at hbuilt
    exact absurd hbuilt (by decide)
  flat hc := absurd rfl hc.2
  weaken hc := hc
  walked hc _ _ := hc
  converted hc hrule hstays hlen hfound := absurd hfound (hc.1.not_converted hrule hstays hlen)
  kept hc _ _ := hc
  unmatched hc _ _ := hc
  member hc _ _ := hc
  loading {m r args typeArgs} hc hrule hlen := by
    obtain ⟨hr, hreduced⟩ := established_reduced.loading hc.1.loading hrule hlen
    have hnone : r = none := by
      cases ruleCase hrule with
      | loading _ _ _ _ _ hloading => exact hc.1.loading (mem_loading_of_loadsOrdered hloading)
    exact ⟨by simp [hnone], hreduced, hc.2⟩
  elementAt hsource := by
    have hread : Enumerable.elementAt ≠ Queryable.groupJoin := by decide
    exact ⟨established_reduced.elementAt hsource, not_is hread⟩
  any hsource := by
    have hread : Enumerable.any ≠ Queryable.groupJoin := by decide
    exact ⟨established_reduced.any hsource, not_is hread⟩

/-! ## What a run that changes nothing has found -/

section Unchanged

variable {provider : Provider} {e e' : Expr} {s t : ReductionState}

/-- If the visit of a tree of reduced calls gives back the tree, the tree is idle. -/
def IdleIfSame (x y : Expr) : Prop := x.EveryCall Call.Reduced → y = x → x.Idle

theorem idle_of_forall₂ {xs : List Expr} (h : List.Forall₂ IdleIfSame xs xs)
    (hxs : ∀ x ∈ xs, x.EveryCall Call.Reduced) : ∀ x ∈ xs, x.Idle :=
  fun x hx => List.forall₂_same.mp h x hx (hxs x hx) rfl

theorem idle_of_call {m : Method} {r : Option Expr} {args : List Expr}
    (hroot : (call m r args).isPending = false) (hr : Option.Rel IdleIfSame r r)
    (hargs : List.Forall₂ IdleIfSame args args) (he : (call m r args).EveryCall Call.Reduced) :
    (call m r args).Idle := by
  obtain ⟨-, hreceiver, harguments⟩ := everyCall_call.mp he
  refine idle_iff.mpr ⟨hroot, fun x hx => ?_⟩
  rcases List.mem_append.mp hx with hx | hx
  · cases hr with
    | none => cases hx
    | some hsame =>
      obtain rfl := List.mem_singleton.mp hx
      exact hsame (hreceiver _ rfl) rfl
  · exact idle_of_forall₂ hargs harguments x hx

theorem not_isPending_of_isPlain (h : e.isPlain = true) : e.isPending = false := by
  cases e with
  | call | binary => cases h
  | _ => rfl

/-- A call to which no rule applies by the type of a part. -/
theorem not_isPending_of_rule {m : Method} {r : Option Expr} {args : List Expr}
    (hindex : indexedElement? m r args = none) (hloading : loadsOrdered m args = false)
    (hprojection : deferredProjection? m args = none) : (call m r args).isPending = false := by
  simp [isPending, hindex, respells, hloading, hprojection]

theorem deferredProjection_eq_none {m : Method} {args : List Expr} (h : m.family ≠ .queryable) :
    deferredProjection? m args = none := by
  unfold deferredProjection?
  rw [if_neg]
  intro hm
  refine h ?_
  rw [Method.family, show m.signature = _ from of_decide_eq_true hm]
  rfl

theorem loadsOrdered_eq_false {m : Method} {args : List Expr} (h : m.family ≠ .metadata) :
    loadsOrdered m args = false := by
  rw [Bool.eq_false_iff]
  exact fun hloading => h (family_of_loadsOrdered hloading)

theorem not_isPending_of_inMemory {m : Method} {r : Option Expr} {args : List Expr}
    (hrule : Rule.of m r args = .inMemory) : (call m r args).isPending = false := by
  cases ruleCase hrule with
  | inMemory _ _ hindex hfamily =>
    exact not_isPending_of_rule hindex (loadsOrdered_eq_false (by simp [hfamily]))
      (deferredProjection_eq_none (by simp [hfamily]))

theorem not_isPending_of_membership {m : Method} {r : Option Expr} {args : List Expr} {element : Ty}
    (hrule : Rule.of m r args = .membership element) : (call m r args).isPending = false := by
  cases ruleCase hrule with
  | membership _ _ hindex _ hmember =>
    obtain ⟨-, owner, hfamily, -⟩ := owner_of_membership hmember
    exact not_isPending_of_rule hindex (loadsOrdered_eq_false (by simp [hfamily]))
      (deferredProjection_eq_none (by simp [hfamily]))

theorem idle_of_lambda {l : Lambda} (h : e.lambda? = some l) (hbody : l.body.Idle) : e.Idle := by
  refine induction_lambda (P := Idle) h ?_ ?_
  · exact idle_iff.mpr ⟨rfl, by simpa [Lambda.toExpr, parts] using hbody⟩
  · intro x hx
    exact idle_iff.mpr ⟨rfl, by simpa [parts] using hx⟩

/-- A flat join is no call of the operator that was flattened. -/
theorem flat_ne_call {c : Call} {f : Flattening} (hflat : Flattening.of? c = some f)
    {join : GroupJoin} {left : Bool} {inner : Expr} {result : Lambda} {r : Option Expr}
    {args : List Expr} : join.flat left inner result ≠ call c.method r args := by
  intro hsame
  have hmethod : (if left then Queryable.leftJoin else Queryable.join) = c.method.signature := by
    injection hsame with hmethod
    rw [← hmethod]
  rcases is_selectMany_of_flattening hflat with hm | hm <;> rw [hm] at hmethod <;>
    cases left <;> exact absurd hmethod (by decide)

/-- A loading that is given back has the selector that the pass writes. -/
theorem idle_of_loading {m m' : Method} {r : Option Expr} {source source' selector body body' : Expr}
    {p : Param} (hrule : Rule.of m r [source, selector] = .loading)
    (hlambda : selector.lambda? = some ⟨[p], body⟩) (hsource : IdleIfSame source source')
    (hbody : IdleIfSame body body') (he : (call m r [source, selector]).EveryCall Call.Reduced)
    (hsame : call m' r [source', reselected selector ⟨[p], body'⟩] = call m r [source, selector]) :
    (call m r [source, selector]).Idle := by
  obtain ⟨hc, -, hargs⟩ := everyCall_call.mp he
  cases ruleCase hrule with
  | loading _ _ hindex _ _ hloading =>
    have hnone : r = none := hc.loading (mem_loading_of_loadsOrdered hloading)
    have hprojection : deferredProjection? m [source, selector] = none :=
      deferredProjection_eq_none (by simp [family_of_loadsOrdered hloading])
    injection hsame with _ _ hsame
    injection hsame with hsource' hsame
    injection hsame with hselector _
    refine idle_iff.mpr ⟨?_, ?_⟩
    · have hspelled : selector.isSelector = true := by
        rw [← hselector]
        unfold reselected
        split <;> rfl
      simp [isPending, hindex, respells, hspelled, hprojection]
    · have hbodyCalls := (everyCall_of_lambda hlambda).mp (hargs selector (by simp))
      have hbodySame : body' = body := by
        rw [← hselector] at hlambda
        unfold reselected at hlambda
        split at hlambda <;> cases hlambda <;> rfl
      have hselectorIdle : selector.Idle := idle_of_lambda hlambda (hbody hbodyCalls hbodySame)
      have hsourceIdle : source.Idle := hsource (hargs source (by simp)) hsource'
      simpa [parts, hnone] using ⟨hsourceIdle, hselectorIdle⟩

/-- One layer of a run that changes nothing. -/
theorem ReducesBy.idleIfSame {A : PartRun}
    (h : ReducesBy provider (fun x _ y _ => IdleIfSame x y) A e s e' t) : IdleIfSame e e' := by
  intro he hsame
  have hparts : ∀ x ∈ e.parts, x.EveryCall Call.Reduced := fun x hx => he.part hx
  cases h with
  | node hplain hwalk =>
    subst hsame
    exact idle_iff.mpr
      ⟨not_isPending_of_isPlain hplain, idle_of_forall₂ (hwalk.forall₂ fun h => h) hparts⟩
  | binary hsugar hl hr =>
    cases hsame
    refine idle_iff.mpr ⟨by simp [isPending, hsugar], ?_⟩
    exact idle_of_forall₂ (.cons hl (.cons hr .nil)) hparts
  -- shorthand becomes a call, and a position that of a static operator
  | elementAt =>
    unfold elementRead at hsame
    split at hsame <;> cases hsame
  | nonEmpty =>
    unfold nonEmptyTest at hsame
    split at hsame <;> cases hsame
  | note hrule =>
    cases ruleCase hrule with
    | note hnote => exact absurd ((everyCall_call.mp he).1.note.symm.trans hnote) (by simp)
  | hint hrule =>
    cases ruleCase hrule with
    | hint _ hhint => exact absurd ((everyCall_call.mp he).1.hint.symm.trans hhint) (by simp)
  | index =>
    unfold elementRead at hsame
    split at hsame <;> cases hsame
  | kept hrule _ hwalk =>
    subst hsame
    exact idle_iff.mpr
      ⟨not_isPending_of_inMemory hrule, idle_of_forall₂ (hwalk.forall₂ fun h => h) hparts⟩
  | unmatched hrule _ hargs _ hr =>
    cases hsame
    exact idle_of_call (not_isPending_of_inMemory hrule) (hr.rel fun h => h)
      (hargs.forall₂ fun h => h) he
  | member hrule _ hwalk =>
    subst hsame
    exact idle_iff.mpr
      ⟨not_isPending_of_membership hrule, idle_of_forall₂ (hwalk.forall₂ fun h => h) hparts⟩
  | contains hrule hc =>
    cases ruleCase hrule with
    | membership _ _ _ _ hmember =>
      obtain ⟨x, hx, hconstruction⟩ := (everyCall_call.mp he).1.membership (by simp [hmember])
      cases hx
      exact absurd hconstruction (by simp [hc])
  | loading hrule hlambda hsource hbody =>
    exact idle_of_loading hrule hlambda hsource hbody he hsame
  | settle hvisit hsettle =>
    cases hvisit with
    -- a call that is settled otherwise is no longer of the method
    | walked hrule hprojection hr hargs =>
      cases ruleCase hrule with
      | other _ _ hindex _ _ hloading =>
        have hroot := not_isPending_of_rule hindex hloading hprojection
        cases hsettle with
        | same =>
          cases hsame
          exact idle_of_call hroot (hr.rel fun h => h) (hargs.forall₂ fun h => h) he
        | ordered hord =>
          exact absurd ((everyCall_call.mp he).1.ordering.symm.trans hord) (by simp)
        | pairs hflat => exact absurd hsame (flat_ne_call hflat)
        | members hflat => exact absurd hsame (flat_ne_call hflat)
    | converted hrule hstays hargs hfound =>
      exact absurd hfound
        ((everyCall_call.mp he).1.not_converted hrule hstays hargs.length_eq.symm)

/-- A run that gives back a tree of reduced calls has found nothing pending. -/
theorem idle_of_runs (h : Runs provider e s e t) (he : e.EveryCall Call.Reduced) : e.Idle :=
  Runs.induction (P := fun x _ y _ => IdleIfSame x y) ReducesBy.idleIfSame h he rfl

end Unchanged

/-! ## Normal forms -/

section Normalize

variable {provider : Provider} {context context' : Context} {e e' : Expr}

theorem normal_of_normalize (h : normalize provider context e = (.ok e', context'))
    (he : e.EveryCall fun c => c.method.signature ∈ Metadata.loading → c.receiver = none) :
    e'.EveryCall Call.Normal := by
  obtain ⟨middle, t, _, _, hfinish⟩ := runs_of_normalize h
  have hreduced := everyCall_of_normalize established_reduced h he
  have hungrouped := not_groupJoin_of_ungroups (ungroups_of_finish hfinish)
  exact fun c hc => ⟨hreduced c hc, hungrouped c hc⟩

/-- An idle tree of unaffected calls without a grouped join is given back. -/
theorem normalize_of_unaffected (he : e.EveryCall Call.Unaffected)
    (hjoin : e.EveryCall fun c => ¬ c.is Queryable.groupJoin) (hidle : e.Idle) :
    normalize provider context e = (.ok e, context) := by
  obtain ⟨budget, hbudget⟩ : ∃ budget, e.budget = budget + 1 :=
    Nat.exists_eq_succ_of_ne_zero (Nat.pos_iff_ne_zero.mp (Nat.pow_pos (by decide)))
  unfold normalize reduceQuery
  rw [hbudget, reduceOperators, reduce_eq_self he (not_flattening hjoin) hidle, pure_bind,
    finish_eq_self hjoin]
  rfl

/-- An idle tree of the calls of a normal form is given back. -/
theorem normalize_of_idle (he : e.EveryCall Call.Normal) (hidle : e.Idle) :
    normalize provider context e = (.ok e, context) :=
  normalize_of_unaffected (he.mono fun _ hc => hc.1.toUnaffected) (he.mono fun _ hc => hc.2) hidle

/-- A tree of the calls of a normal form that is given back is idle. -/
theorem idle_of_normalize (he : e.EveryCall Call.Normal)
    (h : normalize provider context e = (.ok e, context')) : e.Idle := by
  obtain ⟨middle, t, hrun, _, hfinish⟩ := runs_of_normalize h
  have hmiddle : middle.EveryCall Call.Normal := (hrun.improved established_normal).everyCall he
  rw [finish_eq_self (hmiddle.mono fun _ hc => hc.2)] at hfinish
  obtain rfl : middle = e := by cases hfinish; rfl
  exact idle_of_runs hrun (he.mono fun _ hc => hc.1)

/-- **Normalizing a normal form.** If no eager loading has a receiver, then normalizing a normal form
again, in any context, gives back the same tree and context exactly if no rule applies to a node of
it by the type of a part. -/
theorem normalize_normalize_iff {start : Context}
    (hloading : ∀ c ∈ e.calls, c.method.signature ∈ Metadata.loading → c.receiver = none)
    (h : normalize provider context e = (.ok e', context')) :
    normalize provider start e' = (.ok e', start) ↔ ∀ n ∈ e'.nodes, n.isPending = false :=
  ⟨idle_of_normalize (normal_of_normalize h hloading),
    normalize_of_idle (normal_of_normalize h hloading)⟩

end Normalize

/-! ## Paid orders -/

/-- A query of the customers `c` and their paid orders. -/
def overPaidOrders (query filtered : Expr → Expr → Expr) : Expr :=
  let order : Ty := .entity "Order"
  let orders : Expr := .access (.param ⟨0, "c", .entity "Customer"⟩) "Orders" (.seq .list order)
  let paid : Expr := .lambda [⟨1, "o", order⟩] (.access (.param ⟨1, "o", order⟩) "Paid" .bool)
  query (.const (.reference "DbSet<Customer>()") (.queryable (.entity "Customer")))
    (filtered orders paid)

/-- Orders filtered in memory. -/
def filteredInMemory (orders condition : Expr) : Expr :=
  .apply Domain.memory.filter [.entity "Order"] [orders, condition]

/-- Orders filtered by a query. -/
def filteredByQuery (orders condition : Expr) : Expr :=
  .apply Queryable.filter [.entity "Order"]
    [asQueryable orders (.entity "Order"), .quote condition]

/-- The customers that have one of the orders. -/
def customersWith (any : Signature) (customers orders : Expr) : Expr :=
  .apply Queryable.filter [.entity "Customer"]
    [customers, .quote (.lambda [⟨0, "c", .entity "Customer"⟩]
      (.apply any [.entity "Order"] [orders]))]

/-- The orders of each customer. -/
def ordersOfEach (customers orders : Expr) : Expr :=
  .apply Queryable.select [.entity "Customer", .enumerable (.entity "Order")]
    [customers, .quote (.lambda [⟨0, "c", .entity "Customer"⟩] orders)]

/-- The customers with a paid order, which are not tracked. -/
def untrackedWithPaid : Expr :=
  overPaidOrders
    (fun customers =>
      customersWith Enumerable.any (.apply Metadata.asNoTracking [.entity "Customer"] [customers]))
    filteredInMemory

/-- The customers with a paid order, in normal form. -/
def withPaid : Expr := overPaidOrders (customersWith Domain.queries.any) filteredByQuery

theorem normalize_withPaid :
    (∀ c ∈ untrackedWithPaid.calls, c.method.signature ∈ Metadata.loading → c.receiver = none) ∧
      normalize ⟨false⟩ default untrackedWithPaid =
        (.ok withPaid, .ofTracking .noTracking) ∧
      normalize ⟨false⟩ default withPaid = (.ok withPaid, default) :=
  have hloading : ∀ c ∈ untrackedWithPaid.calls,
      c.method.signature ∈ Metadata.loading → c.receiver = none := by decide
  have hnormal : normalize ⟨false⟩ default untrackedWithPaid =
      (.ok withPaid, .ofTracking .noTracking) := rfl
  ⟨hloading, hnormal, (normalize_normalize_iff hloading hnormal).mpr (by decide)⟩

/-- Customers loaded with their orders by date. The call has an untracked query as its receiver,
though eager loading takes none. -/
def loadedByDate (navigation : Ty) (ordered : Expr → Expr → Expr) : Expr :=
  let customer : Ty := .entity "Customer"
  let order : Ty := .entity "Order"
  let customers : Expr := .const (.reference "DbSet<Customer>()") (.queryable customer)
  let orders : Expr := .access (.param ⟨0, "c", customer⟩) "Orders" (.seq .list order)
  let date : Expr := .lambda [⟨1, "o", order⟩] (.access (.param ⟨1, "o", order⟩) "Date" .int)
  .call ⟨Metadata.includeNavigation, [customer, navigation]⟩
    (some (.apply Metadata.asNoTracking [customer] [customers]))
    [customers, .quote (.lambda [⟨0, "c", customer⟩] (ordered orders date))]

/-- The orders are sorted in memory. -/
def loadedInMemory : Expr :=
  loadedByDate (.seq .orderedEnumerable (.entity "Order")) fun orders date =>
    .apply Domain.memory.orderBy [.entity "Order", .int] [orders, date]

/-- The orders are sorted by a query. -/
def loadedByQuery : Expr :=
  loadedByDate (.seq .orderedQueryable (.entity "Order")) fun orders date =>
    .apply Queryable.orderBy [.entity "Order", .int]
      [asQueryable orders (.entity "Order"), .quote date]

/-- A second run can differ from the first: a projection of orders that were filtered in memory is
refused once they are filtered by a query, and the receiver of an eager loading is visited once what
is loaded is no longer ordered in memory. -/
theorem normalize_twice_differs :
    (normalize ⟨false⟩ default (overPaidOrders ordersOfEach filteredInMemory) =
        (.ok (overPaidOrders ordersOfEach filteredByQuery), default) ∧
      ∃ problem, normalize ⟨false⟩ default (overPaidOrders ordersOfEach filteredByQuery) =
        (.error (.problem problem), default)) ∧
    normalize ⟨false⟩ default loadedInMemory = (.ok loadedByQuery, default) ∧
      (normalize ⟨false⟩ default loadedByQuery).2 = .ofTracking .noTracking :=
  ⟨⟨rfl, _, rfl⟩, rfl, rfl⟩

end QueryNormal
