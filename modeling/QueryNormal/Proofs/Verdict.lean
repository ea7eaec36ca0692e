import QueryNormal.Proofs.Scope
import QueryNormal.Proofs.Tables

/-!
# Soundness of the verdict of no correlation

* `QueryChain`: a chain of operators on queries that begins at a parameter.
* `filterChain_of_scan`: if no correlation is seen, the chain only filters.
* `restricts_of_not_correlated`: what is not correlated depends on the group and on what is hidden,
  and such a chain, if it refers to the group once, commutes with restricting the group.
* `Expr.Misjudged`: the verdict is no correlation, but the expression depends on another parameter
  or does not commute with restricting the group.

A scan knows operators by their names, does not look at all of their arguments, and asks where a
chain of sources begins only if it has seen the group exactly once.
-/

universe u

namespace QueryNormal

open QueryNormal.Expr

variable {V : Type u} {I : Interpretation V} {Q : Expr → Prop} {root : UInt32} {e : Expr}

theorem FilterChain.root_mem_free (h : FilterChain Q root e) : root ∈ e.free := by
  induction h with
  | group hp => simp [Expr.free, hp]
  | asQueryable _ _ _ ih | select _ _ _ _ ih | filter _ _ _ _ _ ih =>
    simp [Expr.free, freeList, ih]

/-- If the group is referred to once, that is where the chain begins, and no predicate refers to
it. -/
theorem FilterChain.of_count_le_one (h : FilterChain Q root e) (hcount : e.free.count root ≤ 1) :
    FilterChain (root ∉ ·.free) root e := by
  induction h with
  | group hp => exact .group hp
  | asQueryable hfamily hname _ ih =>
    exact .asQueryable hfamily hname (ih (by simpa [Expr.free, freeList] using hcount))
  | select hm hselector hq _ ih =>
    simp only [Expr.free, freeList, List.nil_append, List.append_nil, List.count_append] at hcount
    exact .select hm hselector hq (ih (by omega))
  | filter hfamily hname hpredicate _ hsource ih =>
    simp only [Expr.free, freeList, List.nil_append, List.append_nil, List.count_append] at hcount
    have hone := List.count_pos_iff.mpr hsource.root_mem_free
    refine .filter hfamily hname hpredicate (fun hmem => ?_) (ih (by omega))
    have htwo := List.count_pos_iff.mpr hmem
    omega

/-! ## Filters are not correlated -/

/-- The call is no operator on queries, or one that a scan lets pass. -/
def Call.Passes (c : Call) : Prop :=
  c.method.family = .queryable → passesThrough c.method.name = true ∨ c.selectsItself = true

/-- The expression refers to its own parameters only, and its calls pass. -/
structure Expr.Plain (e : Expr) : Prop where
  closed : e.Closed
  passes : e.EveryCall Call.Passes

theorem Expr.Plain.free_eq (h : e.Plain) : e.free = [] := h.closed

theorem mem_boundIn {bound : List UInt32} {id : UInt32} :
    id ∈ boundIn bound e ↔ id ∈ bound ∨ id ∈ e.declared.map Param.id := by
  cases e <;> simp [boundIn, declared]

theorem foldl_eq_self {f : Scan → Expr → Scan} {s : Scan} : ∀ {xs : List Expr},
    (∀ x ∈ xs, f s x = s) → xs.foldl f s = s
  | [], _ => rfl
  | x :: xs, h => by
    rw [List.forall_mem_cons] at h
    rw [List.foldl_cons, h.1, foldl_eq_self h.2]

/-- A scan sees nothing in an expression whose references are bound and whose calls pass. -/
theorem scan_eq_self {bound : List UInt32} {s : Scan} (he : e.EveryCall Call.Passes)
    (hbound : ∀ id ∈ e.free, id ∈ bound) : e.scan root bound s = s := by
  induction e using induction_parts generalizing bound with
  | _ e ih =>
    have hparts : scanParts root bound e s = s := foldl_eq_self fun x hx => by
      refine ih x hx (he.part hx) fun id hid => mem_boundIn.mpr ?_
      by_cases hdeclared : id ∈ e.declared.map Param.id
      · exact .inr hdeclared
      · exact .inl (hbound id (mem_free.mpr (.inr ⟨hdeclared, x, hx, hid⟩)))
    cases e with
    | call m r args =>
      have hpasses := (everyCall_call.mp he).1
      rw [scan_call, hparts]
      split
      · rfl
      · split
        · rename_i hother
          exact if_pos ((hpasses hother.1).resolve_left hother.2)
        · rfl
    | param p =>
      have hmem : bound.contains p.id = true := by simpa using hbound p.id (by simp [Expr.free])
      exact if_pos hmem
    | _ => rw [scan_eq_scanParts rfl rfl, hparts]

theorem selectsItself_iff {m : Method} {source selector body : Expr} {p : Param}
    (h : selector.lambda? = some ⟨[p], body⟩) : selectsItself m [source, selector] = true ↔
      m.signature = Queryable.select ∧ ∃ q : Param, body = .param q ∧ q.id = p.id := by
  cases body <;> simp [selectsItself, Method.is, h]

theorem scan_filterChain {bound : List UInt32} {s : Scan} (h : FilterChain Plain root e)
    (hs : s.correlated = false) : (e.scan root bound s).correlated = false := by
  induction h with
  | @group p hp =>
    change (s.reference root bound p.id).correlated = false
    unfold Scan.reference
    rw [if_pos hp]
    split <;> exact hs
  | asQueryable hfamily hname _ ih =>
    rw [scan_call, hs]
    simpa [hfamily, hname, passesThrough, scanParts, parts, boundIn] using ih
  | @select m source selector p q hm hselector hq _ ih =>
    have hself : selectsItself m [source, selector] = true :=
      (selectsItself_iff hselector).mpr ⟨hm, q, rfl, hq⟩
    have hfamily : m.family = .queryable := congrArg Signature.family hm
    have hname : m.name = "Select" := congrArg Signature.name hm
    rw [scan_call, hs]
    simpa [hfamily, hname, passesThrough, hself] using hs
  | @filter m source predicate body p hfamily hname _ hplain _ ih =>
    have hbound : ∀ id ∈ predicate.free, id ∈ bound := by simp [hplain.free_eq]
    rw [scan_call, hs]
    simpa [hfamily, hname, passesThrough, scanParts, parts, boundIn,
      scan_eq_self hplain.passes hbound] using ih

theorem startsAt_filterChain (h : FilterChain Q root e) : e.startsAt root = true := by
  induction h with
  | group hp => simpa [startsAt] using hp
  | asQueryable hfamily _ _ ih | filter hfamily _ _ _ _ ih => simpa [startsAt, hfamily] using ih
  | select hm _ _ _ ih =>
    have hfamily : _ = Family.queryable := congrArg Signature.family hm
    simpa [startsAt, Method.family, hfamily] using ih

/-- **Filters.** What only filters the group, by predicates of their own parameters whose calls
pass, is not correlated. -/
theorem not_correlated_of_filterChain (h : FilterChain Plain root e) :
    e.correlated root = false := by
  simp [correlated, scan_filterChain h, startsAt_filterChain h]

/-! ## Chains of operators -/

/-- An operator is called as a scan takes it to be: a conversion to a query has no more than a
source, and a filter has a predicate on elements. A projection of each element to itself, which
hides its source from the scan, projects what only filters. -/
structure Link (first : UInt32) (m : Method) (source : Expr) (rest : List Expr) : Prop where
  queryable : m.family = .queryable
  asQueryable : m.name = "AsQueryable" → rest = []
  filter : m.name = "Where" → ∃ predicate p body,
    rest = [predicate] ∧ predicate.lambda? = some ⟨[p], body⟩
  itself : selectsItself m (source :: rest) = true →
    (∃ selector p body, rest = [selector] ∧ selector.lambda? = some ⟨[p], body⟩) ∧
      FilterChain (fun _ => True) first source

/-- The expression is a chain of operators on queries, of any name, that begins at a parameter. -/
inductive QueryChain (first : UInt32) : Expr → Prop
  | group {p : Param} : p.id = first → QueryChain first (.param p)
  | call {m : Method} {source : Expr} {rest : List Expr} : Link first m source rest →
      QueryChain first source → QueryChain first (.call m none (source :: rest))

/-- What only filters is a chain of operators. -/
theorem FilterChain.queryChain {first : UInt32} (h : FilterChain Q first e) :
    QueryChain first e := by
  induction h with
  | group hp => exact .group hp
  | asQueryable hfamily hname _ ih =>
    exact .call ⟨hfamily, fun _ => rfl, by simp [hname], by simp [selectsItself]⟩ ih
  | select hm hselector _ hsource ih =>
    have hfamily : _ = Family.queryable := congrArg Signature.family hm
    have hname : _ = "Select" := congrArg Signature.name hm
    exact .call ⟨hfamily, by simp [Method.name, hname], by simp [Method.name, hname], fun _ =>
      ⟨⟨_, _, _, rfl, hselector⟩, hsource.mono fun _ _ => trivial⟩⟩ ih
  | filter hfamily hname hpredicate _ _ ih =>
    refine .call ⟨hfamily, by simp [hname], fun _ => ⟨_, _, _, rfl, hpredicate⟩, fun hself => ?_⟩ ih
    have hselect := congrArg Signature.name ((selectsItself_iff hpredicate).mp hself).1
    exact absurd (hname.symm.trans hselect) (by decide)

/-- If a scan of a chain sees no correlation, the chain only filters. -/
theorem filterChain_of_scan {first : UInt32} {bound : List UInt32} {s : Scan}
    (h : QueryChain first e) (hscan : (e.scan root bound s).correlated = false) :
    FilterChain (fun _ => True) first e := by
  induction h generalizing s with
  | group hp => exact .group hp
  | @call m source rest hlink _ ih =>
    rw [scan_call] at hscan
    split at hscan
    · rename_i hs
      rw [hs] at hscan
      cases hscan
    · split at hscan
      · split at hscan
        · rename_i hself
          obtain ⟨⟨selector, p, body, rfl, hselector⟩, hsource⟩ := hlink.itself hself
          obtain ⟨hm, q, rfl, hq⟩ := (selectsItself_iff hselector).mp hself
          exact .select hm hselector hq hsource
        · cases hscan
      · rename_i hpasses
        have hsource : FilterChain (fun _ => True) first source := by
          obtain ⟨_, hseen⟩ := foldl_correlated (fun x _ s => scan_began) hscan
          obtain ⟨s', hs'⟩ := hseen source (by simp [parts])
          exact ih hs'
        have hname : m.name = "Where" ∨ m.name = "AsQueryable" := by
          simpa [hlink.queryable, passesThrough, or_iff_not_imp_left] using hpasses
        rcases hname with hname | hname
        · obtain ⟨predicate, p, body, rfl, hpredicate⟩ := hlink.filter hname
          exact .filter hlink.queryable hname hpredicate trivial hsource
        · obtain rfl := hlink.asQueryable hname
          exact .asQueryable hlink.queryable hname hsource

/-- **Soundness of the verdict.** What is not correlated depends on the group, and on what a
projection of each element to itself hides from the scan. If it is a chain of operators, refers to
the group at most once and hides nothing but the group, the chain begins at the group, and commutes
with restricting it. -/
theorem restricts_of_not_correlated (H : I.Lists) (h : e.correlated root = false) :
    (∀ env env' : Env V, (∀ id, id = root ∨ id ∈ e.hidden → env id = env' id) →
      e.eval I env = e.eval I env') ∧
    ∀ first, QueryChain first e → (∀ id ∈ e.hidden, id ∈ e.free → id = root) →
      e.free.count root ≤ 1 → H.Restricts root e := by
  refine ⟨fun env env' henv => eval_congr fun id hid => henv id (root_or_hidden h id hid), ?_⟩
  intro first hchain hhidden hcount
  have hfilters := filterChain_of_scan hchain (scan_of_not_correlated h)
  have hfirst := hfilters.root_mem_free
  obtain rfl : first = root :=
    (root_or_hidden h first hfirst).elim (fun h => h) fun hmem => hhidden first hmem hfirst
  exact restricts_of_filterChain H (hfilters.of_count_le_one hcount) fun _ hpredicate => hpredicate

/-! ## Verdicts on orders -/

/-- The orders of a group in a region. -/
def regionalMembers (group : Expr) : Expr :=
  let order : Ty := .entity "Order"
  let v : Param := ⟨7, "v", order⟩
  .apply Queryable.filter [order]
    [asQueryable group order,
      .quote (.lambda [v] (.binary .equal (.access (.param v) "Region" .int)
        (.const (.int 7) .int)))]

/-- The orders of the group in a region, each projected to itself. -/
def regionalGroup : Expr :=
  let order : Ty := .entity "Order"
  let z : Param := ⟨8, "z", order⟩
  .apply Queryable.select [order, order]
    [regionalMembers (.param ⟨3, "g", .enumerable order⟩), .quote (.lambda [z] (.param z))]

theorem restricts_regionalGroup : regionalGroup.correlated 3 = false ∧
    (∀ env env' : Env Content, env 3 = env' 3 →
      regionalGroup.eval (tables shop) env = regionalGroup.eval (tables shop) env') ∧
    (tablesLists shop).Restricts 3 regionalGroup := by
  have hverdict : regionalGroup.correlated 3 = false := rfl
  obtain ⟨hdepends, hrestricts⟩ := restricts_of_not_correlated (tablesLists shop) hverdict
  have hhidden : regionalGroup.hidden = [3] := rfl
  have hchain : FilterChain (fun _ => True) 3 regionalGroup :=
    .select rfl rfl rfl (.filter rfl rfl rfl trivial (.asQueryable rfl rfl (.group rfl)))
  refine ⟨hverdict, fun env env' h => hdepends env env' ?_,
    hrestricts 3 hchain.queryChain (by simp [hhidden]) (by decide)⟩
  rintro id (rfl | hid)
  · exact h
  · rw [hhidden, List.mem_singleton] at hid
    rw [hid, h]

/-! ## Verdicts that are wrong -/

/-- The verdict is no correlation, but in the shop the expression depends on another parameter, or
does not commute with restricting the group. -/
def Expr.Misjudged (root : UInt32) (e : Expr) : Prop :=
  e.correlated root = false ∧
    ¬ ((∀ env env' : Env Content, env root = env' root →
        e.eval (tables shop) env = e.eval (tables shop) env') ∧
      (tablesLists shop).Restricts root e)

/-- The orders of a group, if there is more than one. -/
def crowdedOrders (group : Expr) : Expr :=
  let order : Ty := .entity "Order"
  .apply Queryable.filter [order]
    [asQueryable group order,
      .quote (.lambda [⟨7, "v", order⟩]
        (.binary .greater (.access group "Count" .int) (.const (.int 1) .int)))]

/-- The filter by a predicate on the element and its position. -/
def filterAt : Signature :=
  Domain.queries.operator "Where" 1
    [.queryable (.slot 0), Domain.queries.delegate [.slot 0, .int] .bool] (.queryable (.slot 0))

/-- The first order of a group. -/
def firstOrder (group : Expr) : Expr :=
  let order : Ty := .entity "Order"
  .apply filterAt [order]
    [asQueryable group order,
      .quote (.lambda [⟨7, "v", order⟩, ⟨8, "i", .int⟩]
        (.binary .less (.param ⟨8, "i", .int⟩) (.const (.int 1) .int)))]

/-- A customer of that id. -/
def customerNumber (id : Int) : Content := .cell (.record [("Id", .number id)])

/-- Whether the value is the order of that number. -/
def hasNumber (number : Int) (v : Content) : Bool :=
  ((v.field? "Number").getD v).data.same (.number number)

/-- The orders of the shop. -/
def shopOrders : Content := .ofCells (shop "DbSet<Order>()")

/-- An expression does not commute with restricting the orders of the shop if the numbers of
elements differ. -/
theorem not_restricts {root : UInt32} {e : Expr} (keep : Content → Bool)
    (h : ((tablesLists shop).items (e.eval (tables shop) (Function.update noValues root
        ((tablesLists shop).seq (((tablesLists shop).items shopOrders).filter keep))))).length ≠
      (((tablesLists shop).items (e.eval (tables shop)
        (Function.update noValues root shopOrders))).filter keep).length) :
    ¬ (tablesLists shop).Restricts root e := by
  intro hrestricts
  refine h ?_
  rw [hrestricts noValues shopOrders keep, (tablesLists shop).items_seq_filter]

/-- A projection of each element to itself hides a parameter, a stored sequence is no group, a
predicate may look at the whole group, and a filter may look at positions. -/
theorem correlated_misjudges :
    (ownOrders (.param ⟨2, "o", .entity "Customer"⟩)
      (.param ⟨3, "g", .enumerable (.entity "Order")⟩)).Misjudged 3 ∧
    storedOrders.Misjudged 3 ∧
    (crowdedOrders (.param ⟨3, "g", .enumerable (.entity "Order")⟩)).Misjudged 3 ∧
    (firstOrder (.param ⟨3, "g", .enumerable (.entity "Order")⟩)).Misjudged 3 := by
  refine ⟨⟨rfl, fun h => ?_⟩, ⟨rfl, fun h => ?_⟩, ⟨rfl, fun h => ?_⟩, ⟨rfl, fun h => ?_⟩⟩
  · -- The orders of the first customer are not those of the second.
    have heval := h.1 (Function.update (Function.update noValues 3 shopOrders) 2 (customerNumber 1))
      (Function.update (Function.update noValues 3 shopOrders) 2 (customerNumber 2)) rfl
    exact absurd (congrArg (fun v => v.elements.length) heval) (by decide)
  · exact not_restricts (fun _ => false) (by decide) h.2
  · exact not_restricts (hasNumber 12) (by decide) h.2
  · exact not_restricts (hasNumber 12) (by decide) h.2

end QueryNormal
