import QueryNormal.Proofs.Invariants
import QueryNormal.Proofs.Scope
import QueryNormal.Proofs.Tables

/-!
# Grouped joins as projections

* `keyParts`: what has to be equal for two keys to match.
* `Interpretation.Lists.keysAgree`: whether keys match, part by part.
* `eval_correlate`: the projection that a grouped join becomes gives for each outer element the
  result, with the inner elements whose keys match.

The keys of the join are replaced twice: the outer key's parameter by that of the result selector,
inside of the filter, and the group by the filter. Neither captures anything if no id is declared
twice.
-/

universe u

namespace QueryNormal

open QueryNormal.Expr

variable {V : Type u} {I : Interpretation V}

/-! ## Keys -/

/-- The arguments of a construction. -/
def Expr.components : Expr → List Expr
  | .new _ args _ => args
  | _ => []

/-- What has to be equal for two keys to match: the components of constructions with the same number
of them, and otherwise the keys. -/
def keyParts (outer inner : Expr) : List (Expr × Expr) :=
  if outer.components ≠ [] ∧ outer.components.length = inner.components.length then
    outer.components.zip inner.components
  else [(outer, inner)]

/-- Whether the keys match: each part of the outer key is not null and equals that of the inner
key. -/
def Interpretation.Lists.keysAgree (H : I.Lists) (outer inner : Expr) (env env' : Env V) : Bool :=
  (keyParts outer inner).all fun part =>
    !H.isNull (part.1.eval I env) && H.same (part.1.eval I env) (part.2.eval I env')

section Keys

variable {outer inner : Expr} {env env' env₁ env₁' : Env V}

theorem free_components {e x : Expr} (hx : x ∈ e.components) : x.free ⊆ e.free := by
  cases e with
  | new type args names => exact fun id hid => mem_free.mpr (.inr ⟨by simp [declared], x, hx, hid⟩)
  | _ => cases hx

theorem exists_new {e : Expr} (h : e.components ≠ []) :
    ∃ type x xs names, e = .new type (x :: xs) names := by
  cases e with
  | new type args names =>
    cases args with
    | nil => exact absurd rfl h
    | cons x xs => exact ⟨type, x, xs, names, rfl⟩
  | _ => exact absurd rfl h

theorem free_keyParts {part : Expr × Expr} (h : part ∈ keyParts outer inner) :
    part.1.free ⊆ outer.free ∧ part.2.free ⊆ inner.free := by
  unfold keyParts at h
  split at h
  · exact ⟨free_components (List.of_mem_zip h).1, free_components (List.of_mem_zip h).2⟩
  · obtain rfl := List.mem_singleton.mp h
    exact ⟨fun _ => id, fun _ => id⟩

/-- Whether keys match depends on what is free in them. -/
theorem keysAgree_congr (H : I.Lists) (h : ∀ id ∈ outer.free, env id = env₁ id)
    (h' : ∀ id ∈ inner.free, env' id = env₁' id) :
    H.keysAgree outer inner env env' = H.keysAgree outer inner env₁ env₁' := by
  unfold Interpretation.Lists.keysAgree
  rw [Bool.eq_iff_iff, List.all_eq_true, List.all_eq_true]
  refine forall₂_congr fun part hpart => ?_
  obtain ⟨hleft, hright⟩ := free_keyParts hpart
  rw [eval_congr fun id hid => h id (hleft hid), eval_congr fun id hid => h' id (hright hid)]

namespace Interpretation.Lists

variable (H : I.Lists) (x y : Expr)

theorem holds_both : H.holds ((x.both y).eval I env) =
    (H.holds (x.eval I env) && H.holds (y.eval I env)) := H.both _ _

theorem holds_notNull : H.holds (x.notNull.eval I env) = !H.isNull (x.eval I env) := H.notNull _ _

theorem holds_equals : H.holds ((x.equals y).eval I env) = H.same (x.eval I env) (y.eval I env) :=
  H.equals _ _

theorem holds_allOf (rest : List Expr) : H.holds ((allOf x rest).eval I env) =
    (x :: rest).all fun z => H.holds (z.eval I env) := by
  induction rest generalizing x with
  | nil => simp [allOf]
  | cons y rest ih =>
    rw [show allOf x (y :: rest) = allOf (x.both y) rest from rfl, ih]
    simp only [List.all_cons, holds_both, Bool.and_assoc]

/-- The conditions that the components are not null, and that they are equal. -/
theorem holds_components {os is : List Expr} (hlength : os.length = is.length) :
    ((os.map Expr.notNull).all (fun x => H.holds (x.eval I env)) &&
        (os.zipWith Expr.equals is).all fun x => H.holds (x.eval I env)) =
      (os.zip is).all fun part =>
        !H.isNull (part.1.eval I env) && H.same (part.1.eval I env) (part.2.eval I env) := by
  induction os generalizing is with
  | nil => cases is <;> rfl
  | cons o os ih =>
    cases is with
    | nil => cases hlength
    | cons i is =>
      simp only [List.map_cons, List.zipWith_cons_cons, List.zip_cons_cons, List.all_cons,
        holds_notNull, holds_equals, ← ih (Nat.succ.inj hlength)]
      ac_rfl

/-- The predicate on keys holds if the keys match. -/
theorem holds_keysMatch :
    H.holds ((keysMatch x y).eval I env) = H.keysAgree x y env env := by
  unfold keysAgree keyParts
  by_cases h : x.components ≠ [] ∧ x.components.length = y.components.length
  · obtain ⟨_, o, os, _, rfl⟩ := exists_new h.1
    have hinner : y.components ≠ [] := List.ne_nil_of_length_pos (h.2 ▸ Nat.succ_pos _)
    obtain ⟨_, i, is, _, rfl⟩ := exists_new hinner
    have hlength : os.length = is.length := Nat.succ.inj h.2
    rw [if_pos h, ← H.holds_components h.2]
    simp only [keysMatch, if_pos hlength, holds_both, holds_allOf, components, List.map_cons,
      List.zipWith_cons_cons]
  · have hwhole : keysMatch x y = .both x.notNull (x.equals y) := by
      unfold keysMatch
      split
      · exact if_neg fun hlength => h ⟨by simp [components], by simpa [components] using hlength⟩
      · rfl
    rw [if_neg h, hwhole, holds_both, holds_notNull, holds_equals, List.all_cons, List.all_nil,
      Bool.and_true]

end Interpretation.Lists

end Keys

/-! ## The group as a filter -/

section Group

variable {e inner outerKey innerKey : Expr} {env : Env V} {key item element : Param}

theorem eval_asQuery (H : I.Lists) (env : Env V) : (asQuery e).eval I env = e.eval I env := by
  unfold asQuery
  split
  · split
    · rfl
    · exact H.asQueryable _
  · rfl

theorem eval_groupedSelector (H : I.Lists) (resultType : Ty) (env : Env V) :
    (groupedSelector resultType e).eval I env = e.eval I env := by
  unfold groupedSelector
  split
  · exact H.asEnumerable _
  · rfl

/-- The filter that stands for the group of an outer element gives the inner elements whose keys
match. -/
theorem eval_matchingInner (H : I.Lists) (innerElement : Ty)
    (hkeys : ∀ p ∈ [key, element], p.id ∉ outerKey.binders ∧ p.id ∉ innerKey.binders)
    (hkey : key.id ∉ innerKey.free) (hitem : item.id ∉ outerKey.free) (hne : element.id ≠ item.id)
    (env : Env V) :
    (matchingInner innerElement inner outerKey key element ⟨[item], innerKey⟩).eval I env =
      H.seq ((H.items (inner.eval I env)).filter fun w =>
        H.keysAgree outerKey innerKey (Function.update env key.id (env element.id))
          (Function.update env item.id w)) := by
  simp only [List.forall_mem_cons, List.not_mem_nil, IsEmpty.forall_iff, implies_true,
    and_true] at hkeys
  obtain ⟨⟨hko, hki⟩, heo, hei⟩ := hkeys
  unfold matchingInner Expr.apply
  rw [eval_filter H rfl rfl rfl, eval_asQuery H]
  congr 1
  refine List.filter_congr fun w _ => ?_
  -- The outer key's parameter stands for the outer element.
  have helement : (Expr.param element).eval I (Function.update env item.id w) = env element.id := by
    rw [Expr.eval, Function.update_of_ne hne]
  rw [eval_replace H.constructs (not_mem_keysMatch hko hki), helement, H.holds_keysMatch]
  · refine keysAgree_congr H (fun id hid => ?_) fun id hid => ?_
    · exact update_congr fun _ => Function.update_of_ne (ne_of_mem_of_not_mem hid hitem) w env
    · exact Function.update_of_ne (ne_of_mem_of_not_mem hid hkey) _ _
  · intro id hid
    obtain rfl : id = element.id := by simpa [Expr.free] using hid
    exact not_mem_keysMatch heo hei

end Group

/-! ## The projection -/

section Projection

variable {m : Method} {outer inner outerKeyArg innerKeyArg resultArg outerKey innerKey body : Expr}
  {key item element group : Param} {outerElement innerElement keyType resultType : Ty}

theorem requireLambda_of_lambda {e : Expr} {l : Lambda} (h : e.lambda? = some l) :
    requireLambda e = .ok l := by
  simp [requireLambda, h]

/-- What a grouped join of four type arguments and selectors that are lambdas becomes. -/
theorem correlate_eq (htypes : m.typeArgs = [outerElement, innerElement, keyType, resultType])
    (houterKey : outerKeyArg.lambda? = some ⟨[key], outerKey⟩)
    (hinnerKey : innerKeyArg.lambda? = some ⟨[item], innerKey⟩)
    (hresult : resultArg.lambda? = some ⟨[element, group], body⟩) :
    correlate m [outer, inner, outerKeyArg, innerKeyArg, resultArg] =
      .ok (⟨Queryable.select, [outerElement, resultType]⟩, outer,
        Lambda.quoted ⟨[element], groupedSelector resultType (replace group.id
          (matchingInner innerElement inner outerKey key element ⟨[item], innerKey⟩) body)⟩) := by
  simp only [correlate, htypes, requireLambda_of_lambda houterKey,
    requireLambda_of_lambda hinnerKey, requireLambda_of_lambda hresult]
  rfl

/-- No scope of a grouped join meets another that replacing its pieces puts it into. -/
structure GroupScope (inner outerKey innerKey body : Expr) (key item element group : Param) :
    Prop where
  keys : ∀ p ∈ [key, element], p.id ∉ outerKey.binders ∧ p.id ∉ innerKey.binders
  key_innerKey : key.id ∉ innerKey.free
  item_outerKey : item.id ∉ outerKey.free
  element_item : element.id ≠ item.id
  element_inner : element.id ∉ inner.free
  element_outerKey : element.id ∉ outerKey.free
  element_innerKey : element.id ∉ innerKey.free
  group_body : group.id ∉ body.binders
  /-- The result selector declares nothing that is free in the filter. -/
  filter_body (innerElement : Ty) :
    ∀ id ∈ (matchingInner innerElement inner outerKey key element ⟨[item], innerKey⟩).free,
      id ∉ body.binders

theorem GroupScope.of_hygienic (houterKey : outerKeyArg.lambda? = some ⟨[key], outerKey⟩)
    (hinnerKey : innerKeyArg.lambda? = some ⟨[item], innerKey⟩)
    (hresult : resultArg.lambda? = some ⟨[element, group], body⟩)
    (h : (call m none [outer, inner, outerKeyArg, innerKeyArg, resultArg]).Hygienic) :
    GroupScope inner outerKey innerKey body key item element group := by
  obtain ⟨hargs, hapart⟩ := h.of_call
  simp only [List.pairwise_cons, List.forall_mem_cons, List.not_mem_nil, IsEmpty.forall_iff,
    implies_true, and_true, List.Pairwise.nil] at hargs hapart
  obtain ⟨-, -, houterKeyArg, -, hresultArg⟩ := hargs
  obtain ⟨-, ⟨-, -, hinnerResult⟩, ⟨hkeys, houterResult⟩, hinnerKeyResult⟩ := hapart
  obtain ⟨-, hkey, hitem⟩ := hkeys.of_lambdas houterKey hinnerKey
  obtain ⟨houterBody, -, helementOuter⟩ := houterResult.of_lambdas houterKey hresult
  obtain ⟨hinnerBody, -, helementInner⟩ := hinnerKeyResult.of_lambdas hinnerKey hresult
  obtain ⟨hbody, helement⟩ := hinnerResult.symm.of_lambda hresult
  have hkeyOuter := (houterKeyArg.of_lambda houterKey).2.2
  have hgroup := (hresultArg.of_lambda hresult).2.2
  simp only [List.forall_mem_cons, List.not_mem_nil, IsEmpty.forall_iff, implies_true,
    and_true] at hkey hitem helementOuter helementInner helement hkeyOuter hgroup
  obtain ⟨⟨houterDeclared, houterFree, -⟩, -⟩ := helementOuter
  obtain ⟨⟨hinnerDeclared, hinnerFree, hne⟩, -⟩ := helementInner
  have hscope (innerElement : Ty) :
      (matchingInner innerElement inner outerKey key element ⟨[item], innerKey⟩).Holds
        (fun _ => True) fun i => i = element.id ∨ i ∉ body.binders :=
    holds_matchingInner established_true.toMaintained
      ⟨fun _ _ => trivial, fun i hi hmem => hbody.left i hmem hi⟩
      ⟨fun _ _ => trivial, fun i hi => .inr fun hmem => houterBody.right i hmem hi⟩
      ⟨fun _ _ => trivial, fun i hi => .inr fun hmem => hinnerBody.right i hmem hi⟩
  exact {
    keys := by simp [hkeyOuter, hkey.1, houterDeclared, hinnerDeclared]
    key_innerKey := hkey.2
    item_outerKey := hitem.2.1
    element_item := hne.symm
    element_inner := helement.1.2
    element_outerKey := houterFree
    element_innerKey := hinnerFree
    group_body := hgroup.2
    filter_body := fun innerElement i hi =>
      ((hscope innerElement).free i hi).elim (fun h => h ▸ hgroup.1) fun h => h }

/-- **Grouped joins.** The projection that a grouped join becomes gives, for each outer element in
order, the result at the element and the inner elements, in order, whose keys match. -/
theorem eval_correlate (H : I.Lists)
    (htypes : m.typeArgs = [outerElement, innerElement, keyType, resultType])
    (houterKey : outerKeyArg.lambda? = some ⟨[key], outerKey⟩)
    (hinnerKey : innerKeyArg.lambda? = some ⟨[item], innerKey⟩)
    (hresult : resultArg.lambda? = some ⟨[element, group], body⟩)
    (hygienic : (call m none [outer, inner, outerKeyArg, innerKeyArg, resultArg]).Hygienic) :
    ∃ select selector, correlate m [outer, inner, outerKeyArg, innerKeyArg, resultArg] =
        .ok (select, outer, selector) ∧ select.signature = Queryable.select ∧
      ∀ env, (call select none [outer, selector]).eval I env =
        H.seq ((H.items (outer.eval I env)).map fun v =>
          body.eval I (Function.update (Function.update env element.id v) group.id
            (H.seq ((H.items (inner.eval I env)).filter fun w =>
              H.keysAgree outerKey innerKey (Function.update env key.id v)
                (Function.update env item.id w))))) := by
  have hscope := GroupScope.of_hygienic houterKey hinnerKey hresult hygienic
  refine ⟨_, _, correlate_eq htypes houterKey hinnerKey hresult, rfl, fun env => ?_⟩
  rw [eval_select H rfl rfl rfl]
  congr 1
  refine List.map_congr_left fun v _ => ?_
  -- Neither key refers to the parameter of the result selector.
  have hagree (w : V) : H.keysAgree outerKey innerKey
      (Function.update (Function.update env element.id v) key.id v)
      (Function.update (Function.update env element.id v) item.id w) =
        H.keysAgree outerKey innerKey (Function.update env key.id v)
          (Function.update env item.id w) := by
    refine keysAgree_congr H (fun i hi => update_congr fun _ => ?_) fun i hi =>
      update_congr fun _ => ?_
    · exact Function.update_of_ne (ne_of_mem_of_not_mem hi hscope.element_outerKey) v env
    · exact Function.update_of_ne (ne_of_mem_of_not_mem hi hscope.element_innerKey) v env
  rw [eval_groupedSelector H,
    eval_replace H.constructs hscope.group_body (hscope.filter_body innerElement),
    eval_matchingInner H _ hscope.keys hscope.key_innerKey hscope.item_outerKey hscope.element_item,
    Function.update_self, eval_update_of_not_mem hscope.element_inner]
  simp only [hagree]

end Projection

/-- The orders of each customer in the customer's region. -/
def regionalOrders : Call :=
  let customer : Ty := .entity "Customer"
  let order : Ty := .entity "Order"
  let a : Param := ⟨0, "a", customer⟩
  let b : Param := ⟨1, "b", order⟩
  let g : Param := ⟨3, "g", .enumerable order⟩
  let key (p : Param) (id : String) : Expr :=
    .anonymous [("id", .access (.param p) id .int), ("region", .access (.param p) "Region" .int)]
  ⟨⟨Queryable.groupJoin, [customer, order, (key a "Id").ty, g.ty]⟩, none,
    [.const (.reference "DbSet<Customer>()") (.queryable customer), storedOrders,
      .quote (.lambda [a] (key a "Id")), .quote (.lambda [b] (key b "CustomerId")),
      .quote (.lambda [⟨2, "o", customer⟩, g] (.param g))]⟩

/-- A customer without a region has no orders in it. -/
theorem eval_regionalOrders : regionalOrders.toExpr.Hygienic ∧
    ∃ select outer selector,
      correlate regionalOrders.method regionalOrders.args = .ok (select, outer, selector) ∧
      (call select none [outer, selector]).eval (tables shop) noValues =
        .ofCells [.items
          [.record [("Number", .number 10), ("CustomerId", .number 1), ("Region", .number 7)],
            .record [("Number", .number 13), ("CustomerId", .number 1), ("Region", .number 7)]],
          .items [], .items []] := by
  have hygienic : regionalOrders.toExpr.Hygienic := .of_free_eq_nil (by decide) rfl
  obtain ⟨select, selector, hcorrelate, -, heval⟩ :=
    eval_correlate (tablesLists shop) rfl rfl rfl rfl hygienic
  exact ⟨hygienic, select, _, selector, hcorrelate, (heval noValues).trans rfl⟩

end QueryNormal
