import QueryNormal.Proofs.Verdict
import QueryNormal.Proofs.Yields

/-!
# What flat joins mean

* `orDefault`: a query, perhaps with one default element in the place of none.
* `eval_over_group`: what restricts the group of an outer element gives what it gives of the whole
  inner source, restricted to the elements that match.
* `flatten_pairs`: the flat join of pairs means what the grouped join meant, if what is collected
  only filters the group.
-/

universe u

namespace QueryNormal

open QueryNormal.Expr QueryNormal.Reduction

variable {V : Type u} {I : Interpretation V}

/-! ## Defaults -/

/-- The query, perhaps with one default element in the place of none. -/
def orDefault (types : Option (List Ty)) (e : Expr) : Expr :=
  match types with
  | none => e
  | some types => .apply Queryable.defaultIfEmpty types [e]

/-- The elements that an outer element is paired with: those that match, perhaps with a missing one
in the place of none. -/
def Interpretation.Joins.partners (H : I.Joins) (left : Bool) (vs : List V) : List V :=
  if left then orSingle H.missing vs else vs

section Defaults

variable {e : Expr} {types : Option (List Ty)}

@[simp] theorem binders_orDefault : (orDefault types e).binders = e.binders := by
  cases types <;> simp [orDefault, Expr.apply]

@[simp] theorem free_orDefault : (orDefault types e).free = e.free := by
  cases types <;> simp [orDefault, Expr.apply, Expr.free, freeList]

theorem peelDefault_eq_self (h : (peelDefault e).2 = false) : peelDefault e = (e, false) := by
  unfold peelDefault at h ⊢
  split at h
  · split at h
    · cases h
    · rename_i hm
      exact if_neg hm
  · rfl

/-- A default in the place of none is taken off again. -/
theorem peelDefault_orDefault (h : types = none → (peelDefault e).2 = false) :
    peelDefault (orDefault types e) = (e, types.isSome) := by
  cases types with
  | none => exact peelDefault_eq_self (h rfl)
  | some types => simp [orDefault, Expr.apply, peelDefault, Method.is]

/-- What becomes a chain of filters by a replacement has no default to take off. -/
theorem FilterChain.peelDefault {Q : Expr → Prop} {root id : UInt32} {value : Expr}
    (h : FilterChain Q root (replace id value e)) : (QueryNormal.peelDefault e).2 = false := by
  unfold QueryNormal.peelDefault
  split
  · rename_i m r source rest
    split
    · rename_i hm
      have hname : m.name = "DefaultIfEmpty" := congrArg Signature.name (of_decide_eq_true hm)
      rcases replace_cases id value (call m r (source :: rest)) with
        ⟨_, ⟨⟩, _⟩ | ⟨_, _, ⟨⟩, _⟩ | ⟨_, hwalk⟩
      generalize replace id value (call m r (source :: rest)) = x at h hwalk
      cases hwalk with
      | call =>
        cases h with
        | asQueryable _ h | filter _ h => exact absurd (hname.symm.trans h) (by decide)
        | select h => exact absurd (hname.symm.trans (congrArg Signature.name h)) (by decide)
    · rfl
  · rfl

variable (H : I.Joins)

theorem Interpretation.Joins.data_of_mem_partners {left : Bool} {v x : V}
    (h : x ∈ H.partners left (H.items v)) : H.data x = x := by
  unfold partners orSingle at h
  split at h
  · split at h
    · rw [List.mem_singleton.mp h, H.data_missing]
    · exact H.data_of_mem h
  · exact H.data_of_mem h

theorem items_orDefault (env : Env V) : H.items ((orDefault types e).eval I env) =
    H.partners types.isSome (H.items (e.eval I env)) := by
  cases types with
  | none => rfl
  | some types =>
    have hdefault : (orDefault (some types) e).eval I env =
        H.seq (H.partners true (H.items (e.eval I env))) := H.defaultIfEmpty _
    rw [hdefault]
    exact H.items_seq_of_data fun _ => H.data_of_mem_partners

end Defaults

/-! ## Flat joins -/

section Flat

variable (H : I.Joins) {outerKey innerKey inner inner' body : Expr} {o e g : Param} {env : Env V}

theorem matching_congr (h : inner'.eval I env = inner.eval I env) (v : V) :
    H.matching outerKey innerKey inner' env v = H.matching outerKey innerKey inner env v := by
  rw [Interpretation.Joins.matching, h, Interpretation.Joins.matching]

theorem eval_flat (join : GroupJoin) (left : Bool) (env : Env V) :
    (join.flat left inner ⟨[o, e], body⟩).eval I env =
      H.seq ((H.items (join.outer.eval I env)).flatMap fun v =>
        (H.partners left (H.matching join.outerKey join.innerKey inner env v)).map fun w =>
          body.eval I (Function.update (Function.update env o.id v) e.id w)) := by
  have hresult : (Lambda.quoted ⟨[o, e], body⟩).eval I env = _ := eval_of_lambda₂ H.toLists rfl env
  unfold GroupJoin.flat Expr.apply
  rw [eval_call]
  simp only [evalList, hresult]
  cases left
  · exact H.join _ _ _ _ _
  · exact H.leftJoin _ _ _ _ _

/-- Conversions to a query that do not change the type do not change the value. -/
theorem eval_unwrapQueryable (H : I.Joins) (x : Expr) (env : Env V) :
    (unwrapQueryable x).eval I env = x.eval I env := by
  induction x using induction_parts with
  | _ x ih =>
    unfold unwrapQueryable
    split
    · rename_i m r source rest
      have hsource := ih source (by simp [parts])
      split
      · rename_i hm
        obtain ⟨hm, hrest, -⟩ := hm
        obtain rfl := List.isEmpty_iff.mp hrest
        have hm : m.signature = Queryable.asQueryable := of_decide_eq_true hm
        have hfamily : m.family = .queryable := congrArg Signature.family hm
        have hname : m.name = "AsQueryable" := congrArg Signature.name hm
        rw [hsource, eval_call, hfamily, hname]
        cases r with
        | none => exact (H.asQueryable _).symm
        | some r => exact (H.asQueryableOn _ _).symm
      · split
        · rw [eval_call, eval_call, evalList, evalList, hsource]
        · rfl
    · rfl

theorem Interpretation.Joins.items_seq_partners {left : Bool} {v : V} :
    H.items (H.seq (H.partners left (H.matching outerKey innerKey inner env v))) =
      H.partners left (H.matching outerKey innerKey inner env v) := by
  refine H.items_seq_of_data fun x hx => ?_
  rw [← H.items_seq_matching] at hx
  exact H.data_of_mem_partners hx

/-- **Restricting the group.** What restricts the group of an outer element, and refers to no outer
element, gives what it gives of the inner source, restricted to what matches. -/
theorem eval_over_group (hrestricts : H.Restricts g.id body) (ho : o.id ∉ body.free)
    (hg : g.id ∉ body.binders) (hcapture : ∀ i ∈ inner.free, i ∉ body.binders) (env : Env V)
    (v : V) :
    H.grouped outerKey innerKey inner body o g env v =
      H.seq (H.matching outerKey innerKey (replace g.id inner body) env v) := by
  have houter : H.grouped outerKey innerKey inner body o g env v =
      body.eval I (Function.update env g.id (H.seq (H.matching outerKey innerKey inner env v))) :=
    eval_congr fun i hi => update_congr fun _ =>
      Function.update_of_ne (ne_of_mem_of_not_mem hi ho) v env
  rw [houter]
  unfold Interpretation.Joins.matching
  rw [hrestricts, eval_replace H.constructs hg hcapture]

end Flat

/-! ## Scopes -/

section Scopes

variable {m mg : Method} {outer inner outerKey innerKey resultArg collection pairArg : Expr}
  {result collected pair : Expr} {o g x y e : Param} {types types' : Option (List Ty)}

/-- No scope of a grouped join, or of what is collected of its results, meets another that
flattening puts it into. -/
structure FlatScope (inner result collected : Expr) (o g x : Param) : Prop where
  outer_group : o.id ≠ g.id
  x_collected : x.id ∉ collected.binders
  group_result : g.id ∉ result.binders
  group_collected : g.id ∉ collected.binders
  result_collected : ∀ i ∈ result.free, i ∉ collected.binders
  inner_result : ∀ i ∈ inner.free, i ∉ result.binders
  inner_collected : ∀ i ∈ inner.free, i ∉ collected.binders
  collected_free : ∀ i ∈ collected.free, i ≠ o.id ∧ i ≠ g.id

/-- Nor does the scope of the selector of pairs. -/
structure PairScope (result pair : Expr) (o g y e : Param) : Prop where
  y_pair : y.id ∉ pair.binders
  result_pair : ∀ i ∈ result.free, i ∉ pair.binders
  pair_free : ∀ i ∈ pair.free, i ≠ o.id ∧ i ≠ g.id
  element_result : e.id ∉ result.free
  y_element : y.id ≠ e.id

theorem FlatScope.of_hygienic (hresult : resultArg.lambda? = some ⟨[o, g], orDefault types result⟩)
    (hcollection : collection.lambda? = some ⟨[x], orDefault types' collected⟩) {rest : List Expr}
    (h : (call m none (call mg none [outer, inner, outerKey, innerKey, resultArg] ::
      collection :: rest)).Hygienic) : FlatScope inner result collected o g x := by
  obtain ⟨hargs, hapart⟩ := h.of_call
  rw [List.pairwise_cons] at hapart
  obtain ⟨hpieces, hpiecesApart⟩ := (hargs _ List.mem_cons_self).of_call
  have hsource : Apart (call mg none [outer, inner, outerKey, innerKey, resultArg]) collection :=
    hapart.1 _ (by simp)
  have hinner : Apart inner resultArg := by
    simp only [List.pairwise_cons, List.mem_cons] at hpiecesApart
    exact hpiecesApart.2.1 _ (by simp)
  obtain ⟨hbodies, hparams, -⟩ :=
    (hsource.arg (e := resultArg) (by simp)).of_lambdas hresult hcollection
  have hinnerResult := (hinner.symm.of_lambda hresult).1
  have hinnerCollected := ((hsource.arg (e := inner) (by simp)).symm.of_lambda hcollection).1
  have hx := ((hargs collection (by simp)).of_lambda hcollection).2.2
  obtain ⟨hnodup, -, hgroup⟩ := (hpieces resultArg (by simp)).of_lambda hresult
  simp only [List.forall_mem_cons, List.not_mem_nil, IsEmpty.forall_iff, implies_true, and_true,
    binders_orDefault, free_orDefault] at hparams hx hgroup
  have hbinders := hbodies.right
  have hfreeResult := hinnerResult.left
  have hfreeCollected := hinnerCollected.left
  simp only [binders_orDefault, free_orDefault] at hbinders hfreeResult hfreeCollected
  exact {
    outer_group := by simpa using hnodup
    x_collected := hx
    group_result := hgroup.2
    group_collected := hparams.2.1
    result_collected := fun i hi hmem => hbinders i hmem hi
    inner_result := fun i hi hmem => hfreeResult i hmem hi
    inner_collected := fun i hi hmem => hfreeCollected i hmem hi
    collected_free := fun i hi =>
      ⟨ne_of_mem_of_not_mem hi hparams.1.2, ne_of_mem_of_not_mem hi hparams.2.2⟩ }

theorem PairScope.of_hygienic (hresult : resultArg.lambda? = some ⟨[o, g], result⟩)
    (hpair : pairArg.lambda? = some ⟨[y, e], pair⟩)
    (h : (call m none [call mg none [outer, inner, outerKey, innerKey, resultArg], collection,
      pairArg]).Hygienic) : PairScope result pair o g y e := by
  obtain ⟨hargs, hapart⟩ := h.of_call
  rw [List.pairwise_cons] at hapart
  have hsource : Apart (call mg none [outer, inner, outerKey, innerKey, resultArg]) pairArg :=
    hapart.1 _ (by simp)
  obtain ⟨hbodies, hparams, hpairParams⟩ :=
    (hsource.arg (e := resultArg) (by simp)).of_lambdas hresult hpair
  obtain ⟨hnodup, -, hbinders⟩ := (hargs pairArg (by simp)).of_lambda hpair
  simp only [List.forall_mem_cons, List.not_mem_nil, IsEmpty.forall_iff, implies_true,
    and_true] at hparams hpairParams hbinders
  exact {
    y_pair := hbinders.1
    result_pair := fun i hi hmem => hbodies.right i hmem hi
    pair_free := fun i hi =>
      ⟨ne_of_mem_of_not_mem hi hparams.1.2, ne_of_mem_of_not_mem hi hparams.2.2⟩
    element_result := hpairParams.2.2.1
    y_element := by simpa using hnodup }

variable (hI : I.Constructs) {env : Env V} {v w group : V}

include hI in
/-- What is collected of a result is what it becomes when the result is put in its place. -/
theorem FlatScope.eval_collected (h : FlatScope inner result collected o g x) :
    (replace x.id result collected).eval I
        (Function.update (Function.update env o.id v) g.id group) =
      collected.eval I (Function.update env x.id
        (result.eval I (Function.update (Function.update env o.id v) g.id group))) := by
  rw [eval_replace hI h.x_collected h.result_collected]
  refine eval_congr fun i hi => update_congr fun _ => ?_
  obtain ⟨ho, hg⟩ := h.collected_free i hi
  rw [Function.update_of_ne hg, Function.update_of_ne ho]

include hI in
/-- A result that does not mention the group is made of an outer and an inner element. -/
theorem PairScope.eval_pair (h : PairScope result pair o g y e)
    (hgroup : g.id ∉ (replace y.id result pair).free) :
    (replace y.id result pair).eval I (Function.update (Function.update env o.id v) e.id w) =
      pair.eval I (Function.update (Function.update env y.id
        (result.eval I (Function.update (Function.update env o.id v) g.id group))) e.id w) := by
  have hadd : (replace y.id result pair).eval I
      (Function.update (Function.update env o.id v) e.id w) = (replace y.id result pair).eval I
        (Function.update (Function.update (Function.update env o.id v) g.id group) e.id w) :=
    eval_congr fun i hi => update_congr fun _ =>
      (Function.update_of_ne (ne_of_mem_of_not_mem hi hgroup) _ _).symm
  rw [hadd, eval_replace hI h.y_pair h.result_pair, eval_update_of_not_mem h.element_result,
    Function.update_comm h.y_element.symm]
  refine eval_congr fun i hi => update_congr fun _ => update_congr fun _ => ?_
  obtain ⟨ho, hg⟩ := h.pair_free i hi
  rw [Function.update_of_ne hg, Function.update_of_ne ho]

end Scopes

/-! ## Pairs -/

section Pairs

variable {m mg : Method} {outer inner outerKey innerKey resultArg collection pairArg : Expr}
  {outerKeySelector innerKeySelector : Lambda} {result collected pair inner' : Expr}
  {o g x y e : Param} {types : Option (List Ty)} {again : Expr → Reduction Expr}
  {s t : ReductionState}

/-- A call whose collection only filters the group is flattened. -/
theorem yields_flatten_pairs (hm : m.signature = Queryable.selectManyPairs)
    (hg : mg.signature = Queryable.groupJoin) (houterKey : outerKey.lambda? = some outerKeySelector)
    (hinnerKey : innerKey.lambda? = some innerKeySelector)
    (hresult : resultArg.lambda? = some ⟨[o, g], result⟩)
    (hcollection : collection.lambda? = some ⟨[x], orDefault types collected⟩)
    (hpair : pairArg.lambda? = some ⟨[y, e], pair⟩)
    (hfilters : FilterChain Plain g.id (replace x.id result collected))
    (hagain : Yields (again (replace g.id inner (replace x.id result collected))) s inner' t) :
    Yields (flatten again ⟨m, none,
        [call mg none [outer, inner, outerKey, innerKey, resultArg], collection, pairArg]⟩) s
      (GroupJoin.flat ⟨mg.typeArgs, outer, inner, outerKey, innerKey, innerKeySelector,
        ⟨[o, g], result⟩⟩ types.isSome (unwrapQueryable inner')
        ⟨[o, e], replace y.id result pair⟩) t := by
  have hpeel : peelDefault (orDefault types collected) = (collected, types.isSome) :=
    peelDefault_orDefault fun _ => hfilters.peelDefault
  have hjoin : JoinPieces (call mg none [outer, inner, outerKey, innerKey, resultArg])
      ⟨mg.typeArgs, outer, inner, outerKey, innerKey, innerKeySelector, ⟨[o, g], result⟩⟩ :=
    .intro hg houterKey hinnerKey hresult
  have hflat := (PairsPieces.intro (r := none) hm hjoin hcollection hpair rfl (by
    rw [GroupJoin.collected, hpeel]
    exact not_correlated_of_filterChain hfilters)).flattening
  simp only [GroupJoin.collected, hpeel] at hflat
  rw [flatten, hflat]
  exact yields_bind.mpr ⟨inner', t, hagain, yields_pure.mpr ⟨rfl, rfl⟩⟩

/-- The flat join has the value of the call, wherever the results of the grouped join are data. -/
theorem eval_flat_pairs (H : I.Joins) (hm : m.signature = Queryable.selectManyPairs)
    (hg : mg.signature = Queryable.groupJoin)
    (hresult : resultArg.lambda? = some ⟨[o, g], result⟩)
    (hcollection : collection.lambda? = some ⟨[x], orDefault types collected⟩)
    (hpair : pairArg.lambda? = some ⟨[y, e], pair⟩)
    (hygienic : (call m none [call mg none [outer, inner, outerKey, innerKey, resultArg],
      collection, pairArg]).Hygienic)
    (hfilters : FilterChain Plain g.id (replace x.id result collected))
    (hgroup : g.id ∉ (replace y.id result pair).free) (env : Env V)
    (hdata : ∀ v ∈ H.items (outer.eval I env),
      H.data (H.grouped outerKey innerKey inner result o g env v) =
        H.grouped outerKey innerKey inner result o g env v) :
    (GroupJoin.flat ⟨mg.typeArgs, outer, inner, outerKey, innerKey, innerKeySelector,
        ⟨[o, g], result⟩⟩ types.isSome
        (unwrapQueryable (replace g.id inner (replace x.id result collected)))
        ⟨[o, e], replace y.id result pair⟩).eval I env =
      (call m none [call mg none [outer, inner, outerKey, innerKey, resultArg], collection,
        pairArg]).eval I env := by
  have hresult' : resultArg.lambda? = some ⟨[o, g], orDefault none result⟩ := hresult
  have hscope := FlatScope.of_hygienic hresult' hcollection hygienic
  have hpairScope := PairScope.of_hygienic hresult hpair hygienic
  have hrestricts : H.Restricts g.id (replace x.id result collected) :=
    restricts_of_filterChain H.toLists hfilters fun _ hplain => by simp [hplain.free_eq]
  have ho : o.id ∉ (replace x.id result collected).free := fun hmem =>
    hscope.outer_group (hfilters.free (fun _ hplain => hplain.free_eq) o.id hmem)
  have hcapture : ∀ i ∈ inner.free, i ∉ (replace x.id result collected).binders := fun i hi =>
    not_mem_replace x.id (hscope.inner_result i hi) (hscope.inner_collected i hi)
  rw [eval_flat H, eval_selectManyPairs H hm hcollection hpair, eval_groupJoin H hg hresult,
    H.items_seq_of_data (List.forall_mem_map.mpr hdata), List.flatMap_map]
  congr 1
  -- Both joins pair each outer element with the same elements, and make the same of each pair.
  refine List.flatMap_congr fun v _ => ?_
  have hcollected : collected.eval I (Function.update env x.id
      (H.grouped outerKey innerKey inner result o g env v)) =
        H.seq (H.matching outerKey innerKey
          (replace g.id inner (replace x.id result collected)) env v) :=
    (hscope.eval_collected H.constructs).symm.trans (eval_over_group H hrestricts ho
      (not_mem_replace x.id hscope.group_result hscope.group_collected) hcapture env v)
  rw [items_orDefault H, hcollected, H.items_seq_matching,
    matching_congr H (eval_unwrapQueryable H _ env)]
  exact List.map_congr_left fun w _ => hpairScope.eval_pair H.constructs hgroup

/-- **Flat joins of pairs.** A call that makes a result of each outer element and each member of its
group, perhaps with a default, becomes a join or a left join, if what is collected only filters the
group. It keeps its value, if the result does not mention the group, wherever the results of the
grouped join are data. That is everywhere if they are built of the element and its group by members
and constructions. -/
theorem flatten_pairs (H : I.Joins) (hm : m.signature = Queryable.selectManyPairs)
    (hg : mg.signature = Queryable.groupJoin) (houterKey : outerKey.lambda? = some outerKeySelector)
    (hinnerKey : innerKey.lambda? = some innerKeySelector)
    (hresult : resultArg.lambda? = some ⟨[o, g], result⟩)
    (hcollection : collection.lambda? = some ⟨[x], orDefault types collected⟩)
    (hpair : pairArg.lambda? = some ⟨[y, e], pair⟩)
    (hygienic : (call m none [call mg none [outer, inner, outerKey, innerKey, resultArg],
      collection, pairArg]).Hygienic)
    (hfilters : FilterChain Plain g.id (replace x.id result collected))
    (hgroup : g.id ∉ (replace y.id result pair).free)
    (hagain : Yields (again (replace g.id inner (replace x.id result collected))) s
      (replace g.id inner (replace x.id result collected)) t) :
    ∃ e', Yields (flatten again ⟨m, none,
        [call mg none [outer, inner, outerKey, innerKey, resultArg], collection, pairArg]⟩) s e' t ∧
      (∃ typeArgs args, e' = .apply (if types.isSome then Queryable.leftJoin else Queryable.join)
        typeArgs args) ∧
      (∀ env, (∀ v ∈ H.items (outer.eval I env),
          H.data (H.grouped outerKey innerKey inner result o g env v) =
            H.grouped outerKey innerKey inner result o g env v) →
        e'.eval I env = (call m none [call mg none [outer, inner, outerKey, innerKey, resultArg],
          collection, pairArg]).eval I env) ∧
      (H.KeepsData → BuiltOf [o.id, g.id] result → ∀ env,
        e'.eval I env = (call m none [call mg none [outer, inner, outerKey, innerKey, resultArg],
          collection, pairArg]).eval I env) := by
  refine ⟨_, yields_flatten_pairs hm hg houterKey hinnerKey hresult hcollection hpair hfilters
    hagain, ⟨_, _, rfl⟩, fun env hdata => ?_, fun hkeeps hbuilt env => ?_⟩
  · exact eval_flat_pairs H hm hg hresult hcollection hpair hygienic hfilters hgroup env hdata
  · exact eval_flat_pairs H hm hg hresult hcollection hpair hygienic hfilters hgroup env
      fun _ hv => hbuilt.data_grouped hkeeps hv

end Pairs

/-- Each order in a region with its customer, and each other customer with a default order. -/
def regionalPairs : Expr :=
  orderPairs (fun x => orDefault (some [.entity "Order"]) (regionalMembers (groupOf x)))
    orderWithCustomer

theorem flatten_regionalPairs : regionalPairs.Hygienic ∧ ∃ c e' s, regionalPairs.call? = some c ∧
    Yields (flatten (reduceOperators ⟨false⟩ 1) c) s e' s ∧
    (∃ typeArgs args, e' = .apply Queryable.leftJoin typeArgs args) ∧
    e'.eval (tables shop) noValues = regionalPairs.eval (tables shop) noValues := by
  have hygienic : regionalPairs.Hygienic := .of_free_eq_nil (by decide) rfl
  let x : Param := ⟨4, "x", customerWithOrders.ty⟩
  let members : Expr := regionalMembers (groupOf (.param x))
  have hcollection :
      (Expr.quote (.lambda [x] (orDefault (some [.entity "Order"]) members))).lambda? =
        some ⟨[x], orDefault (some [.entity "Order"]) members⟩ := rfl
  have hfilters : FilterChain Plain 3 (replace x.id customerWithOrders members) :=
    .filter rfl rfl rfl ⟨rfl, fun _ hc => absurd hc List.not_mem_nil⟩
      (.asQueryable rfl rfl (.group rfl))
  have hagain : Yields (reduceOperators ⟨false⟩ 1
      (replace 3 storedOrders (replace x.id customerWithOrders members))) ⟨default, ⟨9⟩⟩
      (replace 3 storedOrders (replace x.id customerWithOrders members)) ⟨default, ⟨9⟩⟩ := rfl
  have hbuilt : BuiltOf [2, 3] customerWithOrders :=
    .new (by simpa using ⟨.param (by decide), .param (by decide)⟩)
  obtain ⟨e', hyields, hshape, -, heval⟩ := flatten_pairs (tablesJoins shop) rfl rfl rfl rfl rfl
    hcollection rfl hygienic hfilters (by decide) hagain
  exact ⟨hygienic, _, e', _, rfl, hyields, hshape, heval (tables_keepsData shop) hbuilt noValues⟩

end QueryNormal
