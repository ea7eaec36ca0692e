import QueryNormal.Proofs.Arity
import QueryNormal.Proofs.FlatJoins

/-!
# What flat joins of members mean

* `flatten_members`: a call that collects the members of groups is flattened to a join that keeps
  its value, if both what is made of a group and what is collected of that commute with restricting
  it.
* `Expr.ChangesValue`: the normal form of a closed tree has another value.

What is collected is put into the inner source as it is. Only what is made of a group is checked, so
that a flattening may change the value.
-/

universe u

namespace QueryNormal

open QueryNormal.Expr QueryNormal.Reduction

variable {V : Type u} {I : Interpretation V}

section Members

variable {m mg : Method}
  {outer inner outerKey innerKey resultArg selector result collected e' : Expr} {o g x : Param}
  {types : Option (List Ty)} {again : Expr → Reduction Expr} {s t : ReductionState}

/-- Flattening leaves the call as it is, or puts what is collected of the inner source in its
place. -/
theorem flatten_members_cases
    (hresult : resultArg.lambda? = some ⟨[o, g], orDefault types result⟩)
    (hdefault : types = none → (peelDefault result).2 = false)
    (hselector : selector.lambda? = some ⟨[x], collected⟩)
    (h : Yields (flatten again ⟨m, none,
      [call mg none [outer, inner, outerKey, innerKey, resultArg], selector]⟩) s e' t) :
    e' = call m none [call mg none [outer, inner, outerKey, innerKey, resultArg], selector] ∨
      ∃ join inner' element u,
        Yields (again (replace x.id (replace g.id inner result) collected)) s inner' u ∧
        join.outer = outer ∧ join.outerKey = outerKey ∧ join.innerKey = innerKey ∧
        e' = GroupJoin.flat join types.isSome inner' ⟨[o, element], .param element⟩ := by
  have hpeel := peelDefault_orDefault hdefault
  unfold flatten at h
  split at h
  · exact .inl (yields_pure.mp h).1.symm
  · -- Pairs are made by a call of three arguments.
    rename_i hflat
    obtain ⟨_, hpieces⟩ := Flattening.pairsPieces hflat
    cases hpieces
  · rename_i join left inner₁ outer₁ element₁ hflat
    obtain ⟨_, hpieces⟩ := Flattening.membersPieces hflat
    cases hpieces with
    | intro _ hjoin hselector' _ hparams _ =>
      cases hjoin with
      | intro _ _ _ hresult' =>
        cases hselector.symm.trans hselector'
        cases hresult.symm.trans hresult'
        cases hparams
        simp only [hpeel] at h
        obtain ⟨inner', u, hagain, h⟩ := yields_bind.mp h
        obtain ⟨element, u', _, h⟩ := yields_bind.mp h
        exact .inr ⟨_, inner', element, u, hagain, rfl, rfl, rfl, (yields_pure.mp h).1.symm⟩

/-- The results of a grouped join that restrict the group, perhaps with a default. -/
theorem grouped_orDefault (H : I.Joins) (hrestricts : H.Restricts g.id result)
    (ho : o.id ∉ result.free) (hg : g.id ∉ result.binders)
    (hcapture : ∀ i ∈ inner.free, i ∉ result.binders) (env : Env V) (v : V) :
    H.grouped outerKey innerKey inner (orDefault types result) o g env v =
      H.seq (H.partners types.isSome
        (H.matching outerKey innerKey (replace g.id inner result) env v)) := by
  have hgrouped : H.grouped outerKey innerKey inner result o g env v =
      H.seq (H.matching outerKey innerKey (replace g.id inner result) env v) :=
    eval_over_group H hrestricts ho hg hcapture env v
  cases types with
  | none => exact hgrouped
  | some types =>
    have hdefault : H.grouped outerKey innerKey inner (orDefault (some types) result) o g env v =
        H.seq (orSingle H.missing (H.items (H.grouped outerKey innerKey inner result o g env v))) :=
      H.defaultIfEmpty _
    rw [hdefault, hgrouped, H.items_seq_matching]
    rfl

/-- What is collected of the elements that match an outer element is what matches it of all that is
collected. -/
theorem items_collected (H : I.Joins) {source inner' : Expr} {env : Env V}
    (hnarrows : types = none → H.Restricts x.id collected)
    (hkeeps : types ≠ none → ∀ env v,
      H.items (collected.eval I (Function.update env x.id v)) = H.items v)
    (hvalue : inner'.eval I env =
      collected.eval I (Function.update env x.id (source.eval I env))) (v : V) :
    H.items (collected.eval I (Function.update env x.id
        (H.seq (H.partners types.isSome (H.matching outerKey innerKey source env v))))) =
      H.partners types.isSome (H.matching outerKey innerKey inner' env v) := by
  cases types with
  | none =>
    have hnarrowed := hnarrows rfl env (source.eval I env)
      (H.matchKeys (outerKey.eval I env) (innerKey.eval I env) v)
    have hmatching : H.matching outerKey innerKey inner' env v = (H.items (collected.eval I
        (Function.update env x.id (source.eval I env)))).filter
          (H.matchKeys (outerKey.eval I env) (innerKey.eval I env) v) := by
      rw [Interpretation.Joins.matching, hvalue]
    exact (congrArg H.items hnarrowed).trans (H.items_seq_filter.trans hmatching.symm)
  | some types =>
    have hkept := hkeeps (Option.some_ne_none types) env
    have hmatching : H.matching outerKey innerKey inner' env v =
        H.matching outerKey innerKey source env v := by
      rw [Interpretation.Joins.matching, hvalue, hkept, Interpretation.Joins.matching]
    rw [hkept, hmatching, H.items_seq_partners]

/-- **Flat joins of members.** A call that collects something of what is made of each group, perhaps
with a default, keeps its value if it is flattened: what is made of a group refers to no outer
element and commutes with restricting the group, and what is collected of that commutes with
restricting it, or, if there is a default, keeps the elements. -/
theorem flatten_members (H : I.Joins) (hm : m.signature = Queryable.selectMany)
    (hg : mg.signature = Queryable.groupJoin)
    (hresult : resultArg.lambda? = some ⟨[o, g], orDefault types result⟩)
    (hdefault : types = none → (peelDefault result).2 = false)
    (hselector : selector.lambda? = some ⟨[x], collected⟩)
    (hygienic : (call m none [call mg none [outer, inner, outerKey, innerKey, resultArg],
      selector]).Hygienic)
    (ho : o.id ∉ result.free) (hrestricts : H.Restricts g.id result)
    (hnarrows : types = none → H.Restricts x.id collected)
    (hkeeps : types ≠ none → ∀ env v,
      H.items (collected.eval I (Function.update env x.id v)) = H.items v)
    (hagain : ∀ s inner' t, Yields (again (replace x.id (replace g.id inner result) collected)) s
      inner' t → SameValue I (replace x.id (replace g.id inner result) collected) inner')
    (h : Yields (flatten again ⟨m, none,
      [call mg none [outer, inner, outerKey, innerKey, resultArg], selector]⟩) s e' t) :
    SameValue I (call m none [call mg none [outer, inner, outerKey, innerKey, resultArg],
      selector]) e' := by
  intro env
  have hselector' : selector.lambda? = some ⟨[x], orDefault none collected⟩ := hselector
  have hscope := FlatScope.of_hygienic hresult hselector' hygienic
  rcases flatten_members_cases hresult hdefault hselector h with
    rfl | ⟨join, inner', element, u, hinner, houter, houterKey, hinnerKey, rfl⟩
  · rfl
  -- What is spliced into the inner source captures nothing of it.
  have hcapture : ∀ i ∈ (replace g.id inner result).free, i ∉ collected.binders :=
    (holds_replace (p := fun _ => True) established_true.toMaintained
      ⟨fun _ _ => trivial, hscope.inner_collected⟩
      ⟨fun _ _ => trivial, fun i hi => .inr (hscope.result_collected i hi)⟩).free
  have hvalue : inner'.eval I env =
      collected.eval I (Function.update env x.id ((replace g.id inner result).eval I env)) :=
    (hagain _ _ _ hinner env).trans (eval_replace H.constructs hscope.x_collected hcapture env)
  have hgrouped (v : V) : H.grouped outerKey innerKey inner (orDefault types result) o g env v =
      H.seq (H.partners types.isSome
        (H.matching outerKey innerKey (replace g.id inner result) env v)) :=
    grouped_orDefault H hrestricts ho hscope.group_result hscope.inner_result env v
  rw [eval_flat H, eval_selectMany H hm hselector, eval_groupJoin H hg hresult,
    H.items_seq_of_data (by simp [hgrouped, H.data_seq]), List.flatMap_map, houter]
  congr 1
  refine List.flatMap_congr fun v _ => ?_
  simp only [Expr.eval, Function.update_self, List.map_id', hgrouped, houterKey, hinnerKey]
  exact (items_collected H hnarrows hkeeps hvalue v).symm

end Members

/-! ## Members of groups of orders -/

/-- Something collected of what is made of the orders of each customer. -/
def orderMembers (made collected : Expr → Expr) : Expr :=
  let order : Ty := .entity "Order"
  let w : Param := ⟨9, "w", .queryable order⟩
  let members : Expr := collected (.param w)
  .apply Queryable.selectMany [w.ty, members.ty.element?.getD order]
    [ordersGrouped (made (.param ⟨3, "g", .enumerable order⟩)), .quote (.lambda [w] members)]

/-- The orders, each projected to itself. -/
def eachItself (orders : Expr) : Expr :=
  let order : Ty := .entity "Order"
  .apply Queryable.select [order, order]
    [orders, .quote (.lambda [⟨10, "z", order⟩] (.param ⟨10, "z", order⟩))]

theorem flatten_regionalMembers : (orderMembers regionalMembers eachItself).Hygienic ∧
    ∃ c typeArgs args s t, (orderMembers regionalMembers eachItself).call? = some c ∧
      Yields (flatten (reduceOperators ⟨false⟩ 1) c) s (.apply Queryable.join typeArgs args) t ∧
      SameValue (tables shop) (orderMembers regionalMembers eachItself)
        (.apply Queryable.join typeArgs args) := by
  have hygienic : (orderMembers regionalMembers eachItself).Hygienic :=
    .of_free_eq_nil (by decide) rfl
  let g : Param := ⟨3, "g", .enumerable (.entity "Order")⟩
  let w : Param := ⟨9, "w", .queryable (.entity "Order")⟩
  let o : Param := ⟨2, "o", .entity "Customer"⟩
  have hresult : (Expr.quote (.lambda [o, g] (regionalMembers (.param g)))).lambda? =
      some ⟨[o, g], orDefault none (regionalMembers (.param g))⟩ := rfl
  have hmade : FilterChain (·.free = []) g.id (regionalMembers (.param g)) :=
    .filter rfl rfl rfl rfl (.asQueryable rfl rfl (.group rfl))
  have hcollected : FilterChain (·.free = []) w.id (eachItself (.param w)) :=
    .select rfl rfl rfl (.group rfl)
  let inner : Expr := replace w.id (replace g.id storedOrders (regionalMembers (.param g)))
    (eachItself (.param w))
  have hagain : ∀ s inner' t, Yields (reduceOperators ⟨false⟩ 1 inner) s inner' t →
      SameValue (tables shop) inner inner' := by
    intro s inner' t h
    cases h
    exact fun _ => rfl
  refine ⟨hygienic, _, _, _, ⟨default, ⟨11⟩⟩, ⟨default, ⟨12⟩⟩, rfl, rfl, ?_⟩
  exact flatten_members (tablesJoins shop) rfl rfl hresult (fun _ => rfl) rfl hygienic (by decide)
    (restricts_of_filterChain (tablesLists shop) hmade fun _ h => by simp [h])
    (fun _ => restricts_of_filterChain (tablesLists shop) hcollected fun _ h => by simp [h])
    (fun h => absurd rfl h) hagain rfl

/-! ## Flattenings that change the value -/

/-- The tree is closed, its calls are given what their methods declare, no id is declared twice, and
its normal form is a flat join that has another value in the shop. -/
def Expr.ChangesValue (e : Expr) : Prop :=
  e.Closed ∧ e.EveryCall Call.Exact ∧ e.binders.Nodup ∧ ∃ join typeArgs args,
    join ∈ [Queryable.join, Queryable.leftJoin] ∧
    normalize ⟨false⟩ default e = (.ok (.apply join typeArgs args), default) ∧
    (Expr.apply join typeArgs args).eval (tables shop) noValues ≠ e.eval (tables shop) noValues

/-- The first order. -/
def takeOne (orders : Expr) : Expr :=
  .apply (Domain.queries.operator "Take" 1 [.queryable (.slot 0), .int] (.queryable (.slot 0)))
    [.entity "Order"] [orders, .const (.int 1) .int]

/-- The numbers of the orders. -/
def orderNumbers (orders : Expr) : Expr :=
  let order : Ty := .entity "Order"
  .apply Queryable.select [order, .int]
    [orders, .quote (.lambda [⟨10, "z", order⟩] (.access (.param ⟨10, "z", order⟩) "Number" .int))]

/-- The normal form has another value if it has another number of elements. -/
theorem changesValue_of_length {e : Expr} {join : Signature} {typeArgs : List Ty} {args : List Expr}
    (hclosed : e.Closed) (hexact : ∀ c ∈ e.calls, c.Exact) (hnodup : e.binders.Nodup)
    (hjoin : join ∈ [Queryable.join, Queryable.leftJoin])
    (h : normalize ⟨false⟩ default e = (.ok (.apply join typeArgs args), default))
    (hlength : ((Expr.apply join typeArgs args).eval (tables shop) noValues).elements.length ≠
      (e.eval (tables shop) noValues).elements.length) : e.ChangesValue :=
  ⟨hclosed, hexact, hnodup, join, typeArgs, args, hjoin, h,
    fun heval => hlength (congrArg (fun v => v.elements.length) heval)⟩

/-- What is collected of a group may be a part of it, a default, a projection or another sequence,
and may filter a default. -/
theorem normalize_changes_value :
    (orderMembers (asQueryable · (.entity "Order")) takeOne).ChangesValue ∧
    (orderMembers (asQueryable · (.entity "Order"))
      (orDefault (some [.entity "Order"]))).ChangesValue ∧
    (orderMembers (asQueryable · (.entity "Order")) orderNumbers).ChangesValue ∧
    (orderMembers (asQueryable · (.entity "Order")) fun _ => storedOrders).ChangesValue ∧
    (orderMembers (fun g => orDefault (some [.entity "Order"]) (asQueryable g (.entity "Order")))
      regionalMembers).ChangesValue := by
  refine ⟨?_, ?_, ?_, ?_, ?_⟩ <;> refine changesValue_of_length ?_ ?_ ?_ ?_ rfl ?_ <;> decide

end QueryNormal
