import QueryNormal.Proofs.Invariants

/-!
# Trees that the operator pass leaves alone

* `Call.Unaffected`: no rule applies to the call by its method and by what it is made of.
* `Call.Reduced`: nor would one apply once a part that is not visited is.
* `established_reduced`: every rule leaves reduced calls.
* `Expr.isPending`: a rule applies to the node by the type of a part.
* `Expr.Idle`: no node of the tree is pending.
* `reduce_eq_self`: a tree of unaffected calls with nothing pending, and no join to flatten, is left
  as it is.

Reducing a part may change its type, so a rule that goes by the type of a part may apply to a node
after the node has been visited. Whether any other rule applies is decided for good by the visit.
-/

namespace QueryNormal

open QueryNormal.Expr Reduction

/-! ## Reduced calls -/

/-- An eager loading has no receiver, which would not be visited. -/
def Call.Whole (c : Call) : Prop := c.method.signature ∈ Metadata.loading → c.receiver = none

/-- No rule applies to the call, except those that go by the type of a part, and flattening. -/
structure Call.Unaffected (c : Call) : Prop where
  note : Note.of? c.method = none
  hint : Mode.hinted? c.method = none
  inMemory : c.method.family = .enumerable →
    staysInMemory c.method c.args = true ∨ toQueryable c.method c.args = .ok none
  membership : (membershipElement? c.method).isSome →
    ∃ x, c.receiver = some x ∧ x.isConstruction = true
  ordering : keyedOrdering? c.method = none

/-- No rule applies to the call, except those that go by the type of a part, and flattening. The
receiver of an eager loading is not visited, so there must not be one. -/
structure Call.Reduced (c : Call) : Prop extends c.Unaffected where
  loading : c.method.signature ∈ Metadata.loading → c.receiver = none

/-- A call of an operator on queries is reduced once its ordering is spelled out. -/
theorem Call.Reduced.of_queryable {c : Call} (hfamily : c.method.family = .queryable)
    (hord : keyedOrdering? c.method = none) : c.Reduced where
  note := note_eq_none (by simp [hfamily])
  hint := hint_eq_none (by rw [hfamily]; decide)
  inMemory h := by simp [hfamily] at h
  membership h := by simp [membership_eq_none (m := c.method) (by simp [hfamily])] at h
  ordering := hord
  loading h := by simp [family_of_mem_loading h] at hfamily

/-- A call of an in-memory operator is reduced if it has a reason to stay in memory. -/
theorem Call.Reduced.of_enumerable {c : Call} (hfamily : c.method.family = .enumerable)
    (hstays : staysInMemory c.method c.args = true ∨ toQueryable c.method c.args = .ok none) :
    c.Reduced where
  note := note_eq_none (by simp [hfamily])
  hint := hint_eq_none (by rw [hfamily]; decide)
  inMemory _ := hstays
  membership h := by simp [membership_eq_none (m := c.method) (by simp [hfamily])] at h
  ordering := ordering_eq_none (by simp [hfamily])
  loading h := by simp [family_of_mem_loading h] at hfamily

theorem Reshaped.staysInMemory {c c' : Call} (h : Reshaped c c')
    (hc : QueryNormal.staysInMemory c.method c.args = true) :
    QueryNormal.staysInMemory c'.method c'.args = true := by
  obtain ⟨m, r, args⟩ := c
  obtain ⟨m', r', args'⟩ := c'
  obtain ⟨rfl : m' = m, _, hargs⟩ := h
  change List.Forall₂ KeepsShape args args' at hargs
  cases hargs with
  | nil => exact hc
  | cons hfirst _ =>
    simp only [QueryNormal.staysInMemory, Bool.or_eq_true] at hc ⊢
    exact hc.imp_right hfirst.construction

theorem Reshaped.reduced {c c' : Call} (h : Reshaped c c') (hc : c.Reduced) : c'.Reduced := by
  have hmethod := h.method
  refine ⟨⟨?_, ?_, fun hfamily => ?_, fun hmember => ?_, ?_⟩, fun hloading => ?_⟩
  · exact hmethod ▸ hc.note
  · exact hmethod ▸ hc.hint
  · rcases hc.inMemory (hmethod ▸ hfamily) with hstays | hnone
    · exact .inl (h.staysInMemory hstays)
    · rw [hmethod]
      exact .inr (toQueryable_eq_none_congr h.args.length_eq hnone)
  · obtain ⟨x, hx, hconstruction⟩ := hc.membership (hmethod ▸ hmember)
    have hreceiver := h.receiver
    rw [hx] at hreceiver
    rcases hx' : c'.receiver with _ | x'
    · rw [hx'] at hreceiver
      cases hreceiver
    · rw [hx'] at hreceiver
      cases hreceiver with
      | some hkeeps => exact ⟨x', rfl, hkeeps.construction hconstruction⟩
  · exact hmethod ▸ hc.ordering
  · have hreceiver := h.receiver
    rw [hc.loading (hmethod ▸ hloading)] at hreceiver
    cases hx' : c'.receiver with
    | none => rfl
    | some x' =>
      rw [hx'] at hreceiver
      cases hreceiver

/-! ## Every rule -/

theorem family_of_built : ∀ s ∈ builtOperators, s = Enumerable.asEnumerable ∨
    s.family = .queryable ∧ s ≠ Queryable.order ∧ s ≠ Queryable.orderDescending := by
  decide +kernel

theorem Call.Built.reduced {c : Call} (h : c.Built) : c.Reduced := by
  rcases family_of_built _ h.mem with hm | ⟨hfamily, horder, hdescending⟩
  · refine .of_enumerable ?_ (.inr (toQueryable_eq_none c.args ?_))
    · rw [Method.family, hm]
      rfl
    · rw [Method.name, hm]
      decide +kernel
  · refine .of_queryable hfamily ?_
    simp [keyedOrdering?, Method.is, horder, hdescending]

theorem established_reduced : Established Call.Whole Call.Reduced where
  reshaped := Reshaped.reduced
  built := Call.Built.reduced
  flat _ hjoined _ _ := by
    rcases hjoined with rfl | rfl <;> exact .of_queryable rfl rfl
  weaken hc := hc.loading
  walked hq hrule hord := by
    cases ruleCase hrule with
    | other hnote hhint _ hfamily hmember _ =>
      exact ⟨⟨hnote, hhint, fun h => absurd h hfamily, fun h => by simp [hmember] at h, hord⟩, hq⟩
  converted _ _ _ _ hfound hord _ := .of_queryable (toQueryable_eq_some hfound).family hord
  kept _ hrule hstays := by
    cases ruleCase hrule with
    | inMemory _ _ _ hfamily => exact .of_enumerable hfamily (.inl hstays)
  unmatched _ hrule hnone := by
    cases ruleCase hrule with
    | inMemory _ _ _ hfamily => exact .of_enumerable hfamily (.inr hnone)
  member {m c args element} hq hrule hconstruction := by
    cases ruleCase hrule with
    | membership hnote hhint _ hfamily hmember =>
      obtain ⟨-, owner, howner, -⟩ := owner_of_membership hmember
      exact ⟨⟨hnote, hhint, fun h => absurd h hfamily, fun _ => ⟨c, rfl, hconstruction⟩,
        ordering_eq_none (by simp [howner])⟩, hq⟩
  loading {m r args typeArgs} hq hrule _ := by
    cases ruleCase hrule with
    | loading hnote hhint _ hfamily hmember hloading =>
      have hr : r = none := hq (mem_loading_of_loadsOrdered hloading)
      have hmetadata : (m.withTypeArgs typeArgs).family = .metadata :=
        family_of_loadsOrdered hloading
      subst hr
      refine ⟨by simp, ⟨hnote, hhint, fun h => absurd h hfamily, fun h => ?_, ?_⟩, fun _ => rfl⟩
      · rw [membership_eq_none (m := m.withTypeArgs typeArgs) (by simp [hmetadata])] at h
        cases h
      · exact ordering_eq_none (m := m.withTypeArgs typeArgs) (by simp [hmetadata])
  elementAt hsource := .of_enumerable rfl (.inl (by simp [staysInMemory, hsource]))
  any hsource := .of_enumerable rfl (.inl (by simp [staysInMemory, hsource]))

theorem Call.Reduced.not_converted {m m' : Method} {r : Option Expr} {args args' args'' : List Expr}
    (hc : Call.Reduced ⟨m, r, args⟩) (hrule : Rule.of m r args = .inMemory)
    (hstays : staysInMemory m args = false) (hlen : args.length = args'.length) :
    toQueryable m args' ≠ .ok (some (m', args'')) := by
  intro hfound
  cases ruleCase hrule with
  | inMemory _ _ _ hfamily =>
    have hnone := (hc.inMemory hfamily).resolve_left (by simp [hstays])
    rw [toQueryable_eq_none_congr hlen hnone] at hfound
    cases hfound

/-! ## Rules that go by the type of a part -/

/-- Whether the selector of an eager loading is spelled as the pass spells it: a lambda of one
parameter, quoted at most once. -/
def Expr.isSelector : Expr → Bool
  | .lambda [_] _ => true
  | .quote (.lambda [_] _) => true
  | _ => false

/-- Whether the call loads an ordered navigation and is not spelled as the pass spells that. -/
def respells (m : Method) (args : List Expr) : Bool :=
  loadsOrdered m args &&
    match args with
    | [_, selector] => !selector.isSelector
    | _ => true

/-- Whether a rule applies to the node by the type of a part: the target of a position, the
navigation of an eager loading, the result of a projection, or the operand of shorthand. -/
def Expr.isPending : Expr → Bool
  | .call m r args =>
      (indexedElement? m r args).isSome || respells m args || (deferredProjection? m args).isSome
  | .binary op lhs rhs => (Sugar.of? op lhs rhs).isSome
  | _ => false

/-- No node of the tree is pending. -/
def Expr.Idle (e : Expr) : Prop := ∀ n ∈ e.nodes, n.isPending = false

instance (e : Expr) : Decidable e.Idle :=
  inferInstanceAs (Decidable (∀ n ∈ e.nodes, n.isPending = false))

theorem idle_iff {e : Expr} : e.Idle ↔ e.isPending = false ∧ ∀ x ∈ e.parts, x.Idle := by
  unfold Expr.Idle
  rw [nodes_eq]
  simp only [List.forall_mem_cons, List.mem_flatMap, forall_exists_index, and_imp]
  refine and_congr_right fun _ => ⟨fun h x hx n hn => h n x hx hn, fun h n x hx => h x hx n⟩

/-! ## The pass on an idle tree -/

section Idle

variable {provider : Provider} {again : Expr → Reduction Expr} {e : Expr} {c : Call}
  {m : Method} {r : Option Expr} {args : List Expr}

theorem reduceList_eq_self : ∀ {es : List Expr},
    (∀ x ∈ es, x.reduce provider again = pure x) → reduceList provider again es = pure es
  | [], _ => rfl
  | x :: es, h => by
    rw [reduceList, h x (by simp), pure_bind,
      reduceList_eq_self fun y hy => h y (List.mem_cons_of_mem x hy), pure_bind]

theorem reduceOption_eq_self (h : ∀ x ∈ r, x.reduce provider again = pure x) :
    reduceOption provider again r = pure r := by
  cases r with
  | none => rfl
  | some x => rw [reduceOption, h x rfl, pure_bind]

theorem reduceBindings_eq_self : ∀ {bs : List Binding},
    (∀ x ∈ bs.flatMap Binding.values, x.reduce provider again = pure x) →
      reduceBindings provider again bs = pure bs
  | [], _ => rfl
  | .assign name value :: bs, h => by
    rw [reduceBindings, h value (by simp [Binding.values]), pure_bind,
      reduceBindings_eq_self fun y hy => h y (by simp [hy]), pure_bind]
  | .items name values :: bs, h => by
    rw [reduceBindings,
      reduceList_eq_self fun y hy => h y (by simp [Binding.values, hy]), pure_bind,
      reduceBindings_eq_self fun y hy => h y (by simp [hy]), pure_bind]

theorem settle_eq_self (hord : keyedOrdering? c.method = none) (hflat : Flattening.of? c = none) :
    settle again c = pure c.toExpr := by
  simp [settle_eq_flatten hord, flatten, hflat]

theorem checkSelect_eq_pure (h : deferredProjection? m args = none) :
    checkSelect m args = pure () := by
  unfold deferredProjection? at h
  unfold checkSelect checkProjection
  split
  · rename_i hm
    rw [if_pos hm] at h
    split
    · rename_i p body hlambda
      simp only [hlambda] at h
      simp [h]
    · rfl
  · rfl

theorem reloaded_of_loadsOrdered {source selector body : Expr} {params : List Param}
    (h : loadsOrdered m [source, selector] = true)
    (hlambda : selector.lambda? = some ⟨params, body⟩) : reloaded m body.ty = m := by
  have hordered : body.ty.isSeqOf .orderedEnumerable = true := by
    simp [loadsOrdered, hlambda] at h
    exact h.2
  unfold reloaded
  unfold Ty.isSeqOf at hordered ⊢
  split at hordered
  · simp_all
  · cases hordered

theorem reduce_loading_eq_self (hrule : Rule.of m r args = .loading)
    (hspelled : respells m args = false) (hargs : ∀ x ∈ args, x.reduce provider again = pure x) :
    (Expr.call m r args).reduce provider again = pure (.call m r args) := by
  have hloading : loadsOrdered m args = true := by
    cases ruleCase hrule with
    | loading _ _ _ _ _ hloading => exact hloading
  unfold respells at hspelled
  rw [hloading, Bool.true_and] at hspelled
  rw [Expr.reduce.eq_def]
  simp only [hrule]
  split at hspelled
  · rename_i source selector
    rw [Bool.not_eq_false'] at hspelled
    have hsource : source.reduce provider again = pure source := hargs source (by simp)
    have hselector : selector.reduce provider again = pure selector := hargs selector (by simp)
    unfold Expr.isSelector at hspelled
    split at hspelled
    · rename_i p body
      have hlambda : (Expr.lambda [p] body).lambda? = some ⟨[p], body⟩ := rfl
      simp [hsource, hselector, navigationSelector, hlambda, Expr.unquote, isQuote,
        Selector.arity, reloaded_of_loadsOrdered hloading hlambda, Lambda.toExpr]
    · rename_i p body
      have hlambda : (Expr.quote (.lambda [p] body)).lambda? = some ⟨[p], body⟩ := rfl
      simp [hsource, hselector, navigationSelector, hlambda, Expr.unquote, isQuote,
        Selector.arity, reloaded_of_loadsOrdered hloading hlambda, Lambda.quoted, Lambda.toExpr]
    · cases hspelled
  · cases hspelled

/-- An unaffected call with nothing pending is left as it is, if its parts are. -/
theorem reduce_call_eq_self (hc : Call.Unaffected ⟨m, r, args⟩)
    (hflat : Flattening.of? ⟨m, r, args⟩ = none) (hidle : (Expr.call m r args).isPending = false)
    (hparts : ∀ x ∈ (Expr.call m r args).parts, x.reduce provider again = pure x) :
    (Expr.call m r args).reduce provider again = pure (.call m r args) := by
  have hr : reduceOption provider again r = pure r :=
    reduceOption_eq_self fun x hx => hparts x (by simp_all [parts])
  have hargs : ∀ x ∈ args, x.reduce provider again = pure x :=
    fun x hx => hparts x (by simp [parts, hx])
  have hlist : reduceList provider again args = pure args := reduceList_eq_self hargs
  simp only [Expr.isPending, Bool.or_eq_false_iff, Option.isSome_eq_false_iff,
    Option.isNone_iff_eq_none] at hidle
  obtain ⟨⟨hindex, hspelled⟩, hprojection⟩ := hidle
  cases hrule : Rule.of m r args with
  | note n =>
    cases ruleCase hrule with
    | note hnote => exact absurd (hc.note.symm.trans hnote) (by simp)
  | hint mode =>
    cases ruleCase hrule with
    | hint _ hhint => exact absurd (hc.hint.symm.trans hhint) (by simp)
  | index element =>
    cases ruleCase hrule with
    | index _ _ hsome => exact absurd (hindex.symm.trans hsome) (by simp)
  | inMemory =>
    rw [Expr.reduce.eq_def]
    simp only [hrule, hr, hlist, pure_bind]
    split
    · rfl
    · rename_i hstays
      cases ruleCase hrule with
      | inMemory _ _ _ hfamily =>
        have hnone : toQueryable m args = .ok none := (hc.inMemory hfamily).resolve_left hstays
        simp [convertCall, hnone, Reduction.ofExcept]
  | membership element =>
    cases ruleCase hrule with
    | membership _ _ _ _ hmember =>
      obtain ⟨x, hx, hconstruction⟩ := hc.membership (by simp [hmember])
      obtain rfl : r = some x := hx
      have hreceiver : x.reduce provider again = pure x := hparts x (by simp [parts])
      rw [Expr.reduce.eq_def]
      simp [hrule, hconstruction, hreceiver, hlist]
  | loading => exact reduce_loading_eq_self hrule hspelled hargs
  | other =>
    rw [Expr.reduce.eq_def]
    simp only [hrule, checkSelect_eq_pure hprojection, hr, hlist, pure_bind]
    exact settle_eq_self hc.ordering hflat

/-- **The operator pass leaves an idle tree of unaffected calls as it is,** unless there is a join to
flatten. -/
theorem reduce_eq_self (he : e.EveryCall Call.Unaffected)
    (hflat : e.EveryCall fun c => Flattening.of? c = none) (hidle : e.Idle) :
    e.reduce provider again = pure e := by
  induction e using induction_parts with
  | _ e ih =>
    obtain ⟨hroot, hrest⟩ := idle_iff.mp hidle
    have hparts : ∀ x ∈ e.parts, x.reduce provider again = pure x :=
      fun x hx => ih x hx (he.part hx) (hflat.part hx) (hrest x hx)
    clear ih hrest hidle
    cases e with
    | call m r args =>
      exact reduce_call_eq_self (everyCall_call.mp he).1 (everyCall_call.mp hflat).1 hroot hparts
    | member target m =>
      rw [Expr.reduce, reduceOption_eq_self fun x hx => hparts x (by simp_all [parts]), pure_bind]
    | binary op lhs rhs =>
      have hnone : Sugar.of? op lhs rhs = none := by simpa [Expr.isPending] using hroot
      rw [Expr.reduce, hnone]
      simp [hparts lhs (by simp [parts]), hparts rhs (by simp [parts])]
    | new type args names =>
      rw [Expr.reduce, reduceList_eq_self fun x hx => hparts x (by simp [parts, hx]), pure_bind]
    | newWith type args names bindings =>
      rw [Expr.reduce, reduceList_eq_self fun x hx => hparts x (by simp [parts, hx]), pure_bind,
        reduceBindings_eq_self fun x hx => hparts x (by simp_all [parts]), pure_bind]
    | _ => simp_all [Expr.reduce, parts]

theorem Runs.eq_self {e' : Expr} {s t : ReductionState} (h : Runs provider e s e' t)
    (he : e.EveryCall Call.Reduced) (hflat : e.EveryCall fun c => Flattening.of? c = none)
    (hidle : e.Idle) : e' = e ∧ t = s := by
  obtain ⟨budget, h⟩ := h
  cases budget with
  | zero => simp [reduceOperators] at h
  | succ budget =>
    have hunaffected := he.mono fun _ => Call.Reduced.toUnaffected
    rw [reduceOperators, reduce_eq_self hunaffected hflat hidle, yields_pure] at h
    exact ⟨h.1.symm, h.2.symm⟩

end Idle

end QueryNormal
