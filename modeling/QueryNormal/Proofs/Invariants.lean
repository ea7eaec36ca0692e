import QueryNormal.Proofs.Rewrites
import QueryNormal.Proofs.Ungroup
import QueryNormal.Proofs.Visits

/-!
# What the passes establish

* `Established q p`: each rule gives calls with the property `p`, from calls with the property `q`.
* `Leaks`: a flattening leaves a reference to a parameter that goes away with the grouped join.
* `Runs.improved`: the operator pass establishes `p` at any depth, and frees no parameter if no
  flattening that it makes leaks.
* `Ungroups.holds`: the grouped-join pass keeps a maintained property, and frees no parameter.

A fact about all calls of a normal form is proved from one case per rule (`everyCall_of_normalize`).
-/

namespace QueryNormal

open QueryNormal.Expr

/-- Every rule of the operator pass establishes `p`. The cases look at the call before its parts are
visited. -/
structure Established (q p : Call → Prop) : Prop extends Maintained p where
  weaken {c : Call} : p c → q c
  walked {m : Method} {r : Option Expr} {args : List Expr} : q ⟨m, r, args⟩ →
    Rule.of m r args = .other → keyedOrdering? m = none → p ⟨m, r, args⟩
  converted {m m' : Method} {r : Option Expr} {args args' args'' : List Expr} : q ⟨m, r, args⟩ →
    Rule.of m r args = .inMemory → staysInMemory m args = false → args.length = args'.length →
    toQueryable m args' = .ok (some (m', args'')) → keyedOrdering? m' = none →
    List.Forall₂ KeepsShape args args' → p ⟨m', none, args''⟩
  kept {m : Method} {r : Option Expr} {args : List Expr} : q ⟨m, r, args⟩ →
    Rule.of m r args = .inMemory → staysInMemory m args = true → p ⟨m, r, args⟩
  unmatched {m : Method} {r : Option Expr} {args : List Expr} : q ⟨m, r, args⟩ →
    Rule.of m r args = .inMemory → toQueryable m args = .ok none → p ⟨m, r, args⟩
  member {m : Method} {c : Expr} {args : List Expr} {element : Ty} : q ⟨m, some c, args⟩ →
    Rule.of m (some c) args = .membership element → c.isConstruction = true → p ⟨m, some c, args⟩
  /-- The receiver of a loading is not visited. -/
  loading {m : Method} {r : Option Expr} {args : List Expr} {typeArgs : List Ty} :
    q ⟨m, r, args⟩ → Rule.of m r args = .loading → typeArgs.length = m.typeArgs.length →
    (∀ x ∈ r, x.EveryCall q → x.EveryCall p) ∧ p ⟨m.withTypeArgs typeArgs, r, args⟩
  elementAt {element : Ty} {source position : Expr} : source.isConstruction = true →
    p ⟨⟨Enumerable.elementAt, [element]⟩, none, [source, position]⟩
  any {element : Ty} {source : Expr} : source.isConstruction = true →
    p ⟨⟨Enumerable.any, [element]⟩, none, [source]⟩

/-- What two kinds of rules establish, they establish together. -/
theorem Established.and {q p q' p' : Call → Prop} (h : Established q p) (h' : Established q' p') :
    Established (fun c => q c ∧ q' c) (fun c => p c ∧ p' c) where
  reshaped hshape hc := ⟨h.reshaped hshape hc.1, h'.reshaped hshape hc.2⟩
  built hc := ⟨h.built hc, h'.built hc⟩
  flat hc hjoined htypes hargs := ⟨h.flat hc.1 hjoined htypes hargs, h'.flat hc.2 hjoined htypes hargs⟩
  weaken hc := ⟨h.weaken hc.1, h'.weaken hc.2⟩
  walked hq hrule hord := ⟨h.walked hq.1 hrule hord, h'.walked hq.2 hrule hord⟩
  converted hq hrule hstays hlen hfound hord hshape :=
    ⟨h.converted hq.1 hrule hstays hlen hfound hord hshape,
      h'.converted hq.2 hrule hstays hlen hfound hord hshape⟩
  kept hq hrule hstays := ⟨h.kept hq.1 hrule hstays, h'.kept hq.2 hrule hstays⟩
  unmatched hq hrule hnone := ⟨h.unmatched hq.1 hrule hnone, h'.unmatched hq.2 hrule hnone⟩
  member hq hrule hc := ⟨h.member hq.1 hrule hc, h'.member hq.2 hrule hc⟩
  loading hq hrule hlen := by
    obtain ⟨hr, hc⟩ := h.loading hq.1 hrule hlen
    obtain ⟨hr', hc'⟩ := h'.loading hq.2 hrule hlen
    refine ⟨fun x hx hcalls c hmem => ⟨?_, ?_⟩, hc, hc'⟩
    · exact hr x hx (hcalls.mono fun _ => And.left) c hmem
    · exact hr' x hx (hcalls.mono fun _ => And.right) c hmem
  elementAt hc := ⟨h.elementAt hc, h'.elementAt hc⟩
  any hc := ⟨h.any hc, h'.any hc⟩

/-- More may be asked of the calls before, if what is established gives that too. -/
theorem Established.of_stronger {q q' p : Call → Prop} (h : Established q p)
    (hq : ∀ {c}, q' c → q c) (hp : ∀ {c}, p c → q' c) : Established q' p where
  toMaintained := h.toMaintained
  weaken := hp
  walked hc := h.walked (hq hc)
  converted hc := h.converted (hq hc)
  kept hc := h.kept (hq hc)
  unmatched hc := h.unmatched (hq hc)
  member hc := h.member (hq hc)
  loading hc hrule hlen := by
    obtain ⟨hr, hc'⟩ := h.loading (hq hc) hrule hlen
    exact ⟨fun x hx hcalls => hr x hx (hcalls.mono fun _ => hq), hc'⟩
  elementAt := h.elementAt
  any := h.any

/-- Nothing is asked, and nothing is established. -/
theorem established_true : Established (fun _ => True) (fun _ => True) where
  reshaped _ _ := trivial
  built _ := trivial
  flat _ _ _ _ := trivial
  weaken _ := trivial
  walked _ _ _ := trivial
  converted _ _ _ _ _ _ _ := trivial
  kept _ _ _ := trivial
  unmatched _ _ _ := trivial
  member _ _ _ := trivial
  loading _ _ _ := ⟨fun _ _ h => h, trivial⟩
  elementAt _ := trivial
  any _ := trivial

/-! ## Flattenings in scope -/

/-- Flattening the call leaves a reference to a parameter of the grouped join's result selector,
which goes away: in the result selector of the flat join, outside of what that declares, or in its
inner source, in which a projection of each element to itself has hidden it from the scan. -/
inductive Leaks : Call → Prop
  | result {c : Call} {join : GroupJoin} {body inner : Expr} {left : Bool} {result : Lambda}
      {x : Param} : PairsPieces c join body left inner result → x ∈ join.result.params →
      x.id ∈ result.toExpr.free → x.id ∉ c.toExpr.free → Leaks c
  | pairs {c : Call} {join : GroupJoin} {body inner : Expr} {left : Bool} {result : Lambda}
      {x : Param} : PairsPieces c join body left inner result →
      body.hasCall Call.selectsItself = true → x ∈ join.result.params → x.id ∈ inner.free →
      x.id ∉ c.toExpr.free → Leaks c
  | members {c : Call} {join : GroupJoin} {body inner : Expr} {left : Bool}
      {x outer element : Param} : MembersPieces c join body left inner outer element →
      body.hasCall Call.selectsItself = true → x ∈ join.result.params → x.id ∈ inner.free →
      x.id ∉ c.toExpr.free → Leaks c

section OperatorPass

variable {provider : Provider} {q p : Call → Prop} {S : UInt32 → Prop} {e e' : Expr} {c : Call}
  {s t : ReductionState} {intact : Prop}

/-! ## Visited parts -/

/-- A visited part: it keeps its shape, the calls have the property, and no parameter is freed if
`intact` holds, which stands for flattenings that do not leak. -/
def Improved (intact : Prop) (q p : Call → Prop) (x y : Expr) : Prop :=
  KeepsShape x y ∧
    ∀ S : UInt32 → Prop, (∀ id, S id) ∨ intact → x.Holds q S → y.Holds p S

theorem Improved.mono {intact' : Prop} {x y : Expr} (h : Improved intact q p x y)
    (hintact : intact' → intact) : Improved intact' q p x y :=
  ⟨h.1, fun S hscope => h.2 S (hscope.imp_right hintact)⟩

variable {P : PartRun} (hP : ∀ {x s y t}, P x s y t → Improved intact q p x y)
include hP

theorem holds_of_threads {args args' : List Expr} (h : Threads P args s args' t)
    (hscope : (∀ id, S id) ∨ intact) (hargs : ∀ a ∈ args, a.Holds q S) :
    ∀ a ∈ args', a.Holds p S := by
  intro a' ha'
  obtain ⟨a, ha, hstep⟩ := exists_of_forall₂ (h.forall₂ hP) ha'
  exact hstep.2 S hscope (hargs a ha)

theorem holds_of_threadsOption {r r' : Option Expr} (h : ThreadsOption P r s r' t)
    (hscope : (∀ id, S id) ∨ intact) (hr : ∀ x ∈ r, x.Holds q S) :
    ∀ x ∈ r', x.Holds p S := by
  cases h with
  | none =>
    intro _ hx
    cases hx
  | some hx =>
    rintro _ ⟨⟩
    exact (hP hx).2 S hscope (hr _ rfl)

/-- A call whose parts are visited, before and after. -/
theorem holds_of_visited (hp : Maintained p) {m : Method} {r r' : Option Expr}
    {args args' : List Expr} {s₁ t₁ s₂ t₂ : ReductionState} (hcall : p ⟨m, r, args⟩)
    (hr : ThreadsOption P r s₁ r' t₁) (hargs : Threads P args s₂ args' t₂)
    (hscope : (∀ id, S id) ∨ intact) (he : (call m r args).Holds q S) :
    (call m r' args').Holds p S := by
  rw [holds_call] at he ⊢
  refine ⟨hp.reshaped ?_ hcall, ?_, ?_⟩
  · exact ⟨rfl, hr.rel fun h => (hP h).1, hargs.forall₂ fun h => (hP h).1⟩
  · exact holds_of_threadsOption hP hr hscope he.2.1
  · exact holds_of_threads hP hargs hscope he.2.2

theorem holds_of_walk (hp : Maintained p) (h : WalksBy P e s e' t)
    (hcall : ∀ c, e.call? = some c → p c) (hscope : (∀ id, S id) ∨ intact) (he : e.Holds q S) :
    e'.Holds p S := by
  obtain ⟨-, hparam, hparts⟩ := holds_iff.mp he
  have hvisited : WalksBy (fun x _ y _ => KeepsShape x y ∧
      y.Holds p (Under e.declared S)) e s e' t :=
    h.mono_mem fun x hx _ _ _ hstep =>
      ⟨(hP hstep).1, (hP hstep).2 _ (hscope.imp_left fun h id => .inr (h id)) (hparts x hx)⟩
  exact hvisited.holds hp (fun h => h) hcall hparam

/-- A visited call has the properties, unless it is an ordering that is still to be spelled out. -/
theorem VisitsBy.holds (hqp : Established q p) (h : VisitsBy P e s c t)
    (hscope : (∀ id, S id) ∨ intact) (he : e.Holds q S) :
    (∀ x ∈ c.receiver, x.Holds p S) ∧ (∀ a ∈ c.args, a.Holds p S) ∧
      (keyedOrdering? c.method = none → p c) := by
  have hp := hqp.toMaintained
  cases h with
  | @walked m r r' args args' _ _ _ hrule _ hr hargs =>
    rw [holds_call] at he
    refine ⟨?_, ?_, fun hord => ?_⟩
    · exact holds_of_threadsOption hP hr hscope he.2.1
    · exact holds_of_threads hP hargs hscope he.2.2
    · have hcall : p ⟨m, r, args⟩ := hqp.walked he.1 hrule hord
      refine hp.reshaped ?_ hcall
      exact ⟨rfl, hr.rel fun h => (hP h).1, hargs.forall₂ fun h => (hP h).1⟩
  | converted hrule hstays hargs hfound =>
    rw [holds_call] at he
    have hcounterpart := toQueryable_eq_some hfound
    refine ⟨by simp, holds_of_counterpart hp hcounterpart ?_, fun hord => ?_⟩
    · exact holds_of_threads hP hargs hscope he.2.2
    · exact hqp.converted he.1 hrule hstays hargs.length_eq.symm hfound hord
        (hargs.forall₂ fun h => (hP h).1)

theorem VisitsBy.everyCall (hqp : Established q p) (h : VisitsBy P e s c t) (he : e.EveryCall q) :
    ∀ a ∈ c.args, a.EveryCall p := by
  intro a ha
  exact ((h.holds hP hqp (.inl fun _ => trivial) (holds_top.mpr he)).2.1 a ha).calls

theorem SettlesBy.holds (hqp : Established q p) (h : SettlesBy P c s e' t)
    (hleaks : intact → ¬ Leaks c) (hscope : (∀ id, S id) ∨ intact)
    (hreceiver : ∀ x ∈ c.receiver, x.Holds p S) (hargs : ∀ a ∈ c.args, a.Holds p S)
    (hc : keyedOrdering? c.method = none → p c) : e'.Holds p S := by
  have hp := hqp.toMaintained
  have hfree : c.toExpr.Holds (fun _ => True) S :=
    holds_call.mpr ⟨trivial, fun x hx => (hreceiver x hx).weaken fun _ _ => trivial,
      fun a ha => (hargs a ha).weaken fun _ _ => trivial⟩
  -- what is left of the result selector's parameters is free in the call
  have hnarrow {join : GroupJoin} {x : Expr} (hx : x.Holds p (Under join.result.params S))
      (hleft : (∀ id, S id) ∨ ∀ y ∈ join.result.params, y.id ∈ x.free → y.id ∈ c.toExpr.free) :
      x.Holds p S := by
    refine ⟨hx.calls, fun id hid => ?_⟩
    rcases hx.free id hid with hparam | hid'
    · obtain ⟨y, hy, rfl⟩ := List.mem_map.mp hparam
      exact hleft.elim (fun h => h _) fun h => hfree.free _ (h y hy hid)
    · exact hid'
  have hleak : (∀ id, S id) ∨ ¬ Leaks c := hscope.imp_right hleaks
  cases h with
  | same hord _ => exact holds_call.mpr ⟨hc hord, hreceiver, hargs⟩
  | @ordered ordering element _ source hord _ hsource =>
    have hbuilt : ordering ∈ builtOperators := by
      rcases (isGenericQuery_of_keyedOrdering hord).2 with rfl | rfl <;> simp [builtOperators]
    have hshape : ordering.typeParams = 2 ∧ ordering.params.length = 2 := by
      rcases (isGenericQuery_of_keyedOrdering hord).2 with rfl | rfl <;> exact ⟨rfl, rfl⟩
    have hcall (args : List Expr) (hlen : args.length = 2) :
        p ⟨⟨ordering, [element, element]⟩, none, args⟩ :=
      hp.built ⟨hbuilt, rfl, hshape.1.symm, hlen.trans hshape.2.symm⟩
    simpa [Expr.apply, Lambda.quoted, Lambda.toExpr, Lambda.identity, Under] using
      ⟨hcall _ rfl, hargs source (by simp [hsource])⟩
  | @pairs _ join left inner inner' result hflat hinner =>
    obtain ⟨body, hpairs⟩ := Flattening.pairsPieces hflat
    obtain ⟨hpieces, hin, hresult, hvisible⟩ := hpairs.holds hp hargs
    have hin' : inner.Holds p S := by
      cases hself : body.hasCall Call.selectsItself with
      | false => exact hvisible hself
      | true =>
        refine hnarrow hin (hleak.imp_right fun h y hy hid => ?_)
        by_contra hfresh
        exact h (.pairs hpairs hself hy hid hfresh)
    have hresult' : result.toExpr.Holds p S := by
      refine hnarrow hresult (hleak.imp_right fun h y hy hid => ?_)
      by_contra hfresh
      exact h (.result hpairs hy hid hfresh)
    have hinner' : inner'.Holds p S :=
      (hP hinner).2 S hscope (hin'.weaken fun _ => hqp.weaken)
    exact hpieces.holds_flat (holds_unwrapQueryable hp hinner') hresult'
  | @members _ join left inner inner' outer element hflat hinner =>
    obtain ⟨body, hmembers⟩ := Flattening.membersPieces hflat
    obtain ⟨hpieces, hin, hvisible⟩ := hmembers.holds hp hargs
    have hin' : inner.Holds p S := by
      cases hself : body.hasCall Call.selectsItself with
      | false => exact hvisible hself
      | true =>
        refine hnarrow hin (hleak.imp_right fun h y hy hid => ?_)
        by_contra hfresh
        exact h (.members hmembers hself hy hid hfresh)
    have hinner' : inner'.Holds p S :=
      (hP hinner).2 S hscope (hin'.weaken fun _ => hqp.weaken)
    exact hpieces.holds_flat hinner' (holds_lambda.mpr (holds_param.mpr (.inl (by simp))))

omit hP

theorem holds_elementRead (hqp : Established q p) {element : Ty} {raw source position : Expr}
    (hraw : KeepsShape raw source) (hsource : source.Holds p S)
    (hposition : position.Holds p S) : (elementRead element raw source position).Holds p S := by
  unfold elementRead
  split
  · rename_i hconstruction
    have hcall : p ⟨⟨Enumerable.elementAt, [element]⟩, none, [source, position]⟩ :=
      hqp.elementAt (hraw.construction hconstruction)
    simpa [Expr.apply] using ⟨hcall, hsource, hposition⟩
  · have hcall (args : List Expr) (hlen : args.length = 2) :
        p ⟨⟨Domain.queries.elementAt, [element]⟩, none, args⟩ :=
      hqp.built ⟨by simp [builtOperators], rfl, rfl, hlen⟩
    simpa [Expr.apply, holds_quoteLambda] using
      ⟨hcall _ rfl, holds_queryArgument hqp.toMaintained _ hsource, hposition⟩

theorem holds_nonEmptyTest (hqp : Established q p) {element : Ty} {raw source : Expr}
    (hraw : KeepsShape raw source) (hsource : source.Holds p S) :
    (nonEmptyTest element raw source).Holds p S := by
  unfold nonEmptyTest
  split
  · rename_i hconstruction
    have hcall : p ⟨⟨Enumerable.any, [element]⟩, none, [source]⟩ := hqp.any (hraw.construction hconstruction)
    simpa [Expr.apply] using ⟨hcall, hsource⟩
  · have hcall (args : List Expr) (hlen : args.length = 1) :
        p ⟨⟨Domain.queries.any, [element]⟩, none, args⟩ :=
      hqp.built ⟨by simp [builtOperators], rfl, rfl, hlen⟩
    simpa [Expr.apply, holds_quoteLambda] using
      ⟨hcall _ rfl, holds_queryArgument hqp.toMaintained _ hsource⟩

theorem holds_contains (hp : Maintained p) {element : Ty} {raw collection item : Expr}
    (hcollection : collection.Holds p S) (hitem : item.Holds p S) :
    (QueryNormal.contains element raw collection item).Holds p S := by
  have hcall (args : List Expr) (hlen : args.length = 2) :
      p ⟨⟨Queryable.contains, [element]⟩, none, args⟩ :=
    hp.built ⟨by simp [builtOperators], rfl, rfl, hlen⟩
  have hsource : (if raw.ty.isValueType then .unary (.convert (.enumerable element)) collection
      else collection : Expr).Holds p S := by
    split
    · exact holds_unary.mpr hcollection
    · exact hcollection
  simpa [QueryNormal.contains, Expr.apply] using
    ⟨hcall _ rfl, holds_asQueryable hp element hsource, hitem⟩

theorem holds_reselected {selector : Expr} {l : Lambda} (hl : l.toExpr.Holds p S) :
    (reselected selector l).Holds p S := by
  unfold reselected
  split
  · exact holds_quote.mpr hl
  · exact hl

theorem body_mem_nodes_of_lambda {l : Lambda} (h : e.lambda? = some l) : l.body ∈ e.nodes := by
  refine induction_lambda (P := fun e => l.body ∈ e.nodes) h ?_ ?_
  · exact mem_nodes_of_mem_parts (by simp [Lambda.toExpr, parts])
  · intro x hx
    exact nodes_trans (mem_nodes_of_mem_parts (by simp [parts])) hx

/-- A selector that is spelled out again keeps its shape. -/
theorem keepsShape_reselected {selector body : Expr} {l : Lambda} (h : selector.lambda? = some l) :
    KeepsShape selector (reselected selector ⟨l.params, body⟩) := by
  constructor
  · refine induction_lambda (P := fun x => x.isConstruction = true →
      (reselected selector ⟨l.params, body⟩).isConstruction = true) h ?_ ?_
    · intro hl
      cases hl
    · intro _ _ hq
      cases hq
  · intro l' hl'
    rw [h] at hl'
    cases hl'
    unfold reselected
    split <;> exact ⟨body, rfl⟩

theorem reloaded_eq (m : Method) (navigation : Ty) :
    ∃ typeArgs, typeArgs.length = m.typeArgs.length ∧
      reloaded m navigation = m.withTypeArgs typeArgs := by
  unfold reloaded
  split
  · exact ⟨_, length_replaceLast _ _, rfl⟩
  · exact ⟨m.typeArgs, rfl, rfl⟩

theorem ReducesBy.keepsShape {P A : PartRun} (h : ReducesBy provider P A e s e' t)
    (hP : ∀ {x s y t}, P x s y t → KeepsShape x y) : KeepsShape e e' := by
  cases h with
  | node _ hwalk => exact hwalk.keepsShape hP
  | settle hvisit _ => cases hvisit <;> exact .of_shapeless rfl rfl
  | _ => exact .of_shapeless rfl rfl

include hP in
/-- What one layer of the operator pass establishes. -/
theorem ReducesBy.holds (hqp : Established q p)
    (hleaks : ∀ {c t}, VisitsBy P e s c t → intact → ¬ Leaks c)
    (h : ReducesBy provider P P e s e' t) (hscope : (∀ id, S id) ∨ intact) (he : e.Holds q S) :
    e'.Holds p S := by
  have hp := hqp.toMaintained
  have hpart {x y : Expr} {s t : ReductionState} (hx : x ∈ e.parts) (hd : e.declared = [])
      (h : P x s y t) : y.Holds p S := (hP h).2 S hscope (he.part hx hd)
  cases h with
  | node hplain hwalk =>
    refine holds_of_walk hP hp hwalk (fun c hc => ?_) hscope he
    rw [call?_of_isPlain hplain] at hc
    cases hc
  | binary _ hl hr =>
    exact holds_binary.mpr ⟨hpart (by simp [parts]) rfl hl, hpart (by simp [parts]) rfl hr⟩
  | elementAt _ hl hr =>
    exact holds_elementRead hqp (hP hl).1 (hpart (by simp [parts]) rfl hl)
      (hpart (by simp [parts]) rfl hr)
  | nonEmpty _ hcounted hsource =>
    obtain ⟨hmem, hd⟩ := mem_parts_of_counted hcounted
    refine holds_nonEmptyTest hqp (hP hsource).1 ?_
    exact (hP hsource).2 S hscope ((holds_binary.mp he).1.part hmem hd)
  | note _ _ hsource => exact hpart (by simp [parts]) rfl hsource
  | hint => exact holds_placeholder
  | index _ htarget hposition =>
    exact holds_elementRead hqp (hP htarget).1 (hpart (by simp [parts]) rfl htarget)
      (hpart (by simp [parts]) rfl hposition)
  | kept hrule hstays hwalk =>
    refine holds_of_walk hP hp hwalk ?_ hscope he
    rintro _ ⟨⟩
    exact hqp.kept (holds_call.mp he).1 hrule hstays
  | unmatched hrule _ hargs hnone hr =>
    refine holds_of_visited hP hp ?_ hr hargs hscope he
    exact hqp.unmatched (holds_call.mp he).1 hrule
      (toQueryable_eq_none_congr hargs.length_eq hnone)
  | member hrule hc hwalk =>
    refine holds_of_walk hP hp hwalk ?_ hscope he
    rintro _ ⟨⟩
    exact hqp.member (holds_call.mp he).1 hrule hc
  | contains _ _ hc hitem =>
    exact holds_contains hp (hpart (by simp [parts]) rfl hc) (hpart (by simp [parts]) rfl hitem)
  | @loading m r source source' selector body body' x _ _ _ hrule hlambda hsource hbody =>
    rw [holds_call] at he
    obtain ⟨hcall, hr, hargs⟩ := he
    obtain ⟨typeArgs, hlen, hreloaded⟩ := reloaded_eq m body'.ty
    obtain ⟨hr', hcall'⟩ := hqp.loading hcall hrule hlen
    have hbody' : body'.Holds p (Under [x] S) := by
      refine (hP hbody).2 _ (hscope.imp_left fun h id => .inr (h id)) ?_
      exact (holds_of_lambda hlambda).mp (hargs selector (by simp))
    rw [hreloaded, holds_call]
    refine ⟨hp.reshaped ?_ hcall', fun y hy => ⟨hr' y hy (hr y hy).calls, (hr y hy).free⟩, ?_⟩
    · refine ⟨rfl, ?_, .cons (hP hsource).1 (.cons (keepsShape_reselected hlambda) .nil)⟩
      cases r with
      | none => exact .none
      | some r => exact .some (.refl r)
    · simp only [List.forall_mem_cons, List.not_mem_nil, false_implies, implies_true, and_true]
      exact ⟨(hP hsource).2 S hscope (hargs source (by simp)),
        holds_reselected (holds_lambda.mpr hbody')⟩
  | settle hvisit hsettle =>
    obtain ⟨hreceiver, hargs, hc⟩ := hvisit.holds hP hqp hscope he
    exact hsettle.holds hP hqp (hleaks hvisit) hscope hreceiver hargs hc

/-- **What the operator pass establishes.** -/
theorem Runs.improved (hqp : Established q p) (h : Runs provider e s e' t) :
    Improved (Avoids provider Leaks e s) q p e e' := by
  refine Runs.induction_meets
    (P := fun x s y _ => Improved (Avoids provider Leaks x s) q p x y) ?_ h
  intro x x' s t hlayer
  refine ⟨hlayer.keepsShape fun h => h.1.2.1, fun S hscope hx => ?_⟩
  refine hlayer.holds (fun h => h.1.2.mono fun hleaks => hleaks.meets h.2) hqp ?_ hscope hx
  intro c t hvisit hleaks
  exact hleaks.visited (hvisit.mono fun _ _ _ _ _ h => h.1.1)

theorem Improved.everyCall (h : Improved intact q p e e') (he : e.EveryCall q) :
    e'.EveryCall p :=
  (h.2 (fun _ => True) (.inl fun _ => trivial) (holds_top.mpr he)).calls

end OperatorPass

/-! ## The grouped-join pass -/

section GroupedJoinPass

variable {p : Call → Prop} {S : UInt32 → Prop} {e e' : Expr}

/-- A part that the grouped-join pass has visited. -/
def Retained (p : Call → Prop) (x y : Expr) : Prop :=
  KeepsShape x y ∧ ∀ S : UInt32 → Prop, x.Holds p S → y.Holds p S

theorem UngroupsBy.keepsShape {P A : Expr → Expr → Prop} (h : UngroupsBy P A e e')
    (hP : ∀ {x y}, P x y → KeepsShape x y) : KeepsShape e e' := by
  cases h with
  | node _ hwalk => exact hwalk.keepsShape hP
  | join => exact .of_shapeless rfl rfl

theorem UngroupsBy.holds (hp : Maintained p) (h : UngroupsBy (Retained p) (Retained p) e e')
    (he : e.Holds p S) : e'.Holds p S := by
  cases h with
  | node _ hwalk =>
    obtain ⟨hcall, hparam, hparts⟩ := holds_iff.mp he
    have hvisited : WalksBy (fun x (_ : Unit) y _ => KeepsShape x y ∧
        y.Holds p (Under e.declared S)) e () e' () :=
      hwalk.mono_mem fun x hx _ _ _ hstep => ⟨hstep.1, hstep.2 _ (hparts x hx)⟩
    exact hvisited.holds hp (fun h => h) hcall hparam
  | join _ hcorrelate houter hselector =>
    obtain ⟨ho, hs, hcall⟩ := (correlatePieces hcorrelate).holds hp (holds_call.mp he).2.2
    simpa using ⟨hcall _ _, houter.2 S ho, hselector.2 S hs⟩

/-- **What the grouped-join pass keeps.** -/
theorem Ungroups.holds (hp : Maintained p) (h : Ungroups e e') (he : e.Holds p S) :
    e'.Holds p S := by
  have hretained : Retained p e e' := by
    refine Ungroups.induction (P := Retained p) ?_ h
    intro x x' hlayer
    exact ⟨hlayer.keepsShape fun h => h.1, fun S hx => hlayer.holds hp hx⟩
  exact hretained.2 S he

theorem not_isGroupJoin_of_everyCall (he : e.EveryCall fun c => ¬ c.is Queryable.groupJoin) :
    e.isGroupJoin = false := by
  cases e with
  | call m r args => simpa [isGroupJoin, Call.is] using (everyCall_call.mp he).1
  | _ => rfl

theorem not_comesTo {c : Call} (he : e.EveryCall fun c => ¬ c.is Queryable.groupJoin) :
    ¬ ComesTo e c := by
  intro h
  induction h with
  | here hm | source hm | selector hm => exact (everyCall_call.mp he).1 hm
  | part _ hx _ ih => exact ih (he.part hx)

/-- A tree without a grouped join is left as it is. -/
theorem ungroup_eq_self {again : Expr → Except Failure Expr}
    (he : e.EveryCall fun c => ¬ c.is Queryable.groupJoin) : e.ungroup again = .ok e := by
  induction e using induction_parts with
  | _ e ih =>
    exact ungroup_eq_self_of_parts (not_isGroupJoin_of_everyCall he) fun x hx => ih x hx (he.part hx)

theorem hasCallTo_eq_false {signature : Signature} :
    e.hasCallTo signature = false ↔ e.EveryCall fun c => ¬ c.is signature := by
  simp [hasCallTo, hasCall_eq_any, EveryCall]

/-- A tree without a grouped join is finished. -/
theorem finish_eq_self (he : e.EveryCall fun c => ¬ c.is Queryable.groupJoin) :
    finishGroupJoins e = .ok e := by
  unfold finishGroupJoins
  rw [hasCallTo_eq_false.mpr he]
  rfl

/-- Only a call with a grouped join among its arguments is flattened. -/
theorem flattening_eq_none {c : Call} (h : ∀ a ∈ c.args, a.isGroupJoin = false) :
    Flattening.of? c = none := by
  have hsource {source : Expr} {join : GroupJoin} (hjoin : JoinPieces source join) :
      source.isGroupJoin = true := by
    cases hjoin with
    | intro hm => simp [isGroupJoin, Method.is, hm]
  rcases hflat : Flattening.of? c with _ | f
  · rfl
  · cases f with
    | pairs join left inner result =>
      obtain ⟨_, hpairs⟩ := Flattening.pairsPieces hflat
      cases hpairs with
      | intro _ hjoin => exact absurd (hsource hjoin) (by simp [h])
    | members join left inner outer element =>
      obtain ⟨_, hmembers⟩ := Flattening.membersPieces hflat
      cases hmembers with
      | intro _ hjoin => exact absurd (hsource hjoin) (by simp [h])

/-- What flattening builds has a maintained property that the arguments have. -/
theorem Flattening.everyCall_inner (hp : Maintained p) {c : Call} {f : Flattening}
    (h : Flattening.of? c = some f) (hargs : ∀ a ∈ c.args, a.EveryCall p) : f.inner.EveryCall p := by
  have hargs' : ∀ a ∈ c.args, a.Holds p fun _ => True := fun a ha => holds_top.mpr (hargs a ha)
  cases f with
  | pairs join left inner result =>
    obtain ⟨_, hpairs⟩ := Flattening.pairsPieces h
    exact (hpairs.holds hp hargs').2.1.calls
  | members join left inner outer element =>
    obtain ⟨_, hmembers⟩ := Flattening.membersPieces h
    exact (hmembers.holds hp hargs').2.1.calls

section Meets

variable {provider : Provider} {q : Call → Prop} {n : Expr} {c : Call} {s t u : ReductionState}

/-- The arguments of a visited call have what the rules establish. -/
theorem VisitsBy.everyCall_args (hqp : Established q p) (h : VisitsBy (Runs provider) e s c t)
    (he : e.EveryCall q) : ∀ a ∈ c.args, a.EveryCall p :=
  h.everyCall (fun hrun => (hrun.improved hqp).mono False.elim) hqp he

/-- A node that the pass meets is one of the tree, or has what the rules establish. -/
theorem Meets.mem_or_everyCall (hqp : Established q p) (h : Meets provider e s n u)
    (he : e.EveryCall q) : n ∈ e.nodes ∨ n.EveryCall p := by
  induction h with
  | visit hn => exact .inl hn.mem_nodes
  | again hm hvisit hflat _ ih =>
    have hinner := Flattening.everyCall_inner hqp.toMaintained hflat
      (hvisit.everyCall_args hqp (he.node hm.mem_nodes))
    rcases ih (hinner.mono fun _ => hqp.weaken) with hn | hn
    · exact .inr (hinner.node hn)
    · exact .inr hn

theorem Meets.everyCall (hqp : Established q p) (h : Meets provider e s n u)
    (he : e.EveryCall q) : n.EveryCall q := by
  rcases h.mem_or_everyCall hqp he with hn | hn
  · exact he.node hn
  · exact hn.mono fun _ => hqp.weaken

end Meets

theorem ungroups_of_finish (h : finishGroupJoins e = .ok e') : Ungroups e e' := by
  unfold finishGroupJoins at h
  split at h
  · exact ⟨_, h⟩
  · rename_i hno
    cases h
    exact ⟨1, ungroup_eq_self (hasCallTo_eq_false.mp (by simpa using hno))⟩

end GroupedJoinPass

/-! ## Normal forms -/

section Normalize

variable {provider : Provider} {context context' : Context} {e e' : Expr} {q p : Call → Prop}
  {S : UInt32 → Prop}

/-- **What a normal form has.** -/
theorem holds_of_normalize (hqp : Established q p)
    (h : normalize provider context e = (.ok e', context'))
    (hscope : (∀ id, S id) ∨ Avoids provider Leaks e ⟨context, .after e⟩) (he : e.Holds q S) :
    e'.Holds p S := by
  obtain ⟨middle, t, hrun, _, hfinish⟩ := runs_of_normalize h
  exact (ungroups_of_finish hfinish).holds hqp.toMaintained ((hrun.improved hqp).2 S hscope he)

/-- Every call of a normal form has a property that the rules establish. -/
theorem everyCall_of_normalize (hqp : Established q p)
    (h : normalize provider context e = (.ok e', context')) (he : e.EveryCall q) :
    e'.EveryCall p :=
  (holds_of_normalize hqp h (.inl fun _ => trivial) (holds_top.mpr he)).calls

end Normalize

end QueryNormal
