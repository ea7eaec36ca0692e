import QueryNormal.Proofs.Correlated
import QueryNormal.Proofs.Visitors

/-!
# What rewrites make of trees

Rewrites maintain a property of calls at any depth, and refer to no parameter that is not free
already or declared around them.

* `holds_replace`: replacing a parameter.
* `holds_queryArgument`: passing a sequence as a query.
* `PairsPieces.holds`, `MembersPieces.holds`: flattening a grouped join. References to the
  parameters of its result selector may be left, which is the only way in which a rewrite can break
  scopes.
* `CorrelatePieces.holds`: a grouped join as a projection.
-/

namespace QueryNormal

namespace Expr

/-! ## Replacing a parameter -/

theorem threads_replaceList (id : UInt32) (value : Expr) : ∀ es : List Expr,
    Threads (fun x (_ : Unit) y _ => y = replace id value x) es () (replaceList id value es) ()
  | [] => .nil
  | _ :: es => .cons rfl (threads_replaceList id value es)

theorem threads_replaceBindings (id : UInt32) (value : Expr) : ∀ bs : List Binding,
    Threads (ThreadsBinding fun x (_ : Unit) y _ => y = replace id value x) bs ()
      (replaceBindings id value bs) ()
  | [] => .nil
  | .assign _ _ :: bs => .cons (.assign rfl) (threads_replaceBindings id value bs)
  | .items _ es :: bs =>
    .cons (.items (threads_replaceList id value es)) (threads_replaceBindings id value bs)

/-- A reference to the parameter is replaced, a member is projected, and any other node is walked. -/
theorem replace_cases (id : UInt32) (value e : Expr) :
    (∃ p, e = .param p ∧ p.id = id ∧ replace id value e = value) ∨
      (∃ target m, e = .member (some target) m ∧
        replace id value e = (replace id value target).project m) ∨
      (∀ p, e.param? = some p → p.id ≠ id) ∧
        WalksBy (fun x (_ : Unit) y _ => y = replace id value x) e () (replace id value e) () := by
  have hwalked (hwalk : WalksBy (fun x (_ : Unit) y _ => y = replace id value x) e ()
      (replace id value e) ()) (hparam : e.param? = none) :
      (∀ p, e.param? = some p → p.id ≠ id) ∧
        WalksBy (fun x (_ : Unit) y _ => y = replace id value x) e () (replace id value e) () :=
    ⟨fun p hp => by simp [hparam] at hp, hwalk⟩
  cases e with
  | param p =>
    by_cases hp : p.id = id
    · exact .inl ⟨p, rfl, hp, by simp [replace, hp]⟩
    · refine .inr (.inr ⟨by rintro _ ⟨⟩; exact hp, ?_⟩)
      rw [show replace id value (.param p) = .param p by simp [replace, hp]]
      exact .param
  | member target m =>
    cases target with
    | none => exact .inr (.inr (hwalked (.member .none) rfl))
    | some target => exact .inr (.inl ⟨target, m, rfl, by rw [replace]⟩)
  | call m r args =>
    refine .inr (.inr (hwalked ?_ rfl))
    rw [replace.eq_def]
    cases r with
    | none => exact .call .none (threads_replaceList id value args)
    | some r => exact .call (t := ()) (.some rfl) (threads_replaceList id value args)
  | lambda params body => exact .inr (.inr (hwalked (by rw [replace]; exact .lambda rfl) rfl))
  | quote inner => exact .inr (.inr (hwalked (by rw [replace]; exact .quote rfl) rfl))
  | binary op lhs rhs =>
    exact .inr (.inr (hwalked (by rw [replace]; exact .binary (t := ()) rfl rfl) rfl))
  | unary op operand => exact .inr (.inr (hwalked (by rw [replace]; exact .unary rfl) rfl))
  | const literal type => exact .inr (.inr (hwalked (by rw [replace]; exact .const) rfl))
  | new type args names =>
    refine .inr (.inr (hwalked ?_ rfl))
    rw [replace]
    exact .new (threads_replaceList id value args)
  | newWith type args names bindings =>
    refine .inr (.inr (hwalked ?_ rfl))
    rw [replace]
    exact .newWith (threads_replaceList id value args) (threads_replaceBindings id value bindings)
  | cond test a b =>
    refine .inr (.inr (hwalked ?_ rfl))
    rw [replace]
    exact .cond (t := ()) (u := ()) rfl rfl rfl
  | placeholder p => exact .inr (.inr (hwalked (by rw [replace]; exact .placeholder) rfl))

/-- What a construction initializes a member with is a part of it. -/
theorem mem_parts_of_initializer {e x : Expr} {name : String} (h : e.initializer? name = some x) :
    x ∈ e.parts := by
  unfold initializer? at h
  split at h
  · simp only [argumentNamed?, bind, Option.bind_eq_some_iff] at h
    obtain ⟨_, _, _, _, hx⟩ := h
    exact List.mem_of_getElem? hx
  · obtain ⟨b, hb, hx⟩ := List.exists_of_findSome?_eq_some h
    refine List.mem_append_right _ (List.mem_flatMap.mpr ⟨b, hb, ?_⟩)
    cases b with
    | assign n value =>
      simp only [Option.ite_none_right_eq_some, Option.some.injEq] at hx
      simp [Binding.values, hx.2]
    | items n values => cases hx
  · cases h

theorem project_cases (target : Expr) (m : Member) :
    target.project m = .member (some target) m ∨
      target.project m ∈ target.parts ∧ target.declared = [] := by
  unfold project
  cases h : target.initializer? m.name with
  | none => exact .inl rfl
  | some x =>
    refine .inr ⟨mem_parts_of_initializer h, ?_⟩
    cases target with
    | lambda => cases h
    | _ => rfl

theorem keepsShape_replace (id : UInt32) (value e : Expr) : KeepsShape e (replace id value e) := by
  induction e using induction_parts with
  | _ e ih =>
    rcases replace_cases id value e with ⟨p, rfl, _⟩ | ⟨target, m, rfl, _⟩ | ⟨-, hwalk⟩
    · exact .of_shapeless rfl rfl
    · exact .of_shapeless rfl rfl
    · have hparts : WalksBy (fun x (_ : Unit) y _ => KeepsShape x y) e () (replace id value e) () :=
        hwalk.mono_mem fun x hx _ _ _ hy => hy ▸ ih x hx
      exact hparts.keepsShape fun h => h

end Expr

/-! ## Walks and replacements -/

section Maintained

open QueryNormal.Expr

variable {p : Call → Prop} {S S' : UInt32 → Prop} {e e' : Expr}

theorem WalksBy.declared {σ : Type} {P : Expr → σ → Expr → σ → Prop} {s t : σ}
    (h : WalksBy P e s e' t) : e'.param? = e.param? ∧ e'.declared = e.declared := by
  cases h <;> exact ⟨rfl, rfl⟩

/-- A walk keeps the properties if it keeps them at the parts. -/
theorem WalksBy.holds {σ : Type} {P : Expr → σ → Expr → σ → Prop} {s t : σ}
    (hp : Maintained p) (hwalk : WalksBy P e s e' t)
    (hP : ∀ {x s y t}, P x s y t → KeepsShape x y ∧ y.Holds p (Under e.declared S))
    (hcall : ∀ c, e.call? = some c → p c) (hparam : ∀ x, e.param? = some x → S x.id) :
    e'.Holds p S := by
  obtain ⟨hparam', hdeclared'⟩ := hwalk.declared
  rw [holds_iff, hparam', hdeclared']
  refine ⟨fun c hc => ?_, hparam, fun y hy => ?_⟩
  · cases hwalk with
    | @call m r _ args _ _ _ _ hr hargs =>
      cases hc
      have hbefore : p ⟨m, r, args⟩ := hcall _ rfl
      refine hp.reshaped ?_ hbefore
      exact ⟨rfl, hr.rel fun h => (hP h).1, hargs.forall₂ fun h => (hP h).1⟩
    | _ => cases hc
  · obtain ⟨_, _, hy⟩ := exists_of_forall₂
      (hwalk.forall₂ (R := fun _ y => y.Holds p (Under e.declared S)) fun h => (hP h).2) hy
    exact hy

theorem holds_replace (hp : Maintained p) {id : UInt32} {value : Expr} (hvalue : value.Holds p S)
    (he : e.Holds p fun i => i = id ∨ S i) : (replace id value e).Holds p S := by
  induction e using induction_parts generalizing S with
  | _ e ih =>
    rcases replace_cases id value e with ⟨_, _, _, h⟩ | ⟨target, m, rfl, h⟩ | ⟨hother, hwalk⟩
    · rw [h]
      exact hvalue
    · have htarget : (replace id value target).Holds p S :=
        ih target (by simp [parts]) hvalue (holds_member.mp he)
      rw [h]
      rcases project_cases (replace id value target) m with h | ⟨h, hdeclared⟩
      · rw [h]
        exact holds_member.mpr htarget
      · exact htarget.part h hdeclared
    · obtain ⟨hcall, hparam, hparts⟩ := holds_iff.mp he
      have hwalked : WalksBy (fun x (_ : Unit) y _ => KeepsShape x y ∧
          y.Holds p (Under e.declared S)) e () (replace id value e) () := by
        refine hwalk.mono_mem ?_
        rintro x hx _ _ _ rfl
        refine ⟨keepsShape_replace id value x, ih x hx (hvalue.mono fun _ => .inr) ?_⟩
        exact (hparts x hx).mono fun i hi => or_left_comm.mp hi
      exact hwalked.holds hp (fun h => h) hcall fun x hx => (hparam x hx).resolve_left (hother x hx)

/-! ## Arguments -/

theorem holds_quoteLambda : (quoteLambda e).Holds p S ↔ e.Holds p S := by
  unfold quoteLambda
  split
  · exact holds_quote
  · rfl

theorem holds_asQueryable (hp : Maintained p) (element : Ty) (he : e.Holds p S) :
    (asQueryable e element).Holds p S := by
  have hbuilt : p ⟨⟨Queryable.asQueryable, [element]⟩, none, [e]⟩ :=
    hp.built ⟨by simp [builtOperators], rfl, rfl, rfl⟩
  simpa [asQueryable, Expr.apply] using ⟨hbuilt, he⟩

theorem holds_underConversions (he : e.Holds p S) : (underConversions e).Holds p S := by
  fun_induction underConversions e with
  | case1 operand type _ ih | case3 operand type _ ih => exact ih (holds_unary.mp he)
  | _ => exact he

theorem underConversions_mem_nodes (e : Expr) : underConversions e ∈ e.nodes := by
  fun_induction underConversions e with
  | case1 operand type _ ih | case3 operand type _ ih =>
    exact nodes_trans (mem_nodes_of_mem_parts (by simp [parts])) ih
  | _ => exact mem_nodes_self _

theorem uncopied_mem_nodes (e : Expr) (element : Option Ty) : (uncopied e element).1 ∈ e.nodes := by
  unfold uncopied
  split
  · split
    · exact mem_nodes_of_mem_parts (by simp [parts])
    · exact mem_nodes_self _
  · exact mem_nodes_self _

/-- What is left of a sequence without a copy is passed as it is, or without its conversions as a
query. -/
theorem queryArgument_eq (e : Expr) (fallback : Option Ty) :
    queryArgument e fallback = (uncopied e (e.ty.element?.or fallback)).1 ∨
      ∃ element, queryArgument e fallback =
        asQueryable (underConversions (uncopied e (e.ty.element?.or fallback)).1) element := by
  unfold queryArgument
  split
  · rename_i x hx
    exact .inl (by rw [hx])
  · rename_i x element hx
    split
    · exact .inl (by rw [hx])
    · exact .inr ⟨element, by rw [hx]⟩

/-- A sequence is passed as a query by passing a node of it, as it is or as a query. -/
theorem queryArgument_cases (e : Expr) (fallback : Option Ty) :
    ∃ x ∈ e.nodes, queryArgument e fallback = x ∨
      ∃ element, queryArgument e fallback = asQueryable x element := by
  have hsource := uncopied_mem_nodes e (e.ty.element?.or fallback)
  rcases queryArgument_eq e fallback with h | h
  · exact ⟨_, hsource, .inl h⟩
  · exact ⟨_, nodes_trans hsource (underConversions_mem_nodes _), .inr h⟩

theorem holds_uncopied (element : Option Ty) (he : e.Holds p S) :
    (uncopied e element).1.Holds p S := by
  unfold uncopied
  split
  · split
    · exact he.part (by simp [parts]) rfl
    · exact he
  · exact he

theorem holds_queryArgument (hp : Maintained p) (fallback : Option Ty) (he : e.Holds p S) :
    (queryArgument e fallback).Holds p S := by
  have hsource := holds_uncopied (e.ty.element?.or fallback) he
  rcases queryArgument_eq e fallback with h | ⟨element, h⟩ <;> rw [h]
  · exact hsource
  · exact holds_asQueryable hp element (holds_underConversions hsource)

theorem holds_of_passes (hp : Maintained p) (h : Passes e e') (he : e.Holds p S) :
    e'.Holds p S := by
  cases h with
  | same => exact he
  | converted => exact holds_queryArgument hp _ he

theorem holds_of_counterpart (hp : Maintained p) {m m' : Method} {args args' : List Expr}
    (h : Counterpart m args m' args') (hargs : ∀ a ∈ args, a.Holds p S) :
    ∀ a ∈ args', a.Holds p S := by
  obtain ⟨passed, hpassed, rfl⟩ := h.args
  intro a ha
  obtain ⟨x, hx, rfl⟩ := List.mem_map.mp ha
  obtain ⟨y, hy, hyx⟩ := exists_of_forall₂ hpassed hx
  rw [holds_quoteLambda]
  exact holds_of_passes hp hyx (hargs y hy)

/-! ## Grouped joins -/

theorem holds_peelDefault (he : e.Holds p S) : (peelDefault e).1.Holds p S := by
  unfold peelDefault
  split
  · split
    · exact he.part (by simp [parts]) rfl
    · exact he
  · exact he

theorem peelDefault_mem_nodes (e : Expr) : (peelDefault e).1 ∈ e.nodes := by
  unfold peelDefault
  split
  · split
    · exact mem_nodes_of_mem_parts (by simp [parts])
    · exact mem_nodes_self _
  · exact mem_nodes_self _

theorem holds_unwrapQueryable (hp : Maintained p) (he : e.Holds p S) :
    (unwrapQueryable e).Holds p S := by
  have hkeeps (x : Expr) : KeepsShape x (unwrapQueryable x) := by
    unfold unwrapQueryable
    split
    · exact .of_shapeless rfl rfl
    · exact .refl _
  fun_induction unwrapQueryable e with
  | case1 m r source rest _ ih => exact ih (he.part (by simp [parts]) rfl)
  | case2 m r source rest _ _ ih =>
    rw [holds_call] at he ⊢
    obtain ⟨hcall, hr, hargs⟩ := he
    refine ⟨hp.reshaped ?_ hcall, hr, ?_⟩
    · refine ⟨rfl, ?_, .cons (hkeeps source) (List.forall₂_same.mpr fun x _ => .refl x)⟩
      cases r with
      | none => exact .none
      | some r => exact .some (.refl r)
    · intro x hx
      rcases List.mem_cons.mp hx with rfl | hx
      · exact ih (hargs source (by simp))
      · exact hargs x (by simp [hx])
  | _ => exact he

/-- The pieces of a grouped join hold, and a flat join may take its place. -/
structure GroupJoin.Holds (p : Call → Prop) (S : UInt32 → Prop) (join : GroupJoin) : Prop where
  outer : join.outer.Holds p S
  inner : join.inner.Holds p S
  outerKey : join.outerKey.Holds p S
  innerKey : join.innerKey.Holds p S
  result : join.result.body.Holds p (Under join.result.params S)
  flat {joined : Signature} {typeArgs : List Ty} {args : List Expr} :
    joined = Queryable.join ∨ joined = Queryable.leftJoin →
    typeArgs.length = join.typeArgs.length → args.length = 5 →
    p ⟨⟨joined, typeArgs⟩, none, args⟩

theorem JoinPieces.holds (hp : Maintained p) {join : GroupJoin} (h : JoinPieces e join)
    (he : e.Holds p S) : join.Holds p S := by
  cases h with
  | @intro m _ _ _ _ _ _ _ _ _ hm houter hinner hresult =>
    obtain ⟨signature, typeArgs⟩ := m
    obtain rfl : signature = Queryable.groupJoin := hm
    simp only [holds_call, List.forall_mem_cons] at he
    obtain ⟨hcall, _, ho, hi, hok, hik, hres, _⟩ := he
    exact ⟨ho, hi, hok, hik, (holds_of_lambda hresult).mp hres,
      fun hjoined hlen hargs => hp.flat hcall hjoined hlen hargs⟩

theorem length_replaceLast {α : Type} (as : List α) (a : α) :
    (replaceLast as a).length = as.length := by
  cases as <;> simp [replaceLast]

theorem GroupJoin.Holds.holds_flat {join : GroupJoin} (h : join.Holds p S) {left : Bool}
    {inner : Expr} {result : Lambda} (hinner : inner.Holds p S) (hresult : result.toExpr.Holds p S) :
    (join.flat left inner result).Holds p S := by
  have hjoined : (if left then Queryable.leftJoin else Queryable.join) = Queryable.join ∨
      (if left then Queryable.leftJoin else Queryable.join) = Queryable.leftJoin := by
    cases left
    · exact .inl rfl
    · exact .inr rfl
  have hcall : p ⟨⟨if left then Queryable.leftJoin else Queryable.join,
      replaceLast join.typeArgs result.body.ty⟩, none,
      [join.outer, inner, join.outerKey, join.innerKey, result.quoted]⟩ :=
    h.flat hjoined (length_replaceLast join.typeArgs result.body.ty) rfl
  simpa [GroupJoin.flat, Expr.apply, Lambda.quoted] using
    ⟨hcall, h.outer, hinner, h.outerKey, h.innerKey, hresult⟩

/-- Unless a projection of each element to itself hides a reference, what is joined instead of the
group refers to no parameter but the group. -/
theorem holds_of_not_correlated {group : Param} (he : e.Holds p S')
    (hvisible : e.hasCall Call.selectsItself = false) (h : e.correlated group.id = false) :
    e.Holds p fun i => i = group.id ∨ S i := by
  have heach : e.EveryCall fun c => c.selectsItself = false := by
    simpa [hasCall_eq_any, EveryCall] using hvisible
  exact ⟨he.calls, fun id hid => .inl (free_of_not_correlated heach h id hid)⟩

/-- What flattening builds refers to no more than the call, the parameters of the grouped join's
result selector apart. -/
theorem PairsPieces.holds (hp : Maintained p) {c : Call} {join : GroupJoin} {body inner : Expr}
    {left : Bool} {result : Lambda} (h : PairsPieces c join body left inner result)
    (hargs : ∀ a ∈ c.args, a.Holds p S) :
    join.Holds p S ∧ inner.Holds p (Under join.result.params S) ∧
      result.toExpr.Holds p (Under join.result.params S) ∧
      (body.hasCall Call.selectsItself = false → inner.Holds p S) := by
  cases h with
  | @intro _ _ _ _ _ _ x y element outer group more body pairBody _ hjoin hcollection hresult _
      hcorrelated =>
    have hpieces : join.Holds p S := hjoin.holds hp (hargs _ (by simp))
    have hbody : body.Holds p (Under [x] S) := (holds_of_lambda hcollection).mp (hargs _ (by simp))
    have hpair : pairBody.Holds p (Under [y, element] S) :=
      (holds_of_lambda hresult).mp (hargs _ (by simp))
    have hcollected : (join.collected x body).Holds p (Under join.result.params S) := by
      refine holds_replace hp hpieces.result ((holds_peelDefault hbody).mono fun i hi => ?_)
      simp only [Under, List.map_cons, List.map_nil, List.mem_singleton] at hi
      exact hi.imp_right .inr
    refine ⟨hpieces, ?_, ?_, fun hvisible => ?_⟩
    · exact holds_replace hp (hpieces.inner.mono fun _ => .inr) (hcollected.mono fun _ => .inr)
    · refine holds_lambda.mpr (holds_replace hp (hpieces.result.mono fun _ => .inr) ?_)
      refine hpair.mono fun i hi => ?_
      simp only [Under, List.map_cons, List.map_nil, List.mem_cons, List.not_mem_nil,
        or_false] at hi ⊢
      tauto
    · exact holds_replace hp hpieces.inner
        (holds_of_not_correlated hcollected hvisible hcorrelated)

theorem MembersPieces.holds (hp : Maintained p) {c : Call} {join : GroupJoin} {body inner : Expr}
    {left : Bool} {outer element : Param}
    (h : MembersPieces c join body left inner outer element) (hargs : ∀ a ∈ c.args, a.Holds p S) :
    join.Holds p S ∧ inner.Holds p (Under join.result.params S) ∧
      (body.hasCall Call.selectsItself = false → inner.Holds p S) := by
  cases h with
  | @intro _ _ _ _ _ x _ _ group more body _ hjoin hselector _ _ hcorrelated =>
    have hpieces : join.Holds p S := hjoin.holds hp (hargs _ (by simp))
    have hbody : body.Holds p (Under [x] S) := (holds_of_lambda hselector).mp (hargs _ (by simp))
    have hone (i : UInt32) (hi : Under [x] S i) : i = x.id ∨ S i := by simpa [Under] using hi
    have hgroup := holds_peelDefault hpieces.result
    refine ⟨hpieces, holds_replace hp ?_ (hbody.mono fun i hi => ?_), fun hvisible => ?_⟩
    · exact holds_replace hp (hpieces.inner.mono fun _ => .inr) (hgroup.mono fun _ => .inr)
    · exact (hone i hi).imp_right .inr
    · refine holds_replace hp (holds_replace hp hpieces.inner ?_) (hbody.mono hone)
      exact holds_of_not_correlated hgroup hvisible hcorrelated

/-! ## Grouped joins as projections -/

/-- What holds of constants and of operations on what it holds of, and of the parts of a composite
key, holds of the condition that two keys match. -/
theorem keysMatch_of {Q : Expr → Prop} (hconst : ∀ value type, Q (const value type))
    (hbinary : ∀ op x y, Q x → Q y → Q (binary op x y))
    (hnew : ∀ type args names, Q (new type args names) → ∀ x ∈ args, Q x) (he : Q e) (he' : Q e') :
    Q (keysMatch e e') := by
  have hnull {x : Expr} (hx : Q x) : Q x.notNull := hbinary _ _ _ hx (hconst _ _)
  have hequals {x y : Expr} (hx : Q x) (hy : Q y) : Q (x.equals y) := hbinary _ _ _ hx hy
  have hboth {x y : Expr} (hx : Q x) (hy : Q y) : Q (x.both y) := hbinary _ _ _ hx hy
  have hall {first : Expr} {rest : List Expr} (hfirst : Q first) (hrest : ∀ x ∈ rest, Q x) :
      Q (allOf first rest) := by
    induction rest generalizing first with
    | nil => exact hfirst
    | cons x rest ih =>
      exact ih (hboth hfirst (hrest x (by simp))) fun y hy => hrest y (by simp [hy])
  unfold keysMatch
  split
  · rename_i o os _ _ i is _
    split
    · have ho : ∀ x ∈ o :: os, Q x := hnew _ _ _ he
      have hi : ∀ x ∈ i :: is, Q x := hnew _ _ _ he'
      refine hboth (hall (hnull (ho o (by simp))) ?_)
        (hall (hequals (ho o (by simp)) (hi i (by simp))) ?_)
      · intro x hx
        obtain ⟨y, hy, rfl⟩ := List.mem_map.mp hx
        exact hnull (ho y (by simp [hy]))
      · intro x hx
        rw [← List.map_uncurry_zip_eq_zipWith] at hx
        obtain ⟨⟨y, z⟩, hyz, rfl⟩ := List.mem_map.mp hx
        obtain ⟨hy, hz⟩ := List.of_mem_zip hyz
        exact hequals (ho y (by simp [hy])) (hi z (by simp [hz]))
    · exact hboth (hnull he) (hequals he he')
  · exact hboth (hnull he) (hequals he he')

theorem holds_keysMatch (he : e.Holds p S) (he' : e'.Holds p S) : (keysMatch e e').Holds p S :=
  keysMatch_of (fun _ _ => holds_const) (fun _ _ _ hx hy => holds_binary.mpr ⟨hx, hy⟩)
    (fun _ _ _ hnew _ hx => hnew.part hx rfl) he he'

theorem holds_asQuery (hp : Maintained p) (he : e.Holds p S) : (asQuery e).Holds p S := by
  unfold asQuery
  split
  · split
    · exact he
    · exact holds_asQueryable hp _ he
  · exact he

/-- The filter for the group of an outer element refers to that element. -/
theorem holds_matchingInner (hp : Maintained p) {innerElement : Ty} {inner outerKey : Expr}
    {key element : Param} {innerKey : Lambda} (hinner : inner.Holds p S)
    (houter : outerKey.Holds p (Under [key] S))
    (hkey : innerKey.body.Holds p (Under innerKey.params S)) :
    (matchingInner innerElement inner outerKey key element innerKey).Holds p
      fun i => i = element.id ∨ S i := by
  have hmatch : (keysMatch outerKey innerKey.body).Holds p
      fun i => i = key.id ∨ Under innerKey.params (fun i => i = element.id ∨ S i) i := by
    refine holds_keysMatch (houter.mono fun i hi => ?_) (hkey.mono fun i hi => ?_)
    · simp only [Under, List.map_cons, List.map_nil, List.mem_singleton] at hi
      exact hi.imp_right fun h => .inr (.inr h)
    · exact .inr (Under.mono (fun _ => .inr) hi)
  have hpredicate := holds_replace hp (holds_param.mpr (.inr (.inl rfl))) hmatch
  have hcall (args : List Expr) (hargs : args.length = 2) :
      p ⟨⟨Queryable.filter, [innerElement]⟩, none, args⟩ :=
    hp.built ⟨by simp [builtOperators], rfl, rfl, hargs⟩
  simpa [matchingInner, Expr.apply, Lambda.quoted, Lambda.toExpr] using
    ⟨hcall _ rfl, holds_asQuery hp (hinner.mono fun _ => .inr), hpredicate⟩

theorem holds_groupedSelector (hp : Maintained p) (resultType : Ty) (he : e.Holds p S) :
    (groupedSelector resultType e).Holds p S := by
  unfold groupedSelector
  split
  · rename_i element
    have hcall : p ⟨⟨Enumerable.asEnumerable, [element]⟩, none, [e]⟩ :=
      hp.built ⟨by simp [builtOperators], rfl, rfl, rfl⟩
    simpa [Expr.apply] using ⟨hcall, he⟩
  · exact he

theorem CorrelatePieces.holds (hp : Maintained p) {m select : Method} {args : List Expr}
    {outer selector : Expr} (h : CorrelatePieces m args select outer selector)
    (hargs : ∀ a ∈ args, a.Holds p S) :
    outer.Holds p S ∧ selector.Holds p S ∧
      ∀ outer' selector', p ⟨select, none, [outer', selector']⟩ := by
  cases h with
  | @intro _ _ _ _ _ _ _ _ _ _ body _ key element group _ hok hik hresult =>
    have houterKey := (holds_of_lambda hok).mp (hargs _ (by simp))
    have hinnerKey := (holds_of_lambda hik).mp (hargs _ (by simp))
    have hbody : body.Holds p (Under [element, group] S) :=
      (holds_of_lambda hresult).mp (hargs _ (by simp))
    refine ⟨hargs outer (by simp), ?_, fun _ _ => hp.built ⟨by simp [builtOperators], rfl, rfl, rfl⟩⟩
    refine holds_quote.mpr (holds_lambda.mpr (holds_groupedSelector hp _ (holds_replace hp ?_ ?_)))
    · refine (holds_matchingInner hp (hargs _ (by simp)) houterKey hinnerKey).mono fun i hi => ?_
      simpa [Under] using hi
    · refine hbody.mono fun i hi => ?_
      simp only [Under, List.map_cons, List.map_nil, List.mem_cons, List.not_mem_nil,
        or_false] at hi ⊢
      tauto

end Maintained

end QueryNormal
