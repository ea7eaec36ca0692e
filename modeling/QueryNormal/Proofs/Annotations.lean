import QueryNormal.Proofs.Idempotence
import QueryNormal.Proofs.Notes
import QueryNormal.Proofs.Scope

/-!
# Annotations

* `eliminated_of_normalize`: no annotation, hint, ordering by the elements or grouped join is left.
* `Expr.annotations`: the annotations of a tree, each after those of its source, from left to right.
* `Reduction.Records`: whatever the context is, a computation ends in the same way and carries out
  the same effects.
* `normalize_records`: normalizing carries out what the annotations say (`Recorded`), each once and in
  that order, and no more than a prefix of it if it fails.

What flattening visits again has been visited before, so that no annotation is left in it.
-/

namespace QueryNormal

open QueryNormal.Expr Reduction

/-! ## Operators that are eliminated -/

/-- The operators that no normal form calls. -/
def eliminatedOperators : List Signature :=
  [Metadata.asTracking, Metadata.asNoTracking, Metadata.asNoTrackingWithIdentityResolution,
    Metadata.tagWith, Metadata.tagWithCallSite, Metadata.ignoreQueryFilters,
    Metadata.ignoreNamedQueryFilters, Metadata.ignoreAutoIncludes, Hint.constant, Hint.parameter,
    Hint.multipleParameters, Queryable.order, Queryable.orderDescending, Queryable.groupJoin]

/-- Each of them has a rule that applies whatever the type arguments are, or is the grouped join. -/
theorem rule_of_eliminated : ∀ s ∈ eliminatedOperators, s ≠ Queryable.groupJoin →
    (Note.of? ⟨s, []⟩).isSome ∨ (Mode.hinted? ⟨s, []⟩).isSome ∨ (keyedOrdering? ⟨s, []⟩).isSome := by
  decide +kernel

theorem Call.Normal.not_eliminated {c : Call} (h : c.Normal) :
    c.method.signature ∉ eliminatedOperators := by
  obtain ⟨⟨signature, typeArgs⟩, r, args⟩ := c
  obtain ⟨hreduced, hjoin⟩ := h
  intro hmem
  have hne : signature ≠ Queryable.groupJoin := fun hs => hjoin (decide_eq_true hs)
  rcases rule_of_eliminated signature hmem hne with hrule | hrule | hrule
  · exact absurd hreduced.note (Option.ne_none_iff_isSome.mpr hrule)
  · exact absurd hreduced.hint (Option.ne_none_iff_isSome.mpr hrule)
  · exact absurd hreduced.ordering (Option.ne_none_iff_isSome.mpr hrule)

theorem isStatic_of_mem_loading : ∀ s ∈ Metadata.loading, s.isStatic = true := by decide

/-- **What normalizing eliminates.** If no static method is called on a receiver, a normal form calls
no annotation, no hint, no ordering by the elements and no grouped join at any depth. -/
theorem eliminated_of_normalize {provider : Provider} {context context' : Context} {e e' : Expr}
    (hstatic : ∀ c ∈ e.calls, c.method.isStatic → c.receiver = none)
    (h : normalize provider context e = (.ok e', context')) :
    ∀ s ∈ eliminatedOperators, e'.hasCallTo s = false := by
  have hloading : e.EveryCall fun c => c.method.signature ∈ Metadata.loading → c.receiver = none :=
    fun c hc hmem => hstatic c hc (isStatic_of_mem_loading _ hmem)
  intro s hs
  refine hasCallTo_eq_false.mpr fun c hc => not_is ?_
  rintro rfl
  exact (normal_of_normalize h hloading c hc).not_eliminated hs

/-- A limit and orders, sorted. -/
def limitWithOrders (limit orders : Expr) : Expr := .anonymous [("limit", limit), ("sorted", orders)]

/-- The customers, each with a limit and the sorted orders. The query has an annotation, a hint, an
ordering by the elements and a grouped join. -/
def taggedOrders : Expr :=
  let order : Ty := .entity "Order"
  let limit : Expr := .apply Hint.parameter [.int] [.placeholder (.ofName "limit" .int)]
  let group : Expr := asQueryable (.param ⟨3, "g", .enumerable order⟩) order
  let result : Expr := limitWithOrders limit (.apply Queryable.order [order] [group])
  .apply Metadata.tagWith [result.ty] [ordersGrouped result, .const (.string "orders") .string]

/-- The customers, each with a limit and the sorted orders, in normal form. -/
def sortedOrders : Expr :=
  let customer : Ty := .entity "Customer"
  let order : Ty := .entity "Order"
  let o : Param := ⟨2, "o", customer⟩
  let b : Param := ⟨1, "b", order⟩
  let id : Expr := .access (.param o) "Id" .int
  let matching : Expr := .apply Queryable.filter [order]
    [.const (.reference "DbSet<Order>()") (.queryable order),
      .quote (.lambda [b] (.both id.notNull (id.equals (.access (.param b) "CustomerId" .int))))]
  let result : Expr := limitWithOrders (.placeholder ⟨"limit", .int, .parameter, false⟩)
    (.apply Queryable.orderBy [order, order]
      [asQueryable matching order, (Lambda.identity ⟨4, "p", order⟩).quoted])
  .apply Queryable.select [customer, result.ty]
    [.const (.reference "DbSet<Customer>()") (.queryable customer), .quote (.lambda [o] result)]

theorem eliminated_taggedOrders :
    (∀ c ∈ taggedOrders.calls, c.method.isStatic → c.receiver = none) ∧
      normalize ⟨false⟩ default taggedOrders =
        (.ok sortedOrders, (default : Context).tagged "orders") ∧
      (∀ s ∈ [Metadata.tagWith, Hint.parameter, Queryable.order, Queryable.groupJoin],
        taggedOrders.hasCallTo s = true) ∧
      ∀ s ∈ eliminatedOperators, sortedOrders.hasCallTo s = false :=
  have hstatic : ∀ c ∈ taggedOrders.calls, c.method.isStatic → c.receiver = none := by decide
  have hnormal : normalize ⟨false⟩ default taggedOrders =
      (.ok sortedOrders, (default : Context).tagged "orders") := rfl
  ⟨hstatic, hnormal, by decide, eliminated_of_normalize hstatic hnormal⟩

/-! ## Annotations in order -/

namespace Expr

mutual
/-- The calls of annotations, each after those of its source, from left to right. Nothing but the
first argument of an annotation or a hint is looked into. -/
def annotations : Expr → List Call
  | .call m receiver args =>
      if m.signature ∈ annotatingOperators then
        (match args with | [] => [] | source :: _ => source.annotations) ++ [⟨m, receiver, args⟩]
      else if m.signature ∈ hintingOperators then
        match args with | [] => [] | argument :: _ => argument.annotations
      else (match receiver with | none => [] | some r => r.annotations) ++ annotationsList args
  | .lambda _ body => body.annotations
  | .quote inner => inner.annotations
  | .param _ => []
  | .member target _ => match target with | none => [] | some t => t.annotations
  | .binary _ lhs rhs => lhs.annotations ++ rhs.annotations
  | .unary _ operand => operand.annotations
  | .const _ _ => []
  | .new _ args _ => annotationsList args
  | .newWith _ args _ bindings => annotationsList args ++ annotationsBindings bindings
  | .cond test whenTrue whenFalse =>
      test.annotations ++ whenTrue.annotations ++ whenFalse.annotations
  | .placeholder _ => []

/-- The annotations of a list of trees. -/
def annotationsList : List Expr → List Call
  | [] => []
  | e :: es => e.annotations ++ annotationsList es

/-- The annotations of the values in bindings. -/
def annotationsBindings : List Binding → List Call
  | [] => []
  | .assign _ value :: bs => value.annotations ++ annotationsBindings bs
  | .items _ values :: bs => annotationsList values ++ annotationsBindings bs
end

theorem annotationsList_eq_flatMap : ∀ es : List Expr, annotationsList es = es.flatMap annotations
  | [] => rfl
  | e :: es => by simp [annotationsList, annotationsList_eq_flatMap es]

theorem annotationsBindings_eq_flatMap : ∀ bs : List Binding,
    annotationsBindings bs = (bs.flatMap Binding.values).flatMap annotations
  | [] => rfl
  | .assign name value :: bs => by
    simp [annotationsBindings, annotationsBindings_eq_flatMap bs, Binding.values]
  | .items name values :: bs => by
    simp [annotationsBindings, annotationsBindings_eq_flatMap bs, annotationsList_eq_flatMap,
      Binding.values]

/-- What the annotations of the tree say, in order. -/
def announced (e : Expr) : List (Option Effect) := e.annotations.map Call.effect?

theorem announced_note {m : Method} {r : Option Expr} {source : Expr} {rest : List Expr} {n : Note}
    (h : Note.of? m = some n) :
    (call m r (source :: rest)).announced =
      source.announced ++ [(n.effect m rest).toOption] := by
  have heffect : Call.effect? ⟨m, r, source :: rest⟩ = (n.effect m rest).toOption := by
    simp [Call.effect?, h]
  have hmem : m.signature ∈ annotatingOperators := isSome_note_iff.mp (by simp [h])
  simp [announced, annotations.eq_def (call m r (source :: rest)), hmem, heffect]

theorem announced_hint {m : Method} {r : Option Expr} {argument : Expr} {rest : List Expr}
    {mode : Mode} (hnote : Note.of? m = none) (h : Mode.hinted? m = some mode) :
    (call m r (argument :: rest)).announced = argument.announced := by
  have hother : m.signature ∉ annotatingOperators := not_mem_annotating hnote
  have hmem : m.signature ∈ hintingOperators := isSome_hinted_iff.mp (by simp [h])
  simp [announced, annotations.eq_def (call m r (argument :: rest)), hother, hmem]

/-- Any other node announces what its parts do. -/
theorem announced_of_parts {e : Expr}
    (h : ∀ c, e.call? = some c → Note.of? c.method = none ∧ Mode.hinted? c.method = none) :
    e.announced = e.parts.flatMap announced := by
  have hparts : e.annotations = e.parts.flatMap annotations := by
    cases e with
    | call m r args =>
      obtain ⟨hnote, hhint⟩ : Note.of? m = none ∧ Mode.hinted? m = none := h _ rfl
      rw [annotations.eq_def]
      cases r <;> simp [not_mem_annotating hnote, not_mem_hinting hhint, parts,
        annotationsList_eq_flatMap]
    | member target m => cases target <;> simp [annotations, parts]
    | newWith type args names bindings =>
      simp [annotations, parts, annotationsList_eq_flatMap, annotationsBindings_eq_flatMap]
    | new type args names => simp [annotations, parts, annotationsList_eq_flatMap]
    | _ => simp [annotations, parts]
  rw [announced, hparts, List.map_flatMap]
  rfl

theorem announced_of_rule {m : Method} {r : Option Expr} {args : List Expr} {rule : Rule}
    (hrule : Rule.of m r args = rule) (hnote : ∀ n, rule ≠ .note n) (hhint : ∀ mode, rule ≠ .hint mode) :
    (call m r args).announced = (call m r args).parts.flatMap announced := by
  refine announced_of_parts ?_
  rintro _ ⟨⟩
  cases ruleCase hrule with
  | note => exact absurd rfl (hnote _)
  | hint => exact absurd rfl (hhint _)
  | index hn hh | inMemory hn hh | membership hn hh | loading hn hh | other hn hh => exact ⟨hn, hh⟩

/-- A tree without annotations and hints announces nothing. -/
theorem announced_eq_nil {e : Expr}
    (h : e.EveryCall fun c => Note.of? c.method = none ∧ Mode.hinted? c.method = none) :
    e.announced = [] := by
  induction e using induction_parts with
  | _ e ih =>
    rw [announced_of_parts (everyCall_iff.mp h).1, List.flatMap_eq_nil_iff]
    exact fun x hx => ih x hx (h.part hx)

end Expr

/-! ## Computations that record effects -/

namespace Reduction

/-- Whatever the context is, the computation ends in the same way and carries out the same effects:
all that are announced if it yields a value, and a prefix of them if it fails. -/
def Records {α : Type} (x : Reduction α) (announced : List (Option Effect)) : Prop :=
  ∀ supply, ∃ effects supply',
    (∃ a, effects.map some = announced ∧
        ∀ context, Yields x ⟨context, supply⟩ a ⟨context.after effects, supply'⟩) ∨
      ∃ f, effects.map some <+: announced ∧
        ∀ context, Fails x ⟨context, supply⟩ f ⟨context.after effects, supply'⟩

section Records

variable {α β : Type} {x : Reduction α} {k : α → Reduction β} {log log' : List (Option Effect)}

theorem records_pure (a : α) : (pure a : Reduction α).Records [] := fun supply =>
  ⟨[], supply, .inl ⟨a, rfl, fun _ => yields_pure.mpr ⟨rfl, rfl⟩⟩⟩

theorem records_fail (f : Failure) : (fail f : Reduction α).Records log := fun supply =>
  ⟨[], supply, .inr ⟨f, List.nil_prefix, fun _ => fails_fail.mpr ⟨rfl, rfl⟩⟩⟩

theorem records_misuse (cause : Misuse) : (misuse cause : Reduction α).Records log :=
  records_fail _

theorem records_ofExcept (r : Except Failure α) : (ofExcept r).Records [] := by
  cases r with
  | ok a => exact records_pure a
  | error f => exact records_fail f

theorem records_perform (effect : Effect) : (perform effect).Records [some effect] := fun supply =>
  ⟨[effect], supply, .inl ⟨(), rfl, fun _ => yields_perform.mpr rfl⟩⟩

theorem records_fresh (name : String) (ty : Ty) : (fresh name ty).Records [] := fun supply =>
  ⟨[], ⟨supply.next + 1⟩, .inl ⟨⟨supply.next, name, ty⟩, rfl, fun _ => yields_fresh.mpr ⟨rfl, rfl⟩⟩⟩

/-- What the steps of a computation record comes one after the other. -/
theorem Records.bind (hx : x.Records log)
    (hk : ∀ {a s t}, Yields x s a t → (k a).Records log') : (x >>= k).Records (log ++ log') := by
  intro supply
  obtain ⟨effects, supply', ⟨a, hall, hrun⟩ | ⟨f, hprefix, hrun⟩⟩ := hx supply
  · obtain ⟨more, supply'', hmore⟩ := hk (hrun default) supply'
    refine ⟨effects ++ more, supply'', ?_⟩
    simp only [Context.after_append, List.map_append]
    rcases hmore with ⟨b, hall', hrun'⟩ | ⟨f, hprefix, hrun'⟩
    · exact .inl ⟨b, by rw [hall, hall'], fun context =>
        yields_bind.mpr ⟨a, _, hrun context, hrun' _⟩⟩
    · refine .inr ⟨f, ?_, fun context => fails_bind.mpr (.inr ⟨a, _, hrun context, hrun' _⟩)⟩
      rw [hall]
      exact (List.prefix_append_right_inj log).mpr hprefix
  · exact ⟨effects, supply', .inr ⟨f, hprefix.trans (List.prefix_append log log'),
      fun context => (hrun context).bind⟩⟩

theorem Records.bind_silent (hx : x.Records log)
    (hk : ∀ {a s t}, Yields x s a t → (k a).Records []) : (x >>= k).Records log :=
  List.append_nil log ▸ hx.bind hk

theorem Records.silent_bind (hx : x.Records [])
    (hk : ∀ {a s t}, Yields x s a t → (k a).Records log) : (x >>= k).Records log :=
  hx.bind hk

theorem Records.map (hx : x.Records log) (g : α → β) : (x >>= fun a => pure (g a)).Records log :=
  hx.bind_silent fun _ => records_pure _

end Records

end Reduction

/-! ## Visited calls -/

/-- The calls that a visit leaves. -/
structure Call.Visited (c : Call) : Prop where
  reduced : c.Reduced
  receiver : c.ReceiverFits

theorem established_visited : Established Call.ReceiverFits Call.Visited where
  reshaped h hc := ⟨h.reduced hc.reduced, h.receiverFits hc.receiver⟩
  built {c} hc := ⟨hc.reduced, fun hr => by simp [hc.receiver] at hr⟩
  flat _ hjoined _ _ := by
    refine ⟨?_, Call.receiverFits_static⟩
    rcases hjoined with rfl | rfl <;> exact .of_queryable rfl rfl
  weaken hc := hc.receiver
  walked hq hrule hord := ⟨established_reduced.walked hq.of_loading hrule hord, hq⟩
  converted hq hrule hstays hlen hfound hord hshape :=
    ⟨established_reduced.converted hq.of_loading hrule hstays hlen hfound hord hshape,
      Call.receiverFits_static⟩
  kept hq hrule hstays := ⟨established_reduced.kept hq.of_loading hrule hstays, hq⟩
  unmatched hq hrule hnone := ⟨established_reduced.unmatched hq.of_loading hrule hnone, hq⟩
  member hq hrule hconstruction :=
    ⟨established_reduced.member hq.of_loading hrule hconstruction, hq⟩
  loading {m r args typeArgs} hq hrule hlen := by
    have hnone : r = none := by
      cases ruleCase hrule with
      | loading _ _ _ _ _ hloading => exact hq.of_loading (mem_loading_of_loadsOrdered hloading)
    exact ⟨by simp [hnone], (established_reduced.loading hq.of_loading hrule hlen).2, hq⟩
  elementAt hsource := ⟨established_reduced.elementAt hsource, Call.receiverFits_static⟩
  any hsource := ⟨established_reduced.any hsource, Call.receiverFits_static⟩

theorem announced_of_visited {e : Expr} (h : e.EveryCall Call.Visited) : e.announced = [] :=
  announced_eq_nil (h.mono fun _ hc => ⟨hc.reduced.note, hc.reduced.hint⟩)

/-! ## What a visit records -/

section Visit

variable {provider : Provider} {again : Expr → Reduction Expr} {e : Expr} {c : Call}
  {m : Method} {r : Option Expr} {args : List Expr}

theorem records_reduceList : ∀ {es : List Expr},
    (∀ x ∈ es, (x.reduce provider again).Records x.announced) →
      (reduceList provider again es).Records (es.flatMap announced)
  | [], _ => records_pure []
  | x :: es, h => by
    rw [reduceList, List.flatMap_cons]
    exact (h x (by simp)).bind fun _ =>
      (records_reduceList fun y hy => h y (List.mem_cons_of_mem x hy)).map _

theorem records_reduceOption (h : ∀ x ∈ r, (x.reduce provider again).Records x.announced) :
    (reduceOption provider again r).Records (r.toList.flatMap announced) := by
  cases r with
  | none => exact records_pure none
  | some x =>
    rw [reduceOption, Option.toList_some, List.flatMap_singleton]
    exact (h x rfl).map _

theorem records_reduceBindings : ∀ {bs : List Binding},
    (∀ x ∈ bs.flatMap Binding.values, (x.reduce provider again).Records x.announced) →
      (reduceBindings provider again bs).Records ((bs.flatMap Binding.values).flatMap announced)
  | [], _ => records_pure []
  | .assign name value :: bs, h => by
    have hvalue := h value (by simp [Binding.values])
    have hrest : (reduceBindings provider again bs).Records _ :=
      records_reduceBindings fun x hx => h x (List.mem_append_right _ hx)
    rw [reduceBindings, List.flatMap_cons, List.flatMap_append, Binding.values,
      List.flatMap_singleton]
    exact hvalue.bind fun _ => hrest.map _
  | .items name values :: bs, h => by
    have hvalues : (reduceList provider again values).Records _ :=
      records_reduceList fun x hx => h x (List.mem_append_left _ hx)
    have hrest : (reduceBindings provider again bs).Records _ :=
      records_reduceBindings fun x hx => h x (List.mem_append_right _ hx)
    rw [reduceBindings, List.flatMap_cons, List.flatMap_append, Binding.values]
    exact hvalues.bind fun _ => hrest.map _

/-- Settling a call records nothing, if visiting again what flattening has built does not. -/
theorem records_settle
    (hagain : ∀ f, Flattening.of? c = some f → (again f.inner).Records []) :
    (settle again c).Records [] := by
  have hflatten : (flatten again c).Records [] := by
    unfold flatten
    split
    · exact records_pure _
    · rename_i hflat
      exact (hagain _ hflat).map _
    · rename_i hflat
      exact (hagain _ hflat).bind_silent fun _ => (records_fresh _ _).map _
  rcases hord : keyedOrdering? c.method with _ | ordering
  · rw [settle_eq_flatten hord]
    exact hflatten
  · by_cases hshape : c.method.typeArgs = [] ∨ c.args.length ≠ 1
    · rw [settle_malformed hord hshape]
      exact records_misuse _
    · obtain ⟨element, rest, source, htypes, hargs⟩ := exists_of_wellFormed hshape
      rw [settle_ordered hord htypes hargs]
      exact (records_fresh _ _).map _

/-! ### Calls, rule by rule -/

section Rules

variable (hparts : ∀ x ∈ (call m r args).parts, (x.reduce provider again).Records x.announced)
include hparts

theorem records_note {n : Note} (hrule : Rule.of m r args = .note n) :
    ((call m r args).reduce provider again).Records (call m r args).announced := by
  rw [Expr.reduce.eq_def]
  simp only [hrule]
  cases args with
  | nil => exact records_misuse _
  | cons source rest =>
    cases ruleCase hrule with
    | note hnote =>
      rw [announced_note hnote]
      refine (hparts source (by simp [parts])).bind fun _ => Records.map ?_ _
      unfold Note.perform
      cases n.effect m rest with
      | ok effect => exact records_perform effect
      | error cause => exact records_misuse cause

theorem records_hint {mode : Mode} (hrule : Rule.of m r args = .hint mode) :
    ((call m r args).reduce provider again).Records (call m r args).announced := by
  rw [Expr.reduce.eq_def]
  simp only [hrule]
  split
  · cases args with
    | nil => exact records_misuse _
    | cons argument rest =>
      cases ruleCase hrule with
      | hint hnote hhint =>
        rw [announced_hint hnote hhint]
        refine (hparts argument (by simp [parts])).bind_silent fun _ => ?_
        split
        · exact records_pure _
        · exact records_misuse _
  · exact records_fail _

theorem records_index {element : Ty} (hrule : Rule.of m r args = .index element) :
    ((call m r args).reduce provider again).Records (call m r args).announced := by
  obtain ⟨target, position, rfl, rfl⟩ := exists_of_index hrule
  have htarget := hparts target (by simp [parts])
  have hposition := hparts position (by simp [parts])
  rw [announced_of_rule hrule (by simp) (by simp), reduce_index hrule]
  simpa [parts] using htarget.bind fun _ => hposition.map _

theorem records_membership {element : Ty} (hrule : Rule.of m r args = .membership element) :
    ((call m r args).reduce provider again).Records (call m r args).announced := by
  rw [announced_of_rule hrule (by simp) (by simp), Expr.reduce.eq_def]
  simp only [hrule]
  cases r with
  | none => exact records_misuse _
  | some collection =>
    have hcollection := hparts collection (by simp [parts])
    have hargs : (reduceList provider again args).Records (args.flatMap announced) :=
      records_reduceList fun x hx => hparts x (by simp [parts, hx])
    dsimp only
    split
    · simpa [parts] using hcollection.bind fun _ => hargs.map _
    · split
      · rename_i item
        have hitem := hparts item (by simp [parts])
        simpa [parts] using hcollection.bind fun _ => hitem.map _
      · exact records_misuse _

theorem records_loading (hfits : Call.ReceiverFits ⟨m, r, args⟩)
    (hrule : Rule.of m r args = .loading) :
    ((call m r args).reduce provider again).Records (call m r args).announced := by
  obtain rfl : r = none := by
    cases ruleCase hrule with
    | loading _ _ _ _ _ hloading => exact hfits.of_loading (mem_loading_of_loadsOrdered hloading)
  rw [announced_of_rule hrule (by simp) (by simp), Expr.reduce.eq_def]
  simp only [hrule]
  split
  · rename_i source selector
    have hsource := hparts source (by simp [parts])
    have hselector := hparts selector (by simp [parts])
    have hboth : (call m none [source, selector]).parts.flatMap announced =
        source.announced ++ selector.announced := by simp [parts]
    rw [hboth]
    refine hsource.bind fun _ => ?_
    split
    · exact records_misuse _
    · refine hselector.bind_silent fun _ => ?_
      split
      · exact records_pure _
      · exact records_misuse _
  · exact records_misuse _

variable (hagain : ∀ x, x.EveryCall Call.Visited → (again x).Records [])
  (hvisited : ∀ {args' s t}, Yields (reduceList provider again args) s args' t →
    ∀ a ∈ args', a.EveryCall Call.Visited)
include hagain hvisited

theorem records_inMemory (hfits : Call.ReceiverFits ⟨m, r, args⟩)
    (hrule : Rule.of m r args = .inMemory) :
    ((call m r args).reduce provider again).Records (call m r args).announced := by
  obtain rfl : r = none := by
    cases ruleCase hrule with
    | inMemory _ _ _ hfamily => exact hfits.eq_none (by simp [hfamily])
  have hargs : (reduceList provider again args).Records (args.flatMap announced) :=
    records_reduceList fun x hx => hparts x (by simp [parts, hx])
  have hconvert {args' : List Expr} (hargs' : ∀ a ∈ args', a.EveryCall Call.Visited) :
      (convertCall again m args').Records [] := by
    refine (records_ofExcept _).silent_bind fun hfound => ?_
    rw [yields_ofExcept] at hfound
    split
    · have hp := established_visited.toMaintained
      refine (records_settle fun f hflat => hagain _ ?_).map _
      refine Flattening.everyCall_inner hp hflat fun a ha => ?_
      exact (holds_of_counterpart hp (toQueryable_eq_some hfound.1)
        (fun x hx => holds_top.mpr (hargs' x hx)) a ha).calls
    · exact records_pure _
  rw [announced_of_rule hrule (by simp) (by simp), Expr.reduce.eq_def]
  simp only [hrule, reduceOption, pure_bind]
  split
  · exact hargs.map _
  · refine hargs.bind_silent fun hrun => (hconvert (hvisited hrun)).silent_bind fun _ => ?_
    split <;> exact records_pure _

theorem records_other (hrule : Rule.of m r args = .other) :
    ((call m r args).reduce provider again).Records (call m r args).announced := by
  have hr : (reduceOption provider again r).Records (r.toList.flatMap announced) :=
    records_reduceOption fun x hx => hparts x (by simp_all [parts])
  have hargs : (reduceList provider again args).Records (args.flatMap announced) :=
    records_reduceList fun x hx => hparts x (by simp [parts, hx])
  have hcheck : (checkSelect m args).Records [] := by
    unfold checkSelect
    split
    · split
      · split
        · exact records_pure _
        · exact records_fail _
      · exact records_pure _
    · exact records_pure _
  rw [announced_of_rule hrule (by simp) (by simp), Expr.reduce.eq_def]
  simp only [hrule, parts, List.flatMap_append]
  refine hcheck.silent_bind fun _ => hr.bind fun _ => hargs.bind_silent fun hrun => ?_
  exact records_settle fun f hflat => hagain _
    (Flattening.everyCall_inner established_visited.toMaintained hflat (hvisited hrun))

end Rules

/-! ### Every node -/

theorem records_plain (hplain : e.isPlain = true)
    (hparts : ∀ x ∈ e.parts, (x.reduce provider again).Records x.announced) :
    (e.reduce provider again).Records e.announced := by
  rw [announced_of_parts (by simp [call?_of_isPlain hplain])]
  cases e with
  | call | binary => cases hplain
  | lambda params body | quote body | unary op body =>
    rw [reduce]
    simpa [parts] using (hparts body (by simp [parts])).map _
  | member target m =>
    rw [reduce]
    exact (records_reduceOption fun x hx => hparts x (by simp_all [parts])).map _
  | new type args names =>
    rw [reduce]
    exact (records_reduceList hparts).map _
  | newWith type args names bindings =>
    have hargs : (reduceList provider again args).Records (args.flatMap announced) :=
      records_reduceList fun x hx => hparts x (by simp [parts, hx])
    have hbindings : (reduceBindings provider again bindings).Records _ :=
      records_reduceBindings fun x hx => hparts x (List.mem_append_right _ hx)
    rw [reduce, parts, List.flatMap_append]
    exact hargs.bind fun _ => hbindings.map _
  | cond test a b =>
    have htest := hparts test (by simp [parts])
    have ha := hparts a (by simp [parts])
    have hb := hparts b (by simp [parts])
    rw [reduce]
    simpa [parts] using htest.bind fun _ => ha.bind fun _ => hb.map _
  | param | const | placeholder =>
    rw [reduce]
    exact records_pure _

/-- A constant announces nothing, and a count what the collection that is counted announces. -/
theorem announced_of_counted {op : BinOp} {lhs source : Expr} {value : Literal} {type : Ty}
    (h : countedSource? lhs = some source) :
    (binary op lhs (const value type)).announced = source.announced := by
  rcases counted_iff.mp h with ⟨_, rfl, -⟩ | rfl <;> simp [announced, annotations]

theorem records_nonEmpty {op : BinOp} {lhs rhs : Expr} {element : Ty}
    (hsugar : Sugar.of? op lhs rhs = some (.nonEmpty element))
    (hsource : ∀ x, countedSource? lhs = some x → (x.reduce provider again).Records x.announced) :
    ((binary op lhs rhs).reduce provider again).Records (binary op lhs rhs).announced := by
  cases sugarCase hsugar with
  | nonEmpty _ hzero hcounted =>
    subst hzero
    rw [announced_of_counted hcounted, reduce_nonEmpty hsugar hcounted]
    exact (hsource _ hcounted).map _

theorem records_binary {op : BinOp} {lhs rhs : Expr}
    (hlhs : (lhs.reduce provider again).Records lhs.announced)
    (hrhs : (rhs.reduce provider again).Records rhs.announced)
    (hsource : ∀ x, countedSource? lhs = some x → (x.reduce provider again).Records x.announced) :
    ((binary op lhs rhs).reduce provider again).Records (binary op lhs rhs).announced := by
  rcases hsugar : Sugar.of? op lhs rhs with _ | element | element
  · rw [announced_of_parts (by simp [call?])]
    simp only [Expr.reduce, hsugar]
    simpa [parts] using hlhs.bind fun _ => hrhs.map _
  · rw [announced_of_parts (by simp [call?])]
    simp only [Expr.reduce, hsugar, callInMemory_elementAt]
    simpa [parts] using hlhs.bind fun _ => hrhs.map _
  · exact records_nonEmpty hsugar hsource

/-- A visit records what the tree announces, if visiting again what has been visited records
nothing. -/
theorem records_reduce
    (hagain : ∀ x, x.EveryCall Call.Visited → (again x).Records [])
    (hvisited : ∀ {x : Expr} {s y t}, Yields (x.reduce provider again) s y t →
      x.EveryCall Call.ReceiverFits → y.EveryCall Call.Visited)
    (he : e.EveryCall Call.ReceiverFits) : (e.reduce provider again).Records e.announced := by
  induction hn : e.size using Nat.strongRecOn generalizing e with
  | _ n ih =>
    subst hn
    have hparts : ∀ x ∈ e.parts, (x.reduce provider again).Records x.announced :=
      fun x hx => ih _ (size_lt_of_mem hx) (he.part hx) rfl
    by_cases hplain : e.isPlain = true
    · exact records_plain hplain hparts
    cases e with
    | call m r args =>
      obtain ⟨hfits : Call.ReceiverFits ⟨m, r, args⟩, -, hargs⟩ := everyCall_call.mp he
      have hvisited' {args' : List Expr} {s t : ReductionState}
          (hrun : Yields (reduceList provider again args) s args' t) :
          ∀ a ∈ args', a.EveryCall Call.Visited := by
        intro a ha
        have hruns := (threads_of_reduceList hrun).mono_mem (Q := fun x s y t =>
          Yields (x.reduce provider again) s y t ∧ x.EveryCall Call.ReceiverFits)
          fun x hx _ _ _ h => ⟨h, hargs x hx⟩
        obtain ⟨x, _, hx⟩ := exists_of_forall₂
          (hruns.forall₂ (R := fun _ y => y.EveryCall Call.Visited) fun h => hvisited h.1 h.2) ha
        exact hx
      cases hrule : Rule.of m r args with
      | note n => exact records_note hparts hrule
      | hint mode => exact records_hint hparts hrule
      | index element => exact records_index hparts hrule
      | inMemory => exact records_inMemory hparts hagain hvisited' hfits hrule
      | membership element => exact records_membership hparts hrule
      | loading => exact records_loading hparts hfits hrule
      | other => exact records_other hparts hagain hvisited' hrule
    | binary op lhs rhs =>
      refine records_binary (hparts lhs (by simp [parts])) (hparts rhs (by simp [parts])) ?_
      intro x hx
      have hlhs : lhs ∈ (binary op lhs rhs).parts := by simp [parts]
      exact ih _ (Nat.lt_trans (size_of_counted hx) (size_lt_of_mem hlhs))
        ((he.part hlhs).part (mem_parts_of_counted hx).1) rfl
    | _ => exact absurd rfl hplain

/-- **What the operator pass records.** -/
theorem records_reduceOperators (budget : Nat) (he : e.EveryCall Call.ReceiverFits) :
    (reduceOperators provider budget e).Records e.announced := by
  induction budget generalizing e with
  | zero => exact records_fail _
  | succ budget ih =>
    refine records_reduce (fun x hx => ?_) (fun hrun hx => ?_) he
    · rw [← announced_of_visited hx]
      exact ih (hx.mono fun _ hc => hc.receiver)
    · have hruns : Runs provider _ _ _ _ := ⟨budget + 1, hrun⟩
      exact (hruns.improved established_visited).everyCall hx

end Visit

/-- **What normalizing records.** If only methods that are declared on a type and not static are
called on a receiver, normalizing ends in the same way in every context. The context afterwards is
the one that the annotations make of the context before, each carried out once and in order: all of
them if there is a normal form, and a prefix of them if there is none. -/
theorem normalize_records {provider : Provider} {e : Expr}
    (hreceiver : ∀ c ∈ e.calls, c.receiver.isSome → c.method.owner?.isSome ∧ ¬ c.method.isStatic) :
    ∃ result recorded,
      recorded <+: e.annotations ∧ (∀ e', result = .ok e' → recorded = e.annotations) ∧
        ∀ context, ∃ context', normalize provider context e = (result, context') ∧
          ∀ after, Recorded recorded context after ↔ after = context' := by
  have hrecords : (reduceQuery provider e).Records e.announced :=
    (records_reduceOperators _ hreceiver).bind_silent fun _ => records_ofExcept _
  obtain ⟨effects, supply, ⟨e', hall, hrun⟩ | ⟨f, ⟨unsaid, hsplit⟩, hrun⟩⟩ := hrecords (.after e)
  · refine ⟨.ok e', e.annotations, List.prefix_rfl, fun _ _ => rfl, fun context => ?_⟩
    exact ⟨context.after effects, congrArg (fun out => (out.1, out.2.context)) (hrun context),
      fun _ => recorded_iff hall.symm⟩
  · obtain ⟨recorded, rest, hcalls, heffects, -⟩ := List.map_eq_append_iff.mp hsplit.symm
    refine ⟨.error f, recorded, ⟨rest, hcalls.symm⟩, by simp, fun context => ?_⟩
    exact ⟨context.after effects, congrArg (fun out => (out.1, out.2.context)) (hrun context),
      fun _ => recorded_iff heffects⟩

/-- A query under an annotation, given the constants that it says something with. -/
def annotated (operator : Signature) (element : Ty) (constants : List (Literal × Ty))
    (source : Expr) : Expr :=
  .apply operator [element] (source :: constants.map fun c => .const c.1 c.2)

/-- A query whose filters of the given names are ignored. -/
def withoutFilters (names : List String) (element : Ty) : Expr → Expr :=
  annotated Metadata.ignoreNamedQueryFilters element
    [(.list (names.map .string), .seq .array .string)]

/-- The orders of the customers, by a grouped join that is flattened. Both sources have annotations,
and the inner one is visited twice. -/
def annotatedPairs : Expr :=
  let customer : Ty := .entity "Customer"
  let order : Ty := .entity "Order"
  let customers : Expr := .const (.reference "DbSet<Customer>()") (.queryable customer)
  let orders : Expr := .const (.reference "DbSet<Order>()") (.queryable order)
  let x : Param := ⟨4, "x", customerWithOrders.ty⟩
  let y : Param := ⟨5, "y", customerWithOrders.ty⟩
  let e : Param := ⟨6, "e", order⟩
  let grouped : Expr := .apply Queryable.groupJoin [customer, order, .int, customerWithOrders.ty]
    [annotated Metadata.asNoTracking customer [] (withoutFilters ["region"] customer customers),
      annotated Metadata.tagWith order [(.string "orders", .string)]
        (annotated Metadata.ignoreQueryFilters order [] orders),
      .quote (.lambda [⟨0, "a", customer⟩] (.access (.param ⟨0, "a", customer⟩) "Id" .int)),
      .quote (.lambda [⟨1, "b", order⟩] (.access (.param ⟨1, "b", order⟩) "CustomerId" .int)),
      .quote (.lambda [⟨2, "o", customer⟩, ⟨3, "g", .enumerable order⟩] customerWithOrders)]
  let pairs : Expr := .apply Queryable.selectManyPairs [x.ty, order, order]
    [grouped, .quote (.lambda [x] (groupOf (.param x))), .quote (.lambda [y, e] (.param e))]
  annotated Metadata.tagWithCallSite order [(.string "pairs", .string), (.int 7, .int)]
    (annotated Metadata.ignoreAutoIncludes order []
      (withoutFilters ["paid", "open"] order (withoutFilters ["paid", "active"] order pairs)))

/-- The context after the annotations of the pairs: the region is forgotten. -/
def Context.afterPairs (context : Context) : Context where
  tracking := .noTracking
  ignoreFilters := true
  ignoredFilters := some ⟨["active", "open", "paid"], by decide⟩
  tags := context.tags ++ ["orders"] ++ ["File: pairs:7"]
  ignoreAutoIncludes := true

theorem normalize_annotatedPairs :
    (∀ c ∈ annotatedPairs.calls,
        c.receiver.isSome → c.method.owner?.isSome ∧ ¬ c.method.isStatic) ∧
      annotatedPairs.annotations.map (·.method.signature) =
        [Metadata.ignoreNamedQueryFilters, Metadata.asNoTracking, Metadata.ignoreQueryFilters,
          Metadata.tagWith, Metadata.ignoreNamedQueryFilters, Metadata.ignoreNamedQueryFilters,
          Metadata.ignoreAutoIncludes, Metadata.tagWithCallSite] ∧
      ∀ context,
        normalize ⟨false⟩ context annotatedPairs =
            (.ok (ordersBy Queryable.join ⟨6, "e", .entity "Order"⟩
              (.param ⟨6, "e", .entity "Order"⟩)), context.afterPairs) ∧
          ∀ after, Recorded annotatedPairs.annotations context after ↔
            after = context.afterPairs := by
  have hreceiver : ∀ c ∈ annotatedPairs.calls,
      c.receiver.isSome → c.method.owner?.isSome ∧ ¬ c.method.isStatic := by decide
  refine ⟨hreceiver, rfl, fun context => ?_⟩
  have hnormal : normalize ⟨false⟩ context annotatedPairs =
      (.ok (ordersBy Queryable.join ⟨6, "e", .entity "Order"⟩
        (.param ⟨6, "e", .entity "Order"⟩)), context.afterPairs) := rfl
  obtain ⟨result, recorded, -, hall, hrun⟩ := @normalize_records ⟨false⟩ annotatedPairs hreceiver
  obtain ⟨context', hresult, hrecorded⟩ := hrun context
  obtain ⟨rfl, rfl⟩ := Prod.mk.inj (hnormal.symm.trans hresult)
  rw [hall _ rfl] at hrecorded
  exact ⟨hnormal, hrecorded⟩

end QueryNormal
