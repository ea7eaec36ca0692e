import QueryNormal.Proofs.Counterpart
import QueryNormal.Proofs.Flattening
import QueryNormal.Proofs.Parts
import QueryNormal.Proofs.Rules

/-!
# Calls and free parameters of a tree

* `Expr.EveryCall`: every call of a tree has a property.
* `Expr.free`: the ids of the parameters that no lambda of the tree declares around the reference.
* `Expr.Holds`: every call has one property, and every free id has another.
* `Call.Proper`: a call has as many type arguments and arguments as its method declares.
* `Maintained`: a property of calls that rewrites maintain.
-/

namespace QueryNormal

namespace Expr

theorem nodesList_eq_flatMap : ∀ es : List Expr, nodesList es = es.flatMap nodes
  | [] => rfl
  | e :: es => by simp [nodesList, nodesList_eq_flatMap es]

theorem nodesBindings_eq_flatMap : ∀ bs : List Binding,
    nodesBindings bs = (bs.flatMap Binding.values).flatMap nodes
  | [] => rfl
  | .assign name value :: bs => by
    simp [nodesBindings, nodesBindings_eq_flatMap bs, Binding.values]
  | .items name values :: bs => by
    simp [nodesBindings, nodesBindings_eq_flatMap bs, nodesList_eq_flatMap, Binding.values]

/-- The nodes of a tree are its root and the nodes of its parts. -/
theorem nodes_eq (e : Expr) : e.nodes = e :: e.parts.flatMap nodes := by
  cases e with
  | call m r args => cases r <;> simp [nodes, parts, nodesList_eq_flatMap]
  | member target m => cases target <;> simp [nodes, parts]
  | newWith type args names bindings =>
    simp [nodes, parts, nodesList_eq_flatMap, nodesBindings_eq_flatMap]
  | new type args names => simp [nodes, parts, nodesList_eq_flatMap]
  | _ => simp [nodes, parts]

theorem nodes_trans {e x y : Expr} (hx : x ∈ e.nodes) (hy : y ∈ x.nodes) : y ∈ e.nodes := by
  induction e using induction_parts with
  | _ e ih =>
    rw [nodes_eq, List.mem_cons, List.mem_flatMap] at hx
    rcases hx with rfl | ⟨z, hz, hx⟩
    · exact hy
    · rw [nodes_eq, List.mem_cons, List.mem_flatMap]
      exact .inr ⟨z, hz, ih z hz hx⟩

theorem mem_nodes_self (e : Expr) : e ∈ e.nodes := by
  rw [nodes_eq]
  exact List.mem_cons_self

theorem mem_nodes_of_mem_parts {e x : Expr} (h : x ∈ e.parts) : x ∈ e.nodes := by
  rw [nodes_eq]
  exact List.mem_cons_of_mem _ (List.mem_flatMap.mpr ⟨x, h, mem_nodes_self x⟩)

theorem call?_eq_some {x : Expr} {c : Call} : x.call? = some c ↔ x = c.toExpr := by
  obtain ⟨m, r, args⟩ := c
  cases x <;> simp [call?, Call.toExpr]

theorem calls_eq (e : Expr) : e.calls = e.call?.toList ++ e.parts.flatMap calls := by
  have hparts : (e.parts.flatMap nodes).filterMap call? = e.parts.flatMap calls :=
    List.filterMap_flatMap
  rw [calls, nodes_eq, List.filterMap_cons, hparts]
  cases e.call? <;> rfl

theorem references_eq (e : Expr) :
    e.references = e.param?.toList ++ e.parts.flatMap references := by
  have hparts : (e.parts.flatMap nodes).filterMap param? = e.parts.flatMap references :=
    List.filterMap_flatMap
  rw [references, nodes_eq, List.filterMap_cons, hparts]
  cases e.param? <;> rfl

theorem calls_subset {e x : Expr} (hx : x ∈ e.nodes) : x.calls ⊆ e.calls := by
  intro c hc
  obtain ⟨n, hn, hcall⟩ := List.mem_filterMap.mp hc
  exact List.mem_filterMap.mpr ⟨n, nodes_trans hx hn, hcall⟩

/-- Every call of the tree has the property. -/
def EveryCall (p : Call → Prop) (e : Expr) : Prop := ∀ c ∈ e.calls, p c

section EveryCall

variable {p q : Call → Prop} {e : Expr}

theorem everyCall_iff :
    e.EveryCall p ↔ (∀ c, e.call? = some c → p c) ∧ ∀ x ∈ e.parts, x.EveryCall p := by
  unfold EveryCall
  rw [calls_eq]
  simp only [List.mem_append, Option.mem_toList, List.mem_flatMap]
  constructor
  · intro h
    exact ⟨fun c hc => h c (.inl hc), fun x hx c hc => h c (.inr ⟨x, hx, hc⟩)⟩
  · rintro ⟨hroot, hparts⟩ c (hc | ⟨x, hx, hc⟩)
    · exact hroot c hc
    · exact hparts x hx c hc

theorem EveryCall.part (h : e.EveryCall p) {x : Expr} (hx : x ∈ e.parts) : x.EveryCall p :=
  (everyCall_iff.mp h).2 x hx

theorem EveryCall.node (h : e.EveryCall p) {x : Expr} (hx : x ∈ e.nodes) : x.EveryCall p :=
  fun c hc => h c (calls_subset hx hc)

theorem EveryCall.mono (h : e.EveryCall p) (hpq : ∀ c, p c → q c) : e.EveryCall q :=
  fun c hc => hpq c (h c hc)

@[simp] theorem everyCall_call {m : Method} {r : Option Expr} {args : List Expr} :
    (call m r args).EveryCall p ↔
      p ⟨m, r, args⟩ ∧ (∀ x ∈ r, x.EveryCall p) ∧ ∀ x ∈ args, x.EveryCall p := by
  rw [everyCall_iff]
  simp [call?, parts, or_imp, forall_and]

@[simp] theorem everyCall_lambda {params : List Param} {body : Expr} :
    (lambda params body).EveryCall p ↔ body.EveryCall p := by
  rw [everyCall_iff]
  simp [call?, parts]

@[simp] theorem everyCall_quote {inner : Expr} :
    (quote inner).EveryCall p ↔ inner.EveryCall p := by
  rw [everyCall_iff]
  simp [call?, parts]

@[simp] theorem everyCall_binary {op : BinOp} {lhs rhs : Expr} :
    (binary op lhs rhs).EveryCall p ↔ lhs.EveryCall p ∧ rhs.EveryCall p := by
  rw [everyCall_iff]
  simp [call?, parts]

/-- A node that is not a call has the property if its parts have it. -/
theorem everyCall_of_lambda {l : Lambda} (h : e.lambda? = some l) :
    e.EveryCall p ↔ l.body.EveryCall p := by
  refine induction_lambda (P := fun e => e.EveryCall p ↔ l.body.EveryCall p) h everyCall_lambda ?_
  intro x hx
  rw [everyCall_quote, hx]

end EveryCall

/-! ## Free parameters -/

mutual
/-- The ids of the references to parameters outside of lambdas that declare them. -/
def free : Expr → List UInt32
  | .call _ receiver args =>
      (match receiver with | none => [] | some r => r.free) ++ freeList args
  | .lambda params body => body.free.filter fun id => id ∉ params.map Param.id
  | .quote inner => inner.free
  | .param p => [p.id]
  | .member target _ => match target with | none => [] | some t => t.free
  | .binary _ lhs rhs => lhs.free ++ rhs.free
  | .unary _ operand => operand.free
  | .const _ _ => []
  | .new _ args _ => freeList args
  | .newWith _ args _ bindings => freeList args ++ freeBindings bindings
  | .cond test whenTrue whenFalse => test.free ++ whenTrue.free ++ whenFalse.free
  | .placeholder _ => []

/-- The free ids of a list of trees. -/
def freeList : List Expr → List UInt32
  | [] => []
  | e :: es => e.free ++ freeList es

/-- The free ids of the values in bindings. -/
def freeBindings : List Binding → List UInt32
  | [] => []
  | .assign _ value :: bs => value.free ++ freeBindings bs
  | .items _ values :: bs => freeList values ++ freeBindings bs
end

/-- The parameters that a node declares. -/
def declared : Expr → List Param
  | .lambda params _ => params
  | _ => []

theorem freeList_eq_flatMap : ∀ es : List Expr, freeList es = es.flatMap free
  | [] => rfl
  | e :: es => by simp [freeList, freeList_eq_flatMap es]

theorem freeBindings_eq_flatMap : ∀ bs : List Binding,
    freeBindings bs = (bs.flatMap Binding.values).flatMap free
  | [] => rfl
  | .assign name value :: bs => by
    simp [freeBindings, freeBindings_eq_flatMap bs, Binding.values]
  | .items name values :: bs => by
    simp [freeBindings, freeBindings_eq_flatMap bs, freeList_eq_flatMap, Binding.values]

theorem mem_free {e : Expr} {id : UInt32} :
    id ∈ e.free ↔ (∃ p, e.param? = some p ∧ p.id = id) ∨
      (id ∉ e.declared.map Param.id ∧ ∃ x ∈ e.parts, id ∈ x.free) := by
  cases e with
  | call m r args => cases r <;> simp [free, param?, declared, parts, freeList_eq_flatMap]
  | member target m => cases target <;> simp [free, param?, declared, parts]
  | lambda params body => simp [free, param?, declared, parts, and_comm]
  | newWith type args names bindings =>
    simp [free, param?, declared, parts, freeList_eq_flatMap, freeBindings_eq_flatMap, or_and_right,
      exists_or]
  | new type args names => simp [free, param?, declared, parts, freeList_eq_flatMap]
  | param p => simp [free, param?, parts, eq_comm]
  | _ => simp [free, param?, declared, parts]

/-- The ids that the parameters declare, besides those that have the property. -/
def Under (params : List Param) (S : UInt32 → Prop) (id : UInt32) : Prop :=
  id ∈ params.map Param.id ∨ S id

@[simp] theorem under_nil (S : UInt32 → Prop) : Under [] S = S := by
  funext id
  simp [Under]

theorem Under.mono {params : List Param} {S S' : UInt32 → Prop} (hS : ∀ id, S id → S' id)
    {id : UInt32} (h : Under params S id) : Under params S' id := h.imp_right (hS id)

/-- Every call of the tree has the property `p`, and every free id the property `S`. -/
structure Holds (p : Call → Prop) (S : UInt32 → Prop) (e : Expr) : Prop where
  calls : e.EveryCall p
  free : ∀ id ∈ e.free, S id

section Holds

variable {p q : Call → Prop} {S S' : UInt32 → Prop} {e : Expr}

theorem holds_top : e.Holds p (fun _ => True) ↔ e.EveryCall p :=
  ⟨fun h => h.calls, fun h => ⟨h, fun _ _ => trivial⟩⟩

theorem Holds.mono (h : e.Holds p S) (hS : ∀ id, S id → S' id) : e.Holds p S' :=
  ⟨h.calls, fun id hid => hS id (h.free id hid)⟩

theorem Holds.weaken (h : e.Holds p S) (hpq : ∀ c, p c → q c) : e.Holds q S :=
  ⟨h.calls.mono hpq, h.free⟩

/-- A node holds if its call does, its reference does and its parts do, under what it declares. -/
theorem holds_iff :
    e.Holds p S ↔ (∀ c, e.call? = some c → p c) ∧ (∀ x, e.param? = some x → S x.id) ∧
      ∀ x ∈ e.parts, x.Holds p (Under e.declared S) := by
  constructor
  · rintro ⟨hcalls, hfree⟩
    refine ⟨(everyCall_iff.mp hcalls).1, fun x hx => ?_, fun x hx => ⟨hcalls.part hx, ?_⟩⟩
    · exact hfree _ (mem_free.mpr (.inl ⟨x, hx, rfl⟩))
    · intro id hid
      by_cases hdeclared : id ∈ e.declared.map Param.id
      · exact .inl hdeclared
      · exact .inr (hfree id (mem_free.mpr (.inr ⟨hdeclared, x, hx, hid⟩)))
  · rintro ⟨hcall, hparam, hparts⟩
    refine ⟨everyCall_iff.mpr ⟨hcall, fun x hx => (hparts x hx).calls⟩, fun id hid => ?_⟩
    rcases mem_free.mp hid with ⟨x, hx, rfl⟩ | ⟨hdeclared, x, hx, hid⟩
    · exact hparam x hx
    · exact ((hparts x hx).free id hid).resolve_left hdeclared

theorem Holds.part (h : e.Holds p S) {x : Expr} (hx : x ∈ e.parts) (he : e.declared = []) :
    x.Holds p S := by
  have hpart := (holds_iff.mp h).2.2 x hx
  rwa [he, under_nil] at hpart

@[simp] theorem holds_call {m : Method} {r : Option Expr} {args : List Expr} :
    (call m r args).Holds p S ↔
      p ⟨m, r, args⟩ ∧ (∀ x ∈ r, x.Holds p S) ∧ ∀ x ∈ args, x.Holds p S := by
  rw [holds_iff]
  simp [call?, param?, declared, parts, or_imp, forall_and]

@[simp] theorem holds_lambda {params : List Param} {body : Expr} :
    (lambda params body).Holds p S ↔ body.Holds p (Under params S) := by
  rw [holds_iff]
  simp [call?, param?, declared, parts]

@[simp] theorem holds_quote {inner : Expr} : (quote inner).Holds p S ↔ inner.Holds p S := by
  rw [holds_iff]
  simp [call?, param?, declared, parts]

@[simp] theorem holds_unary {op : UnOp} {operand : Expr} :
    (unary op operand).Holds p S ↔ operand.Holds p S := by
  rw [holds_iff]
  simp [call?, param?, declared, parts]

@[simp] theorem holds_binary {op : BinOp} {lhs rhs : Expr} :
    (binary op lhs rhs).Holds p S ↔ lhs.Holds p S ∧ rhs.Holds p S := by
  rw [holds_iff]
  simp [call?, param?, declared, parts]

@[simp] theorem holds_member {target : Expr} {m : Member} :
    (member (some target) m).Holds p S ↔ target.Holds p S := by
  rw [holds_iff]
  simp [call?, param?, declared, parts]

@[simp] theorem holds_param {x : Param} : (param x).Holds p S ↔ S x.id := by
  rw [holds_iff]
  simp [call?, param?, declared, parts]

@[simp] theorem holds_const {value : Literal} {type : Ty} : (const value type).Holds p S := by
  rw [holds_iff]
  simp [call?, param?, parts]

@[simp] theorem holds_placeholder {x : Placeholder} : (placeholder x).Holds p S := by
  rw [holds_iff]
  simp [call?, param?, parts]

theorem holds_of_lambda {l : Lambda} (h : e.lambda? = some l) :
    e.Holds p S ↔ l.body.Holds p (Under l.params S) := by
  refine induction_lambda (P := fun e => e.Holds p S ↔ l.body.Holds p (Under l.params S)) h
    holds_lambda ?_
  intro x hx
  rw [holds_quote, hx]

end Holds

end Expr

/-! ## Properties that rewrites maintain -/

/-- If the one expression constructs an object, so does the other; if it is a lambda, quoted or not,
so is the other, with the same parameters. -/
structure KeepsShape (x y : Expr) : Prop where
  construction : x.isConstruction = true → y.isConstruction = true
  lambda {l : Lambda} : x.lambda? = some l → ∃ body, y.lambda? = some ⟨l.params, body⟩

theorem KeepsShape.refl (x : Expr) : KeepsShape x x := ⟨fun h => h, fun h => ⟨_, h⟩⟩

/-- There is no shape to keep of what is neither a construction nor a lambda. -/
theorem KeepsShape.of_shapeless {x y : Expr} (hconstruction : x.isConstruction = false)
    (hlambda : x.lambda? = none) : KeepsShape x y := by
  refine ⟨fun h => ?_, fun h => ?_⟩
  · rw [hconstruction] at h
    cases h
  · rw [hlambda] at h
    cases h

/-- A walk keeps the shape of a node if it keeps the shape of the parts. -/
theorem WalksBy.keepsShape {σ : Type} {P : Expr → σ → Expr → σ → Prop} {e e' : Expr} {s t : σ}
    (h : WalksBy P e s e' t) (hP : ∀ {x s y t}, P x s y t → KeepsShape x y) : KeepsShape e e' := by
  refine ⟨fun he => by rw [h.isConstruction, he], fun hl => ?_⟩
  cases h with
  | lambda =>
    cases hl
    exact ⟨_, rfl⟩
  | quote hx => exact (hP hx).lambda hl
  | _ => cases hl

/-- The calls are of one method, with as many arguments, and what is constructed or a lambda in the
first is so in the second. -/
structure Reshaped (c c' : Call) : Prop where
  method : c'.method = c.method
  receiver : Option.Rel KeepsShape c.receiver c'.receiver
  args : List.Forall₂ KeepsShape c.args c'.args

/-- The call has as many type arguments and arguments as its method declares, and a receiver only
if the method is declared on a type and not static. -/
structure Call.Proper (c : Call) : Prop where
  typeArgs : c.method.typeArgs.length = c.method.signature.typeParams
  args : c.args.length = c.method.signature.params.length
  receiver : c.receiver.isSome → c.method.owner?.isSome ∧ ¬ c.method.isStatic

instance (c : Call) : Decidable c.Proper :=
  decidable_of_iff
    (c.method.typeArgs.length = c.method.signature.typeParams ∧
      c.args.length = c.method.signature.params.length ∧
      (c.receiver.isSome → c.method.owner?.isSome ∧ ¬ c.method.isStatic))
    ⟨fun h => ⟨h.1, h.2.1, h.2.2⟩, fun h => ⟨h.typeArgs, h.args, h.receiver⟩⟩

/-- The operators that rewrites introduce whatever the type arguments of the call are. -/
def builtOperators : List Signature :=
  [Queryable.asQueryable, Domain.queries.elementAt, Domain.queries.any, Queryable.contains,
    Queryable.orderBy, Queryable.orderByDescending, Queryable.select, Queryable.filter,
    Enumerable.asEnumerable]

/-- A proper static call of an operator that rewrites introduce. -/
structure Call.Built (c : Call) : Prop where
  mem : c.method.signature ∈ builtOperators
  receiver : c.receiver = none
  typeArgs : c.method.typeArgs.length = c.method.signature.typeParams
  args : c.args.length = c.method.signature.params.length

section Proper

variable {c c' : Call}

/-- The call has a receiver only if its method is declared on a type and not static. -/
def Call.ReceiverFits (c : Call) : Prop :=
  c.receiver.isSome → c.method.owner?.isSome ∧ ¬ c.method.isStatic

theorem Call.receiverFits_static {m : Method} {args : List Expr} :
    Call.ReceiverFits ⟨m, none, args⟩ := by
  intro h
  cases h

/-- A method that is not declared on a type has no receiver. -/
theorem Call.ReceiverFits.eq_none (h : c.ReceiverFits)
    (hfamily : ∀ owner, c.method.family ≠ .ofType owner) : c.receiver = none := by
  cases hr : c.receiver with
  | none => rfl
  | some x =>
    obtain ⟨owner, howner⟩ := Option.isSome_iff_exists.mp (h (by simp [hr])).1
    exact absurd (family_of_owner howner) (hfamily owner)

theorem Call.ReceiverFits.of_loading (h : c.ReceiverFits)
    (hmem : c.method.signature ∈ Metadata.loading) : c.receiver = none :=
  h.eq_none (by simp [family_of_mem_loading hmem])

theorem Reshaped.receiverFits (h : Reshaped c c') (hc : c.ReceiverFits) : c'.ReceiverFits := by
  obtain ⟨m, r, args⟩ := c
  obtain ⟨m', r', args'⟩ := c'
  obtain ⟨rfl : m' = m, hr, -⟩ := h
  refine fun hsome => hc ?_
  cases hr with
  | none => exact hsome
  | some => rfl

theorem Call.Proper.receiver_eq_none (h : c.Proper)
    (hfamily : ∀ owner, c.method.family ≠ .ofType owner) : c.receiver = none :=
  Call.ReceiverFits.eq_none h.receiver hfamily

/-- A proper call of an operator with one parameter has one argument and no receiver. -/
theorem Call.Proper.eq_single {m : Method} {r : Option Expr} {x : Expr} {rest : List Expr}
    (h : Call.Proper ⟨m, r, x :: rest⟩) (hfamily : ∀ owner, m.family ≠ .ofType owner)
    (hparams : m.signature.params.length = 1) : r = none ∧ rest = [] :=
  ⟨h.receiver_eq_none hfamily,
    List.eq_nil_of_length_eq_zero (Nat.succ.inj (h.args.trans hparams))⟩

theorem Reshaped.proper (h : Reshaped c c') (hc : c.Proper) : c'.Proper := by
  have hmethod := h.method
  refine ⟨by rw [hmethod]; exact hc.typeArgs, ?_, h.receiverFits hc.receiver⟩
  rw [hmethod, ← h.args.length_eq]
  exact hc.args

theorem Call.Built.isProper (h : c.Built) : c.Proper :=
  ⟨h.typeArgs, h.args, fun hr => by simp [h.receiver] at hr⟩

theorem Counterpart.proper {m m' : Method} {args args' : List Expr} (h : Counterpart m args m' args')
    (hlen : args.length = m.signature.params.length) : Call.Proper ⟨m', none, args'⟩ := by
  obtain ⟨passed, hpassed, rfl⟩ := h.args
  refine ⟨h.typeArgs, ?_, fun hr => by cases hr⟩
  rw [List.length_map, ← hpassed.length_eq, hlen, h.params]

end Proper

/-- Rewrites maintain the property: it looks at no more of a call than the method, the number of
arguments, which of them are constructed and which are lambdas of which parameters, and the calls that
rewrites build have it. -/
structure Maintained (p : Call → Prop) : Prop where
  reshaped {c c' : Call} : Reshaped c c' → p c → p c'
  built {c : Call} : c.Built → p c
  flat {joined : Signature} {typeArgs typeArgs' : List Ty} {r : Option Expr}
    {args args' : List Expr} : p ⟨⟨Queryable.groupJoin, typeArgs⟩, r, args⟩ →
    joined = Queryable.join ∨ joined = Queryable.leftJoin → typeArgs'.length = typeArgs.length →
    args'.length = args.length → p ⟨⟨joined, typeArgs'⟩, none, args'⟩

end QueryNormal
