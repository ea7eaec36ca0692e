import QueryNormal.Proofs.Failures
import QueryNormal.Proofs.Scope

/-!
# Arities

* `Call.Exact`: a call is given exactly what its method declares.
* `established_exact`: every rule leaves exact calls.
* `exact_of_normalize`: nothing is out of range in a tree of exact calls, and its normal form is such
  a tree again.
-/

namespace QueryNormal

open QueryNormal.Expr Reduction

/-! ## Exact calls -/

/-- The call has as many type arguments and arguments as its method declares, and a receiver exactly
if the method is declared on a type and not static. -/
structure Call.Exact (c : Call) : Prop where
  typeArgs : c.method.typeArgs.length = c.method.signature.typeParams
  args : c.args.length = c.method.signature.params.length
  receiver : c.receiver.isSome ↔ c.method.owner?.isSome ∧ ¬ c.method.isStatic

instance (c : Call) : Decidable c.Exact :=
  decidable_of_iff
    (c.method.typeArgs.length = c.method.signature.typeParams ∧
      c.args.length = c.method.signature.params.length ∧
      (c.receiver.isSome ↔ c.method.owner?.isSome ∧ ¬ c.method.isStatic))
    ⟨fun h => ⟨h.1, h.2.1, h.2.2⟩, fun h => ⟨h.typeArgs, h.args, h.receiver⟩⟩

section Exact

variable {c c' : Call}

theorem Call.Exact.isProper (h : c.Exact) : c.Proper := ⟨h.typeArgs, h.args, h.receiver.mp⟩

/-- A proper call of a method that is not declared on a type is exact. -/
theorem Call.Proper.exact (h : c.Proper) (howner : c.method.owner? = none) : c.Exact := by
  refine ⟨h.typeArgs, h.args, h.receiver, fun hm => ?_⟩
  simp [howner] at hm

theorem Reshaped.exact (h : Reshaped c c') (hc : c.Exact) : c'.Exact := by
  have hproper := h.proper hc.isProper
  have hsame : c'.receiver.isSome = c.receiver.isSome := by
    obtain ⟨m, r, args⟩ := c
    obtain ⟨m', r', args'⟩ := c'
    cases h.receiver <;> rfl
  refine ⟨hproper.typeArgs, hproper.args, ?_⟩
  rw [hsame, h.method]
  exact hc.receiver

theorem owner_of_family {m : Method} (h : ∀ owner, m.family ≠ .ofType owner) : m.owner? = none := by
  cases howner : m.owner? with
  | none => rfl
  | some owner => exact absurd (family_of_owner howner) (h owner)

end Exact

/-- **Arities are kept.** Every rule leaves exact calls. -/
theorem established_exact : Established Call.Exact Call.Exact where
  reshaped h hc := h.exact hc
  built h := h.isProper.exact ((by decide : ∀ s ∈ builtOperators, s.owner? = none) _ h.mem)
  flat {joined typeArgs typeArgs' r args args'} hc hjoined hlen hargs := by
    have htypes : typeArgs.length = 4 := hc.typeArgs
    have hcount : args.length = 5 := hc.args
    have hshape : joined.typeParams = 4 ∧ joined.params.length = 5 ∧ joined.owner? = none := by
      rcases hjoined with rfl | rfl <;> exact ⟨rfl, rfl, rfl⟩
    refine Call.Proper.exact ⟨?_, ?_, fun hr => by cases hr⟩ hshape.2.2
    · exact hlen.trans (htypes.trans hshape.1.symm)
    · exact hargs.trans (hcount.trans hshape.2.1.symm)
  weaken h := h
  walked hq _ _ := hq
  converted hq _ _ hlen hfound _ _ := by
    have hcounterpart := toQueryable_eq_some hfound
    refine (hcounterpart.proper (hlen.symm.trans hq.args)).exact (owner_of_family ?_)
    simp [hcounterpart.family]
  kept hq _ _ := hq
  unmatched hq _ _ := hq
  member hq _ _ := hq
  loading hq _ hlen := ⟨fun _ _ h => h, hlen.trans hq.typeArgs, hq.args, hq.receiver⟩
  elementAt _ := Call.Proper.exact ⟨rfl, rfl, fun hr => by cases hr⟩ rfl
  any _ := Call.Proper.exact ⟨rfl, rfl, fun hr => by cases hr⟩ rfl

/-! ## Positions in range -/

section Range

variable {provider : Provider} {e n : Expr} {s : ReductionState}

/-- Only a call without a declared type argument or argument reads past the end of a list. -/
theorem not_outOfRange (hn : n.EveryCall Call.Exact) : ¬ Cause provider n s .outOfRange := by
  intro hcause
  cases hcause with
  | unconverted _ _ hargs hfailed =>
    have hexact := (everyCall_call.mp hn).1
    obtain ⟨r, hok⟩ := toQueryable_isOk hexact.typeArgs (hargs.length_eq.trans hexact.args)
    rw [hfailed] at hok
    cases hok

/-- Whatever the budget and the state are, the operator pass stays in range. -/
theorem not_fails_outOfRange (he : e.EveryCall Call.Exact) {budget : Nat} {t : ReductionState} :
    ¬ Fails (reduceOperators provider budget e) s .outOfRange t := by
  intro hfails
  rcases cause_of_fails hfails with hexhausted | ⟨n, _, hmeets, hcause⟩
  · cases hexhausted
  · exact not_outOfRange (hmeets.everyCall established_exact he) hcause

end Range

/-! ## Normal forms -/

/-- **Exact calls stay in range and stay exact.** No run of the operator pass on a tree of exact
calls reads past the end of a list, whatever its budget and its state are; nor does normalization,
and every call of a normal form is exact. -/
theorem exact_of_normalize {provider : Provider} {context : Context} {e : Expr}
    (hexact : ∀ c ∈ e.calls, c.Exact) :
    (∀ budget s t, ¬ Fails (reduceOperators provider budget e) s .outOfRange t) ∧
      (normalize provider context e).1 ≠ .error .outOfRange ∧
      ∀ e', (normalize provider context e).1 = .ok e' → ∀ c ∈ e'.calls, c.Exact := by
  rcases hnormal : normalize provider context e with ⟨result, context'⟩
  refine ⟨fun _ _ _ => not_fails_outOfRange hexact, ?_, ?_⟩
  · rintro (rfl : result = _)
    rcases failure_of_normalize hnormal with
      hexhausted | ⟨n, _, hmeets, hcause⟩ | ⟨_, _, _, _, _, hf⟩
    · cases hexhausted
    · exact not_outOfRange (hmeets.everyCall established_exact hexact) hcause
    · cases hf
  · rintro e' (rfl : result = _)
    exact everyCall_of_normalize established_exact hnormal hexact

/-- The largest id among the orders of a flattened join, in memory. -/
def largestOrder : Expr :=
  let pair : Ty := (orderWithCustomer (.param ⟨5, "y", customerWithOrders.ty⟩)
    (.param ⟨6, "e", .entity "Order"⟩)).ty
  let z : Param := ⟨7, "z", pair⟩
  .apply (Domain.memory.operator "Max" 1 [.enumerable (.slot 0), .func [.slot 0] .int] .int) [pair]
    [orderByOrder, .lambda [z] (.access (.access (.param z) "e" (.entity "Order")) "Id" .int)]

/-- The largest id among the orders of a flat join, by a query. Its two type arguments are inferred. -/
def largestByQuery : Expr :=
  let pair : Ty := (orderWithCustomer (.param ⟨5, "y", customerWithOrders.ty⟩)
    (.param ⟨6, "e", .entity "Order"⟩)).ty
  let z : Param := ⟨7, "z", pair⟩
  .apply (Domain.queries.operator "Max" 2 [.queryable (.slot 0), .quoted (.func [.slot 0] (.slot 1))]
      (.slot 1)) [pair, .int]
    [ordersJoined,
      .quote (.lambda [z] (.access (.access (.param z) "e" (.entity "Order")) "Id" .int))]

theorem exact_largestByQuery :
    (∀ c ∈ largestOrder.calls, c.Exact) ∧
      normalize ⟨false⟩ default largestOrder = (.ok largestByQuery, default) ∧
      ∀ c ∈ largestByQuery.calls, c.Exact :=
  have hexact : ∀ c ∈ largestOrder.calls, c.Exact := by decide
  have hnormal : normalize ⟨false⟩ default largestOrder = (.ok largestByQuery, default) := rfl
  ⟨hexact, hnormal, (exact_of_normalize hexact).2.2 _ (congrArg Prod.fst hnormal)⟩

end QueryNormal
