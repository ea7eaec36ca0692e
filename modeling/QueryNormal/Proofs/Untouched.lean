import QueryNormal.Proofs.Annotations
import QueryNormal.Proofs.InMemory
import QueryNormal.Proofs.Shorthand

/-!
# Trees that normalizing leaves untouched

* `Call.Untouched`: a call that no rule rewrites and no check refuses, told by its method, its
  receiver and its arguments.
* `normalize_of_untouched`: a tree of such calls that is spelled out is given back, and the context is
  left as it is.

What is asked of a tree is asked of each node by itself, so it can be checked without running a pass.
-/

namespace QueryNormal

open QueryNormal.Expr

/-- The call is none that normalizing would rewrite or refuse. -/
structure Call.Untouched (c : Call) : Prop where
  operator : c.method.signature ∉ eliminatedOperators
  /-- A list is not read at a position, unless the receiver is no sequence. -/
  position : c.method.name = "get_Item" ∧ ¬ c.method.isStatic ∧ c.args.length = 1 →
    ∀ owner ∈ c.method.owner?, owner.has .readOnlyList → ∀ x ∈ c.receiver, x.ty.element? = none
  /-- A collection is asked for an item only if it is constructed on the spot. -/
  membership : c.method.name = "Contains" ∧ ¬ c.method.isStatic →
    ∀ owner ∈ c.method.owner?, owner.has .collection → ∃ x ∈ c.receiver, x.isConstruction
  /-- What is loaded is not ordered in memory. -/
  loading : c.method.signature ∈ Metadata.loading → ∀ selector ∈ c.args[1]?.bind lambda?,
    ¬ selector.body.ty.isSeqOf .orderedEnumerable
  inMemory : c.method.family = .enumerable →
    c.method.name ∈ ["AsEnumerable", "ToList", "ToArray", "SequenceEqual"] ∨
      ∃ source ∈ c.args.head?, source.isConstruction
  /-- A projection by a selector of one parameter is accepted. -/
  projection : c.method.signature = Queryable.select → ∀ selector ∈ c.args[1]?.bind lambda?,
    selector.params.length = 1 → ∀ p ∈ selector.params, (checkProjection p selector.body).isOk

instance (c : Call) : Decidable c.Untouched :=
  decidable_of_iff
    (c.method.signature ∉ eliminatedOperators ∧
      (c.method.name = "get_Item" ∧ ¬ c.method.isStatic ∧ c.args.length = 1 →
        ∀ owner ∈ c.method.owner?, owner.has .readOnlyList →
          ∀ x ∈ c.receiver, x.ty.element? = none) ∧
      (c.method.name = "Contains" ∧ ¬ c.method.isStatic →
        ∀ owner ∈ c.method.owner?, owner.has .collection → ∃ x ∈ c.receiver, x.isConstruction) ∧
      (c.method.signature ∈ Metadata.loading → ∀ selector ∈ c.args[1]?.bind lambda?,
        ¬ selector.body.ty.isSeqOf .orderedEnumerable) ∧
      (c.method.family = .enumerable →
        c.method.name ∈ ["AsEnumerable", "ToList", "ToArray", "SequenceEqual"] ∨
          ∃ source ∈ c.args.head?, source.isConstruction) ∧
      (c.method.signature = Queryable.select → ∀ selector ∈ c.args[1]?.bind lambda?,
        selector.params.length = 1 →
          ∀ p ∈ selector.params, (checkProjection p selector.body).isOk))
    ⟨fun ⟨h₁, h₂, h₃, h₄, h₅, h₆⟩ => ⟨h₁, h₂, h₃, h₄, h₅, h₆⟩, fun h =>
      ⟨h.operator, h.position, h.membership, h.loading, h.inMemory, h.projection⟩⟩

namespace Call.Untouched

variable {c : Call}

theorem note (h : c.Untouched) : Note.of? c.method = none := by
  have hmem : ∀ n : Note, n.signature ∈ eliminatedOperators := by
    intro n
    cases n <;> decide
  refine Option.eq_none_iff_forall_ne_some.mpr fun n hn => h.operator ?_
  rw [Note.signature_of_of? hn]
  exact hmem n

theorem hint (h : c.Untouched) : Mode.hinted? c.method = none := by
  have hmem : ∀ s ∈ Hint.all, s ∈ eliminatedOperators := by decide
  exact Option.eq_none_iff_forall_ne_some.mpr fun mode hmode =>
    h.operator (hmem _ (mem_hints_of_hinted hmode))

theorem ordering (h : c.Untouched) : keyedOrdering? c.method = none := by
  refine Option.eq_none_iff_forall_ne_some.mpr fun ordering hord => h.operator ?_
  rcases keyedOrdering_cases hord with ⟨hm, -⟩ | ⟨hm, -⟩ <;> rw [hm] <;> decide

theorem not_groupJoin (h : c.Untouched) : ¬ c.is Queryable.groupJoin := by
  refine not_is fun hm => h.operator ?_
  rw [hm]
  decide

/-- Three of the four operators have no counterpart, and comparing sequences stays in memory. -/
theorem stays (h : c.Untouched) (hfamily : c.method.family = .enumerable) :
    staysInMemory c.method c.args = true ∨ toQueryable c.method c.args = .ok none := by
  have hno : ∀ name ∈ ["AsEnumerable", "ToList", "ToArray"],
      Table.hasName .queryable name = false := by decide +kernel
  rcases h.inMemory hfamily with hname | ⟨source, hsource, hconstruction⟩
  · by_cases hcompared : c.method.name = "SequenceEqual"
    · exact .inl (by simp [staysInMemory, hcompared])
    · exact .inr (toQueryable_eq_none c.args (hno _ (by simpa [hcompared] using hname)))
  · obtain hsource : c.args.head? = some source := hsource
    exact .inl (by simp [staysInMemory, hsource, hconstruction])

theorem unaffected (h : c.Untouched) : c.Unaffected where
  note := h.note
  hint := h.hint
  inMemory := h.stays
  membership hsome := by
    obtain ⟨element, hmember⟩ := Option.isSome_iff_exists.mp hsome
    obtain ⟨hm, owner, howner, hcollection⟩ := membership_iff.mp hmember
    exact h.membership hm owner howner (by simp [Ty.has, hcollection])
  ordering := h.ordering

theorem indexed (h : c.Untouched) : indexedElement? c.method c.receiver c.args = none := by
  refine Option.eq_none_iff_forall_ne_some.mpr fun element hindex => ?_
  obtain ⟨hm, owner, howner, hlist, target, htarget, helement⟩ := indexed_iff.mp hindex
  rw [h.position hm owner howner (by simp [Ty.has, hlist]) target htarget] at helement
  cases helement

theorem not_loadsOrdered (h : c.Untouched) : loadsOrdered c.method c.args = false := by
  rw [Bool.eq_false_iff]
  intro hordered
  have hloading := h.loading (mem_loading_of_loadsOrdered hordered)
  simp only [loadsOrdered, Bool.and_eq_true] at hordered
  split at hordered
  · rename_i selector hselector
    exact hloading selector hselector hordered.2
  · exact absurd hordered.2 (by simp)

theorem accepted (h : c.Untouched) : deferredProjection? c.method c.args = none := by
  unfold deferredProjection?
  split
  · rename_i hm
    split
    · rename_i p body hselector
      have hok : (checkProjection p body).isOk = true :=
        h.projection (of_decide_eq_true hm) ⟨[p], body⟩ hselector rfl p (by simp)
      unfold checkProjection at hok
      split at hok
      · cases hok
      · assumption
    · rfl
  · rfl

end Call.Untouched

/-- In a tree of untouched calls that is spelled out nothing is pending. -/
theorem idle_of_untouched {e : Expr} (he : ∀ c ∈ e.calls, c.Untouched) (hspelled : e.SpelledOut) :
    e.Idle := by
  intro n hn
  cases n with
  | call m r args =>
    have hc : Call.Untouched ⟨m, r, args⟩ := he _ (List.mem_filterMap.mpr ⟨_, hn, rfl⟩)
    exact not_isPending_of_rule hc.indexed hc.not_loadsOrdered hc.accepted
  | binary op lhs rhs => exact hspelled _ hn
  | _ => rfl

/-- **What normalizing leaves untouched.** If no call of a tree is one that a rule rewrites or a check
refuses, and no operation of it is shorthand, then normalizing gives back exactly the tree, and leaves
the context as it is. -/
theorem normalize_of_untouched {provider : Provider} {context : Context} {e : Expr}
    (he : ∀ c ∈ e.calls, c.Untouched) (hspelled : ∀ n ∈ e.nodes, n.isShorthand = false) :
    normalize provider context e = (.ok e, context) :=
  normalize_of_unaffected (fun c hc => (he c hc).unaffected) (fun c hc => (he c hc).not_groupJoin)
    (idle_of_untouched he hspelled)

/-- The customers with one of two ids and their orders, which are loaded. The ids are asked for one
where they are constructed, an indexer is called on what is no list of them, and the paid orders are
copied in memory. -/
def customersWithIds : Expr :=
  let customer : Ty := .entity "Customer"
  let order : Ty := .entity "Order"
  let ids : Ty := .seq .list .int
  let c : Expr := .param ⟨0, "c", customer⟩
  let d : Expr := .param ⟨1, "d", customer⟩
  let o : Expr := .param ⟨3, "o", order⟩
  let loaded : Expr := .apply Metadata.includeNavigation [customer, .seq .list order]
    [.const (.reference "DbSet<Customer>()") (.queryable customer),
      .quote (.lambda [⟨0, "c", customer⟩] (ordersOf c))]
  let known : Expr := .call ⟨.onType ids "Contains" [.int] .bool, []⟩
    (some (.newWith ids [] none [.items "Items" [.const (.int 1) .int, .const (.int 2) .int]]))
    [.call ⟨.onType ids "get_Item" [.int] .int, []⟩ (some (.access d "Id" .int)) [zeroInt]]
  let nonEmpty : Expr := .apply Enumerable.any [.int] [.new ids [] none]
  let paid : Expr := .apply Queryable.filter [order]
    [asQueryable (ordersOf (.param ⟨2, "e", customer⟩)) order,
      .quote (.lambda [⟨3, "o", order⟩] (.binary .greater (.access o "Paid" .int) zeroInt))]
  .apply Queryable.select [customer, .seq .list order]
    [.apply Queryable.filter [customer]
      [loaded, .quote (.lambda [⟨1, "d", customer⟩] (.binary .or known nonEmpty))],
      .quote (.lambda [⟨2, "e", customer⟩] (.apply Enumerable.toList [order] [paid]))]

theorem normalize_customersWithIds :
    (∀ c ∈ customersWithIds.calls, c.Untouched) ∧
      (∀ n ∈ customersWithIds.nodes, n.isShorthand = false) ∧
      normalize ⟨false⟩ default customersWithIds = (.ok customersWithIds, default) :=
  have hcalls : ∀ c ∈ customersWithIds.calls, c.Untouched := by decide +kernel
  have hspelled : ∀ n ∈ customersWithIds.nodes, n.isShorthand = false := by decide
  ⟨hcalls, hspelled, normalize_of_untouched hcalls hspelled⟩

end QueryNormal
