import QueryNormal.Proofs.Untouched

/-!
# When the grouped-join pass is skipped

* `Expr.Occurs`: an expression stands in a tree, at any depth.
* `hasCall_iff`: the search for a call finds one exactly if it stands in the tree.
* `normalizeUngated`: the normal form where the grouped-join pass is always run.
* `gate_optional`: the pass leaves a tree in which it finds nothing as it is, so that skipping it
  changes no result.

The search lists the nodes of a tree and the pass rebuilds them. Both are compared with the parts of
a node, so that neither misses a position that the other knows.
-/

namespace QueryNormal

namespace Expr

/-- The expression is the tree, or stands in a part of it. -/
inductive Occurs (x : Expr) : Expr → Prop
  | here : Occurs x x
  | inside {e part : Expr} : part ∈ e.parts → Occurs x part → Occurs x e

variable {e x : Expr}

theorem mem_nodes_iff_occurs : x ∈ e.nodes ↔ x.Occurs e := by
  constructor
  · intro h
    induction e using induction_parts with
    | _ e ih =>
      rw [nodes_eq, List.mem_cons, List.mem_flatMap] at h
      rcases h with rfl | ⟨part, hpart, hx⟩
      · exact .here
      · exact .inside hpart (ih part hpart hx)
  · intro h
    induction h with
    | here => exact mem_nodes_self x
    | inside hpart _ ih => exact nodes_trans (mem_nodes_of_mem_parts hpart) ih

theorem mem_calls_iff {c : Call} : c ∈ e.calls ↔ c.toExpr.Occurs e := by
  simp only [calls, List.mem_filterMap, mem_nodes_iff_occurs, call?_eq_some, exists_eq_right]

theorem hasCall_iff {p : Call → Bool} :
    e.hasCall p = true ↔ ∃ c : Call, c.toExpr.Occurs e ∧ p c = true := by
  simp only [hasCall_eq_any, List.any_eq_true, mem_calls_iff]

end Expr

/-! ## The pass without a gate -/

/-- The normal form of a query, where the grouped-join pass is run on every tree. -/
def reduceQueryUngated (provider : Provider) (e : Expr) : Reduction Expr := do
  let e ← reduceOperators provider e.budget e
  Reduction.ofExcept (reduceGroupJoins e.budget e)

/-- The normal form of a query, or why it has none, where the grouped-join pass is run on every
tree, and the context as it is left. -/
def normalizeUngated (provider : Provider) (context : Context) (e : Expr) :
    Except Failure Expr × Context :=
  let out := ((reduceQueryUngated provider e).run.run ⟨context, .after e⟩).run
  (out.1, out.2.context)

section Gate

variable {e : Expr}

/-- A tree without a grouped join is left as it is, whatever the budget for reductions inside one
another. -/
theorem reduceGroupJoins_eq_self (h : e.hasCallTo Queryable.groupJoin = false) (budget : Nat) :
    reduceGroupJoins (budget + 1) e = .ok e :=
  ungroup_eq_self (hasCallTo_eq_false.mp h)

theorem finishGroupJoins_eq (e : Expr) : finishGroupJoins e = reduceGroupJoins e.budget e := by
  unfold finishGroupJoins
  split
  · rfl
  · -- the pass needs one visit to find that there is nothing to do
    rename_i hnone
    obtain ⟨budget, hbudget⟩ : ∃ budget, e.budget = budget + 1 :=
      Nat.exists_eq_add_one.mpr (Nat.two_pow_pos e.size)
    rw [hbudget, reduceGroupJoins_eq_self (by simpa using hnone)]

theorem normalize_eq_ungated (provider : Provider) (context : Context) (e : Expr) :
    normalize provider context e = normalizeUngated provider context e := by
  have hquery : reduceQuery provider e = reduceQueryUngated provider e := by
    unfold reduceQuery reduceQueryUngated
    simp only [finishGroupJoins_eq]
  unfold normalizeUngated
  rw [← hquery]
  exact normalize_of_run rfl

/-- **The gate is only an optimisation.** A call is found exactly if it stands in the tree, at any
depth. If no grouped join is found, the grouped-join pass succeeds and gives back the tree. So a query
has the same normal form, or none for the same reason, with the same context, if the pass is run on
every tree. -/
theorem gate_optional (e : Expr) :
    (∀ p : Call → Bool, e.hasCall p = true ↔ ∃ c : Call, c.toExpr.Occurs e ∧ p c = true) ∧
      (e.hasCallTo Queryable.groupJoin = false →
        ∀ budget, reduceGroupJoins (budget + 1) e = .ok e) ∧
      ∀ provider context, normalize provider context e = normalizeUngated provider context e :=
  ⟨fun _ => Expr.hasCall_iff, reduceGroupJoins_eq_self,
    fun provider context => normalize_eq_ungated provider context e⟩

end Gate

theorem gate_optional_customersWithIds :
    customersWithIds.hasCallTo Queryable.groupJoin = false ∧
      ∀ budget, reduceGroupJoins (budget + 1) customersWithIds = .ok customersWithIds :=
  have hnone : customersWithIds.hasCallTo Queryable.groupJoin = false := by decide +kernel
  ⟨hnone, (gate_optional customersWithIds).2.1 hnone⟩

end QueryNormal
