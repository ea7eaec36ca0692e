import QueryNormal.Proofs.Tables

/-!
# What replacing a parameter means

* `references_replace`: where the references of the result come from.
* `replace_substitutes`: in every compositional meaning the replacement stands for the parameter.

Members of constructions are taken out on the way, whether or not the replacement has brought the
construction, and what they leave behind may have held other references. So nothing is said about
which references are kept.
-/

universe u

namespace QueryNormal

open QueryNormal.Expr

theorem references_subset {e x : Expr} (hx : x ∈ e.parts) : x.references ⊆ e.references := by
  intro p hp
  rw [references_eq e, List.mem_append, List.mem_flatMap]
  exact .inr ⟨x, hx, hp⟩

theorem references_project (target : Expr) (m : Member) :
    (target.project m).references ⊆ target.references := by
  rcases project_cases target m with h | ⟨h, -⟩
  · rw [h, references_eq]
    simp [param?, parts]
  · exact references_subset h

/-- What is referred to after replacing a parameter is referred to in the replacement, or was
referred to before and is another parameter. -/
theorem references_replace {e value : Expr} {id : UInt32} {p : Param}
    (h : p ∈ (replace id value e).references) :
    p ∈ value.references ∨ p ∈ e.references ∧ p.id ≠ id := by
  induction e using induction_parts with
  | _ e ih =>
    have hpart {x : Expr} (hx : x ∈ e.parts) (h : p ∈ (replace id value x).references) :
        p ∈ value.references ∨ p ∈ e.references ∧ p.id ≠ id :=
      (ih x hx h).imp_right fun h => ⟨references_subset hx h.1, h.2⟩
    rcases replace_cases id value e with ⟨_, _, _, heq⟩ | ⟨target, m, rfl, heq⟩ | ⟨hother, hwalk⟩
    · exact .inl (heq ▸ h)
    · rw [heq] at h
      exact hpart (by simp [parts]) (references_project _ m h)
    · rw [references_eq, hwalk.declared.1, List.mem_append, Option.mem_toList,
        List.mem_flatMap] at h
      rcases h with hp | ⟨y, hy, hp⟩
      · refine .inr ⟨?_, hother p hp⟩
        rw [references_eq, List.mem_append, Option.mem_toList]
        exact .inl hp
      · have hparts : List.Forall₂ (fun x y => y = replace id value x) e.parts
            (replace id value e).parts := hwalk.forall₂ fun h => h
        obtain ⟨x, hx, rfl⟩ := exists_of_forall₂ hparts hy
        exact hpart hx hp

/-- **Substitution.** In a compositional meaning in which a member of a construction is what the
construction initializes it with, an expression with a parameter replaced has the value that it has
with the parameter bound to the value of the replacement, if the expression declares neither the
parameter nor anything free in the replacement. Whatever it declares, its references come from the
replacement, or were there before and are to other parameters. -/
theorem replace_substitutes (id : UInt32) (value e : Expr) :
    (∀ {V : Type u} {M : Meaning V}, M.Compositional → M.ReadsMembers →
      id ∉ e.binders → (∀ i ∈ value.free, i ∉ e.binders) → ∀ env : Env V,
        M (replace id value e) env = M e (Function.update env id (M value env))) ∧
    ∀ p ∈ (replace id value e).references,
      p ∈ value.references ∨ p ∈ e.references ∧ p.id ≠ id := by
  refine ⟨fun hM hmembers hid hcapture env => ?_, fun _ => references_replace⟩
  exact hM.replace hmembers hid hcapture env

/-! ## The orders of a region -/

/-- The orders in the region of a customer. -/
def ordersInRegionOf (customer : Expr) : Expr :=
  let order : Ty := .entity "Order"
  let v : Param := ⟨1, "v", order⟩
  .apply Queryable.filter [order]
    [.const (.reference "DbSet<Order>()") (.queryable order),
      .quote (.lambda [v]
        (.binary .equal (.access (.param v) "Region" .int) (.access customer "Region" .int)))]

/-- A customer. -/
def buyer : Param := ⟨2, "c", .entity "Customer"⟩

/-- A customer in an object, which is in another. -/
def buyerInPair : Expr :=
  .anonymous [("pair", .newWith (.entity "Pair") [] none [.assign "o" (.param buyer)])]

/-- The orders in the region of the customer in an object that is in `x`. -/
def ordersOfPair : Expr :=
  ordersInRegionOf (.access (.access (.param ⟨0, "x", buyerInPair.ty⟩) "pair" (.entity "Pair")) "o"
    (.entity "Customer"))

theorem replace_substitutes_ordersOfPair :
    (0 ∉ ordersOfPair.binders ∧ ∀ i ∈ buyerInPair.free, i ∉ ordersOfPair.binders) ∧
      (∀ env, (ordersInRegionOf (.param buyer)).eval (tables shop) env =
        ordersOfPair.eval (tables shop)
          (Function.update env 0 (buyerInPair.eval (tables shop) env))) ∧
      ∀ p ∈ (ordersInRegionOf (.param buyer)).references,
        p ∈ buyerInPair.references ∨ p ∈ ordersOfPair.references ∧ p.id ≠ 0 := by
  have hscope : 0 ∉ ordersOfPair.binders ∧ ∀ i ∈ buyerInPair.free, i ∉ ordersOfPair.binders := by
    have hbinders : ordersOfPair.binders = [1] := rfl
    have hfree : buyerInPair.free = [2] := rfl
    simp [hbinders, hfree]
  have hreplaced : replace 0 buyerInPair ordersOfPair = ordersInRegionOf (.param buyer) := rfl
  obtain ⟨hvalue, hreferences⟩ := replace_substitutes 0 buyerInPair ordersOfPair
  rw [hreplaced] at hvalue hreferences
  exact ⟨hscope, hvalue (compositional_eval (tables shop)) (tables_constructs shop).readsMembers
    hscope.1 hscope.2, hreferences⟩

end QueryNormal
