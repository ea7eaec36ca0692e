import QueryNormal.Join.Flat
import QueryNormal.Proofs.Parts

/-!
# Conversions along the chain of sources

* `RedundantConversion`: a conversion to a query that does not change the type of its argument.
* `Expr.OnChain`: the nodes between an expression and the source that it begins at.
* `Unwraps`: some redundant conversions on the chain are replaced by their arguments.
* `unwrapQueryable_strips`: unwrapping does this to all of them, and nothing else.

Whether a conversion is redundant depends on the type of its argument, which is unwrapped in turn.
That no type changes on the way (`Unwraps.ty_eq`) is why a conversion that was kept stays needed.
-/

namespace QueryNormal

open QueryNormal.Expr

/-- The expression converts its only argument to a query, and the argument has the type of the
result already. -/
inductive RedundantConversion : Expr → Expr → Prop
  | intro {m : Method} {r : Option Expr} {source : Expr} :
      m.is Queryable.asQueryable → source.ty = m.result →
      RedundantConversion (.call m r [source]) source

/-- The node is on the chain of sources, which goes on from a generic operator on queries to its
first argument. -/
inductive Expr.OnChain (n : Expr) : Expr → Prop
  | root : OnChain n n
  | source {m : Method} {r : Option Expr} {source : Expr} {rest : List Expr} :
      Call.isGenericQuery ⟨m, r, source :: rest⟩ → OnChain n source →
      OnChain n (.call m r (source :: rest))

/-- Some redundant conversions on the chain of sources are replaced by their arguments. -/
inductive Unwraps : Expr → Expr → Prop
  | same {e : Expr} : Unwraps e e
  | conversion {e source e' : Expr} :
      RedundantConversion e source → Unwraps source e' → Unwraps e e'
  | source {m : Method} {r : Option Expr} {source source' : Expr} {rest : List Expr} :
      Call.isGenericQuery ⟨m, r, source :: rest⟩ → Unwraps source source' →
      Unwraps (.call m r (source :: rest)) (.call m r (source' :: rest))

variable {e e' n source : Expr}

/-! ## One step -/

theorem redundantConversion_iff {m : Method} {r : Option Expr} {rest : List Expr} :
    (m.is Queryable.asQueryable ∧ rest.isEmpty ∧ source.ty = m.result) ↔
      RedundantConversion (.call m r (source :: rest)) source := by
  constructor
  · rintro ⟨hm, hrest, hty⟩
    obtain rfl := List.isEmpty_iff.mp hrest
    exact .intro hm hty
  · intro h
    cases h with
    | intro hm hty => exact ⟨hm, rfl, hty⟩

theorem unwrapQueryable_of_redundant (h : RedundantConversion e source) :
    unwrapQueryable e = unwrapQueryable source := by
  cases h with
  | intro hm hty => rw [unwrapQueryable, if_pos ⟨hm, rfl, hty⟩]

theorem unwrapQueryable_of_generic {m : Method} {r : Option Expr} {rest : List Expr}
    (hgeneric : Call.isGenericQuery ⟨m, r, source :: rest⟩)
    (h : ¬ RedundantConversion (.call m r (source :: rest)) source) :
    unwrapQueryable (.call m r (source :: rest)) = .call m r (unwrapQueryable source :: rest) := by
  rw [unwrapQueryable, if_neg (mt redundantConversion_iff.mp h),
    if_pos (of_decide_eq_true hgeneric)]

/-- A conversion is dropped, a generic operator on queries is kept around its source, and at
anything else the chain ends. -/
theorem unwrapQueryable_cases (e : Expr) :
    (∃ source ∈ e.parts, RedundantConversion e source) ∨
      (∃ m r source rest, e = .call m r (source :: rest) ∧
        Call.isGenericQuery ⟨m, r, source :: rest⟩ ∧ ¬ RedundantConversion e source) ∨
      unwrapQueryable e = e ∧ (∀ source, ¬ RedundantConversion e source) ∧
        ∀ n, n.OnChain e → n = e := by
  by_cases hcall : ∃ m r source rest, e = .call m r (source :: rest)
  · obtain ⟨m, r, source, rest, rfl⟩ := hcall
    by_cases hredundant : RedundantConversion (.call m r (source :: rest)) source
    · exact .inl ⟨source, by simp [parts], hredundant⟩
    · by_cases hgeneric : Call.isGenericQuery ⟨m, r, source :: rest⟩
      · exact .inr (.inl ⟨m, r, source, rest, rfl, hgeneric, hredundant⟩)
      · refine .inr (.inr ⟨?_, ?_, ?_⟩)
        · rw [unwrapQueryable, if_neg (mt redundantConversion_iff.mp hredundant),
            if_neg (mt decide_eq_true hgeneric)]
        · intro x hx
          cases hx with
          | intro hm hty => exact hredundant (.intro hm hty)
        · intro n hn
          cases hn with
          | root => rfl
          | source hgeneric' _ => exact absurd hgeneric' hgeneric
  · refine .inr (.inr ⟨?_, ?_, ?_⟩)
    · unfold unwrapQueryable
      split
      · exact absurd ⟨_, _, _, _, rfl⟩ hcall
      · rfl
    · intro x hx
      cases hx
      exact hcall ⟨_, _, _, _, rfl⟩
    · intro n hn
      cases hn with
      | root => rfl
      | source => exact absurd ⟨_, _, _, _, rfl⟩ hcall

/-! ## The chain -/

theorem Unwraps.ty_eq (h : Unwraps e e') : e'.ty = e.ty := by
  induction h with
  | same => rfl
  | conversion hredundant _ ih =>
    cases hredundant with
    | intro _ hty => exact ih.trans hty
  | source => rfl

theorem unwraps_unwrapQueryable (e : Expr) : Unwraps e (unwrapQueryable e) := by
  induction e using induction_parts with
  | _ e ih =>
    rcases unwrapQueryable_cases e with
      ⟨source, hpart, hredundant⟩ | ⟨m, r, source, rest, rfl, hgeneric, hkept⟩ | ⟨hsame, -⟩
    · rw [unwrapQueryable_of_redundant hredundant]
      exact .conversion hredundant (ih source hpart)
    · rw [unwrapQueryable_of_generic hgeneric hkept]
      exact .source hgeneric (ih source (by simp [parts]))
    · rw [hsame]
      exact .same

/-- What is left to unwrap does not depend on what has been unwrapped. -/
theorem Unwraps.unwrapQueryable_eq (h : Unwraps e e') : unwrapQueryable e' = unwrapQueryable e := by
  induction h with
  | same => rfl
  | conversion hredundant _ ih => rw [unwrapQueryable_of_redundant hredundant, ih]
  | @source m r source source' rest hgeneric h ih =>
    have hiff : RedundantConversion (.call m r (source' :: rest)) source' ↔
        RedundantConversion (.call m r (source :: rest)) source := by
      rw [← redundantConversion_iff, ← redundantConversion_iff, h.ty_eq]
    by_cases hredundant : RedundantConversion (.call m r (source :: rest)) source
    · rw [unwrapQueryable_of_redundant hredundant,
        unwrapQueryable_of_redundant (hiff.mpr hredundant), ih]
    · rw [unwrapQueryable_of_generic hgeneric hredundant,
        unwrapQueryable_of_generic (show Call.isGenericQuery ⟨m, r, source' :: rest⟩ from hgeneric)
          (mt hiff.mp hredundant), ih]

/-- No redundant conversion is left on the chain. -/
theorem not_redundant_of_onChain (hn : n.OnChain (unwrapQueryable e)) :
    ¬ RedundantConversion n source := by
  induction e using induction_parts with
  | _ e ih =>
    rcases unwrapQueryable_cases e with
      ⟨x, hpart, hredundant⟩ | ⟨m, r, x, rest, rfl, hgeneric, hkept⟩ | ⟨hsame, hnone, hroot⟩
    · rw [unwrapQueryable_of_redundant hredundant] at hn
      exact ih x hpart hn
    · rw [unwrapQueryable_of_generic hgeneric hkept] at hn
      cases hn with
      | root =>
        -- The source is unwrapped by now, but has the type it had when the conversion was kept.
        intro h
        cases h with
        | intro hm hty =>
          rw [(unwraps_unwrapQueryable x).ty_eq] at hty
          exact hkept (.intro hm hty)
      | source _ hn => exact ih x (by simp [parts]) hn
    · rw [hsame] at hn
      rw [hroot n hn]
      exact hnone source

/-- **Unwrapping.** The type stays, unwrapping again changes nothing, no redundant conversion is
left on the chain of sources, and nothing but redundant conversions on the chain is taken away. -/
theorem unwrapQueryable_strips (e : Expr) :
    (unwrapQueryable e).ty = e.ty ∧ unwrapQueryable (unwrapQueryable e) = unwrapQueryable e ∧
      (∀ n source, n.OnChain (unwrapQueryable e) → ¬ RedundantConversion n source) ∧
      Unwraps e (unwrapQueryable e) := by
  have hunwraps := unwraps_unwrapQueryable e
  exact ⟨hunwraps.ty_eq, hunwraps.unwrapQueryable_eq, fun _ _ => not_redundant_of_onChain, hunwraps⟩

end QueryNormal
