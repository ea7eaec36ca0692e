import QueryNormal.Proofs.Termination

/-!
# Runs of the grouped-join pass

* `reduceGroupJoins_ends`: on a closed tree that declares no id twice, the pass ends.
* `ty_and_free_of_reduceGroupJoins`: the pass keeps the type of every tree, and frees no parameter.

A reduced grouped join is gone, but what matches it is copied to every reference to its group, with
the grouped joins inside, so that neither the size of the tree nor the number of grouped joins gets
less. What gets less is the level of a tree.

* `Staged w n e`: the tree is at the level `n`, when a reference counts as much as `w` gives its
  parameter. A grouped join is one above its arguments, and what is copied to the references to its
  group is at the level that they count (`CorrelatePieces.staged`).
* `Ranked w n e`: the weights count the grouped joins that are complete before a parameter is
  declared, the first parameter of a lambda apart. Such weights exist if no id is declared twice
  (`exists_ranked`), and then a closed tree is at the level of its number of grouped joins
  (`staged_of_ranked`).
-/

namespace QueryNormal

open QueryNormal.Expr

/-! ## The number of grouped joins -/

/-- The number of grouped joins in the tree. -/
def Expr.groupJoins (e : Expr) : Nat := e.nodes.countP isGroupJoin

theorem groupJoins_eq (e : Expr) :
    e.groupJoins = (e.parts.map groupJoins).sum + if e.isGroupJoin then 1 else 0 := by
  rw [groupJoins, nodes_eq, List.countP_cons, List.countP_flatMap]
  rfl

theorem groupJoins_lt_budget (e : Expr) : e.groupJoins < e.budget := by
  have hsize : e.groupJoins ≤ e.size := nodes_length e ▸ List.countP_le_length
  exact Nat.lt_of_le_of_lt hsize Nat.lt_two_pow_self

/-! ## Lambdas that an expression may become -/

/-- The expression is a lambda of the parameters, or may become one when a member of a construction
is replaced by what initializes it. -/
inductive Offers : Expr → List Param → Prop
  | lambda {params : List Param} {body : Expr} : Offers (.lambda params body) params
  | quote {e : Expr} {params : List Param} : Offers e params → Offers (.quote e) params
  | member {target : Expr} {m : Member} {params : List Param} :
      Offers target params → Offers (.member (some target) m) params
  | part {e x : Expr} {params : List Param} : e.isConstruction = true → x ∈ e.parts →
      Offers x params → Offers e params

section Offers

variable {e value : Expr} {id : UInt32} {params : List Param}

theorem offers_of_lambda {l : Lambda} (h : e.lambda? = some l) : Offers e l.params :=
  induction_lambda (P := fun e => Offers e l.params) h .lambda fun _ => .quote

theorem not_offers_call {m : Method} {r : Option Expr} {args : List Expr} :
    ¬ Offers (call m r args) params := by
  intro h
  cases h with
  | part hconstruction => cases hconstruction

theorem not_offers_param {p : Param} : ¬ Offers (param p) params := by
  intro h
  cases h with
  | part hconstruction => cases hconstruction

theorem Offers.of_project {m : Member} (h : Offers (e.project m) params) : Offers e params := by
  unfold project at h
  cases hx : e.initializer? m.name with
  | none =>
    rw [hx] at h
    cases h with
    | member h => exact h
    | part hconstruction => cases hconstruction
  | some x =>
    rw [hx] at h
    refine .part ?_ (mem_parts_of_initializer hx) h
    cases e with
    | new | newWith => rfl
    | _ => cases hx

/-- A replacement makes a lambda only of what could become one before. -/
theorem Offers.of_replace (hvalue : ∀ params, ¬ Offers value params)
    (h : Offers (replace id value e) params) : Offers e params := by
  induction e using induction_parts with
  | _ e ih =>
    rcases replace_cases id value e with ⟨_, _, _, he⟩ | ⟨target, m, rfl, he⟩ | ⟨-, hwalk⟩
    · rw [he] at h
      exact absurd h (hvalue params)
    · rw [he] at h
      exact .member (ih target (by simp [parts]) h.of_project)
    · generalize replace id value e = e' at h hwalk
      cases h with
      | lambda =>
        cases hwalk
        exact .lambda
      | quote h =>
        cases hwalk with
        | @quote inner _ _ _ hinner => exact .quote (ih inner (by simp [parts]) (hinner ▸ h))
      | member h =>
        cases hwalk with
        | member htarget =>
          cases htarget with
          | @some target _ _ _ htarget => exact .member (ih target (by simp [parts]) (htarget ▸ h))
      | part hconstruction hx h =>
        rw [hwalk.isConstruction] at hconstruction
        have hparts : WalksBy (fun x (_ : Unit) y _ => x ∈ e.parts ∧ y = replace id value x) e ()
            e' () := hwalk.mono_mem fun x hx _ _ _ hy => ⟨hx, hy⟩
        obtain ⟨x, hmem, -, rfl⟩ := exists_of_forall₂ (hparts.forall₂ fun h => h) hx
        exact .part hconstruction hmem (ih x hmem h)

end Offers

/-! ## Levels -/

/-- The tree is at the level `n`, when references count as the weights say. What stands before the
result selector of a grouped join is at the level of its group. -/
inductive Staged (w : UInt32 → Nat) : Nat → Expr → Prop
  | node {n : Nat} {e : Expr} : e.isGroupJoin = false → (∀ p, e.param? = some p → w p.id ≤ n) →
      (∀ x ∈ e.parts, Staged w n x) → Staged w n e
  | join {n : Nat} {m : Method} {r : Option Expr} {args : List Expr} :
      m.is Queryable.groupJoin = true → (∀ x ∈ (call m r args).parts, Staged w n x) →
      (∀ before result element group, args = before ++ [result] →
        Offers result [element, group] → w element.id = 0) →
      (∀ before result element group, args = before ++ [result] →
        Offers result [element, group] → ∀ x ∈ before, Staged w (w group.id) x) →
      Staged w (n + 1) (.call m r args)

section Staged

variable {w : UInt32 → Nat} {n k : Nat} {e x value : Expr} {id : UInt32}

theorem Staged.mono (h : Staged w n e) (hnk : n ≤ k) : Staged w k e := by
  induction h generalizing k with
  | node hnot hparam _ ih =>
    exact .node hnot (fun p hp => Nat.le_trans (hparam p hp) hnk) fun x hx => ih x hx hnk
  | join hm _ helement hbefore ih _ =>
    obtain ⟨k, rfl⟩ : ∃ j, k = j + 1 := ⟨k - 1, by omega⟩
    exact .join hm (fun x hx => ih x hx (by omega)) helement hbefore

theorem Staged.part (h : Staged w n e) (hx : x ∈ e.parts) : Staged w n x := by
  cases h with
  | node _ _ hparts => exact hparts x hx
  | join _ hparts => exact (hparts x hx).mono (Nat.le_succ _)

theorem Staged.lambda_body {l : Lambda} (hl : e.lambda? = some l) (h : Staged w n e) :
    Staged w n l.body := by
  refine induction_lambda (P := fun e => Staged w n e → Staged w n l.body) hl ?_ ?_ h
  · exact fun h => h.part (by simp [Lambda.toExpr, parts])
  · exact fun x ih h => ih (h.part (by simp [parts]))

theorem staged_quote (h : Staged w n e) : Staged w n (quote e) :=
  .node rfl (fun _ hp => by cases hp) (by simpa [parts] using h)

theorem staged_lambda {params : List Param} (h : Staged w n e) : Staged w n (lambda params e) :=
  .node rfl (fun _ hp => by cases hp) (by simpa [parts] using h)

theorem staged_param {p : Param} (h : w p.id ≤ n) : Staged w n (param p) :=
  .node rfl (fun _ hp => by cases hp; exact h) (by simp [parts])

theorem staged_apply {signature : Signature} {typeArgs : List Ty} {args : List Expr}
    (hsignature : signature ≠ Queryable.groupJoin) (h : ∀ x ∈ args, Staged w n x) :
    Staged w n (.apply signature typeArgs args) :=
  .node (by simpa [isGroupJoin, Expr.apply, Method.is] using hsignature) (fun _ hp => by cases hp)
    (by simpa [Expr.apply, parts] using h)

theorem staged_asQuery (h : Staged w n e) : Staged w n (asQuery e) := by
  unfold asQuery
  split
  · split
    · exact h
    · exact staged_apply (by decide) (by simpa using h)
  · exact h

theorem staged_groupedSelector (resultType : Ty) (h : Staged w n e) :
    Staged w n (groupedSelector resultType e) := by
  unfold groupedSelector
  split
  · exact staged_apply (by decide) (by simpa using h)
  · exact h

theorem staged_keysMatch {e' : Expr} (h : Staged w n e) (h' : Staged w n e') :
    Staged w n (keysMatch e e') := by
  refine keysMatch_of (fun _ _ => ?_) (fun _ _ _ hx hy => ?_) (fun _ _ _ hnew x hx => ?_) h h'
  · exact .node rfl (fun _ hp => by cases hp) (by simp [parts])
  · exact .node rfl (fun _ hp => by cases hp) (by simpa [parts] using ⟨hx, hy⟩)
  · exact hnew.part hx

theorem WalksBy.isGroupJoin {σ : Type} {P : Expr → σ → Expr → σ → Prop} {e' : Expr} {s t : σ}
    (h : WalksBy P e s e' t) : e'.isGroupJoin = e.isGroupJoin := by
  cases h <;> rfl

theorem eq_map_of_threads {σ : Type} {f : Expr → Expr} {es es' : List Expr} {s t : σ}
    (h : Threads (fun x _ y _ => y = f x) es s es' t) : es' = es.map f := by
  induction h with
  | nil => rfl
  | cons hx _ ih => rw [hx, ih, List.map_cons]

theorem eq_concat_of_map {α β : Type} {f : α → β} {as : List α} {bs : List β} {b : β}
    (h : as.map f = bs ++ [b]) : ∃ init a, as = init ++ [a] ∧ init.map f = bs ∧ f a = b := by
  obtain ⟨init, last, rfl, hinit, hlast⟩ := List.map_eq_append_iff.mp h
  obtain ⟨a, rfl, ha⟩ := List.map_eq_singleton_iff.mp hlast
  exact ⟨init, a, rfl, hinit, ha⟩

/-- Replacing references by what is at their level keeps the level of a tree. -/
theorem staged_replace (hvalue : Staged w (w id) value) (hoffers : ∀ params, ¬ Offers value params)
    (h : Staged w n e) : Staged w n (replace id value e) := by
  induction h with
  | @node n e hnot hparam hparts ih =>
    rcases replace_cases id value e with ⟨p, rfl, rfl, he⟩ | ⟨target, m, rfl, he⟩ | ⟨-, hwalk⟩
    · rw [he]
      exact hvalue.mono (hparam p rfl)
    · have htarget := ih target (by simp [parts])
      rw [he]
      rcases project_cases (replace id value target) m with h | ⟨h, -⟩
      · rw [h]
        exact .node rfl (fun _ hp => by cases hp) (by simpa [parts] using htarget)
      · exact htarget.part h
    · refine .node (hwalk.isGroupJoin ▸ hnot) (hwalk.declared.1 ▸ hparam) fun y hy => ?_
      have hwalked : WalksBy (fun _ (_ : Unit) y _ => Staged w n y) e () (replace id value e) () :=
        hwalk.mono_mem fun x hx _ _ _ hy => hy ▸ ih x hx
      obtain ⟨_, _, hy⟩ := exists_of_forall₂ (hwalked.forall₂ fun h => h) hy
      exact hy
  | @join n m r args hm hparts helement hbefore ih ihbefore =>
    rcases replace_cases id value (call m r args) with ⟨p, he, _⟩ | ⟨_, _, he, _⟩ | ⟨-, hwalk⟩
    · cases he
    · cases he
    · have hwalked : WalksBy (fun _ (_ : Unit) y _ => Staged w n y) (call m r args) ()
          (replace id value (call m r args)) () :=
        hwalk.mono_mem fun x hx _ _ _ hy => hy ▸ ih x hx
      have hparts' := hwalked.forall₂ (R := fun _ y => Staged w n y) fun h => h
      generalize replace id value (call m r args) = e' at hwalk hparts'
      cases hwalk with
      | @call _ _ r' _ args' _ _ _ hr hargs =>
        obtain rfl : args' = args.map (replace id value) := eq_map_of_threads hargs
        refine .join hm (fun y hy => ?_) ?_ ?_
        · obtain ⟨_, _, hy⟩ := exists_of_forall₂ hparts' hy
          exact hy
        -- the result selector offers no lambda that it did not offer before
        · intro before result element group hargs hresult
          obtain ⟨before, result, rfl, rfl, rfl⟩ := eq_concat_of_map hargs
          exact helement before result element group rfl (hresult.of_replace hoffers)
        · intro before result element group hargs hresult x hx
          obtain ⟨before, result, rfl, rfl, rfl⟩ := eq_concat_of_map hargs
          obtain ⟨x, hmem, rfl⟩ := List.mem_map.mp hx
          exact ihbefore before result element group rfl (hresult.of_replace hoffers) x hmem

/-- The filter that stands for a group is at the level of what it is built from. -/
theorem staged_matchingInner {innerElement : Ty} {inner outerKey : Expr} {key element : Param}
    {innerKey : Lambda} (hinner : Staged w n inner) (houter : Staged w n outerKey)
    (hkey : Staged w n innerKey.body) (helement : w element.id = 0) :
    Staged w n (matchingInner innerElement inner outerKey key element innerKey) := by
  have helement' : Staged w (w key.id) (param element) := staged_param (helement ▸ Nat.zero_le _)
  have hpredicate := staged_replace helement' (fun _ => not_offers_param)
    (staged_keysMatch houter hkey)
  refine staged_apply (by decide) ?_
  simpa using ⟨staged_asQuery hinner, staged_quote (staged_lambda hpredicate)⟩

/-- **What a grouped join becomes is one level below it.** -/
theorem CorrelatePieces.staged {m select : Method} {r : Option Expr} {args : List Expr}
    {outer selector : Expr} (hpieces : CorrelatePieces m args select outer selector)
    (hm : m.is Queryable.groupJoin = true) (h : Staged w n (.call m r args)) :
    ∃ k, n = k + 1 ∧ Staged w k outer ∧ Staged w k selector := by
  cases h with
  | node hnot => exact absurd hm (Bool.eq_false_iff.mp hnot)
  | @join k _ _ _ _ hparts helement hbefore =>
    cases hpieces with
    | @intro _ innerElement _ _ _ inner okArg ikArg resultArg outerKey body innerKey key element
        group _ hok hik hresult =>
      have hzero : w element.id = 0 :=
        helement [outer, inner, okArg, ikArg] resultArg element group rfl (offers_of_lambda hresult)
      have hstaged : ∀ x ∈ [outer, inner, okArg, ikArg], Staged w (w group.id) x :=
        hbefore _ resultArg element group rfl (offers_of_lambda hresult)
      have hbody : Staged w k body := (hparts resultArg (by simp [parts])).lambda_body hresult
      have hmatching : Staged w (w group.id)
          (matchingInner innerElement inner outerKey key element innerKey) :=
        staged_matchingInner (hstaged inner (by simp)) ((hstaged okArg (by simp)).lambda_body hok)
          ((hstaged ikArg (by simp)).lambda_body hik) hzero
      refine ⟨k, rfl, hparts outer (by simp [parts]), staged_quote (staged_lambda ?_)⟩
      exact staged_groupedSelector _ (staged_replace hmatching (fun _ => not_offers_call) hbody)

/-! ## A budget above the level -/

/-- A tree is not cut off with a budget above its level. -/
theorem Staged.not_exhausted {budget : Nat} (h : Staged w n e) (hn : n < budget) :
    reduceGroupJoins budget e ≠ .error .exhausted := by
  induction budget generalizing n e with
  | zero => omega
  | succ budget ih =>
    intro hfail
    change e.ungroup (reduceGroupJoins budget) = .error .exhausted at hfail
    -- inside one visit the tree gets smaller; what is visited again is a level below
    induction e using induction_parts with
    | _ e ihe =>
      cases ungroupFailsBy_of_error hfail with
      | part hx hfail => exact ihe _ hx (h.part hx) hfail
      | again hm hcorrelate hx hfail =>
        obtain ⟨k, rfl, houter, hselector⟩ := (correlatePieces hcorrelate).staged hm h
        rcases hx with rfl | rfl
        · exact ih houter (by omega) hfail
        · exact ih hselector (by omega) hfail

end Staged

section Congruence

variable {again again' : Expr → Except Failure Expr}

theorem ungroupList_congr : ∀ {es : List Expr}, (∀ x ∈ es, x.ungroup again = x.ungroup again') →
    ungroupList again es = ungroupList again' es
  | [], _ => rfl
  | x :: es, h => by
    rw [ungroupList, ungroupList, h x (by simp),
      ungroupList_congr fun y hy => h y (List.mem_cons_of_mem _ hy)]

theorem ungroupOption_congr {r : Option Expr} (h : ∀ x ∈ r, x.ungroup again = x.ungroup again') :
    ungroupOption again r = ungroupOption again' r := by
  cases r with
  | none => rfl
  | some x => rw [ungroupOption, ungroupOption, h x rfl]

theorem ungroupBindings_congr : ∀ {bs : List Binding},
    (∀ x ∈ bs.flatMap Binding.values, x.ungroup again = x.ungroup again') →
      ungroupBindings again bs = ungroupBindings again' bs
  | [], _ => rfl
  | .assign name value :: bs, h => by
    rw [ungroupBindings, ungroupBindings, h value (by simp [Binding.values]),
      ungroupBindings_congr fun x hx => h x (List.mem_append_right _ hx)]
  | .items name values :: bs, h => by
    have hvalues : ∀ x ∈ values, x.ungroup again = x.ungroup again' := fun x hx =>
      h x (List.mem_append_left _ hx)
    rw [ungroupBindings, ungroupBindings, ungroupList_congr hvalues,
      ungroupBindings_congr fun x hx => h x (List.mem_append_right _ hx)]

/-- What becomes of a node that is no grouped join depends on what becomes of its parts. -/
theorem ungroup_congr_of_parts {e : Expr} (he : e.isGroupJoin = false)
    (h : ∀ x ∈ e.parts, x.ungroup again = x.ungroup again') :
    e.ungroup again = e.ungroup again' := by
  cases e with
  | call m r args =>
    have hm : m.is Queryable.groupJoin = false := he
    rw [ungroup.eq_def, ungroup.eq_def again']
    simp only [hm, Bool.false_eq_true, if_false]
    rw [ungroupOption_congr fun x hx => h x (by simp_all [parts]),
      ungroupList_congr fun x hx => h x (by simp [parts, hx])]
  | lambda params body | quote inner | unary op operand =>
    rw [ungroup, ungroup, h _ (by simp [parts])]
  | member target m =>
    rw [ungroup, ungroup, ungroupOption_congr fun x hx => h x (by simp_all [parts])]
  | binary op lhs rhs =>
    rw [ungroup, ungroup, h lhs (by simp [parts]), h rhs (by simp [parts])]
  | new type args names =>
    have hargs : ∀ x ∈ args, x.ungroup again = x.ungroup again' := h
    rw [ungroup, ungroup, ungroupList_congr hargs]
  | newWith type args names bindings =>
    rw [ungroup, ungroup, ungroupList_congr fun x hx => h x (by simp [parts, hx]),
      ungroupBindings_congr fun x hx => h x (List.mem_append_right _ hx)]
  | cond test a b =>
    rw [ungroup, ungroup, h test (by simp [parts]), h a (by simp [parts]), h b (by simp [parts])]
  | param p | const value type | placeholder p => rfl

end Congruence

/-- With every budget above the level of a tree the pass comes to the same result. -/
theorem Staged.reduceGroupJoins_eq {w : UInt32 → Nat} {n budget budget' : Nat} {e : Expr}
    (h : Staged w n e) (hn : n < budget) (hn' : n < budget') :
    reduceGroupJoins budget e = reduceGroupJoins budget' e := by
  induction budget generalizing n e budget' with
  | zero => omega
  | succ budget ih =>
    obtain ⟨budget', rfl⟩ : ∃ b, budget' = b + 1 := ⟨budget' - 1, by omega⟩
    change e.ungroup (reduceGroupJoins budget) = e.ungroup (reduceGroupJoins budget')
    induction e using induction_parts with
    | _ e ihe =>
      by_cases hjoin : e.isGroupJoin = false
      · exact ungroup_congr_of_parts hjoin fun x hx => ihe x hx (h.part hx)
      · cases e with
        | call m r args =>
          have hm : m.is Queryable.groupJoin = true := by simpa [isGroupJoin] using hjoin
          rw [ungroup.eq_def, ungroup.eq_def (reduceGroupJoins budget')]
          simp only [hm, if_true]
          rcases hcorrelate : correlate m args with cause | ⟨select, outer, selector⟩
          · rfl
          · obtain ⟨k, rfl, houter, hselector⟩ := (correlatePieces hcorrelate).staged hm h
            have houter' : reduceGroupJoins budget outer = reduceGroupJoins budget' outer :=
              ih houter (by omega) (by omega)
            have hselector' :
                reduceGroupJoins budget selector = reduceGroupJoins budget' selector :=
              ih hselector (by omega) (by omega)
            dsimp only
            rw [houter', hselector']
        | _ => exact absurd rfl hjoin

/-! ## Weights -/

/-- The first parameter of a lambda weighs nothing, and any other as much as there are grouped joins
that are complete before the lambda, of which there are `n` before the tree. -/
inductive Ranked (w : UInt32 → Nat) : Nat → Expr → Prop
  | intro {n : Nat} {e : Expr} : (∀ p ∈ e.declared.head?, w p.id = 0) →
      (∀ p ∈ e.declared.tail, w p.id = n) →
      (∀ left x right, e.parts = left ++ x :: right →
        Ranked w (n + (left.map groupJoins).sum) x) →
      Ranked w n e

section Ranked

variable {w w' : UInt32 → Nat} {n : Nat} {e : Expr}

theorem Ranked.congr (h : Ranked w n e) (hw : ∀ id ∈ e.binders, w' id = w id) : Ranked w' n e := by
  induction h with
  | @intro n e hhead htail _ ih =>
    have hdeclared : ∀ p ∈ e.declared, w' p.id = w p.id := fun p hp =>
      hw p.id (binders_eq e ▸ List.mem_append_left _ (List.mem_map_of_mem hp))
    refine .intro (fun p hp => ?_) (fun p hp => ?_) fun left x right hparts => ?_
    · rw [hdeclared p (List.mem_of_mem_head? hp), hhead p hp]
    · rw [hdeclared p (List.mem_of_mem_tail hp), htail p hp]
    · refine ih left x right hparts fun id hid => hw id ?_
      rw [binders_eq, hparts]
      simp [hid]

/-- The weights of the parameters of a lambda that may stand as the result selector of a grouped
join. -/
theorem Ranked.offers {element group : Param} (h : Ranked w n e) (ho : Offers e [element, group]) :
    w element.id = 0 ∧ n ≤ w group.id := by
  generalize hparams : [element, group] = params at ho
  induction ho generalizing n with
  | lambda =>
    subst hparams
    cases h with
    | intro hhead htail =>
      exact ⟨hhead element rfl, Nat.le_of_eq (htail group (by simp [declared])).symm⟩
  | quote _ ih | member _ ih =>
    cases h with
    | intro _ _ hparts => exact ih (hparts [] _ [] rfl) hparams
  | part _ hx _ ih =>
    cases h with
    | intro _ _ hparts =>
      obtain ⟨left, right, hsplit⟩ := List.append_of_mem hx
      obtain ⟨helement, hgroup⟩ := ih (hparts left _ right hsplit) hparams
      exact ⟨helement, by omega⟩

theorem exists_ranked_list {es : List Expr}
    (h : ∀ x ∈ es, ∀ (n : Nat) (w : UInt32 → Nat), x.binders.Nodup →
      ∃ w', Ranked w' n x ∧ ∀ id ∉ x.binders, w' id = w id)
    (n : Nat) (w : UInt32 → Nat) (hdistinct : (es.flatMap binders).Nodup) :
    ∃ w', (∀ left x right, es = left ++ x :: right → Ranked w' (n + (left.map groupJoins).sum) x) ∧
      ∀ id ∉ es.flatMap binders, w' id = w id := by
  induction es generalizing n w with
  | nil => exact ⟨w, by simp, fun _ _ => rfl⟩
  | cons x es ih =>
    rw [List.flatMap_cons, List.nodup_append] at hdistinct
    obtain ⟨hx, hes, hdisjoint⟩ := hdistinct
    obtain ⟨w₁, hranked, hsame⟩ := h x (by simp) n w hx
    obtain ⟨w₂, hrest, hsame'⟩ := ih (fun y hy => h y (by simp [hy])) (n + x.groupJoins) w₁ hes
    refine ⟨w₂, fun left y right hsplit => ?_, fun id hid => ?_⟩
    · rcases List.cons_eq_append_iff.mp hsplit with ⟨rfl, hcons⟩ | ⟨left, rfl, rfl⟩
      · cases hcons
        exact hranked.congr fun id hid => hsame' id fun h => hdisjoint id hid id h rfl
      · simpa [Nat.add_assoc] using hrest left y right rfl
    · simp only [List.flatMap_cons, List.mem_append, not_or] at hid
      rw [hsame' id hid.2, hsame id hid.1]

theorem exists_weights {params : List Param} (hdistinct : (params.map Param.id).Nodup) (n : Nat)
    (w : UInt32 → Nat) :
    ∃ w' : UInt32 → Nat, (∀ p ∈ params.head?, w' p.id = 0) ∧ (∀ p ∈ params.tail, w' p.id = n) ∧
      ∀ id ∉ params.map Param.id, w' id = w id := by
  cases params with
  | nil => exact ⟨w, by simp, by simp, fun _ _ => rfl⟩
  | cons first rest =>
    rw [List.map_cons, List.nodup_cons] at hdistinct
    refine ⟨fun id => if id = first.id then 0 else if id ∈ rest.map Param.id then n else w id,
      by simp, fun p hp => ?_, fun id hid => ?_⟩
    · have hmem : p.id ∈ rest.map Param.id := List.mem_map_of_mem hp
      have hne : p.id ≠ first.id := fun h => hdistinct.1 (h ▸ hmem)
      exact (if_neg hne).trans (if_pos hmem)
    · rw [List.map_cons, List.mem_cons, not_or] at hid
      exact (if_neg hid.1).trans (if_neg hid.2)

/-- If no id is declared twice, there are such weights, whatever other parameters weigh. -/
theorem exists_ranked (hdistinct : e.binders.Nodup) (n : Nat) (w : UInt32 → Nat) :
    ∃ w', Ranked w' n e ∧ ∀ id ∉ e.binders, w' id = w id := by
  induction e using induction_parts generalizing n w with
  | _ e ih =>
    rw [binders_eq, List.nodup_append] at hdistinct
    obtain ⟨hdeclared, hparts, hdisjoint⟩ := hdistinct
    obtain ⟨w₁, hhead, htail, hother⟩ := exists_weights hdeclared n w
    obtain ⟨w₂, hranked, hsame⟩ :=
      exists_ranked_list (fun x hx n w hx' => ih x hx hx' n w) n w₁ hparts
    have hown : ∀ p ∈ e.declared, w₂ p.id = w₁ p.id := fun p hp =>
      hsame p.id fun h => hdisjoint p.id (List.mem_map_of_mem hp) p.id h rfl
    refine ⟨w₂, .intro (fun p hp => ?_) (fun p hp => ?_) hranked, fun id hid => ?_⟩
    · rw [hown p (List.mem_of_mem_head? hp), hhead p hp]
    · rw [hown p (List.mem_of_mem_tail hp), htail p hp]
    · rw [binders_eq, List.mem_append, not_or] at hid
      rw [hsame id hid.2, hother id hid.1]

/-- What a lambda declares weighs no more than the grouped joins before it. -/
theorem Ranked.declared_le (h : Ranked w n e) {p : Param} (hp : p ∈ e.declared) : w p.id ≤ n := by
  cases h with
  | intro hhead htail =>
    cases hparams : e.declared with
    | nil => simp [hparams] at hp
    | cons first rest =>
      rw [hparams] at hp hhead htail
      rcases List.mem_cons.mp hp with rfl | hp
      · exact hhead p rfl ▸ Nat.zero_le n
      · exact Nat.le_of_eq (htail p hp)

theorem Ranked.free_le (h : Ranked w n e) (hfree : ∀ id ∈ e.free, w id ≤ n) {x : Expr}
    (hx : x ∈ e.parts) : ∀ id ∈ x.free, w id ≤ n := by
  intro id hid
  by_cases hdeclared : id ∈ e.declared.map Param.id
  · obtain ⟨p, hp, rfl⟩ := List.mem_map.mp hdeclared
    exact h.declared_le hp
  · exact hfree id (mem_free.mpr (.inr ⟨hdeclared, x, hx, hid⟩))

/-- If no reference from outside weighs more than the grouped joins before a tree, the level goes up
by one with each grouped join. -/
theorem staged_of_ranked (h : Ranked w n e) (hfree : ∀ id ∈ e.free, w id ≤ n) :
    Staged w (n + e.groupJoins) e := by
  induction h with
  | @intro n e hhead htail hranked ih =>
    have hstaged (left : List Expr) (x : Expr) (right : List Expr)
        (hsplit : e.parts = left ++ x :: right) :
        Staged w (n + (left.map groupJoins).sum + x.groupJoins) x := by
      refine ih left x right hsplit fun id hid => Nat.le_trans ?_ (Nat.le_add_right _ _)
      exact (Ranked.intro hhead htail hranked).free_le hfree (by simp [hsplit]) id hid
    have hparts : ∀ x ∈ e.parts, Staged w (n + (e.parts.map groupJoins).sum) x := by
      intro x hx
      obtain ⟨left, right, hsplit⟩ := List.append_of_mem hx
      refine (hstaged left x right hsplit).mono ?_
      simp only [hsplit, List.map_append, List.map_cons, List.sum_append, List.sum_cons]
      omega
    rw [groupJoins_eq]
    by_cases hjoin : e.isGroupJoin = true
    · cases e with
      | call m r args =>
        rw [if_pos hjoin]
        -- the result selector comes last, so that its group outweighs what stands before it
        have hresult {before : List Expr} {result : Expr} {element group : Param}
            (hargs : args = before ++ [result]) (ho : Offers result [element, group]) :
            w element.id = 0 ∧ n + ((r.toList ++ before).map groupJoins).sum ≤ w group.id :=
          (hranked (r.toList ++ before) result [] (by simp [parts, hargs])).offers ho
        refine .join hjoin hparts (fun _ _ _ _ hargs ho => (hresult hargs ho).1) ?_
        intro before result element group hargs ho x hx
        obtain ⟨left, right, rfl⟩ := List.append_of_mem hx
        refine (hstaged (r.toList ++ left) x (right ++ [result]) (by simp [parts, hargs])).mono
          (Nat.le_trans ?_ (hresult hargs ho).2)
        simp only [List.map_append, List.map_cons, List.sum_append, List.sum_cons]
        omega
      | _ => cases hjoin
    · rw [Bool.not_eq_true] at hjoin
      rw [hjoin]
      refine .node hjoin (fun p hp => ?_) hparts
      exact Nat.le_trans (hfree p.id (mem_free.mpr (.inl ⟨p, hp, rfl⟩))) (by omega)

end Ranked

/-- **The grouped-join pass ends.** On a closed tree that declares no id twice, the pass comes to one
result with every budget above the number of grouped joins, as its own is, and is never cut off. -/
theorem reduceGroupJoins_ends {e : Expr} (hclosed : e.Closed) (hdistinct : e.binders.Nodup) :
    e.groupJoins < e.budget ∧ ∃ result, result ≠ .error .exhausted ∧
      ∀ budget, e.groupJoins < budget → reduceGroupJoins budget e = result := by
  obtain ⟨w, hranked, -⟩ := exists_ranked hdistinct 0 fun _ => 0
  have hstaged : Staged w e.groupJoins e := by
    have hfree : ∀ id ∈ e.free, w id ≤ 0 := by
      rw [hclosed]
      simp
    simpa using staged_of_ranked hranked hfree
  refine ⟨groupJoins_lt_budget e, reduceGroupJoins (e.groupJoins + 1) e, ?_, fun budget hbudget => ?_⟩
  · exact hstaged.not_exhausted (Nat.lt_succ_self _)
  · exact hstaged.reduceGroupJoins_eq hbudget (Nat.lt_succ_self _)

/-- One order of each customer is taken, and every customer paired with those that are theirs, twice.
The ids in the grouped join that takes the orders begin with `first`. -/
def takenTwice (first : UInt32) (position : Expr) : Expr :=
  let orders : Ty := .enumerable (.entity "Order")
  let group : Expr := .param ⟨3, "g", orders⟩
  let taken : Expr := .apply Domain.memory.elementAt [.entity "Order"]
    [.param ⟨first + 3, "g", orders⟩, position]
  joinedBy (fun a => .access a "Id" .int) Queryable.groupJoin (groupedFrom first taken)
    ⟨3, "g", orders⟩ (.anonymous [("once", group), ("again", group)])

/-- The first order of each customer is taken. -/
def firstOrders : Expr := takenTwice 4 (.const (.int 0) .int)

theorem reduceGroupJoins_firstOrders :
    firstOrders.Closed ∧ firstOrders.binders.Nodup ∧ firstOrders.groupJoins < firstOrders.budget ∧
      ∃ result, result ≠ .error .exhausted ∧ ∀ budget, firstOrders.groupJoins < budget →
        reduceGroupJoins budget firstOrders = result :=
  have hclosed : firstOrders.Closed := by decide
  have hdistinct : firstOrders.binders.Nodup := by decide
  ⟨hclosed, hdistinct, reduceGroupJoins_ends hclosed hdistinct⟩

/-! ## Types and scopes -/

section Types

variable {e e' : Expr}

theorem CorrelatePieces.ty {m select : Method} {args args' : List Expr} {r : Option Expr}
    {outer selector : Expr} (h : CorrelatePieces m args select outer selector)
    (hm : m.is Queryable.groupJoin = true) :
    (call select none args').ty = (call m r args).ty := by
  obtain ⟨signature, typeArgs⟩ := m
  obtain rfl : signature = Queryable.groupJoin := of_decide_eq_true hm
  cases h with
  | intro htypes =>
    obtain rfl := htypes
    rfl

/-- One layer of the pass keeps the type of a tree if it keeps those of the parts. -/
theorem UngroupsBy.ty (h : UngroupsBy (fun x y => y.ty = x.ty) (fun x y => y.ty = x.ty) e e') :
    e'.ty = e.ty := by
  cases h with
  | node _ hwalk =>
    cases hwalk with
    | lambda h | quote h | unary h => simp only [Expr.ty, h]
    | binary hl hr => simp only [Expr.ty, hl, hr]
    | cond _ ha _ => exact ha
    | _ => rfl
  | join hm hcorrelate => exact (correlatePieces hcorrelate).ty hm

/-- **The grouped-join pass keeps types and scopes.** Whatever ids a tree declares, what the pass
makes of it has the type of the tree, and no free parameter that is not free in the tree. -/
theorem ty_and_free_of_reduceGroupJoins {budget : Nat} (h : reduceGroupJoins budget e = .ok e') :
    e'.ty = e.ty ∧ ∀ id ∈ e'.free, id ∈ e.free := by
  have hrun : Ungroups e e' := ⟨budget, h⟩
  have he : e.Holds (fun _ => True) fun id => id ∈ e.free := ⟨fun _ _ => trivial, fun _ hid => hid⟩
  exact ⟨Ungroups.induction (P := fun x y => y.ty = x.ty) UngroupsBy.ty hrun,
    (hrun.holds established_true.toMaintained he).free⟩

/-- The two grouped joins declare the same ids, and the position is a free parameter. -/
def sharedIds : Expr := takenTwice 0 (.param ⟨4, "n", .int⟩)

theorem ty_and_free_sharedIds :
    ∃ e', reduceGroupJoins 3 sharedIds = .ok e' ∧
      e'.ty = sharedIds.ty ∧ ∀ id ∈ e'.free, id ∈ sharedIds.free := by
  obtain ⟨e', hrun⟩ : ∃ e', reduceGroupJoins 3 sharedIds = .ok e' := ⟨_, rfl⟩
  exact ⟨e', hrun, ty_and_free_of_reduceGroupJoins hrun⟩

end Types

end QueryNormal
