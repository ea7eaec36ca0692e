import QueryNormal.Proofs.Calls

/-!
# What visitors enter

* `accept_eq_forM`: a visitor that does nothing with bindings does what it does with each node, in
  order.
* `hasCall_eq_any`: a tree has a call exactly if it is among its calls.
* `maxId?_eq_max?`: the largest id is that of the list of all ids.
-/

namespace QueryNormal

namespace Expr

section Accept

variable {M : Type → Type} [Monad M] {v : Visitor M}

theorem acceptList_eq_forM (es : List Expr) : acceptList v es = forM es (accept v) := by
  induction es with
  | nil => simp [acceptList]
  | cons e es ih => rw [acceptList, ih, List.forM_cons]

variable [LawfulMonad M]

theorem acceptBindings_eq_forM (hv : ∀ b, v.binding b = pure ()) (bs : List Binding) :
    acceptBindings v bs = forM (bs.flatMap Binding.values) (accept v) := by
  induction bs with
  | nil => simp [acceptBindings]
  | cons b bs ih => cases b <;> simp [acceptBindings, hv, ih, acceptList_eq_forM, Binding.values]

/-- A visitor that does nothing with bindings enters a node and then its parts. -/
theorem accept_eq_parts (hv : ∀ b, v.binding b = pure ()) (e : Expr) :
    e.accept v = (v.node e >>= fun _ => forM e.parts (accept v)) := by
  cases e with
  | call method r args => cases r <;> simp [accept, acceptOption, acceptList_eq_forM, parts]
  | member target m => cases target <;> simp [accept, acceptOption, parts]
  | newWith type args names bindings =>
    simp [accept, acceptList_eq_forM, acceptBindings_eq_forM hv, parts]
  | new type args names => simp [accept, acceptList_eq_forM, parts]
  | _ => simp [accept, parts]

/-- A visitor that does nothing with bindings does what it does with each node, in order. -/
theorem accept_eq_forM (hv : ∀ b, v.binding b = pure ()) (e : Expr) :
    e.accept v = forM e.nodes v.node := by
  induction e using induction_parts with
  | _ e ih =>
    have hparts : ∀ es : List Expr, (∀ x ∈ es, x.accept v = forM x.nodes v.node) →
        forM es (accept v) = forM (es.flatMap nodes) v.node := by
      intro es hes
      induction es with
      | nil => rfl
      | cons x es ihes =>
        rw [List.forM_cons, hes x List.mem_cons_self,
          ihes fun y hy => hes y (List.mem_cons_of_mem x hy), List.flatMap_cons, List.forM_append]
    rw [accept_eq_parts hv, nodes_eq, List.forM_cons, hparts e.parts ih]

end Accept

/-! ## Calls -/

theorem forM_callFinder (p : Call → Bool) (ns : List Expr) :
    (forM ns (callFinder p).node).isOk = !(ns.filterMap call?).any p := by
  induction ns with
  | nil => rfl
  | cons n ns ih =>
    rw [List.forM_cons]
    cases hcall : n.call? with
    | none => simpa [callFinder, hcall] using ih
    | some c =>
      cases hp : p c with
      | false => simpa [callFinder, hcall, hp] using ih
      | true =>
        have hstops : (callFinder p).node n = throw () := by simp [callFinder, hcall, hp]
        rw [hstops, List.filterMap_cons_some hcall, List.any_cons, hp]
        rfl

/-- A tree has a call that satisfies a predicate exactly if one of its calls does. -/
theorem hasCall_eq_any (p : Call → Bool) (e : Expr) : e.hasCall p = e.calls.any p := by
  rw [hasCall, accept_eq_forM fun _ => rfl, forM_callFinder, Bool.not_not]
  rfl

/-! ## Ids -/

/-- Every id that a reference or a declaration in the tree has. -/
def ids (e : Expr) : List UInt32 := e.nodes.flatMap fun n => n.ownParams.map Param.id

theorem forM_idMaximizer (ns : List Expr) (top : Option UInt32) :
    ((forM ns idMaximizer.node).run top).2 =
      (ns.flatMap fun n => n.ownParams.map Param.id).foldl (fun top id => max top (some id)) top := by
  induction ns generalizing top with
  | nil => rfl
  | cons n ns ih =>
    rw [List.forM_cons, List.flatMap_cons, List.foldl_append, List.foldl_map]
    exact ih _

/-- The largest id is the maximum of all ids. -/
theorem maxId?_eq_max? (e : Expr) : e.maxId? = e.ids.max? := by
  rw [maxId?, accept_eq_forM fun _ => rfl, forM_idMaximizer]
  change e.ids.foldl _ none = _
  cases e.ids with
  | nil => rfl
  | cons id ids =>
    have hsome (top : UInt32) :
        ids.foldl (fun top id => max top (some id)) (some top) = some (ids.foldl max top) := by
      induction ids generalizing top with
      | nil => rfl
      | cons id ids ih => exact ih _
    exact hsome id

end Expr

end QueryNormal
