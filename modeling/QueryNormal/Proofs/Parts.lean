import Mathlib.Algebra.GroupWithZero.Nat
import Mathlib.Data.List.Forall2
import QueryNormal.Expr.Nodes

/-!
# Nodes and their parts

* `Threads`: the items of a list are handled from left to right, and a state goes through.
* `WalksBy`: a node is rebuilt around its parts, which are handled from left to right.
* `Expr.parts`: the parts of a node, which are smaller than the node (`Expr.size_lt_of_mem`).
* `Expr.induction_parts`: what holds of a node whenever it holds of its parts, holds of every tree.

A relation between expressions and states stands for what a pass does to a part.
-/

namespace QueryNormal

variable {α β σ : Type}

/-! ## Lists, options and bindings -/

/-- The items are handled by `P` from left to right. -/
inductive Threads (P : α → σ → β → σ → Prop) : List α → σ → List β → σ → Prop
  | nil {s : σ} : Threads P [] s [] s
  | cons {a : α} {b : β} {as : List α} {bs : List β} {s t u : σ} :
      P a s b t → Threads P as t bs u → Threads P (a :: as) s (b :: bs) u

/-- The item, if there is one, is handled by `P`. -/
inductive ThreadsOption (P : α → σ → β → σ → Prop) : Option α → σ → Option β → σ → Prop
  | none {s : σ} : ThreadsOption P none s none s
  | some {a : α} {b : β} {s t : σ} : P a s b t → ThreadsOption P (some a) s (some b) t

/-- The values of a binding are handled by `P`. -/
inductive ThreadsBinding (P : Expr → σ → Expr → σ → Prop) : Binding → σ → Binding → σ → Prop
  | assign {name : String} {e e' : Expr} {s t : σ} :
      P e s e' t → ThreadsBinding P (.assign name e) s (.assign name e') t
  | items {name : String} {es es' : List Expr} {s t : σ} :
      Threads P es s es' t → ThreadsBinding P (.items name es) s (.items name es') t

namespace Threads

variable {P Q : α → σ → β → σ → Prop} {as : List α} {bs : List β} {s t : σ}

theorem mono_mem (h : Threads P as s bs t)
    (hpq : ∀ a ∈ as, ∀ s b t, P a s b t → Q a s b t) : Threads Q as s bs t := by
  induction h with
  | nil => exact .nil
  | cons ha _ ih =>
    exact .cons (hpq _ (by simp) _ _ _ ha) (ih fun a hmem => hpq a (by simp [hmem]))

/-- An item is handled in the state in which those before it leave off. -/
theorem mono_after (h : Threads P as s bs t)
    (hpq : ∀ {l : List α} {l' : List β} {a : α} {b : β} {u v : σ},
      l ++ [a] <+: as → Threads P l s l' u → P a u b v → Q a u b v) :
    Threads Q as s bs t := by
  induction h with
  | nil => exact .nil
  | cons ha _ ih =>
    refine .cons (hpq (l := []) (List.prefix_append [_] _) .nil ha) (ih fun hfirst hbefore hx => ?_)
    exact hpq (l := _ :: _) (List.cons_prefix_cons.mpr ⟨rfl, hfirst⟩) (.cons ha hbefore) hx

theorem length_eq (h : Threads P as s bs t) : bs.length = as.length := by
  induction h with
  | nil => rfl
  | cons _ _ ih => simp [ih]

theorem append {as' : List α} {bs' : List β} {u : σ} (h : Threads P as s bs t)
    (h' : Threads P as' t bs' u) : Threads P (as ++ as') s (bs ++ bs') u := by
  induction h with
  | nil => exact h'
  | cons ha _ ih => exact .cons ha (ih h')

/-- Without the states, the items are related one by one. -/
theorem forall₂ {R : α → β → Prop} (h : Threads P as s bs t)
    (hr : ∀ {a s b t}, P a s b t → R a b) : List.Forall₂ R as bs := by
  induction h with
  | nil => exact .nil
  | cons ha _ ih => exact .cons (hr ha) ih

end Threads

theorem exists_of_forall₂ {R : α → β → Prop} {as : List α} {bs : List β}
    (h : List.Forall₂ R as bs) {b : β} (hb : b ∈ bs) : ∃ a ∈ as, R a b := by
  induction h with
  | nil => cases hb
  | cons hab _ ih =>
    rcases List.mem_cons.mp hb with rfl | hb
    · exact ⟨_, by simp, hab⟩
    · obtain ⟨a, ha, hab⟩ := ih hb
      exact ⟨a, by simp [ha], hab⟩

theorem ThreadsOption.mono_mem {P Q : α → σ → β → σ → Prop} {a : Option α} {b : Option β}
    {s t : σ} (h : ThreadsOption P a s b t)
    (hpq : ∀ x ∈ a, ∀ s y t, P x s y t → Q x s y t) : ThreadsOption Q a s b t := by
  cases h with
  | none => exact .none
  | some ha => exact .some (hpq _ rfl _ _ _ ha)

theorem ThreadsOption.rel {P : α → σ → β → σ → Prop} {R : α → β → Prop} {a : Option α}
    {b : Option β} {s t : σ} (h : ThreadsOption P a s b t)
    (hr : ∀ {a s b t}, P a s b t → R a b) : Option.Rel R a b := by
  cases h with
  | none => exact .none
  | some ha => exact .some (hr ha)

theorem ThreadsOption.threads {P : α → σ → β → σ → Prop} {a : Option α} {b : Option β} {s t : σ}
    (h : ThreadsOption P a s b t) : Threads P a.toList s b.toList t := by
  cases h with
  | none => exact .nil
  | some ha => exact .cons ha .nil

/-- The values in a binding. -/
def Binding.values : Binding → List Expr
  | .assign _ value => [value]
  | .items _ values => values

theorem ThreadsBinding.mono_mem {P Q : Expr → σ → Expr → σ → Prop} {b b' : Binding} {s t : σ}
    (h : ThreadsBinding P b s b' t)
    (hpq : ∀ x ∈ b.values, ∀ s y t, P x s y t → Q x s y t) : ThreadsBinding Q b s b' t := by
  cases h with
  | assign he => exact .assign (hpq _ (by simp [Binding.values]) _ _ _ he)
  | items hes => exact .items (hes.mono_mem hpq)

/-! ## Nodes -/

/-- The node is kept, and its parts are handled by `P` from left to right. -/
inductive WalksBy (P : Expr → σ → Expr → σ → Prop) : Expr → σ → Expr → σ → Prop
  | call {m : Method} {r r' : Option Expr} {args args' : List Expr} {s t u : σ} :
      ThreadsOption P r s r' t → Threads P args t args' u →
      WalksBy P (.call m r args) s (.call m r' args') u
  | lambda {params : List Param} {body body' : Expr} {s t : σ} :
      P body s body' t → WalksBy P (.lambda params body) s (.lambda params body') t
  | quote {e e' : Expr} {s t : σ} : P e s e' t → WalksBy P (.quote e) s (.quote e') t
  | param {p : Param} {s : σ} : WalksBy P (.param p) s (.param p) s
  | member {target target' : Option Expr} {m : Member} {s t : σ} :
      ThreadsOption P target s target' t → WalksBy P (.member target m) s (.member target' m) t
  | binary {op : BinOp} {lhs lhs' rhs rhs' : Expr} {s t u : σ} :
      P lhs s lhs' t → P rhs t rhs' u → WalksBy P (.binary op lhs rhs) s (.binary op lhs' rhs') u
  | unary {op : UnOp} {e e' : Expr} {s t : σ} :
      P e s e' t → WalksBy P (.unary op e) s (.unary op e') t
  | const {value : Literal} {type : Ty} {s : σ} :
      WalksBy P (.const value type) s (.const value type) s
  | new {type : Ty} {args args' : List Expr} {names : Option (List String)} {s t : σ} :
      Threads P args s args' t → WalksBy P (.new type args names) s (.new type args' names) t
  | newWith {type : Ty} {args args' : List Expr} {names : Option (List String)}
      {bindings bindings' : List Binding} {s t u : σ} :
      Threads P args s args' t → Threads (ThreadsBinding P) bindings t bindings' u →
      WalksBy P (.newWith type args names bindings) s (.newWith type args' names bindings') u
  | cond {test test' a a' b b' : Expr} {s t u v : σ} :
      P test s test' t → P a t a' u → P b u b' v →
      WalksBy P (.cond test a b) s (.cond test' a' b') v
  | placeholder {p : Placeholder} {s : σ} : WalksBy P (.placeholder p) s (.placeholder p) s

namespace Expr

/-- The parts of a node, from left to right. -/
def parts : Expr → List Expr
  | .call _ receiver args => receiver.toList ++ args
  | .lambda _ body => [body]
  | .quote inner => [inner]
  | .param _ => []
  | .member target _ => target.toList
  | .binary _ lhs rhs => [lhs, rhs]
  | .unary _ operand => [operand]
  | .const _ _ => []
  | .new _ args _ => args
  | .newWith _ args _ bindings => args ++ bindings.flatMap Binding.values
  | .cond test whenTrue whenFalse => [test, whenTrue, whenFalse]
  | .placeholder _ => []

theorem sizeList_eq_sum (es : List Expr) : sizeList es = (es.map size).sum := by
  induction es with
  | nil => rfl
  | cons e es ih => rw [sizeList, ih, List.map_cons, List.sum_cons]

theorem sizeBindings_eq_sum (bs : List Binding) :
    sizeBindings bs = ((bs.flatMap Binding.values).map size).sum := by
  induction bs with
  | nil => rfl
  | cons b bs ih =>
    cases b with
    | assign name value => simp [sizeBindings, ih, Binding.values]
    | items name values => simp [sizeBindings, ih, sizeList_eq_sum, Binding.values]

/-- A node counts for one, besides its parts. -/
theorem size_eq_sum (e : Expr) : e.size = 1 + (e.parts.map size).sum := by
  cases e with
  | call m r args => cases r <;> simp [size, parts, sizeList_eq_sum, Nat.add_assoc]
  | member target m => cases target <;> simp [size, parts]
  | new type args names => simp [size, parts, sizeList_eq_sum]
  | newWith type args names bindings =>
    simp [size, parts, sizeList_eq_sum, sizeBindings_eq_sum, Nat.add_assoc]
  | _ => simp [size, parts, Nat.add_assoc]

theorem size_le_sizeList {e : Expr} : ∀ {es : List Expr}, e ∈ es → e.size ≤ sizeList es
  | [], h => by simp at h
  | x :: es, h => by
    rcases List.mem_cons.mp h with rfl | h
    · simp [sizeList]
    · have := size_le_sizeList h
      simp only [sizeList]
      omega

theorem size_le_sizeBindings {e : Expr} :
    ∀ {bs : List Binding} {b : Binding}, b ∈ bs → e ∈ b.values → e.size ≤ sizeBindings bs
  | [], b, h, _ => by simp at h
  | x :: bs, b, h, he => by
    rcases List.mem_cons.mp h with rfl | h
    · cases b with
      | assign name value =>
        simp only [Binding.values, List.mem_singleton] at he
        subst he
        simp [sizeBindings]
      | items name values =>
        have : e.size ≤ sizeList values := size_le_sizeList he
        simp only [sizeBindings]
        omega
    · have := size_le_sizeBindings h he
      cases x <;> simp only [sizeBindings] <;> omega

/-- A part is smaller than its node. -/
theorem size_lt_of_mem {e x : Expr} (h : x ∈ e.parts) : x.size < e.size := by
  cases e with
  | call m receiver args =>
    rcases List.mem_append.mp h with h | h
    · obtain rfl : receiver = some x := by simpa using h
      rw [size]
      omega
    · have := size_le_sizeList h
      cases receiver <;> rw [size] <;> omega
  | member target m =>
    obtain rfl : target = some x := by simpa [parts] using h
    simp [size]
  | new type args names =>
    have : x.size ≤ sizeList args := size_le_sizeList h
    rw [size]
    omega
  | newWith type args names bindings =>
    rcases List.mem_append.mp h with h | h
    · have := size_le_sizeList h
      simp only [size]
      omega
    · obtain ⟨b, hb, hx⟩ := List.mem_flatMap.mp h
      have := size_le_sizeBindings hb hx
      simp only [size]
      omega
  | binary op lhs rhs =>
    simp only [parts, List.mem_cons, List.not_mem_nil, or_false] at h
    rcases h with rfl | rfl <;> simp only [size] <;> omega
  | cond test a b =>
    simp only [parts, List.mem_cons, List.not_mem_nil, or_false] at h
    rcases h with rfl | rfl | rfl <;> simp only [size] <;> omega
  | lambda params body | quote inner | unary op operand =>
    simp only [parts, List.mem_singleton] at h
    subst h
    simp [size]
  | param p | const value type | placeholder p => simp [parts] at h

/-- **Induction over trees.** -/
theorem induction_parts {P : Expr → Prop} (h : ∀ e, (∀ x ∈ e.parts, P x) → P e) (e : Expr) :
    P e := by
  induction hn : e.size using Nat.strongRecOn generalizing e with
  | _ n ih =>
    subst hn
    exact h e fun x hx => ih _ (size_lt_of_mem hx) x rfl

/-- What holds of a lambda, and of a quote of whatever it holds of, holds of every expression that
is or quotes the lambda. -/
theorem induction_lambda {P : Expr → Prop} {l : Lambda} {e : Expr} (h : e.lambda? = some l)
    (lambda : P l.toExpr) (quote : ∀ x, P x → P (.quote x)) : P e := by
  revert h
  unfold lambda?
  fun_induction unquote e with
  | case1 inner ih =>
    intro h
    exact quote inner (ih h)
  | case2 e =>
    intro h
    split at h
    · cases h
      exact lambda
    · cases h

end Expr

/-- A walk depends only on what is done to the parts. -/
theorem WalksBy.mono_mem {P Q : Expr → σ → Expr → σ → Prop} {e e' : Expr} {s t : σ}
    (h : WalksBy P e s e' t) (hpq : ∀ x ∈ e.parts, ∀ s y t, P x s y t → Q x s y t) :
    WalksBy Q e s e' t := by
  cases h with
  | call hr hargs =>
    exact .call (hr.mono_mem fun x hx => hpq x (by simp_all [Expr.parts]))
      (hargs.mono_mem fun x hx => hpq x (by simp_all [Expr.parts]))
  | lambda hb => exact .lambda (hpq _ (by simp [Expr.parts]) _ _ _ hb)
  | quote he => exact .quote (hpq _ (by simp [Expr.parts]) _ _ _ he)
  | param => exact .param
  | member ht => exact .member (ht.mono_mem fun x hx => hpq x (by simp_all [Expr.parts]))
  | binary hl hr =>
    exact .binary (hpq _ (by simp [Expr.parts]) _ _ _ hl) (hpq _ (by simp [Expr.parts]) _ _ _ hr)
  | unary he => exact .unary (hpq _ (by simp [Expr.parts]) _ _ _ he)
  | const => exact .const
  | new hargs => exact .new (hargs.mono_mem hpq)
  | newWith hargs hbs =>
    refine .newWith (hargs.mono_mem fun x hx => hpq x (by simp_all [Expr.parts]))
      (hbs.mono_mem fun b hb s b' t h => h.mono_mem fun x hx => hpq x ?_)
    exact List.mem_append_right _ (List.mem_flatMap.mpr ⟨b, hb, hx⟩)
  | cond ht ha hb =>
    exact .cond (hpq _ (by simp [Expr.parts]) _ _ _ ht) (hpq _ (by simp [Expr.parts]) _ _ _ ha)
      (hpq _ (by simp [Expr.parts]) _ _ _ hb)
  | placeholder => exact .placeholder

theorem threads_values {P : Expr → σ → Expr → σ → Prop} {bs bs' : List Binding} {s t : σ}
    (h : Threads (ThreadsBinding P) bs s bs' t) :
    Threads P (bs.flatMap Binding.values) s (bs'.flatMap Binding.values) t := by
  induction h with
  | nil => exact .nil
  | cons hb _ ih =>
    refine Threads.append ?_ ih
    cases hb with
    | assign he => exact .cons he .nil
    | items hes => exact hes

/-- The parts of a walked node are handled from left to right. -/
theorem WalksBy.threads {P : Expr → σ → Expr → σ → Prop} {e e' : Expr} {s t : σ}
    (h : WalksBy P e s e' t) : Threads P e.parts s e'.parts t := by
  cases h with
  | call hr hargs => exact hr.threads.append hargs
  | lambda hb | quote hb | unary hb => exact .cons hb .nil
  | member ht => exact ht.threads
  | binary hl hr => exact .cons hl (.cons hr .nil)
  | new hargs => exact hargs
  | newWith hargs hbs => exact hargs.append (threads_values hbs)
  | cond ht ha hb => exact .cons ht (.cons ha (.cons hb .nil))
  | param | const | placeholder => exact .nil

theorem mono_after_values {P Q : Expr → σ → Expr → σ → Prop} {bs bs' : List Binding} {s t : σ}
    (h : Threads (ThreadsBinding P) bs s bs' t)
    (hpq : ∀ {l l' : List Expr} {x y : Expr} {u v : σ},
      l ++ [x] <+: bs.flatMap Binding.values → Threads P l s l' u → P x u y v → Q x u y v) :
    Threads (ThreadsBinding Q) bs s bs' t := by
  induction h with
  | nil => exact .nil
  | cons hb _ ih =>
    cases hb with
    | assign he =>
      refine .cons (.assign (hpq (l := []) (List.prefix_append [_] _) .nil he))
        (ih fun hfirst hbefore hx => ?_)
      exact hpq (l := _ :: _) (List.cons_prefix_cons.mpr ⟨rfl, hfirst⟩) (.cons he hbefore) hx
    | @items _ es _ _ _ hes =>
      refine .cons (.items (hes.mono_after fun hfirst => ?_))
        (ih fun hfirst hbefore hx => ?_)
      · exact hpq (hfirst.trans (List.prefix_append es _))
      · refine hpq ?_ (hes.append hbefore) hx
        rw [List.append_assoc]
        exact List.prefix_append_right_inj es |>.mpr hfirst

/-- A part of a walked node is handled in the state in which those before it leave off. -/
theorem WalksBy.mono_after {P Q : Expr → σ → Expr → σ → Prop} {e e' : Expr} {s t : σ}
    (h : WalksBy P e s e' t)
    (hpq : ∀ {l l' : List Expr} {x y : Expr} {u v : σ},
      l ++ [x] <+: e.parts → Threads P l s l' u → P x u y v → Q x u y v) :
    WalksBy Q e s e' t := by
  cases h with
  | @call _ r _ args _ _ _ _ hr hargs =>
    refine .call ?_ (hargs.mono_after fun hfirst hbefore hx => ?_)
    · cases hr with
      | none => exact .none
      | some hx => exact .some (hpq (l := []) (List.prefix_append [_] _) .nil hx)
    · refine hpq ?_ (hr.threads.append hbefore) hx
      rw [List.append_assoc]
      exact List.prefix_append_right_inj _ |>.mpr hfirst
  | lambda hb => exact .lambda (hpq (l := []) List.prefix_rfl .nil hb)
  | quote he => exact .quote (hpq (l := []) List.prefix_rfl .nil he)
  | param => exact .param
  | member ht =>
    cases ht with
    | none => exact .member .none
    | some hx => exact .member (.some (hpq (l := []) List.prefix_rfl .nil hx))
  | binary hl hr =>
    exact .binary (hpq (l := []) (List.prefix_append [_] _) .nil hl)
      (hpq (l := [_]) List.prefix_rfl (.cons hl .nil) hr)
  | unary he => exact .unary (hpq (l := []) List.prefix_rfl .nil he)
  | const => exact .const
  | new hargs => exact .new (hargs.mono_after hpq)
  | @newWith _ args _ _ _ _ _ _ _ hargs hbs =>
    refine .newWith (hargs.mono_after fun hfirst => ?_)
      (mono_after_values hbs fun hfirst hbefore hx => ?_)
    · exact hpq (hfirst.trans (List.prefix_append args _))
    · refine hpq ?_ (hargs.append hbefore) hx
      rw [List.append_assoc]
      exact List.prefix_append_right_inj args |>.mpr hfirst
  | cond ht ha hb =>
    exact .cond (hpq (l := []) (List.prefix_append [_] _) .nil ht)
      (hpq (l := [_]) (List.prefix_append [_, _] _) (.cons ht .nil) ha)
      (hpq (l := [_, _]) List.prefix_rfl (.cons ht (.cons ha .nil)) hb)
  | placeholder => exact .placeholder

/-- The parts of a walked node are related one by one. -/
theorem WalksBy.forall₂ {P : Expr → σ → Expr → σ → Prop} {R : Expr → Expr → Prop} {e e' : Expr}
    {s t : σ} (h : WalksBy P e s e' t) (hr : ∀ {x s y t}, P x s y t → R x y) :
    List.Forall₂ R e.parts e'.parts :=
  h.threads.forall₂ hr

theorem WalksBy.isConstruction {P : Expr → σ → Expr → σ → Prop} {e e' : Expr} {s t : σ}
    (h : WalksBy P e s e' t) : e'.isConstruction = e.isConstruction := by
  cases h <;> rfl

theorem threads_self {P : α → σ → α → σ → Prop} {s : σ} {as : List α}
    (h : ∀ a ∈ as, P a s a s) : Threads P as s as s := by
  induction as with
  | nil => exact .nil
  | cons a as ih =>
    rw [List.forall_mem_cons] at h
    exact .cons h.1 (ih h.2)

theorem threadsOption_self {P : α → σ → α → σ → Prop} {s : σ} {a : Option α}
    (h : ∀ x ∈ a, P x s x s) : ThreadsOption P a s a s := by
  cases a with
  | none => exact .none
  | some a => exact .some (h a rfl)

/-- A walk that leaves every part as it is leaves the node as it is. -/
theorem walksBy_self {P : Expr → σ → Expr → σ → Prop} {s : σ} {e : Expr}
    (h : ∀ x ∈ e.parts, P x s x s) : WalksBy P e s e s := by
  cases e with
  | call m r args =>
    exact .call (threadsOption_self fun x hx => h x (by simp_all [Expr.parts]))
      (threads_self fun x hx => h x (by simp [Expr.parts, hx]))
  | lambda params body => exact .lambda (h body (by simp [Expr.parts]))
  | quote inner => exact .quote (h inner (by simp [Expr.parts]))
  | param p => exact .param
  | member target m => exact .member (threadsOption_self fun x hx => h x (by simp_all [Expr.parts]))
  | binary op lhs rhs =>
    exact .binary (h lhs (by simp [Expr.parts])) (h rhs (by simp [Expr.parts]))
  | unary op operand => exact .unary (h operand (by simp [Expr.parts]))
  | const value type => exact .const
  | new type args names => exact .new (threads_self h)
  | newWith type args names bindings =>
    refine .newWith (threads_self fun x hx => h x (by simp [Expr.parts, hx]))
      (threads_self fun b hb => ?_)
    have hvalues : ∀ x ∈ b.values, P x s x s := fun x hx =>
      h x (List.mem_append_right _ (List.mem_flatMap.mpr ⟨b, hb, hx⟩))
    cases b with
    | assign name value => exact .assign (hvalues value (by simp [Binding.values]))
    | items name values => exact .items (threads_self hvalues)
  | cond test a b =>
    exact .cond (h test (by simp [Expr.parts])) (h a (by simp [Expr.parts]))
      (h b (by simp [Expr.parts]))
  | placeholder p => exact .placeholder

end QueryNormal
