import QueryNormal.Normalize
import QueryNormal.Proofs.Parts

/-!
# What the grouped-join pass can do

* `UngroupsBy`: one layer of the pass, given what is done to the parts of a node.
* `Ungroups`: a run of the pass that yields an expression.
* `Ungroups.induction`: a relation that every layer keeps holds of every run.
* `ComesTo`: the pass, run on a tree, comes to a grouped join.
* `ungroup_eq_self_of_parts`: a node that is no grouped join is left as it is if its parts are.

The pass changes no state, so that runs of parts are related without one.
-/

namespace QueryNormal

/-- Whether the expression is a grouped join of queries. -/
def Expr.isGroupJoin : Expr → Bool
  | .call m _ _ => m.is Queryable.groupJoin
  | _ => false

/-- One layer of the grouped-join pass. Parts are reduced as `P` says, and what a grouped join has
become as `A` says. -/
inductive UngroupsBy (P A : Expr → Expr → Prop) : Expr → Expr → Prop
  | node {e e' : Expr} :
      e.isGroupJoin = false → WalksBy (fun x (_ : Unit) y _ => P x y) e () e' () →
      UngroupsBy P A e e'
  | join {m select : Method} {r : Option Expr} {args : List Expr}
      {outer outer' selector selector' : Expr} :
      m.is Queryable.groupJoin = true → correlate m args = .ok (select, outer, selector) →
      A outer outer' → A selector selector' →
      UngroupsBy P A (.call m r args) (.call select none [outer', selector'])

/-- The grouped-join pass, run on the tree, comes to the grouped join: one that is in no other, or one
in what another has become. -/
inductive ComesTo : Expr → Call → Prop
  | here {m : Method} {r : Option Expr} {args : List Expr} : m.is Queryable.groupJoin = true →
      ComesTo (.call m r args) ⟨m, r, args⟩
  | part {e x : Expr} {c : Call} : e.isGroupJoin = false → x ∈ e.parts → ComesTo x c → ComesTo e c
  | source {m select : Method} {r : Option Expr} {args : List Expr} {outer selector : Expr}
      {c : Call} : m.is Queryable.groupJoin = true →
      correlate m args = .ok (select, outer, selector) → ComesTo outer c →
      ComesTo (.call m r args) c
  | selector {m select : Method} {r : Option Expr} {args : List Expr} {outer selector : Expr}
      {c : Call} : m.is Queryable.groupJoin = true →
      correlate m args = .ok (select, outer, selector) → ComesTo selector c →
      ComesTo (.call m r args) c

/-! ## The layer of a run -/

section Layer

variable {again : Expr → Except Failure Expr} {e e' : Expr}

theorem bind_eq_ok {ε α β : Type} {x : Except ε α} {f : α → Except ε β} {b : β} :
    (x >>= f) = .ok b ↔ ∃ a, x = .ok a ∧ f a = .ok b := by
  cases x with
  | ok a =>
    constructor
    · intro h
      exact ⟨a, rfl, h⟩
    · rintro ⟨_, h, hf⟩
      cases h
      exact hf
  | error cause =>
    constructor
    · intro h
      cases h
    · rintro ⟨_, h, _⟩
      cases h

theorem pure_eq_ok {α : Type} {a b : α} : (pure a : Except Failure α) = .ok b ↔ a = b :=
  ⟨fun h => by cases h; rfl, fun h => by rw [h]; rfl⟩

/-- The run of a part of a node. -/
abbrev ungroupRun (again : Expr → Except Failure Expr) (x : Expr) (_ : Unit) (y : Expr)
    (_ : Unit) : Prop :=
  x.ungroup again = .ok y

theorem threads_of_ungroupList : ∀ {es es' : List Expr},
    Expr.ungroupList again es = .ok es' → Threads (ungroupRun again) es () es' ()
  | [], es', h => by
    rw [Expr.ungroupList, pure_eq_ok] at h
    subst h
    exact .nil
  | x :: es, es', h => by
    simp only [Expr.ungroupList, bind_eq_ok, pure_eq_ok] at h
    obtain ⟨x', hx, xs', hxs, rfl⟩ := h
    exact .cons hx (threads_of_ungroupList hxs)

theorem threads_of_ungroupOption {r r' : Option Expr}
    (h : Expr.ungroupOption again r = .ok r') : ThreadsOption (ungroupRun again) r () r' () := by
  cases r with
  | none =>
    rw [Expr.ungroupOption, pure_eq_ok] at h
    subst h
    exact .none
  | some x =>
    simp only [Expr.ungroupOption, bind_eq_ok, pure_eq_ok] at h
    obtain ⟨x', hx, rfl⟩ := h
    exact .some hx

theorem threads_of_ungroupBindings : ∀ {bs bs' : List Binding},
    Expr.ungroupBindings again bs = .ok bs' →
      Threads (ThreadsBinding (ungroupRun again)) bs () bs' ()
  | [], bs', h => by
    rw [Expr.ungroupBindings, pure_eq_ok] at h
    subst h
    exact .nil
  | .assign name value :: bs, bs', h => by
    simp only [Expr.ungroupBindings, bind_eq_ok, pure_eq_ok] at h
    obtain ⟨value', hvalue, bs', hbs, rfl⟩ := h
    exact .cons (.assign hvalue) (threads_of_ungroupBindings hbs)
  | .items name values :: bs, bs', h => by
    simp only [Expr.ungroupBindings, bind_eq_ok, pure_eq_ok] at h
    obtain ⟨values', hvalues, bs', hbs, rfl⟩ := h
    exact .cons (.items (threads_of_ungroupList hvalues)) (threads_of_ungroupBindings hbs)

/-- Every run that yields an expression is a layer over runs of the parts. -/
theorem ungroupsBy_of_ok (h : e.ungroup again = .ok e') :
    UngroupsBy (fun x y => x.ungroup again = .ok y) (fun x y => again x = .ok y) e e' := by
  cases e with
  | call m r args =>
    rw [Expr.ungroup.eq_def] at h
    by_cases hm : m.is Queryable.groupJoin = true
    · simp only [hm, if_true] at h
      rcases hcor : correlate m args with cause | ⟨select, outer, selector⟩
      · simp [hcor] at h
      · simp only [hcor, bind_eq_ok, pure_eq_ok] at h
        obtain ⟨outer', houter, selector', hselector, rfl⟩ := h
        exact .join hm hcor houter hselector
    · rw [Bool.not_eq_true] at hm
      simp only [hm, Bool.false_eq_true, if_false, bind_eq_ok, pure_eq_ok] at h
      obtain ⟨r', hr, args', hargs, rfl⟩ := h
      exact .node hm (.call (threads_of_ungroupOption hr) (threads_of_ungroupList hargs))
  | lambda params body =>
    simp only [Expr.ungroup, bind_eq_ok, pure_eq_ok] at h
    obtain ⟨body', hbody, rfl⟩ := h
    exact .node rfl (.lambda hbody)
  | quote inner =>
    simp only [Expr.ungroup, bind_eq_ok, pure_eq_ok] at h
    obtain ⟨inner', hinner, rfl⟩ := h
    exact .node rfl (.quote hinner)
  | param p =>
    rw [Expr.ungroup, pure_eq_ok] at h
    subst h
    exact .node rfl .param
  | member target m =>
    simp only [Expr.ungroup, bind_eq_ok, pure_eq_ok] at h
    obtain ⟨target', htarget, rfl⟩ := h
    exact .node rfl (.member (threads_of_ungroupOption htarget))
  | binary op lhs rhs =>
    simp only [Expr.ungroup, bind_eq_ok, pure_eq_ok] at h
    obtain ⟨lhs', hlhs, rhs', hrhs, rfl⟩ := h
    exact .node rfl (.binary (t := ()) hlhs hrhs)
  | unary op operand =>
    simp only [Expr.ungroup, bind_eq_ok, pure_eq_ok] at h
    obtain ⟨operand', hoperand, rfl⟩ := h
    exact .node rfl (.unary hoperand)
  | const value type =>
    rw [Expr.ungroup, pure_eq_ok] at h
    subst h
    exact .node rfl .const
  | new type args names =>
    simp only [Expr.ungroup, bind_eq_ok, pure_eq_ok] at h
    obtain ⟨args', hargs, rfl⟩ := h
    exact .node rfl (.new (threads_of_ungroupList hargs))
  | newWith type args names bindings =>
    simp only [Expr.ungroup, bind_eq_ok, pure_eq_ok] at h
    obtain ⟨args', hargs, bindings', hbindings, rfl⟩ := h
    exact .node rfl
      (.newWith (threads_of_ungroupList hargs) (threads_of_ungroupBindings hbindings))
  | cond test a b =>
    simp only [Expr.ungroup, bind_eq_ok, pure_eq_ok] at h
    obtain ⟨test', htest, a', ha, b', hb, rfl⟩ := h
    exact .node rfl (.cond (t := ()) (u := ()) htest ha hb)
  | placeholder p =>
    rw [Expr.ungroup, pure_eq_ok] at h
    subst h
    exact .node rfl .placeholder

end Layer

/-! ## Runs -/

/-- A run of the grouped-join pass, within some budget, yields an expression. -/
def Ungroups (e e' : Expr) : Prop := ∃ budget, reduceGroupJoins budget e = .ok e'

theorem UngroupsBy.mono {P Q A B : Expr → Expr → Prop} {e e' : Expr} (h : UngroupsBy P A e e')
    (hpq : ∀ x, x.size < e.size → ∀ y, P x y → Q x y) (hab : ∀ x y, A x y → B x y) :
    UngroupsBy Q B e e' := by
  cases h with
  | node hnot hwalk =>
    exact .node hnot (hwalk.mono_mem fun x hx _ y _ => hpq x (Expr.size_lt_of_mem hx) y)
  | join hm hcor houter hselector =>
    exact .join hm hcor (hab _ _ houter) (hab _ _ hselector)

/-- **Induction over runs.** A relation that every layer keeps holds of every run. -/
theorem Ungroups.induction {P : Expr → Expr → Prop} {e e' : Expr}
    (hstep : ∀ {e e'}, UngroupsBy P P e e' → P e e') (h : Ungroups e e') : P e e' := by
  obtain ⟨budget, h⟩ := h
  induction budget generalizing e e' with
  | zero => cases h
  | succ budget ih =>
    -- inside one visit the tree gets smaller; a visit of what was built has less budget
    induction hn : e.size using Nat.strongRecOn generalizing e e' with
    | _ n ihn =>
      subst hn
      exact hstep ((ungroupsBy_of_ok h).mono (fun x hx y hrun => ihn _ hx hrun rfl)
        fun x y hrun => ih hrun)

/-! ## Trees without a grouped join -/

section Identity

variable {again : Expr → Except Failure Expr}

theorem ungroupList_eq_self : ∀ {es : List Expr}, (∀ x ∈ es, x.ungroup again = .ok x) →
    Expr.ungroupList again es = .ok es
  | [], _ => rfl
  | x :: es, h => by
    rw [Expr.ungroupList, h x (by simp),
      ungroupList_eq_self fun y hy => h y (List.mem_cons_of_mem _ hy)]
    rfl

theorem ungroupOption_eq_self {r : Option Expr} (h : ∀ x ∈ r, x.ungroup again = .ok x) :
    Expr.ungroupOption again r = .ok r := by
  cases r with
  | none => rfl
  | some x =>
    rw [Expr.ungroupOption, h x rfl]
    rfl

theorem ungroupBindings_eq_self : ∀ {bs : List Binding},
    (∀ b ∈ bs, ∀ x ∈ b.values, x.ungroup again = .ok x) →
      Expr.ungroupBindings again bs = .ok bs
  | [], _ => rfl
  | .assign name value :: bs, h => by
    rw [Expr.ungroupBindings, h _ List.mem_cons_self value (by simp [Binding.values]),
      ungroupBindings_eq_self fun b hb => h b (List.mem_cons_of_mem _ hb)]
    rfl
  | .items name values :: bs, h => by
    have hvalues : ∀ x ∈ values, x.ungroup again = .ok x := h _ List.mem_cons_self
    rw [Expr.ungroupBindings, ungroupList_eq_self hvalues,
      ungroupBindings_eq_self fun b hb => h b (List.mem_cons_of_mem _ hb)]
    rfl

/-- A node that is no grouped join is left as it is if its parts are. -/
theorem ungroup_eq_self_of_parts {e : Expr} (he : e.isGroupJoin = false)
    (h : ∀ x ∈ e.parts, x.ungroup again = .ok x) : e.ungroup again = .ok e := by
  cases e with
  | call m r args =>
    have hm : m.is Queryable.groupJoin = false := he
    rw [Expr.ungroup.eq_def]
    simp only [hm, Bool.false_eq_true, if_false]
    rw [ungroupOption_eq_self fun x hx => h x (by simp_all [Expr.parts]),
      ungroupList_eq_self fun x hx => h x (by simp [Expr.parts, hx])]
    rfl
  | lambda params body | quote inner | unary op operand =>
    rw [Expr.ungroup, h _ (by simp [Expr.parts])]
    rfl
  | member target m =>
    rw [Expr.ungroup, ungroupOption_eq_self fun x hx => h x (by simp_all [Expr.parts])]
    rfl
  | binary op lhs rhs =>
    rw [Expr.ungroup, h lhs (by simp [Expr.parts]), h rhs (by simp [Expr.parts])]
    rfl
  | new type args names =>
    have hargs : ∀ x ∈ args, x.ungroup again = .ok x := h
    rw [Expr.ungroup, ungroupList_eq_self hargs]
    rfl
  | newWith type args names bindings =>
    rw [Expr.ungroup, ungroupList_eq_self fun x hx => h x (by simp [Expr.parts, hx]),
      ungroupBindings_eq_self fun b hb x hx =>
        h x (List.mem_append_right _ (List.mem_flatMap.mpr ⟨b, hb, hx⟩))]
    rfl
  | cond test a b =>
    rw [Expr.ungroup, h test (by simp [Expr.parts]), h a (by simp [Expr.parts]),
      h b (by simp [Expr.parts])]
    rfl
  | param p | const value type | placeholder p => rfl

end Identity

end QueryNormal
