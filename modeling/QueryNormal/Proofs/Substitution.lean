import Mathlib.Data.List.Nodup
import QueryNormal.Proofs.Binders
import QueryNormal.Proofs.Meaning

/-!
# Values and replacement

* `Meaning.Compositional`: the value of a node depends on the values of its parts.
* `Meaning.Compositional.congr`: the value of an expression depends on its free parameters only.
* `Meaning.ReadsMembers`, `Interpretation.Constructs`: a member of a construction is what the
  construction initializes it with.
* `Meaning.Compositional.replace`: an expression in which a parameter is replaced has the value that
  it has when the parameter stands for the value of the replacement, unless a lambda of it captures
  a reference.
* `eval_congr`, `eval_replace`: interpretations of expressions are compositional.

Replacement does not rename and goes below lambdas that declare the same id, so that both are ruled
out by what the expression declares.
-/

universe u

namespace QueryNormal

open QueryNormal.Expr

variable {V : Type u} {I : Interpretation V} {e e' x value : Expr} {env env' : Env V} {id : UInt32}

/-! ## Environments -/

theorem update_congr {i : UInt32} {v : V} (h : id ≠ i → env id = env' id) :
    Function.update env i v id = Function.update env' i v id := by
  by_cases hi : id = i
  · rw [hi, Function.update_self, Function.update_self]
  · rw [Function.update_of_ne hi, Function.update_of_ne hi, h hi]

theorem bind_of_not_mem : ∀ {params : List Param} {values : Fin params.length → V} {env : Env V},
    id ∉ params.map Param.id → env.bind params values id = env id
  | [], _, _, _ => rfl
  | p :: params, values, env, h => by
    rw [List.map_cons, List.mem_cons, not_or] at h
    rw [Env.bind, bind_of_not_mem h.2, Function.update_of_ne h.1]

/-- Inside a lambda, environments agree on what the lambda declares and where they agreed before. -/
theorem bind_congr : ∀ {params : List Param} {values : Fin params.length → V} {env env' : Env V},
    (id ∉ params.map Param.id → env id = env' id) →
    env.bind params values id = env'.bind params values id
  | [], _, _, _, h => h (by simp)
  | p :: params, values, env, env', h => by
    rw [Env.bind, Env.bind]
    exact bind_congr fun hid => update_congr fun hp => h (by simp [hp, hid])

theorem bind_update {params : List Param} {values : Fin params.length → V} {v : V}
    (h : id ∉ params.map Param.id) :
    Env.bind params values (Function.update env id v) =
      Function.update (env.bind params values) id v := by
  funext i
  by_cases hi : i = id
  · subst hi
    rw [bind_of_not_mem h, Function.update_self, Function.update_self]
  · rw [Function.update_of_ne hi]
    exact bind_congr fun _ => Function.update_of_ne hi v env

/-! ## Nodes -/

section Nodes

variable {σ : Type} {s t : σ}

theorem evalList_eq_of_threads {args args' : List Expr}
    (h : Threads (fun x (_ : σ) y _ => y.eval I env = x.eval I env') args s args' t) :
    evalList I args' env = evalList I args env' := by
  induction h with
  | nil => rfl
  | cons hx _ ih => rw [evalList, evalList, hx, ih]

theorem evalBindings_eq_of_threads {bs bs' : List Binding}
    (h : Threads (ThreadsBinding fun x (_ : σ) y _ => y.eval I env = x.eval I env') bs s bs' t) :
    evalBindings I bs' env = evalBindings I bs env' := by
  induction h with
  | nil => rfl
  | cons hb _ ih =>
    cases hb with
    | assign hx => rw [evalBindings, evalBindings, hx, ih]
    | items hxs => rw [evalBindings, evalBindings, evalList_eq_of_threads hxs, ih]

/-- A node is rebuilt around parts that have in one environment the values that the parts of the
node have in another. -/
theorem WalksBy.eval_eq (h : WalksBy (fun x (_ : σ) y _ => y.eval I env = x.eval I env') e s e' t)
    (hdeclared : e.declared = []) (hparam : ∀ p, e.param? = some p → env p.id = env' p.id) :
    e'.eval I env = e.eval I env' := by
  cases h with
  | call hr hargs =>
    rw [eval_call, eval_call, evalList_eq_of_threads hargs]
    cases hr with
    | none => rfl
    | some hx => rw [Option.map_some, Option.map_some, hx]
  | lambda hb =>
    obtain rfl : _ = [] := hdeclared
    exact congrArg (I.lambda 0) (funext fun _ => hb)
  | quote hx | unary hx => rw [Expr.eval, Expr.eval, hx]
  | param => exact hparam _ rfl
  | member hr =>
    cases hr with
    | none => rfl
    | some hx => simp only [Expr.eval, hx]
  | binary hl hr => rw [Expr.eval, Expr.eval, hl, hr]
  | new hargs => rw [Expr.eval, Expr.eval, evalList_eq_of_threads hargs]
  | newWith hargs hbs =>
    rw [Expr.eval, Expr.eval, evalList_eq_of_threads hargs, evalBindings_eq_of_threads hbs]
  | cond ht ha hb => rw [Expr.eval, Expr.eval, ht, ha, hb]
  | const | placeholder => rfl

/-- The same with parts inside of what the node declares. -/
theorem WalksBy.eval_eq_bind
    (h : WalksBy (fun x (_ : σ) y _ => ∀ values, y.eval I (env.bind e.declared values) =
      x.eval I (env'.bind e.declared values)) e s e' t)
    (hparam : ∀ p, e.param? = some p → env p.id = env' p.id) : e'.eval I env = e.eval I env' := by
  cases e with
  | lambda params body =>
    cases h with
    | lambda hb => exact congrArg (I.lambda params.length) (funext hb)
  | _ => exact (h.mono_mem fun _ _ _ _ _ hx => hx Fin.elim0).eval_eq rfl hparam

end Nodes

/-! ## Compositional meanings -/

/-- A meaning of expressions: the value of each, given the values of parameters. -/
abbrev Meaning (V : Type u) : Type u := Expr → Env V → V

/-- A reference has the value of the parameter. The value of any other node depends on what the node
says, and on the values of its parts inside of what the node declares. -/
structure Meaning.Compositional (M : Meaning V) : Prop where
  param (p : Param) (env : Env V) : M (.param p) env = env p.id
  node {e e' : Expr} {env env' : Env V} : e.param? = none →
    WalksBy (fun x (_ : Unit) y _ => ∀ values, M y (env.bind e.declared values) =
      M x (env'.bind e.declared values)) e () e' () →
    M e' env = M e env'

theorem compositional_eval (I : Interpretation V) :
    Meaning.Compositional fun e env => e.eval I env where
  param _ _ := rfl
  node hparam hwalk := hwalk.eval_eq_bind fun p hp => by simp [hparam] at hp

section Compositional

variable {M : Meaning V} (hM : M.Compositional)
include hM

theorem Meaning.Compositional.walk
    (hwalk : WalksBy (fun x (_ : Unit) y _ => ∀ values, M y (env.bind e.declared values) =
      M x (env'.bind e.declared values)) e () e' ())
    (hparam : ∀ p, e.param? = some p → env p.id = env' p.id) : M e' env = M e env' := by
  cases e with
  | param p =>
    cases hwalk
    rw [hM.param, hM.param, hparam p rfl]
  | _ => exact hM.node rfl hwalk

/-- **Free parameters.** The value of an expression depends on its free parameters only. -/
theorem Meaning.Compositional.congr (h : ∀ id ∈ e.free, env id = env' id) : M e env = M e env' := by
  induction e using induction_parts generalizing env env' with
  | _ e ih =>
    have hparts : ∀ x ∈ e.parts, ∀ values : Fin e.declared.length → V,
        M x (env.bind e.declared values) = M x (env'.bind e.declared values) :=
      fun x hx values => ih x hx fun id hid => bind_congr fun hdeclared =>
        h id (mem_free.mpr (.inr ⟨hdeclared, x, hx, hid⟩))
    refine hM.walk (walksBy_self hparts) fun p hp => ?_
    exact h _ (mem_free.mpr (.inl ⟨p, hp, rfl⟩))

end Compositional

theorem eval_congr (h : ∀ id ∈ e.free, env id = env' id) : e.eval I env = e.eval I env' :=
  (compositional_eval I).congr h

theorem eval_update_of_not_mem {v : V} (h : id ∉ e.free) :
    e.eval I (Function.update env id v) = e.eval I env :=
  eval_congr fun _ hi => Function.update_of_ne (ne_of_mem_of_not_mem hi h) v env

/-! ## Members of constructions -/

/-- The value of the first assignment to that name. -/
def assignedValue? (bindings : List (String × (V ⊕ List V))) (name : String) : Option V :=
  bindings.findSome? fun b => if b.1 = name then b.2.getLeft? else none

/-- A member of a construction has the value of the expression that the construction initializes it
with: the argument at the position of the first such name, or the first assignment to it. -/
structure Meaning.ReadsMembers (M : Meaning V) : Prop where
  new {m : Member} {type : Ty} {args : List Expr} {names : Option (List String)} {x : Expr}
    {env : Env V} : argumentNamed? args names m.name = some x →
    M (.member (some (.new type args names)) m) env = M x env
  newWith {m : Member} {type : Ty} {args : List Expr} {names : Option (List String)}
    {bindings : List Binding} {x : Expr} {env : Env V} : assignedTo? bindings m.name = some x →
    M (.member (some (.newWith type args names bindings)) m) env = M x env

/-- A member of a construction is what the construction initializes it with. -/
structure Interpretation.Constructs (I : Interpretation V) : Prop where
  new {m : Member} {type : Ty} {names : List String} {args : List V} {i : Nat} {v : V} :
    names.idxOf? m.name = some i → args[i]? = some v →
    I.member m (some (I.new type (some names) args)) = v
  newWith {m : Member} {type : Ty} {names : Option (List String)} {args : List V}
    {bindings : List (String × (V ⊕ List V))} {v : V} : assignedValue? bindings m.name = some v →
    I.member m (some (I.newWith type names args bindings)) = v

theorem getElem?_evalList (args : List Expr) (i : Nat) (env : Env V) :
    (evalList I args env)[i]? = args[i]?.map fun x => x.eval I env := by
  induction args generalizing i with
  | nil => rfl
  | cons x args ih =>
    cases i with
    | zero => rfl
    | succ i => simpa [evalList] using ih i

theorem assignedValue?_evalBindings (bindings : List Binding) (name : String) (env : Env V) :
    assignedValue? (evalBindings I bindings env) name =
      (assignedTo? bindings name).map fun x => x.eval I env := by
  induction bindings with
  | nil => rfl
  | cons b bindings ih =>
    unfold assignedValue? assignedTo? at ih ⊢
    cases b with
    | assign n value =>
      rw [evalBindings, List.findSome?_cons, List.findSome?_cons]
      by_cases hn : n = name
      · simp [hn]
      · simpa [hn] using ih
    | items n values =>
      rw [evalBindings, List.findSome?_cons, List.findSome?_cons]
      simpa using ih

theorem Interpretation.Constructs.readsMembers (hI : I.Constructs) :
    Meaning.ReadsMembers fun e env => e.eval I env where
  new {m type args names x env} h := by
    simp only [argumentNamed?, bind, Option.bind_eq_some_iff] at h
    obtain ⟨names, rfl, i, hi, hx⟩ := h
    refine hI.new hi ?_
    rw [getElem?_evalList, hx]
    rfl
  newWith {m type args names bindings x env} h := by
    refine hI.newWith ?_
    rw [assignedValue?_evalBindings, h]
    rfl

/-- What is taken of a construction has the value of the member. -/
theorem Meaning.ReadsMembers.project {M : Meaning V} (hM : M.ReadsMembers) (target : Expr)
    (m : Member) (env : Env V) : M (target.project m) env = M (.member (some target) m) env := by
  unfold Expr.project
  cases h : target.initializer? m.name with
  | none => rfl
  | some x =>
    cases target with
    | new type args names => exact (hM.new h).symm
    | newWith type args names bindings => exact (hM.newWith h).symm
    | _ => cases h

/-! ## Replacement -/

theorem not_mem_declared (h : id ∉ e.binders) : id ∉ e.declared.map Param.id := by
  rw [binders_eq, List.mem_append, not_or] at h
  exact h.1

theorem not_mem_binders_part (hx : x ∈ e.parts) (h : id ∉ e.binders) : id ∉ x.binders :=
  fun hid => h ((binders_sublist (mem_nodes_of_mem_parts hx)).subset hid)

/-- **Replacement.** If the expression declares neither the parameter again nor what is free in the
replacement, replacing the parameter gives it the value of the replacement. -/
theorem Meaning.Compositional.replace {M : Meaning V} (hM : M.Compositional)
    (hmembers : M.ReadsMembers) (hid : id ∉ e.binders)
    (hcapture : ∀ i ∈ value.free, i ∉ e.binders) (env : Env V) :
    M (Expr.replace id value e) env = M e (Function.update env id (M value env)) := by
  induction e using induction_parts generalizing env with
  | _ e ih =>
    have hpart (x : Expr) (hx : x ∈ e.parts) (env : Env V) :
        M (Expr.replace id value x) env = M x (Function.update env id (M value env)) :=
      ih x hx (not_mem_binders_part hx hid)
        (fun i hi => not_mem_binders_part hx (hcapture i hi)) env
    rcases replace_cases id value e with ⟨p, rfl, rfl, h⟩ | ⟨target, m, rfl, h⟩ | ⟨hother, hwalk⟩
    · rw [h, hM.param, Function.update_self]
    · rw [h, hmembers.project]
      exact hM.node rfl (.member (.some fun _ => hpart target (by simp [parts]) env))
    · refine hM.walk (hwalk.mono_mem ?_) fun p hp => (Function.update_of_ne (hother p hp) _ _).symm
      rintro x hx _ _ _ rfl values
      -- The replacement means the same inside of the lambda, which captures nothing of it.
      have hvalue : M value (env.bind e.declared values) = M value env :=
        hM.congr fun i hi => bind_of_not_mem (not_mem_declared (hcapture i hi))
      rw [hpart x hx, hvalue, bind_update (not_mem_declared hid)]

theorem eval_replace (hI : I.Constructs) (hid : id ∉ e.binders)
    (hcapture : ∀ i ∈ value.free, i ∉ e.binders) (env : Env V) :
    (replace id value e).eval I env =
      e.eval I (Function.update env id (value.eval I env)) :=
  (compositional_eval I).replace hI.readsMembers hid hcapture env

/-! ## Scopes that do not meet -/

/-- No id is declared twice, and none is declared that is free. -/
structure Expr.Hygienic (e : Expr) : Prop where
  nodup : e.binders.Nodup
  fresh : ∀ id ∈ e.binders, id ∉ e.free

theorem Expr.Hygienic.of_free_eq_nil (hnodup : e.binders.Nodup) (hfree : e.free = []) :
    e.Hygienic := ⟨hnodup, by simp [hfree]⟩

/-- Neither expression declares what the other declares or has free. -/
structure Apart (e x : Expr) : Prop where
  binders : ∀ id ∈ e.binders, id ∉ x.binders
  left : ∀ id ∈ e.binders, id ∉ x.free
  right : ∀ id ∈ x.binders, id ∉ e.free

section Hygiene

variable {l : Lambda} {m : Method} {args : List Expr}

theorem Apart.symm (h : Apart e x) : Apart x e :=
  ⟨fun id hx he => h.binders id he hx, h.right, h.left⟩

theorem free_subset_call (hx : x ∈ args) : x.free ⊆ (call m none args).free := fun id hid =>
  mem_free.mpr (.inr ⟨by simp [declared], x, by simpa [parts] using hx, hid⟩)

theorem binders_subset_call (hx : x ∈ args) : x.binders ⊆ (call m none args).binders :=
  (binders_sublist (mem_nodes_of_mem_parts (by simpa [parts] using hx))).subset

theorem mem_free_of_lambda (h : e.lambda? = some l) :
    id ∈ e.free ↔ id ∈ l.body.free ∧ id ∉ l.params.map Param.id := by
  refine induction_lambda
    (P := fun e => id ∈ e.free ↔ id ∈ l.body.free ∧ id ∉ l.params.map Param.id) h ?_ ?_
  · rw [mem_free]
    simp [Lambda.toExpr, param?, declared, parts, and_comm]
  · intro x hx
    rw [← hx, Expr.free]

theorem Apart.arg (h : Apart (call m none args) x) (he : e ∈ args) : Apart e x :=
  ⟨fun id hid => h.binders id (binders_subset_call he hid),
    fun id hid => h.left id (binders_subset_call he hid),
    fun id hid hfree => h.right id hid (free_subset_call he hfree)⟩

/-- The arguments of a call have scopes of their own. -/
theorem Expr.Hygienic.of_call (h : (call m none args).Hygienic) :
    (∀ x ∈ args, x.Hygienic) ∧ args.Pairwise Apart := by
  have hnodup := h.nodup
  rw [binders_call, Option.toList_none, List.flatMap_nil, List.nil_append, List.nodup_flatMap]
    at hnodup
  have hfresh {x y : Expr} (hx : x ∈ args) (hy : y ∈ args) : ∀ id ∈ x.binders, id ∉ y.free :=
    fun id hid hfree => h.fresh id (binders_subset_call hx hid) (free_subset_call hy hfree)
  refine ⟨fun x hx => ⟨hnodup.1 x hx, hfresh hx hx⟩, hnodup.2.imp_of_mem fun hx hy hdisjoint => ?_⟩
  exact ⟨fun id hx hy => hdisjoint hx hy, hfresh hx hy, hfresh hy hx⟩

/-- A lambda declares its parameters once, and apart from its body. -/
theorem Expr.Hygienic.of_lambda (h : e.Hygienic) (hl : e.lambda? = some l) :
    (l.params.map Param.id).Nodup ∧ l.body.Hygienic ∧ ∀ p ∈ l.params, p.id ∉ l.body.binders := by
  have hnodup := h.nodup
  have hfresh := h.fresh
  rw [binders_of_lambda hl] at hnodup hfresh
  obtain ⟨hdeclared, hbody, hdisjoint⟩ := List.nodup_append.mp hnodup
  have hparams : ∀ id ∈ l.body.binders, id ∉ l.params.map Param.id := fun id hid hparam =>
    hdisjoint id hparam id hid rfl
  refine ⟨hdeclared, ⟨hbody, fun id hid hfree => ?_⟩, ?_⟩
  · exact hfresh id (by simp [hid]) ((mem_free_of_lambda hl).mpr ⟨hfree, hparams id hid⟩)
  · exact fun p hp hid => hparams p.id hid (List.mem_map_of_mem hp)

/-- What is apart from a lambda is apart from its body, and from its parameters. -/
theorem Apart.of_lambda (h : Apart e x) (hl : e.lambda? = some l) :
    Apart l.body x ∧ ∀ p ∈ l.params, p.id ∉ x.binders ∧ p.id ∉ x.free := by
  have hbinders := h.binders
  have hleft := h.left
  rw [binders_of_lambda hl] at hbinders hleft
  refine ⟨⟨fun id hid => hbinders id (by simp [hid]), fun id hid => hleft id (by simp [hid]), ?_⟩,
    ?_⟩
  · intro id hx hfree
    by_cases hparam : id ∈ l.params.map Param.id
    · exact hbinders id (List.mem_append_left _ hparam) hx
    · exact h.right id hx ((mem_free_of_lambda hl).mpr ⟨hfree, hparam⟩)
  · intro p hp
    have hid : p.id ∈ l.params.map Param.id ++ l.body.binders :=
      List.mem_append_left _ (List.mem_map_of_mem hp)
    exact ⟨hbinders _ hid, hleft _ hid⟩

/-- Lambdas that are apart have bodies that are apart, and neither mentions a parameter of the
other. -/
theorem Apart.of_lambdas {l' : Lambda} (h : Apart e x) (hl : e.lambda? = some l)
    (hl' : x.lambda? = some l') :
    Apart l.body l'.body ∧ (∀ p ∈ l.params, p.id ∉ l'.body.binders ∧ p.id ∉ l'.body.free) ∧
      ∀ p ∈ l'.params,
        p.id ∉ l.body.binders ∧ p.id ∉ l.body.free ∧ ∀ q ∈ l.params, q.id ≠ p.id := by
  obtain ⟨hbody, hparams⟩ := h.of_lambda hl
  obtain ⟨hbodies, hparams'⟩ := hbody.symm.of_lambda hl'
  have hdistinct : ∀ p ∈ l'.params, ∀ q ∈ l.params, q.id ≠ p.id := by
    intro p hp q hq heq
    refine (hparams q hq).1 ?_
    rw [binders_of_lambda hl', heq]
    exact List.mem_append_left _ (List.mem_map_of_mem hp)
  refine ⟨hbodies.symm, fun q hq => ⟨fun hid => (hparams q hq).1 ?_, fun hid => ?_⟩,
    fun p hp => ⟨(hparams' p hp).1, (hparams' p hp).2, hdistinct p hp⟩⟩
  · rw [binders_of_lambda hl']
    exact List.mem_append_right _ hid
  · refine (hparams q hq).2 ((mem_free_of_lambda hl').mpr ⟨hid, fun hmem => ?_⟩)
    obtain ⟨p, hp, heq⟩ := List.mem_map.mp hmem
    exact hdistinct p hp q hq heq.symm

end Hygiene

end QueryNormal
