import QueryNormal.Proofs.Correlated
import QueryNormal.Proofs.Steps
import QueryNormal.Proofs.Visitors

/-!
# Names of parameters

* `Expr.rename`: a tree with the name of every parameter mapped, where it is declared and where it is
  referred to.
* `Failure.rename`: a failure with the names in it mapped.

A parameter is known by its id, so what a rewrite looks at does not change with the names, and what it
builds changes with them only by the names. There is one lemma for each function that reads or builds
a tree, `…_rename`.
-/

namespace QueryNormal

/-- The parameter with its name mapped. -/
def Param.rename (g : String → String) (p : Param) : Param := { p with name := g p.name }

namespace Expr

mutual
/-- The tree with the name of every parameter mapped. -/
def rename (g : String → String) : Expr → Expr
  | .call m receiver args =>
      .call m (match receiver with | none => none | some r => some (r.rename g)) (renameList g args)
  | .lambda params body => .lambda (params.map (Param.rename g)) (body.rename g)
  | .quote inner => .quote (inner.rename g)
  | .param p => .param (p.rename g)
  | .member target m =>
      .member (match target with | none => none | some t => some (t.rename g)) m
  | .binary op lhs rhs => .binary op (lhs.rename g) (rhs.rename g)
  | .unary op operand => .unary op (operand.rename g)
  | .const value type => .const value type
  | .new type args names => .new type (renameList g args) names
  | .newWith type args names bindings =>
      .newWith type (renameList g args) names (renameBindings g bindings)
  | .cond test whenTrue whenFalse =>
      .cond (test.rename g) (whenTrue.rename g) (whenFalse.rename g)
  | .placeholder p => .placeholder p

/-- A list of trees with the names mapped. -/
def renameList (g : String → String) : List Expr → List Expr
  | [] => []
  | e :: es => e.rename g :: renameList g es

/-- Bindings with the names in their values mapped. -/
def renameBindings (g : String → String) : List Binding → List Binding
  | [] => []
  | .assign name value :: bs => .assign name (value.rename g) :: renameBindings g bs
  | .items name values :: bs => .items name (renameList g values) :: renameBindings g bs
end

end Expr

/-- The binding with the names in its values mapped. -/
def Binding.rename (g : String → String) : Binding → Binding
  | .assign name value => .assign name (value.rename g)
  | .items name values => .items name (values.map (Expr.rename g))

/-- The lambda with the names mapped. -/
def Lambda.rename (g : String → String) (l : Lambda) : Lambda :=
  ⟨l.params.map (Param.rename g), l.body.rename g⟩

/-- The call with the names mapped. -/
def Call.rename (g : String → String) (c : Call) : Call :=
  ⟨c.method, c.receiver.map (Expr.rename g), c.args.map (Expr.rename g)⟩

namespace Expr

variable (g : String → String)

theorem renameList_eq_map (es : List Expr) : renameList g es = es.map (rename g) := by
  induction es with
  | nil => rfl
  | cons e es ih => rw [renameList, ih, List.map_cons]

theorem renameBindings_eq_map (bs : List Binding) :
    renameBindings g bs = bs.map (Binding.rename g) := by
  induction bs with
  | nil => rfl
  | cons b bs ih =>
    cases b with
    | assign name value => rw [renameBindings, ih, List.map_cons, Binding.rename]
    | items name values =>
      rw [renameBindings, ih, List.map_cons, Binding.rename, renameList_eq_map]

@[simp] theorem rename_call (m : Method) (r : Option Expr) (args : List Expr) :
    (call m r args).rename g = call m (r.map (rename g)) (args.map (rename g)) := by
  cases r <;> simp [rename, renameList_eq_map]

@[simp] theorem rename_lambda (params : List Param) (body : Expr) :
    (lambda params body).rename g = lambda (params.map (Param.rename g)) (body.rename g) :=
  rfl

@[simp] theorem rename_quote (e : Expr) : (quote e).rename g = quote (e.rename g) := rfl

@[simp] theorem rename_param (p : Param) : (param p).rename g = param (p.rename g) := rfl

@[simp] theorem rename_member (target : Option Expr) (m : Member) :
    (member target m).rename g = member (target.map (rename g)) m := by
  cases target <;> rfl

@[simp] theorem rename_binary (op : BinOp) (lhs rhs : Expr) :
    (binary op lhs rhs).rename g = binary op (lhs.rename g) (rhs.rename g) := rfl

@[simp] theorem rename_unary (op : UnOp) (e : Expr) :
    (unary op e).rename g = unary op (e.rename g) := rfl

@[simp] theorem rename_const (value : Literal) (type : Ty) :
    (const value type).rename g = const value type := rfl

@[simp] theorem rename_new (type : Ty) (args : List Expr) (names : Option (List String)) :
    (new type args names).rename g = new type (args.map (rename g)) names := by
  rw [rename, renameList_eq_map]

@[simp] theorem rename_newWith (type : Ty) (args : List Expr) (names : Option (List String))
    (bindings : List Binding) :
    (newWith type args names bindings).rename g =
      newWith type (args.map (rename g)) names (bindings.map (Binding.rename g)) := by
  rw [rename, renameList_eq_map, renameBindings_eq_map]

@[simp] theorem rename_cond (test a b : Expr) :
    (cond test a b).rename g = cond (test.rename g) (a.rename g) (b.rename g) := rfl

@[simp] theorem rename_placeholder (p : Placeholder) :
    (placeholder p).rename g = placeholder p := rfl

@[simp] theorem rename_apply (s : Signature) (typeArgs : List Ty) (args : List Expr) :
    (apply s typeArgs args).rename g = apply s typeArgs (args.map (rename g)) := by
  simp [apply]

/-! ## Parts, nodes and types -/

theorem values_rename (bs : List Binding) :
    (bs.map (Binding.rename g)).flatMap Binding.values =
      (bs.flatMap Binding.values).map (rename g) := by
  induction bs with
  | nil => rfl
  | cons b bs ih => cases b <;> simp [Binding.rename, Binding.values, ih]

theorem parts_rename (e : Expr) : (e.rename g).parts = e.parts.map (rename g) := by
  cases e with
  | call m r args => cases r <;> simp [parts]
  | member target m => cases target <;> simp [parts]
  | newWith type args names bindings => simp [parts, values_rename]
  | _ => simp [parts]

/-- Mapping the names to themselves changes nothing. -/
theorem rename_id (e : Expr) : e.rename (fun name => name) = e := by
  induction e using induction_parts with
  | _ e ih =>
    have hlist {es : List Expr} (h : ∀ x ∈ es, x ∈ e.parts) :
        es.map (rename fun name => name) = es :=
      (List.map_congr_left fun x hx => ih x (h x hx)).trans (List.map_id es)
    cases e with
    | call m r args =>
      have hr : r.map (rename fun name => name) = r := by
        cases r with
        | none => rfl
        | some r => rw [Option.map_some, ih r (by simp [parts])]
      rw [rename_call, hr, hlist fun x hx => by simp [parts, hx]]
    | member target m =>
      cases target with
      | none => simp
      | some t => simp [ih t (by simp [parts])]
    | lambda params body =>
      have hparams : params.map (Param.rename fun name => name) = params := List.map_id params
      rw [rename_lambda, hparams, ih body (by simp [parts])]
    | new type args names =>
      have hargs : args.map (rename fun name => name) = args := hlist fun x hx => hx
      rw [rename_new, hargs]
    | newWith type args names bindings =>
      have hbindings : bindings.map (Binding.rename fun name => name) = bindings := by
        refine (List.map_congr_left fun b hb => ?_).trans (List.map_id bindings)
        have hvalues : ∀ x ∈ b.values, x ∈ (newWith type args names bindings).parts :=
          fun x hx => List.mem_append_right _ (List.mem_flatMap.mpr ⟨b, hb, hx⟩)
        cases b with
        | assign name value => exact congrArg _ (ih value (hvalues value (by simp [Binding.values])))
        | items name values => exact congrArg _ (hlist hvalues)
      rw [rename_newWith, hlist fun x hx => List.mem_append_left _ hx, hbindings]
    | param p => simp [Param.rename]
    | const | placeholder => simp
    | quote inner | unary op inner => simp [ih inner (by simp [parts])]
    | binary op lhs rhs => simp [ih lhs (by simp [parts]), ih rhs (by simp [parts])]
    | cond test a b =>
      simp [ih test (by simp [parts]), ih a (by simp [parts]), ih b (by simp [parts])]

theorem nodes_rename (e : Expr) : (e.rename g).nodes = e.nodes.map (rename g) := by
  induction e using induction_parts with
  | _ e ih =>
    rw [nodes_eq, nodes_eq e, parts_rename, List.map_cons, List.flatMap_map, List.map_flatMap]
    exact congrArg _ (List.flatMap_congr ih)

theorem call?_rename (e : Expr) : (e.rename g).call? = e.call?.map (Call.rename g) := by
  cases e <;> simp [call?, Call.rename]

theorem param?_rename (e : Expr) : (e.rename g).param? = e.param?.map (Param.rename g) := by
  cases e <;> simp [param?]

theorem calls_rename (e : Expr) : (e.rename g).calls = e.calls.map (Call.rename g) := by
  rw [calls, nodes_rename, List.filterMap_map, calls, List.map_filterMap]
  exact List.filterMap_congr fun x _ => call?_rename g x

theorem hasCallTo_rename (s : Signature) (e : Expr) : (e.rename g).hasCallTo s = e.hasCallTo s := by
  rw [hasCallTo, hasCallTo, hasCall_eq_any, hasCall_eq_any, calls_rename, List.any_map]
  rfl

theorem ids_rename (e : Expr) : (e.rename g).ids = e.ids := by
  have hown (x : Expr) : (x.rename g).ownParams.map Param.id = x.ownParams.map Param.id := by
    cases x <;> simp [ownParams, Param.rename, Function.comp_def]
  rw [ids, nodes_rename, List.flatMap_map]
  exact List.flatMap_congr fun x _ => hown x

@[simp] theorem ty_rename (e : Expr) : (e.rename g).ty = e.ty := by
  induction e using induction_parts with
  | _ e ih =>
    cases e with
    | lambda params body =>
      have hparams : (params.map (Param.rename g)).map Param.ty = params.map Param.ty := by
        simp [Param.rename, Function.comp_def]
      rw [rename_lambda, ty, ty, hparams, ih body (by simp [parts])]
    | binary op lhs rhs =>
      simp [ty, ih lhs (by simp [parts]), ih rhs (by simp [parts])]
    | quote inner | unary op inner => simp [ty, ih inner (by simp [parts])]
    | cond test a b => simp [ty, ih a (by simp [parts])]
    | _ => simp [ty, Param.rename]

theorem size_rename (e : Expr) : (e.rename g).size = e.size := by
  induction e using induction_parts with
  | _ e ih =>
    rw [size_eq_sum, size_eq_sum e, parts_rename, List.map_map]
    exact congrArg (fun sizes => 1 + List.sum sizes) (List.map_congr_left ih)

/-! ## Lambdas and constructions -/

@[simp] theorem isConstruction_rename (e : Expr) :
    (e.rename g).isConstruction = e.isConstruction := by
  cases e <;> simp [isConstruction]

theorem unquote_rename (e : Expr) : (e.rename g).unquote = e.unquote.rename g := by
  induction e using induction_parts with
  | _ e ih =>
    cases e with
    | quote inner => simp [unquote, ih inner (by simp [parts])]
    | _ => simp [unquote]

@[simp] theorem lambda?_rename (e : Expr) :
    (e.rename g).lambda? = e.lambda?.map (Lambda.rename g) := by
  unfold lambda?
  rw [unquote_rename]
  cases e.unquote <;> simp [Lambda.rename]

/-- The lambda that the second argument is. -/
theorem second_rename (args : List Expr) :
    (args.map (rename g))[1]?.bind lambda? = (args[1]?.bind lambda?).map (Lambda.rename g) := by
  rw [List.getElem?_map]
  cases args[1]? <;> simp

theorem assignedTo_rename (name : String) (bs : List Binding) :
    assignedTo? (bs.map (Binding.rename g)) name = (assignedTo? bs name).map (rename g) := by
  induction bs with
  | nil => rfl
  | cons b bs ih =>
    unfold assignedTo? at ih ⊢
    cases b with
    | assign n value => by_cases hn : n = name <;> simp [Binding.rename, hn, ih]
    | items n values => simp [Binding.rename, ih]

theorem initializer_rename (e : Expr) (name : String) :
    (e.rename g).initializer? name = (e.initializer? name).map (rename g) := by
  cases e with
  | new type args names =>
    rw [rename_new, initializer?, initializer?]
    unfold argumentNamed?
    rcases names with _ | names
    · rfl
    · rcases hindex : names.idxOf? name with _ | index <;> simp [hindex]
  | newWith type args names bindings =>
    rw [rename_newWith, initializer?, initializer?, assignedTo_rename]
  | _ => simp [initializer?]

theorem project_rename (e : Expr) (m : Member) :
    (e.rename g).project m = (e.project m).rename g := by
  unfold project
  rw [initializer_rename]
  cases e.initializer? m.name <;> simp

/-! ## Replacing a parameter -/

section Replace

variable (id : UInt32) (value : Expr)

theorem replaceList_rename (es : List Expr)
    (h : ∀ e ∈ es, replace id (value.rename g) (e.rename g) = (replace id value e).rename g) :
    replaceList id (value.rename g) (es.map (rename g)) =
      (replaceList id value es).map (rename g) := by
  induction es with
  | nil => rfl
  | cons e es ih => simp [replaceList, h e (by simp), ih fun x hx => h x (by simp [hx])]

theorem replaceBindings_rename (bs : List Binding)
    (h : ∀ e ∈ bs.flatMap Binding.values,
      replace id (value.rename g) (e.rename g) = (replace id value e).rename g) :
    replaceBindings id (value.rename g) (bs.map (Binding.rename g)) =
      (replaceBindings id value bs).map (Binding.rename g) := by
  induction bs with
  | nil => rfl
  | cons b bs ih =>
    have hrest := ih fun e he => h e (List.mem_append_right _ he)
    cases b with
    | assign name e =>
      have hvalue := h e (by simp [Binding.values])
      simp [Binding.rename, replaceBindings, hvalue, hrest]
    | items name es =>
      have hvalues := replaceList_rename g id value es fun e he => h e (List.mem_append_left _ he)
      simp [Binding.rename, replaceBindings, hvalues, hrest]

theorem replace_rename (e : Expr) :
    replace id (value.rename g) (e.rename g) = (replace id value e).rename g := by
  induction e using induction_parts with
  | _ e ih =>
    cases e with
    | param p => by_cases hp : p.id = id <;> simp [replace, Param.rename, hp]
    | member target m =>
      cases target with
      | none => simp [replace]
      | some t => simp [replace, ih t (by simp [parts]), project_rename]
    | call m r args =>
      have hargs := replaceList_rename g id value args fun x hx => ih x (by simp [parts, hx])
      cases r with
      | none => simp [replace, hargs]
      | some r => simp [replace, hargs, ih r (by simp [parts])]
    | lambda _ x | quote x | unary _ x => simp [replace, ih x (by simp [parts])]
    | binary op lhs rhs => simp [replace, ih lhs (by simp [parts]), ih rhs (by simp [parts])]
    | new type args names =>
      have hargs := replaceList_rename g id value args ih
      simp [replace, hargs]
    | newWith type args names bindings =>
      have hargs := replaceList_rename g id value args fun x hx => ih x (List.mem_append_left _ hx)
      have hbindings := replaceBindings_rename g id value bindings
        fun x hx => ih x (List.mem_append_right _ hx)
      simp [replace, hargs, hbindings]
    | cond test a b =>
      simp [replace, ih test (by simp [parts]), ih a (by simp [parts]), ih b (by simp [parts])]
    | const | placeholder => simp [replace]

end Replace

/-! ## Correlation -/

theorem selectsItself_rename (m : Method) (args : List Expr) :
    selectsItself m (args.map (rename g)) = selectsItself m args := by
  unfold selectsItself
  rw [second_rename]
  rcases args[1]?.bind lambda? with _ | ⟨_ | ⟨p, params⟩, body⟩
  · rfl
  · rfl
  · cases body <;> simp [Lambda.rename, Param.rename]

section Scan

variable (root : UInt32)

theorem scanParts_rename (bound : List UInt32) (e : Expr) (s : Scan)
    (h : ∀ x ∈ e.parts, ∀ bound s, (x.rename g).scan root bound s = x.scan root bound s) :
    scanParts root bound (e.rename g) s = scanParts root bound e s := by
  have hbound : boundIn bound (e.rename g) = boundIn bound e := by
    cases e <;> simp [boundIn, Param.rename, Function.comp_def]
  unfold scanParts
  rw [parts_rename, List.foldl_map, hbound]
  exact List.foldl_ext _ _ s fun s x hx => h x hx _ s

theorem scan_rename (bound : List UInt32) (e : Expr) (s : Scan) :
    (e.rename g).scan root bound s = e.scan root bound s := by
  induction e using induction_parts generalizing bound s with
  | _ e ih =>
    have hparts := scanParts_rename g root bound e s fun x hx bound s => ih x hx bound s
    have hwalked (hcall : e.call? = none) (hparam : e.param? = none) :
        (e.rename g).scan root bound s = e.scan root bound s := by
      rw [scan_eq_scanParts hcall hparam, ← hparts]
      exact scan_eq_scanParts (by rw [call?_rename, hcall]; rfl) (by rw [param?_rename, hparam]; rfl)
    cases e with
    | call m r args =>
      rw [rename_call] at hparts ⊢
      rw [scan_call, scan_call, selectsItself_rename, hparts]
    | param p => rw [rename_param]; rfl
    | _ => exact hwalked rfl rfl

theorem startsAt_rename (e : Expr) : (e.rename g).startsAt root = e.startsAt root := by
  induction e using induction_parts with
  | _ e ih =>
    cases e with
    | call m r args =>
      cases args with
      | nil => simp [startsAt]
      | cons source rest => simp [startsAt, ih source (by simp [parts])]
    | member target m =>
      cases target with
      | none => simp [startsAt]
      | some t => simp [startsAt, ih t (by simp [parts])]
    | _ => simp [startsAt, Param.rename]

theorem correlated_rename (e : Expr) : (e.rename g).correlated root = e.correlated root := by
  unfold correlated
  rw [scan_rename, startsAt_rename]

end Scan

end Expr

/-! ## Grouped joins -/

open QueryNormal.Expr

/-- The pieces with the names mapped. -/
def GroupJoin.rename (g : String → String) (join : GroupJoin) : GroupJoin :=
  ⟨join.typeArgs, join.outer.rename g, join.inner.rename g, join.outerKey.rename g,
    join.innerKey.rename g, join.innerKeySelector.rename g, join.result.rename g⟩

/-- The flattening with the names mapped. -/
def Flattening.rename (g : String → String) : Flattening → Flattening
  | .pairs join left inner result =>
      .pairs (join.rename g) left (inner.rename g) (result.rename g)
  | .members join left inner outer element =>
      .members (join.rename g) left (inner.rename g) (outer.rename g) (element.rename g)

section Joins

variable (g : String → String)

theorem peelDefault_rename (e : Expr) :
    peelDefault (e.rename g) = ((peelDefault e).1.rename g, (peelDefault e).2) := by
  cases e with
  | call m r args =>
    cases args with
    | nil => simp [peelDefault]
    | cons source rest =>
      by_cases hm : m.is Queryable.defaultIfEmpty = true <;> simp [peelDefault, hm]
  | _ => simp [peelDefault]

theorem unwrapQueryable_rename (e : Expr) :
    unwrapQueryable (e.rename g) = (unwrapQueryable e).rename g := by
  induction e using induction_parts with
  | _ e ih =>
    cases e with
    | call m r args =>
      cases args with
      | nil => simp [unwrapQueryable]
      | cons source rest =>
        have hsource := ih source (by simp [parts])
        simp only [rename_call, List.map_cons, unwrapQueryable, List.isEmpty_map, ty_rename]
        split
        · exact hsource
        · split <;> simp [hsource]
    | _ => simp [unwrapQueryable]

theorem groupJoin_rename (e : Expr) :
    GroupJoin.of? (e.rename g) = (GroupJoin.of? e).map (GroupJoin.rename g) := by
  cases e with
  | call m r args =>
    rw [rename_call]
    rcases args with _ | ⟨outer, _ | ⟨inner, _ | ⟨outerKey, _ | ⟨innerKey, _ | ⟨result, _ | _⟩⟩⟩⟩⟩ <;>
      try rfl
    by_cases hm : m.is Queryable.groupJoin = true
    · rcases hok : outerKey.lambda? with _ | ok <;> rcases hik : innerKey.lambda? with _ | ik <;>
        rcases hres : result.lambda? with _ | res <;>
        simp [GroupJoin.of?, hm, hok, hik, hres, GroupJoin.rename]
    · simp [GroupJoin.of?, hm]
  | _ => simp [GroupJoin.of?]

theorem ofPairs_rename (source collection result : Expr) :
    Flattening.ofPairs? (source.rename g) (collection.rename g) (result.rename g) =
      (Flattening.ofPairs? source collection result).map (Flattening.rename g) := by
  unfold Flattening.ofPairs?
  rw [groupJoin_rename, lambda?_rename, lambda?_rename]
  rcases GroupJoin.of? source with _ | ⟨typeArgs, outers, inner, outerKey, innerKey, key, params, r⟩
  · rfl
  rcases collection.lambda? with _ | ⟨_ | ⟨x, _ | _⟩, body⟩ <;>
    rcases result.lambda? with _ | ⟨_ | ⟨y, _ | ⟨element, _ | _⟩⟩, pairBody⟩ <;>
    rcases params with _ | ⟨outer, _ | ⟨group, more⟩⟩ <;> try rfl
  have hcollected : Expr.replace x.id (r.rename g) (peelDefault (body.rename g)).1 =
      (Expr.replace x.id r (peelDefault body).1).rename g := by
    rw [peelDefault_rename, replace_rename]
  simp only [bind, Option.bind, Option.map, Lambda.rename, GroupJoin.rename, List.map_cons,
    List.map_nil, Param.rename, hcollected, correlated_rename]
  split
  · rfl
  · simp [Flattening.rename, GroupJoin.rename, Lambda.rename, Param.rename, peelDefault_rename,
      replace_rename]

theorem ofMembers_rename (source selector : Expr) :
    Flattening.ofMembers? (source.rename g) (selector.rename g) =
      (Flattening.ofMembers? source selector).map (Flattening.rename g) := by
  unfold Flattening.ofMembers?
  rw [groupJoin_rename, lambda?_rename]
  rcases GroupJoin.of? source with
    _ | ⟨typeArgs, outers, inner, outerKey, innerKey, ⟨keys, key⟩, params, r⟩
  · rfl
  rcases selector.lambda? with _ | ⟨_ | ⟨x, _ | _⟩, body⟩ <;>
    rcases keys with _ | ⟨element, _ | _⟩ <;>
    rcases params with _ | ⟨outer, _ | ⟨group, more⟩⟩ <;> try rfl
  simp only [bind, Option.bind, Option.map, Lambda.rename, GroupJoin.rename, List.map_cons,
    List.map_nil, Param.rename, peelDefault_rename, correlated_rename]
  split
  · rfl
  · simp [Flattening.rename, GroupJoin.rename, Lambda.rename, Param.rename, replace_rename]

theorem flattening_rename (c : Call) :
    Flattening.of? (c.rename g) = (Flattening.of? c).map (Flattening.rename g) := by
  obtain ⟨m, r, args⟩ := c
  unfold Flattening.of? Call.is Call.rename
  dsimp only
  split
  · rcases args with _ | ⟨source, _ | ⟨collection, _ | ⟨result, _ | _⟩⟩⟩ <;> try rfl
    exact ofPairs_rename g source collection result
  · split
    · rcases args with _ | ⟨source, _ | ⟨selector, _ | _⟩⟩ <;> try rfl
      exact ofMembers_rename g source selector
    · rfl

theorem flat_rename (join : GroupJoin) (left : Bool) (inner : Expr) (result : Lambda) :
    (join.flat left inner result).rename g =
      (join.rename g).flat left (inner.rename g) (result.rename g) := by
  simp [GroupJoin.flat, GroupJoin.rename, Lambda.rename, Lambda.quoted, Lambda.toExpr]

end Joins

/-! ## Counterparts -/

section Counterparts

variable (g : String → String)

@[simp] theorem asQueryable_rename (e : Expr) (element : Ty) :
    (asQueryable e element).rename g = asQueryable (e.rename g) element := by
  simp [asQueryable]

theorem underConversions_rename (e : Expr) :
    underConversions (e.rename g) = (underConversions e).rename g := by
  induction e using induction_parts with
  | _ e ih =>
    cases e with
    | unary op operand =>
      have hoperand := ih operand (by simp [parts])
      cases op with
      | convert type | typeAs type =>
        simp only [rename_unary, underConversions]
        split
        · exact hoperand
        · rw [rename_unary]
      | _ => simp [underConversions]
    | _ => simp [underConversions]

theorem uncopied_rename (e : Expr) (element : Option Ty) :
    uncopied (e.rename g) element = ((uncopied e element).1.rename g, (uncopied e element).2) := by
  cases e with
  | call m r args =>
    cases args with
    | nil => simp [uncopied]
    | cons source rest => by_cases hm : m.is Enumerable.toList = true <;> simp [uncopied, hm]
  | _ => simp [uncopied]

theorem queryArgument_rename (e : Expr) (fallback : Option Ty) :
    queryArgument (e.rename g) fallback = (queryArgument e fallback).rename g := by
  unfold queryArgument
  rw [uncopied_rename, ty_rename]
  rcases uncopied e (e.ty.element?.or fallback) with ⟨x, _ | element⟩
  · rfl
  · simp only [ty_rename]
    split
    · rfl
    · rw [asQueryable_rename, underConversions_rename]

theorem quoteLambda_rename (e : Expr) : quoteLambda (e.rename g) = (quoteLambda e).rename g := by
  cases e <;> simp [quoteLambda]

theorem passedAs_rename (p q : Ty) (a : Expr) :
    passedAs? p q (a.rename g) = (passedAs? p q a).map (rename g) := by
  unfold passedAs?
  split
  · rfl
  · split
    · rw [queryArgument_rename]
      rfl
    · rfl

theorem fitArguments_rename : ∀ (ps qs : List Ty) (args : List Expr),
    fitArguments ps qs (args.map (rename g)) =
      (fitArguments ps qs args).map (Option.map (List.map (rename g)))
  | [], qs, args => by simp [fitArguments, Except.map]
  | p :: ps, [], args => by simp [fitArguments, Except.map]
  | p :: ps, q :: qs, [] => by
    have hrest := fitArguments_rename ps qs []
    simp only [List.map_nil, fitArguments] at hrest ⊢
    split
    · exact hrest
    · split <;> rfl
  | p :: ps, q :: qs, a :: args => by
    rw [List.map_cons, fitArguments_cons, fitArguments_cons, passedAs_rename,
      fitArguments_rename ps qs args]
    rcases passedAs? p q a with _ | x
    · rfl
    · rcases fitArguments ps qs args with f | _ | rest <;> rfl

theorem firstFit_rename (typeArgs params : List Ty) (args : List Expr) : ∀ ss : List Signature,
    firstFit typeArgs params (args.map (rename g)) ss =
      (firstFit typeArgs params args ss).map (Option.map (Prod.map id (List.map (rename g))))
  | [] => rfl
  | s :: ss => by
    have hquote (passed : List Expr) : (passed.map (rename g)).map quoteLambda =
        (passed.map quoteLambda).map (rename g) := by
      simp [quoteLambda_rename, Function.comp_def]
    rw [firstFit, firstFit, firstFit_rename typeArgs params args ss]
    rcases s.at? typeArgs with _ | m
    · rfl
    · dsimp only
      rw [fitArguments_rename]
      rcases fitArguments params m.params args with f | _ | passed
      · rfl
      · rfl
      · exact congrArg (fun args => Except.ok (some (m, args))) (hquote passed)

theorem toQueryable_rename (m : Method) (args : List Expr) :
    toQueryable m (args.map (rename g)) =
      (toQueryable m args).map (Option.map (Prod.map id (List.map (rename g)))) := by
  unfold toQueryable
  rw [List.length_map]
  rcases counterpartTypeArgs m args.length with f | typeArgs
  · rfl
  · exact firstFit_rename g typeArgs m.params args _

theorem staysInMemory_rename (m : Method) (args : List Expr) :
    staysInMemory m (args.map (rename g)) = staysInMemory m args := by
  cases args <;> simp [staysInMemory]

end Counterparts

/-! ## Rules -/

section Rules

variable (g : String → String)

theorem loadsOrdered_rename (m : Method) (args : List Expr) :
    loadsOrdered m (args.map (rename g)) = loadsOrdered m args := by
  unfold loadsOrdered
  rw [second_rename]
  rcases args[1]?.bind lambda? with _ | l <;> simp [Lambda.rename]

theorem indexedElement_rename (m : Method) (r : Option Expr) (args : List Expr) :
    indexedElement? m (r.map (rename g)) (args.map (rename g)) = indexedElement? m r args := by
  cases r <;> simp [indexedElement?]

theorem rule_rename (m : Method) (r : Option Expr) (args : List Expr) :
    Rule.of m (r.map (rename g)) (args.map (rename g)) = Rule.of m r args := by
  unfold Rule.of
  rw [indexedElement_rename, loadsOrdered_rename]

theorem countedSource_rename (e : Expr) :
    countedSource? (e.rename g) = (countedSource? e).map (rename g) := by
  cases e with
  | member target m =>
    cases target with
    | none => simp [countedSource?]
    | some t =>
      simp only [rename_member, Option.map_some, countedSource?]
      split <;> rfl
  | unary op operand => cases op <;> simp [countedSource?]
  | _ => simp [countedSource?]

theorem sugar_rename (op : BinOp) (lhs rhs : Expr) :
    Sugar.of? op (lhs.rename g) (rhs.rename g) = Sugar.of? op lhs rhs := by
  have hzero : isZero (rhs.rename g) = isZero rhs := by cases rhs <;> simp [isZero]
  unfold Sugar.of?
  rw [hzero, ty_rename, countedSource_rename]
  rcases countedSource? lhs with _ | source <;> simp

theorem contains_rename (element : Ty) (raw collection item : Expr) :
    (contains element raw collection item).rename g =
      contains element (raw.rename g) (collection.rename g) (item.rename g) := by
  unfold contains
  rw [ty_rename]
  split <;> simp

theorem elementRead_rename (element : Ty) (raw source position : Expr) :
    (elementRead element raw source position).rename g =
      elementRead element (raw.rename g) (source.rename g) (position.rename g) := by
  unfold elementRead
  rw [isConstruction_rename]
  split <;> simp [quoteLambda_rename, queryArgument_rename]

theorem nonEmptyTest_rename (element : Ty) (raw source : Expr) :
    (nonEmptyTest element raw source).rename g =
      nonEmptyTest element (raw.rename g) (source.rename g) := by
  unfold nonEmptyTest
  rw [isConstruction_rename]
  split <;> simp [quoteLambda_rename, queryArgument_rename]

theorem isQuote_rename (e : Expr) : isQuote (e.rename g) = isQuote e := by
  cases e <;> simp [isQuote]

theorem reselected_rename (selector : Expr) (l : Lambda) :
    (reselected selector l).rename g = reselected (selector.rename g) (l.rename g) := by
  unfold reselected
  rw [isQuote_rename]
  split <;> simp [Lambda.quoted, Lambda.toExpr, Lambda.rename]

theorem deferredLeaf_of_leaf {e : Expr} (h : e.isConstruction = false) :
    e.deferredLeaf? = if e.ty.isDeferred then some e else none := by
  cases e with
  | new | newWith => cases h
  | _ => rfl

theorem deferredLeafList_rename : ∀ {es : List Expr},
    (∀ x ∈ es, (x.rename g).deferredLeaf? = x.deferredLeaf?.map (rename g)) →
      deferredLeafList? (es.map (rename g)) = (deferredLeafList? es).map (rename g)
  | [], _ => rfl
  | e :: es, h => by
    rw [List.map_cons, deferredLeafList?, deferredLeafList?, h e (by simp),
      deferredLeafList_rename fun x hx => h x (by simp [hx])]
    cases e.deferredLeaf? <;> rfl

theorem deferredLeafBindings_rename : ∀ {bs : List Binding},
    (∀ x ∈ bs.flatMap Binding.values, (x.rename g).deferredLeaf? = x.deferredLeaf?.map (rename g)) →
      deferredLeafBindings? (bs.map (Binding.rename g)) =
        (deferredLeafBindings? bs).map (rename g)
  | [], _ => rfl
  | .assign name value :: bs, h => by
    rw [List.map_cons, Binding.rename, deferredLeafBindings?, deferredLeafBindings?,
      h value (by simp [Binding.values]),
      deferredLeafBindings_rename fun x hx => h x (List.mem_append_right _ hx)]
    cases value.deferredLeaf? <;> rfl
  | .items name values :: bs, h => by
    rw [List.map_cons, Binding.rename, deferredLeafBindings?, deferredLeafBindings?,
      deferredLeafBindings_rename fun x hx => h x (List.mem_append_right _ hx)]

theorem deferredLeaf_rename (e : Expr) :
    (e.rename g).deferredLeaf? = e.deferredLeaf?.map (rename g) := by
  induction e using induction_parts with
  | _ e ih =>
    have hleaf (h : e.isConstruction = false) :
        (e.rename g).deferredLeaf? = e.deferredLeaf?.map (rename g) := by
      rw [deferredLeaf_of_leaf h, deferredLeaf_of_leaf (by rw [isConstruction_rename, h]), ty_rename]
      split <;> rfl
    cases e with
    | new type args names =>
      rw [rename_new, Expr.deferredLeaf?, Expr.deferredLeaf?]
      exact deferredLeafList_rename g ih
    | newWith type args names bindings =>
      rw [rename_newWith, Expr.deferredLeaf?, Expr.deferredLeaf?,
        deferredLeafList_rename g fun x hx => ih x (List.mem_append_left _ hx),
        deferredLeafBindings_rename g fun x hx => ih x (List.mem_append_right _ hx)]
      cases deferredLeafList? args <;> rfl
    | _ => exact hleaf rfl

end Rules

/-! ## Failures -/

/-- The misuse with the names in what was found mapped. -/
def Misuse.rename (g : String → String) : Misuse → Misuse
  | .notAString m found => .notAString m (found.rename g)
  | .notAnInteger m found => .notAnInteger m (found.rename g)
  | .notACollection m found => .notACollection m (found.rename g)
  | .notAPlaceholder m found => .notAPlaceholder m (found.rename g)
  | .notALambda found => .notALambda (found.rename g)
  | cause => cause

/-- The problem with the names in it mapped. It stays a problem of the same kind. -/
def Problem.rename (g : String → String) : Problem → Problem
  | .constantsUnsupported => .constantsUnsupported
  | .deferredProjection p leaf => .deferredProjection (p.rename g) (leaf.rename g)
  | .misuse cause => .misuse (cause.rename g)

/-- The failure with the names in it mapped. It stays a failure of the same kind. -/
def Failure.rename (g : String → String) : Failure → Failure
  | .problem p => .problem (p.rename g)
  | .outOfRange => .outOfRange
  | .exhausted => .exhausted

theorem Failure.rename_id (f : Failure) : f.rename (fun name => name) = f := by
  cases f with
  | problem p =>
    cases p with
    | deferredProjection p leaf => simp [Failure.rename, Problem.rename, Param.rename, Expr.rename_id]
    | misuse cause => cases cause <;> simp [Failure.rename, Problem.rename, Misuse.rename, Expr.rename_id]
    | constantsUnsupported => rfl
  | _ => rfl

section Failures

variable (g : String → String)

theorem checkProjection_rename (p : Param) (body : Expr) :
    checkProjection (p.rename g) (body.rename g) =
      (checkProjection p body).mapError (Problem.rename g) := by
  unfold checkProjection
  rw [deferredLeaf_rename]
  cases body.deferredLeaf? <;> rfl

theorem readString_rename (m : Method) (a : Option Expr) :
    Note.readString m (a.map (rename g)) = (Note.readString m a).mapError (Misuse.rename g) := by
  rcases a with _ | e
  · rfl
  · cases e with
    | const value type => cases value <;> simp [Note.readString, Except.mapError, Misuse.rename]
    | _ => simp [Note.readString, Except.mapError, Misuse.rename]

theorem readInt_rename (m : Method) (a : Option Expr) :
    Note.readInt m (a.map (rename g)) = (Note.readInt m a).mapError (Misuse.rename g) := by
  rcases a with _ | e
  · rfl
  · cases e with
    | const value type => cases value <;> simp [Note.readInt, Except.mapError, Misuse.rename]
    | _ => simp [Note.readInt, Except.mapError, Misuse.rename]

theorem readItems_rename (m : Method) : ∀ items : List Literal,
    (Note.readItems m items).mapError (Misuse.rename g) = Note.readItems m items
  | [] => rfl
  | item :: items => by
    have hrest := readItems_rename m items
    cases item with
    | string value =>
      rw [Note.readItems]
      rcases hitems : Note.readItems m items with cause | values
      · rw [hitems] at hrest
        exact hrest
      · rfl
    | _ => simp [Note.readItems, Except.mapError, Misuse.rename]

theorem readStrings_rename (m : Method) (a : Option Expr) :
    Note.readStrings m (a.map (rename g)) = (Note.readStrings m a).mapError (Misuse.rename g) := by
  rcases a with _ | e
  · rfl
  · cases e with
    | const value type =>
      cases value with
      | list values => simp [Note.readStrings, readItems_rename]
      | _ => simp [Note.readStrings, Except.mapError, Misuse.rename]
    | _ => simp [Note.readStrings, Except.mapError, Misuse.rename]

theorem effect_rename (n : Note) (m : Method) (rest : List Expr) :
    n.effect m (rest.map (rename g)) = (n.effect m rest).mapError (Misuse.rename g) := by
  unfold Note.effect
  simp only [List.getElem?_map, readString_rename, readInt_rename, readStrings_rename]
  cases n with
  | tagWith => rcases Note.readString m rest[0]? with _ | _ <;> rfl
  | tagWithCallSite =>
    rcases Note.readString m rest[0]? with _ | _
    · rfl
    · rcases Note.readInt m rest[1]? with _ | _ <;> rfl
  | ignoreNamedQueryFilters => rcases Note.readStrings m rest[0]? with _ | _ <;> rfl
  | _ => rfl

theorem mark_rename (mode : Mode) (m : Method) (e : Expr) :
    mode.mark m (e.rename g) =
      ((mode.mark m e).map (rename g)).mapError (Misuse.rename g) := by
  cases e <;> simp [Mode.mark, Except.map, Except.mapError, Misuse.rename]

theorem navigationSelector_rename (m : Method) (selector : Expr) :
    navigationSelector m (selector.rename g) =
      ((navigationSelector m selector).map (Lambda.rename g)).mapError (Misuse.rename g) := by
  unfold navigationSelector
  rw [lambda?_rename, unquote_rename]
  rcases selector.lambda? with _ | l
  · rfl
  · by_cases hone : l.params.length = Selector.navigation.arity <;>
      simp [hone, Lambda.rename, Except.map, Except.mapError, Misuse.rename]

end Failures

end QueryNormal
