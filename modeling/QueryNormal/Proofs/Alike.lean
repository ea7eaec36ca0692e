import QueryNormal.Proofs.Distinct
import QueryNormal.Proofs.Failures
import QueryNormal.Proofs.Renaming

/-!
# Runs that end alike

* `finishGroupJoins_rename`: the grouped-join pass commutes with renaming.
* `Reduction.Alike`: two computations end with values that are not told apart, or with failures that
  are the same but for names, in one state. Some failures of the first are excused.
* `alike_reduceOperators`: the operator pass, on trees that are the same but for names.
* `Runs.unique`: a run of the operator pass comes to one result.
* `normalize_unnamed`: names are irrelevant.
* `normalize_of_inlining`: what a provider that can inline constants comes to.

The operator pass is gone through once, for two trees, two providers and two budgets at a time.
-/

namespace QueryNormal

open QueryNormal.Expr Reduction

/-! ## The grouped-join pass -/

/-- What a pass has come to, with the names mapped. -/
def renameOutcome {α β : Type} (g : String → String) (q : α → β) :
    Except Failure α → Except Failure β
  | .ok a => .ok (q a)
  | .error f => .error (f.rename g)

section GroupedJoins

variable (g : String → String)

theorem renameOutcome_bind {α β γ δ : Type} {q : α → γ} {r : β → δ} {x : Except Failure α}
    {y : Except Failure γ} {k : α → Except Failure β} {l : γ → Except Failure δ}
    (hx : y = renameOutcome g q x) (hk : ∀ a, l (q a) = renameOutcome g r (k a)) :
    (y >>= l) = renameOutcome g r (x >>= k) := by
  subst hx
  cases x with
  | ok a => exact hk a
  | error f => rfl

theorem renameOutcome_map {α β γ δ : Type} {q : α → γ} {r : β → δ} {x : Except Failure α}
    {y : Except Failure γ} {k : α → β} {l : γ → δ} (hx : y = renameOutcome g q x)
    (hk : ∀ a, l (q a) = r (k a)) :
    (y >>= fun c => pure (l c)) = renameOutcome g r (x >>= fun a => pure (k a)) :=
  renameOutcome_bind g hx fun a => congrArg Except.ok (hk a)

theorem renameOutcome_of_map {α β : Type} {q : α → β} {a b : Except Failure α}
    (h : a.map q = b.map q) : renameOutcome g q a = renameOutcome g q b := by
  cases a <;> cases b <;> simp_all [renameOutcome, Except.map]

theorem both_rename (lhs rhs : Expr) :
    (lhs.both rhs).rename g = (lhs.rename g).both (rhs.rename g) := by
  simp [Expr.both]

theorem notNull_rename (e : Expr) : e.notNull.rename g = (e.rename g).notNull := by
  simp [Expr.notNull, Expr.null]

theorem equals_rename (lhs rhs : Expr) :
    (lhs.equals rhs).rename g = (lhs.rename g).equals (rhs.rename g) := by
  simp [Expr.equals]

theorem allOf_rename (first : Expr) (rest : List Expr) :
    (allOf first rest).rename g = allOf (first.rename g) (rest.map (rename g)) := by
  unfold allOf
  rw [List.foldl_map]
  exact (List.foldl_hom (rename g) fun x y => (both_rename g x y).symm).symm

theorem keysMatch_rename (outer inner : Expr) :
    (keysMatch outer inner).rename g = keysMatch (outer.rename g) (inner.rename g) := by
  have hsimple : (Expr.both outer.notNull (outer.equals inner)).rename g =
      Expr.both (outer.rename g).notNull ((outer.rename g).equals (inner.rename g)) := by
    rw [both_rename, notNull_rename, equals_rename]
  cases outer with
  | new type args names =>
    cases inner with
    | new type' args' names' =>
      rw [rename_new, rename_new] at hsimple ⊢
      rcases args with _ | ⟨o, os⟩ <;> rcases args' with _ | ⟨i, is⟩
      · exact hsimple
      · exact hsimple
      · exact hsimple
      · simp only [keysMatch, List.map_cons, List.length_map]
        split
        · simp only [both_rename, allOf_rename, notNull_rename, equals_rename, List.map_map,
            List.map_zipWith, List.zipWith_map, Function.comp_def]
        · exact hsimple
    | _ => simpa [keysMatch] using hsimple
  | _ => simpa [keysMatch] using hsimple

theorem asQuery_rename (e : Expr) : (asQuery e).rename g = asQuery (e.rename g) := by
  unfold asQuery
  rw [ty_rename]
  split
  · split
    · rfl
    · rw [asQueryable_rename]
  · rfl

theorem groupedSelector_rename (type : Ty) (body : Expr) :
    (groupedSelector type body).rename g = groupedSelector type (body.rename g) := by
  unfold groupedSelector
  split
  · simp
  · rfl

theorem requireLambda_rename (e : Expr) :
    requireLambda (e.rename g) =
      ((requireLambda e).map (Lambda.rename g)).mapError (Misuse.rename g) := by
  unfold requireLambda
  rw [lambda?_rename, unquote_rename]
  cases e.lambda? <;> rfl

/-- A projection with the names mapped. -/
def renameProjection (p : Method × Expr × Expr) : Method × Expr × Expr :=
  (p.1, p.2.1.rename g, p.2.2.rename g)

theorem correlate_rename (m : Method) (args : List Expr) :
    correlate m (args.map (rename g)) =
      ((correlate m args).map (renameProjection g)).mapError (Misuse.rename g) := by
  unfold correlate
  rcases args with _ | ⟨outer, _ | ⟨inner, _ | ⟨ok, _ | ⟨ik, _ | ⟨res, _ | ⟨_, _⟩⟩⟩⟩⟩⟩ <;>
    rcases m.typeArgs with _ | ⟨_, _ | ⟨_, _ | ⟨_, _ | ⟨_, _ | ⟨_, _⟩⟩⟩⟩⟩ <;> try rfl
  simp only [List.map_cons, List.map_nil, requireLambda_rename]
  rcases requireLambda ok with _ | ⟨_ | ⟨key, _ | ⟨_, _⟩⟩, outerKey⟩
  · rfl
  all_goals rcases requireLambda ik with _ | ⟨keys, innerKey⟩ <;> try rfl
  all_goals rcases requireLambda res with _ | ⟨_ | ⟨element, _ | ⟨group, _ | ⟨_, _⟩⟩⟩, body⟩ <;> try rfl
  · simp [bind, Except.bind, pure, Except.pure, Except.map, Except.mapError, Lambda.rename,
      renameProjection, Param.rename, Lambda.quoted, Lambda.toExpr, groupedSelector_rename,
      ← replace_rename, asQuery_rename, keysMatch_rename]
  all_goals simp [bind, Except.bind, Except.map, Except.mapError, Lambda.rename, Misuse.rename]

section Pass

variable {again : Expr → Except Failure Expr}

theorem ungroupList_rename : ∀ {es : List Expr},
    (∀ x ∈ es, (x.rename g).ungroup again = renameOutcome g (rename g) (x.ungroup again)) →
      ungroupList again (es.map (rename g)) =
        renameOutcome g (List.map (rename g)) (ungroupList again es)
  | [], _ => rfl
  | e :: es, h => by
    rw [List.map_cons, ungroupList, ungroupList]
    refine renameOutcome_bind g (h e (by simp)) fun x => ?_
    exact renameOutcome_map g (ungroupList_rename fun y hy => h y (by simp [hy])) fun _ => rfl

theorem ungroupOption_rename {r : Option Expr}
    (h : ∀ x ∈ r, (x.rename g).ungroup again = renameOutcome g (rename g) (x.ungroup again)) :
    ungroupOption again (r.map (rename g)) =
      renameOutcome g (Option.map (rename g)) (ungroupOption again r) := by
  cases r with
  | none => rfl
  | some x =>
    rw [Option.map_some, ungroupOption, ungroupOption]
    exact renameOutcome_bind g (h x rfl) fun _ => rfl

theorem ungroupBindings_rename : ∀ {bs : List Binding},
    (∀ x ∈ bs.flatMap Binding.values,
      (x.rename g).ungroup again = renameOutcome g (rename g) (x.ungroup again)) →
      ungroupBindings again (bs.map (Binding.rename g)) =
        renameOutcome g (List.map (Binding.rename g)) (ungroupBindings again bs)
  | [], _ => rfl
  | .assign name value :: bs, h => by
    rw [List.map_cons, Binding.rename, ungroupBindings, ungroupBindings]
    refine renameOutcome_bind g (h value (by simp [Binding.values])) fun x => ?_
    exact renameOutcome_bind g
      (ungroupBindings_rename fun y hy => h y (List.mem_append_right _ hy)) fun _ => rfl
  | .items name values :: bs, h => by
    rw [List.map_cons, Binding.rename, ungroupBindings, ungroupBindings]
    refine renameOutcome_bind g (ungroupList_rename g fun y hy => h y (List.mem_append_left _ hy))
      fun x => ?_
    exact renameOutcome_bind g
      (ungroupBindings_rename fun y hy => h y (List.mem_append_right _ hy)) fun _ => rfl

theorem ungroup_rename (hagain : ∀ x, again (x.rename g) = renameOutcome g (rename g) (again x))
    (e : Expr) : (e.rename g).ungroup again = renameOutcome g (rename g) (e.ungroup again) := by
  induction e using induction_parts with
  | _ e ih =>
    cases e with
    | call m r args =>
      rw [rename_call, Expr.ungroup.eq_def, Expr.ungroup.eq_def _ (call m r args)]
      dsimp only
      split
      · rw [correlate_rename]
        rcases correlate m args with cause | ⟨select, outer, selector⟩
        · rfl
        · refine renameOutcome_bind g (hagain outer) fun outer' => ?_
          exact renameOutcome_map g (hagain selector) fun _ => by simp
      · refine renameOutcome_bind g
          (ungroupOption_rename g fun x hx => ih x (by simp_all [parts])) fun r' => ?_
        exact renameOutcome_map g (ungroupList_rename g fun x hx => ih x (by simp [parts, hx]))
          fun _ => by simp
    | lambda params body | quote body | unary op body =>
      simp only [rename_lambda, rename_quote, rename_unary, ungroup]
      exact renameOutcome_map g (ih body (by simp [parts])) fun _ => by simp
    | member target m =>
      rw [rename_member, ungroup, ungroup]
      exact renameOutcome_map g (ungroupOption_rename g fun x hx => ih x (by simp_all [parts]))
        fun _ => by simp
    | binary op lhs rhs =>
      rw [rename_binary, ungroup, ungroup]
      refine renameOutcome_bind g (ih lhs (by simp [parts])) fun _ => ?_
      exact renameOutcome_map g (ih rhs (by simp [parts])) fun _ => by simp
    | new type args names =>
      rw [rename_new, ungroup, ungroup]
      exact renameOutcome_map g (ungroupList_rename g ih) fun _ => by simp
    | newWith type args names bindings =>
      rw [rename_newWith, ungroup, ungroup]
      refine renameOutcome_bind g
        (ungroupList_rename g fun x hx => ih x (List.mem_append_left _ hx)) fun _ => ?_
      exact renameOutcome_map g
        (ungroupBindings_rename g fun x hx => ih x (List.mem_append_right _ hx)) fun _ => by simp
    | cond test a b =>
      rw [rename_cond, ungroup, ungroup]
      refine renameOutcome_bind g (ih test (by simp [parts])) fun _ => ?_
      refine renameOutcome_bind g (ih a (by simp [parts])) fun _ => ?_
      exact renameOutcome_map g (ih b (by simp [parts])) fun _ => by simp
    | param | const | placeholder => simp [ungroup, renameOutcome, pure, Except.pure]

end Pass

theorem reduceGroupJoins_rename (budget : Nat) (e : Expr) :
    reduceGroupJoins budget (e.rename g) =
      renameOutcome g (rename g) (reduceGroupJoins budget e) := by
  induction budget generalizing e with
  | zero => rfl
  | succ budget ih => exact ungroup_rename g ih e

theorem finishGroupJoins_rename (e : Expr) :
    finishGroupJoins (e.rename g) = renameOutcome g (rename g) (finishGroupJoins e) := by
  unfold finishGroupJoins Expr.budget
  rw [hasCallTo_rename, size_rename]
  split
  · exact reduceGroupJoins_rename g _ e
  · rfl

end GroupedJoins

/-! ## Computations that end alike -/

namespace Reduction

/-- Begun in one state, the computations end in one state, both with values that are equal as far as
`q` tells, or both with failures that are the same but for names. The first may instead end with a
failure that is excused. -/
def Alike {α β : Type} (g : String → String) (excused : Failure → Prop) (q : α → β)
    (x y : Reduction α) : Prop :=
  ∀ s, (∃ f t, Fails x s f t ∧ excused f) ∨
    (∃ a b t, Yields x s a t ∧ Yields y s b t ∧ q a = q b) ∨
      ∃ f f' t, Fails x s f t ∧ Fails y s f' t ∧ f.rename g = f'.rename g

section Alike

variable {α β γ δ : Type} {g : String → String} {excused : Failure → Prop} {q : α → γ} {r : β → δ}
  {x y : Reduction α} {k l : α → Reduction β}

theorem alike_pure {a b : α} (h : q a = q b) : Alike g excused q (pure a) (pure b) := fun s =>
  .inr (.inl ⟨a, b, s, yields_pure.mpr ⟨rfl, rfl⟩, yields_pure.mpr ⟨rfl, rfl⟩, h⟩)

theorem alike_fail {f f' : Failure} (h : f.rename g = f'.rename g) :
    Alike g excused q (fail f) (fail f') := fun s =>
  .inr (.inr ⟨f, f', s, fails_fail.mpr ⟨rfl, rfl⟩, fails_fail.mpr ⟨rfl, rfl⟩, h⟩)

theorem alike_misuse {cause cause' : Misuse} (h : cause.rename g = cause'.rename g) :
    Alike g excused q (misuse cause) (misuse cause') :=
  alike_fail (congrArg (fun cause => Failure.problem (.misuse cause)) h)

theorem alike_of_excused {f : Failure} (h : excused f) : Alike g excused q (fail f) y := fun s =>
  .inl ⟨f, s, fails_fail.mpr ⟨rfl, rfl⟩, h⟩

theorem alike_ofExcept {a b : Except Failure α} (h : renameOutcome g q a = renameOutcome g q b) :
    Alike g excused q (ofExcept a) (ofExcept b) := by
  cases a with
  | ok a =>
    cases b with
    | ok b => exact alike_pure (Except.ok.inj h)
    | error f => cases h
  | error f =>
    cases b with
    | ok b => cases h
    | error f' => exact alike_fail (Except.error.inj h)

theorem alike_perform (effect : Effect) :
    Alike g excused (fun u => u) (perform effect) (perform effect) := fun _ =>
  .inr (.inl ⟨(), (), _, yields_perform.mpr rfl, yields_perform.mpr rfl, rfl⟩)

/-- The names of fresh parameters are not told apart, if those asked for are not. -/
theorem alike_fresh {name name' : String} (ty : Ty) (h : g name = g name') :
    Alike g excused (Param.rename g) (fresh name ty) (fresh name' ty) := fun _ =>
  .inr (.inl ⟨_, _, _, yields_fresh.mpr ⟨rfl, rfl⟩, yields_fresh.mpr ⟨rfl, rfl⟩, by
    simp [Param.rename, h]⟩)

/-- Computations that go on alike from values that are not told apart end alike. -/
theorem Alike.bind (hx : Alike g excused q x y)
    (hk : ∀ a b, q a = q b → Alike g excused r (k a) (l b)) :
    Alike g excused r (x >>= k) (y >>= l) := by
  intro s
  rcases hx s with ⟨f, t, hfails, hf⟩ | ⟨a, b, t, ha, hb, hab⟩ | ⟨f, f', t, hfails, hfails', hf⟩
  · exact .inl ⟨f, t, hfails.bind, hf⟩
  · rcases hk a b hab t with
      ⟨f, u, hfails, hf⟩ | ⟨c, d, u, hc, hd, hcd⟩ | ⟨f, f', u, hfails, hfails', hf⟩
    · exact .inl ⟨f, u, fails_bind.mpr (.inr ⟨a, t, ha, hfails⟩), hf⟩
    · exact .inr (.inl ⟨c, d, u, yields_bind.mpr ⟨a, t, ha, hc⟩, yields_bind.mpr ⟨b, t, hb, hd⟩, hcd⟩)
    · exact .inr (.inr ⟨f, f', u, fails_bind.mpr (.inr ⟨a, t, ha, hfails⟩),
        fails_bind.mpr (.inr ⟨b, t, hb, hfails'⟩), hf⟩)
  · exact .inr (.inr ⟨f, f', t, hfails.bind, hfails'.bind, hf⟩)

theorem Alike.map {c d : α → β} (hx : Alike g excused q x y)
    (h : ∀ a b, q a = q b → r (c a) = r (d b)) :
    Alike g excused r (x >>= fun a => pure (c a)) (y >>= fun b => pure (d b)) :=
  hx.bind fun a b hab => alike_pure (h a b hab)

end Alike

end Reduction

/-! ## The operator pass -/

/-- Two nodes that are the same but for names. -/
inductive SameNode (g : String → String) : Expr → Expr → Prop
  | call {m : Method} {r r' : Option Expr} {args args' : List Expr} :
      r.map (rename g) = r'.map (rename g) → args.map (rename g) = args'.map (rename g) →
      SameNode g (.call m r args) (.call m r' args')
  | lambda {params params' : List Param} {body body' : Expr} :
      params.map (Param.rename g) = params'.map (Param.rename g) → body.rename g = body'.rename g →
      SameNode g (.lambda params body) (.lambda params' body')
  | quote {e e' : Expr} : e.rename g = e'.rename g → SameNode g (.quote e) (.quote e')
  | param {p p' : Param} : p.rename g = p'.rename g → SameNode g (.param p) (.param p')
  | member {target target' : Option Expr} {m : Member} :
      target.map (rename g) = target'.map (rename g) →
      SameNode g (.member target m) (.member target' m)
  | binary {op : BinOp} {lhs lhs' rhs rhs' : Expr} : lhs.rename g = lhs'.rename g →
      rhs.rename g = rhs'.rename g → SameNode g (.binary op lhs rhs) (.binary op lhs' rhs')
  | unary {op : UnOp} {e e' : Expr} : e.rename g = e'.rename g → SameNode g (.unary op e) (.unary op e')
  | const {value : Literal} {type : Ty} : SameNode g (.const value type) (.const value type)
  | new {type : Ty} {args args' : List Expr} {names : Option (List String)} :
      args.map (rename g) = args'.map (rename g) →
      SameNode g (.new type args names) (.new type args' names)
  | newWith {type : Ty} {args args' : List Expr} {names : Option (List String)}
      {bindings bindings' : List Binding} : args.map (rename g) = args'.map (rename g) →
      bindings.map (Binding.rename g) = bindings'.map (Binding.rename g) →
      SameNode g (.newWith type args names bindings) (.newWith type args' names bindings')
  | cond {test test' a a' b b' : Expr} : test.rename g = test'.rename g →
      a.rename g = a'.rename g → b.rename g = b'.rename g →
      SameNode g (.cond test a b) (.cond test' a' b')
  | placeholder {p : Placeholder} : SameNode g (.placeholder p) (.placeholder p)

theorem sameNode_of_rename {g : String → String} {e e' : Expr} (h : e.rename g = e'.rename g) :
    SameNode g e e' := by
  cases e <;> cases e' <;> simp at h
  case call.call => exact h.1 ▸ .call h.2.1 h.2.2
  case lambda.lambda => exact .lambda h.1 h.2
  case quote.quote => exact .quote h
  case param.param => exact .param h
  case member.member => exact h.2 ▸ .member h.1
  case binary.binary => exact h.1 ▸ .binary h.2.1 h.2.2
  case unary.unary => exact h.1 ▸ .unary h.2
  case const.const => exact h.1 ▸ h.2 ▸ .const
  case new.new => exact h.1 ▸ h.2.2 ▸ .new h.2.1
  case newWith.newWith => exact h.1 ▸ h.2.2.1 ▸ .newWith h.2.1 h.2.2.2
  case cond.cond => exact .cond h.1 h.2.1 h.2.2
  case placeholder.placeholder => exact h ▸ .placeholder

section Visit

variable {g : String → String} {excused : Failure → Prop} {provider provider' : Provider}
  {again again' : Expr → Reduction Expr} {e e' : Expr} {c c' : Call} {m : Method}
  {r r' : Option Expr} {args args' : List Expr}

/-- The first visit of the tree ends like the second of any tree that is the same but for names. -/
def AlikeAt (g : String → String) (excused : Failure → Prop) (visit visit' : Expr → Reduction Expr)
    (x : Expr) : Prop :=
  ∀ ⦃y⦄, x.rename g = y.rename g → Alike g excused (rename g) (visit x) (visit' y)

theorem alike_reduceList : ∀ {es es' : List Expr}, es.map (rename g) = es'.map (rename g) →
    (∀ x ∈ es, AlikeAt g excused (reduce provider again) (reduce provider' again') x) →
      Alike g excused (List.map (rename g)) (reduceList provider again es)
        (reduceList provider' again' es')
  | [], [], _, _ => alike_pure rfl
  | x :: es, y :: es', h, hparts => by
    obtain ⟨hx, hes⟩ := List.cons.inj h
    rw [reduceList, reduceList]
    refine (hparts x (by simp) hx).bind fun a b hab => ?_
    refine (alike_reduceList hes fun z hz => hparts z (by simp [hz])).map fun as bs has => ?_
    rw [List.map_cons, List.map_cons, hab, has]

theorem alike_reduceOption (h : r.map (rename g) = r'.map (rename g))
    (hparts : ∀ x ∈ r, AlikeAt g excused (reduce provider again) (reduce provider' again') x) :
    Alike g excused (Option.map (rename g)) (reduceOption provider again r)
      (reduceOption provider' again' r') := by
  rcases r with _ | x <;> rcases r' with _ | y
  · exact alike_pure rfl
  · cases h
  · cases h
  · exact (hparts x rfl (Option.some.inj h)).map fun a b hab => congrArg some hab

theorem alike_reduceBindings : ∀ {bs bs' : List Binding},
    bs.map (Binding.rename g) = bs'.map (Binding.rename g) →
    (∀ x ∈ bs.flatMap Binding.values,
      AlikeAt g excused (reduce provider again) (reduce provider' again') x) →
      Alike g excused (List.map (Binding.rename g)) (reduceBindings provider again bs)
        (reduceBindings provider' again' bs')
  | [], [], _, _ => alike_pure rfl
  | .assign name value :: bs, .assign name' value' :: bs', h, hparts => by
    obtain ⟨hb, hbs⟩ := List.cons.inj h
    simp only [Binding.rename, Binding.assign.injEq] at hb
    rw [reduceBindings, reduceBindings]
    refine (hparts value (by simp [Binding.values]) hb.2).bind fun a b hab => ?_
    refine (alike_reduceBindings hbs fun z hz => hparts z (List.mem_append_right _ hz)).map
      fun as bs has => ?_
    rw [List.map_cons, List.map_cons, Binding.rename, Binding.rename, hb.1, hab, has]
  | .items name values :: bs, .items name' values' :: bs', h, hparts => by
    obtain ⟨hb, hbs⟩ := List.cons.inj h
    simp only [Binding.rename, Binding.items.injEq] at hb
    rw [reduceBindings, reduceBindings]
    refine (alike_reduceList hb.2 fun z hz => hparts z (List.mem_append_left _ hz)).bind
      fun a b hab => ?_
    refine (alike_reduceBindings hbs fun z hz => hparts z (List.mem_append_right _ hz)).map
      fun as bs has => ?_
    rw [List.map_cons, List.map_cons, Binding.rename, Binding.rename, hb.1, hab, has]
  | .assign name value :: bs, .items name' values' :: bs', h, _ => by
    simp [Binding.rename] at h
  | .items name values :: bs, .assign name' value' :: bs', h, _ => by
    simp [Binding.rename] at h

/-! ### Settling a call -/

theorem alike_orderByItself (h : c.rename g = c'.rename g) :
    Alike g excused (Call.rename g) (orderByItself c) (orderByItself c') := by
  obtain ⟨m, r, args⟩ := c
  obtain ⟨m', r', args'⟩ := c'
  obtain ⟨rfl, -, hargs⟩ := Call.mk.inj h
  unfold orderByItself
  dsimp only at hargs ⊢
  rcases keyedOrdering? m with _ | ordering
  · exact alike_pure h
  · rcases m.typeArgs with _ | ⟨element, rest⟩
    · exact alike_misuse rfl
    · rcases args with _ | ⟨source, _ | ⟨a, as⟩⟩ <;> rcases args' with _ | ⟨source', _ | ⟨b, bs⟩⟩ <;>
        simp only [List.map_nil, List.map_cons, List.cons.injEq, reduceCtorEq, and_true, and_false]
          at hargs
      · exact alike_misuse rfl
      · refine (alike_fresh element rfl).map fun p p' hp => ?_
        simp [Call.rename, Lambda.quoted, Lambda.toExpr, hargs, hp]
      · exact alike_misuse rfl

theorem alike_flatten (hagain : ∀ x, AlikeAt g excused again again' x)
    (h : c.rename g = c'.rename g) :
    Alike g excused (rename g) (flatten again c) (flatten again' c') := by
  have hflat : (Flattening.of? c).map (Flattening.rename g) =
      (Flattening.of? c').map (Flattening.rename g) := by
    rw [← flattening_rename, h, flattening_rename]
  have hcall : c.toExpr.rename g = c'.toExpr.rename g := by
    obtain ⟨hm, hr, hargs⟩ := Call.mk.inj h
    rw [Call.toExpr, Call.toExpr, rename_call, rename_call, hm, hr, hargs]
  unfold flatten
  revert hflat
  rcases Flattening.of? c with _ | ⟨join, left, inner, result⟩ | ⟨join, left, inner, outer, element⟩ <;>
    rcases Flattening.of? c' with
      _ | ⟨join', left', inner', result'⟩ | ⟨join', left', inner', outer', element'⟩ <;>
    intro hflat <;>
    simp only [Option.map_none, Option.map_some, reduceCtorEq, Option.some.injEq, Flattening.rename,
      Flattening.pairs.injEq, Flattening.members.injEq] at hflat
  · exact alike_pure hcall
  · obtain ⟨hjoin, rfl, hinner, hresult⟩ := hflat
    refine (hagain inner hinner).map fun a b hab => ?_
    rw [flat_rename, flat_rename, hjoin, ← unwrapQueryable_rename, ← unwrapQueryable_rename, hab,
      hresult]
  · obtain ⟨hjoin, rfl, hinner, houter, helement⟩ := hflat
    refine (hagain inner hinner).bind fun a b hab => ?_
    obtain ⟨-, hname, hty⟩ := Param.mk.inj helement
    rw [← hty]
    refine (alike_fresh element.ty hname).map fun p p' hp => ?_
    rw [flat_rename, flat_rename, hjoin, hab]
    simp [Lambda.rename, houter, hp]

theorem alike_settle (hagain : ∀ x, AlikeAt g excused again again' x) (h : c.rename g = c'.rename g) :
    Alike g excused (rename g) (settle again c) (settle again' c') := by
  obtain ⟨m, r, args⟩ := c
  obtain ⟨m', r', args'⟩ := c'
  obtain ⟨rfl, hr, hargs⟩ := Call.mk.inj h
  unfold settle Call.isGenericQuery
  split
  · exact (alike_orderByItself h).bind fun _ _ hcalls => alike_flatten hagain hcalls
  · refine alike_pure ?_
    rw [Call.toExpr, Call.toExpr, rename_call, rename_call, hr, hargs]

theorem alike_convertCall (hagain : ∀ x, AlikeAt g excused again again' x)
    (h : args.map (rename g) = args'.map (rename g)) :
    Alike g excused (Option.map (rename g)) (convertCall again m args) (convertCall again' m args') := by
  have hfound : (toQueryable m args).map (Option.map (Prod.map id (List.map (rename g)))) =
      (toQueryable m args').map (Option.map (Prod.map id (List.map (rename g)))) := by
    rw [← toQueryable_rename, h, toQueryable_rename]
  unfold convertCall
  refine (alike_ofExcept (renameOutcome_of_map g hfound)).bind fun found found' hsame => ?_
  rcases found with _ | ⟨m₁, args₁⟩ <;> rcases found' with _ | ⟨m₂, args₂⟩
  · exact alike_pure rfl
  · cases hsame
  · cases hsame
  · obtain ⟨hm, hargs⟩ := Prod.mk.inj (Option.some.inj hsame)
    refine (alike_settle hagain ?_).map fun a b hab => congrArg some hab
    rw [Call.rename, Call.rename, show m₁ = m₂ from hm, hargs]

theorem alike_perform_note {n : Note} (h : args.map (rename g) = args'.map (rename g)) :
    Alike g excused (fun u => u) (n.perform m args) (n.perform m args') := by
  have heffect : (n.effect m args).mapError (Misuse.rename g) =
      (n.effect m args').mapError (Misuse.rename g) := by
    rw [← effect_rename, h, effect_rename]
  unfold Note.perform
  revert heffect
  rcases n.effect m args with cause | effect <;> rcases n.effect m args' with cause' | effect' <;>
    intro heffect
  · exact alike_misuse (Except.error.inj heffect)
  · cases heffect
  · cases heffect
  · exact Except.ok.inj heffect ▸ alike_perform effect

theorem alike_checkSelect (h : args.map (rename g) = args'.map (rename g)) :
    Alike g excused (fun u => u) (checkSelect m args) (checkSelect m args') := by
  have hselector : (args[1]?.bind lambda?).map (Lambda.rename g) =
      (args'[1]?.bind lambda?).map (Lambda.rename g) := by
    rw [← second_rename, h, second_rename]
  unfold checkSelect
  split
  · revert hselector
    rcases args[1]?.bind lambda? with _ | ⟨_ | ⟨p, _ | ⟨q, ps⟩⟩, body⟩ <;>
      rcases args'[1]?.bind lambda? with _ | ⟨_ | ⟨p', _ | ⟨q', ps'⟩⟩, body'⟩ <;>
      intro hselector <;> simp [Lambda.rename] at hselector <;> try exact alike_pure rfl
    have hcheck : (checkProjection p body).mapError (Problem.rename g) =
        (checkProjection p' body').mapError (Problem.rename g) := by
      rw [← checkProjection_rename, hselector.1, hselector.2, checkProjection_rename]
    revert hcheck
    dsimp only
    rcases checkProjection p body with problem | u <;>
      rcases checkProjection p' body' with problem' | u' <;> intro hcheck
    · exact alike_fail (congrArg Failure.problem (Except.error.inj hcheck))
    · cases hcheck
    · cases hcheck
    · exact alike_pure rfl
  · exact alike_pure rfl

/-! ### Calls, rule by rule -/

theorem alike_reduceArgs (hargs : args.map (rename g) = args'.map (rename g))
    (hparts : ∀ x ∈ (call m r args).parts,
      AlikeAt g excused (reduce provider again) (reduce provider' again') x) :
    Alike g excused (List.map (rename g)) (reduceList provider again args)
      (reduceList provider' again' args') :=
  alike_reduceList hargs fun x hx => hparts x (by simp [parts, hx])

theorem alike_reduceReceiver (hr : r.map (rename g) = r'.map (rename g))
    (hparts : ∀ x ∈ (call m r args).parts,
      AlikeAt g excused (reduce provider again) (reduce provider' again') x) :
    Alike g excused (Option.map (rename g)) (reduceOption provider again r)
      (reduceOption provider' again' r') :=
  alike_reduceOption hr fun x hx => hparts x (by simp_all [parts])

section Rules

variable (hr : r.map (rename g) = r'.map (rename g))
  (hargs : args.map (rename g) = args'.map (rename g))
  (hparts : ∀ x ∈ (call m r args).parts,
    AlikeAt g excused (reduce provider again) (reduce provider' again') x)
include hr hargs

/-- Which rule applies does not depend on names. -/
theorem rule_of_same {rule : Rule} (hrule : Rule.of m r args = rule) : Rule.of m r' args' = rule := by
  rw [← hrule, ← rule_rename g m r, hr, hargs, rule_rename]

include hparts

theorem alike_note {n : Note} (hrule : Rule.of m r args = .note n) :
    Alike g excused (rename g) ((call m r args).reduce provider again)
      ((call m r' args').reduce provider' again') := by
  rw [Expr.reduce.eq_def, Expr.reduce.eq_def provider']
  simp only [hrule, rule_of_same hr hargs hrule]
  rcases args with _ | ⟨source, rest⟩ <;> rcases args' with _ | ⟨source', rest'⟩
  · exact alike_misuse rfl
  · cases hargs
  · cases hargs
  · obtain ⟨hsource, hrest⟩ := List.cons.inj hargs
    refine (hparts source (by simp [parts]) hsource).bind fun a b hab => ?_
    exact (alike_perform_note hrest).map fun _ _ _ => hab

theorem alike_hint {mode : Mode} (hrule : Rule.of m r args = .hint mode)
    (hmode : mode.supportedBy provider = mode.supportedBy provider' ∨
      mode.supportedBy provider = false ∧ excused (.problem .constantsUnsupported)) :
    Alike g excused (rename g) ((call m r args).reduce provider again)
      ((call m r' args').reduce provider' again') := by
  rw [Expr.reduce.eq_def, Expr.reduce.eq_def provider']
  simp only [hrule, rule_of_same hr hargs hrule]
  rcases hmode with hmode | ⟨hmode, hexcused⟩
  · rw [← hmode]
    split
    · rcases args with _ | ⟨argument, rest⟩ <;> rcases args' with _ | ⟨argument', rest'⟩
      · exact alike_misuse rfl
      · cases hargs
      · cases hargs
      · refine (hparts argument (by simp [parts]) (List.cons.inj hargs).1).bind fun a b hab => ?_
        have hmark : ((mode.mark m a).map (rename g)).mapError (Misuse.rename g) =
            ((mode.mark m b).map (rename g)).mapError (Misuse.rename g) := by
          rw [← mark_rename, hab, mark_rename]
        revert hmark
        rcases mode.mark m a with cause | e <;> rcases mode.mark m b with cause' | e' <;> intro hmark
        · exact alike_misuse (Except.error.inj hmark)
        · cases hmark
        · cases hmark
        · exact alike_pure (Except.ok.inj hmark)
    · exact alike_fail rfl
  · rw [hmode]
    exact alike_of_excused hexcused

theorem alike_index {element : Ty} (hrule : Rule.of m r args = .index element) :
    Alike g excused (rename g) ((call m r args).reduce provider again)
      ((call m r' args').reduce provider' again') := by
  have hrule' := rule_of_same hr hargs hrule
  obtain ⟨target, position, rfl, rfl⟩ := exists_of_index hrule
  obtain ⟨target', position', rfl, rfl⟩ := exists_of_index hrule'
  obtain ⟨hposition, -⟩ := List.cons.inj hargs
  rw [reduce_index hrule, reduce_index hrule']
  refine (hparts target (by simp [parts]) (Option.some.inj hr)).bind fun a b hab => ?_
  refine (hparts position (by simp [parts]) hposition).map fun c d hcd => ?_
  rw [elementRead_rename, elementRead_rename, Option.some.inj hr, hab, hcd]

theorem alike_inMemory (hagain : ∀ x, AlikeAt g excused again again' x)
    (hrule : Rule.of m r args = .inMemory) :
    Alike g excused (rename g) ((call m r args).reduce provider again)
      ((call m r' args').reduce provider' again') := by
  have hreceiver := alike_reduceReceiver hr hparts
  have hlist := alike_reduceArgs hargs hparts
  have hstays : staysInMemory m args' = staysInMemory m args := by
    rw [← staysInMemory_rename g, ← hargs, staysInMemory_rename]
  rw [Expr.reduce.eq_def, Expr.reduce.eq_def provider']
  simp only [hrule, rule_of_same hr hargs hrule, hstays]
  split
  · refine hreceiver.bind fun a b hab => hlist.map fun as bs has => ?_
    rw [rename_call, rename_call, hab, has]
  · refine hlist.bind fun as bs has => (alike_convertCall hagain has).bind fun found found' h => ?_
    rcases found with _ | e <;> rcases found' with _ | e'
    · refine hreceiver.map fun a b hab => ?_
      rw [rename_call, rename_call, hab, has]
    · cases h
    · cases h
    · exact alike_pure (Option.some.inj h)

theorem alike_membership {element : Ty} (hrule : Rule.of m r args = .membership element) :
    Alike g excused (rename g) ((call m r args).reduce provider again)
      ((call m r' args').reduce provider' again') := by
  have hlist := alike_reduceArgs hargs hparts
  rw [Expr.reduce.eq_def, Expr.reduce.eq_def provider']
  simp only [hrule, rule_of_same hr hargs hrule]
  rcases r with _ | collection <;> rcases r' with _ | collection'
  · exact alike_misuse rfl
  · cases hr
  · cases hr
  · have hcollection : collection.rename g = collection'.rename g := Option.some.inj hr
    have hconstruction : collection'.isConstruction = collection.isConstruction := by
      rw [← isConstruction_rename g, ← hcollection, isConstruction_rename]
    have hrun := hparts collection (by simp [parts]) hcollection
    simp only [hconstruction]
    split
    · refine hrun.bind fun a b hab => hlist.map fun as bs has => ?_
      simp [hab, has]
    · rcases args with _ | ⟨item, _ | ⟨x, xs⟩⟩ <;> rcases args' with _ | ⟨item', _ | ⟨y, ys⟩⟩ <;>
        simp at hargs
      · exact alike_misuse rfl
      · refine hrun.bind fun a b hab => ?_
        refine (hparts item (by simp [parts]) hargs).map fun c d hcd => ?_
        rw [contains_rename, contains_rename, hcollection, hab, hcd]
      · exact alike_misuse rfl

theorem alike_loading (hrule : Rule.of m r args = .loading) :
    Alike g excused (rename g) ((call m r args).reduce provider again)
      ((call m r' args').reduce provider' again') := by
  rw [Expr.reduce.eq_def, Expr.reduce.eq_def provider']
  simp only [hrule, rule_of_same hr hargs hrule]
  rcases args with _ | ⟨source, _ | ⟨selector, _ | ⟨x, xs⟩⟩⟩ <;>
    rcases args' with _ | ⟨source', _ | ⟨selector', _ | ⟨y, ys⟩⟩⟩ <;> simp at hargs
  case cons.cons.nil.cons.cons.nil =>
    obtain ⟨hsource, hselector⟩ := hargs
    refine (hparts source (by simp [parts]) hsource).bind fun a b hab => ?_
    have hnavigation : ((navigationSelector m selector).map (Lambda.rename g)).mapError
        (Misuse.rename g) = ((navigationSelector m selector').map (Lambda.rename g)).mapError
          (Misuse.rename g) := by
      rw [← navigationSelector_rename, hselector, navigationSelector_rename]
    revert hnavigation
    rcases navigationSelector m selector with cause | l <;>
      rcases navigationSelector m selector' with cause' | l' <;> intro hnavigation
    · exact alike_misuse (Except.error.inj hnavigation)
    · cases hnavigation
    · cases hnavigation
    · refine (hparts selector (by simp [parts]) hselector).bind fun normal normal' hnormal => ?_
      have hunquote : normal.unquote.rename g = normal'.unquote.rename g := by
        rw [← unquote_rename, hnormal, unquote_rename]
      revert hunquote
      generalize normal.unquote = inner
      generalize normal'.unquote = inner'
      intro hinner
      cases sameNode_of_rename hinner with
      | lambda hparams hbody =>
        rename_i params params' body body'
        have hlambda : Lambda.rename g ⟨params, body⟩ = Lambda.rename g ⟨params', body'⟩ := by
          rw [Lambda.rename, Lambda.rename, hparams, hbody]
        have hselected : (reselected selector ⟨params, body⟩).rename g =
            (reselected selector' ⟨params', body'⟩).rename g := by
          rw [reselected_rename, reselected_rename, hselector, hlambda]
        have hty : body.ty = body'.ty := by rw [← ty_rename g, hbody, ty_rename]
        refine alike_pure ?_
        simp only [rename_call, List.map_cons, List.map_nil, hr, hty, hab]
        exact congrArg (fun x => call _ _ [_, x]) hselected
      | _ => exact alike_misuse (congrArg Misuse.notALambda hinner)
  all_goals exact alike_misuse rfl

theorem alike_other (hagain : ∀ x, AlikeAt g excused again again' x)
    (hrule : Rule.of m r args = .other) :
    Alike g excused (rename g) ((call m r args).reduce provider again)
      ((call m r' args').reduce provider' again') := by
  rw [Expr.reduce.eq_def, Expr.reduce.eq_def provider']
  simp only [hrule, rule_of_same hr hargs hrule]
  refine (alike_checkSelect hargs).bind fun _ _ _ => ?_
  refine (alike_reduceReceiver hr hparts).bind fun a b hab => ?_
  refine (alike_reduceArgs hargs hparts).bind fun as bs has => alike_settle hagain ?_
  rw [Call.rename, Call.rename, hab, has]

end Rules

/-! ### Every node -/

theorem alike_plain (hplain : e.isPlain = true)
    (hparts : ∀ x ∈ e.parts, AlikeAt g excused (reduce provider again) (reduce provider' again') x) :
    AlikeAt g excused (reduce provider again) (reduce provider' again') e := by
  intro y hy
  cases sameNode_of_rename hy with
  | call | binary => cases hplain
  | lambda hparams hbody =>
    rw [reduce, reduce]
    refine (hparts _ (by simp [parts]) hbody).map fun a b hab => ?_
    rw [rename_lambda, rename_lambda, hparams, hab]
  | quote hinner =>
    rw [reduce, reduce]
    exact (hparts _ (by simp [parts]) hinner).map fun a b hab => by simp [hab]
  | unary hoperand =>
    rw [reduce, reduce]
    exact (hparts _ (by simp [parts]) hoperand).map fun a b hab => by simp [hab]
  | member htarget =>
    rw [reduce, reduce]
    refine (alike_reduceOption htarget fun x hx => hparts x (by simp_all [parts])).map fun a b hab => ?_
    rw [rename_member, rename_member, hab]
  | new hargs =>
    rw [reduce, reduce]
    exact (alike_reduceList hargs hparts).map fun a b hab => by simp [hab]
  | newWith hargs hbindings =>
    rw [reduce, reduce]
    refine (alike_reduceList hargs fun x hx => hparts x (by simp [parts, hx])).bind fun a b hab => ?_
    refine (alike_reduceBindings hbindings fun x hx => hparts x (List.mem_append_right _ hx)).map
      fun c d hcd => ?_
    rw [rename_newWith, rename_newWith, hab, hcd]
  | cond htest ha hb =>
    rw [reduce, reduce]
    refine (hparts _ (by simp [parts]) htest).bind fun _ _ h₁ => ?_
    refine (hparts _ (by simp [parts]) ha).bind fun _ _ h₂ => ?_
    exact (hparts _ (by simp [parts]) hb).map fun _ _ h₃ => by simp [h₁, h₂, h₃]
  | param | const | placeholder =>
    rw [reduce, reduce]
    exact alike_pure hy

theorem alike_nonEmpty {op : BinOp} {lhs lhs' rhs rhs' : Expr} {element : Ty}
    (hsugar : Sugar.of? op lhs rhs = some (.nonEmpty element))
    (hsugar' : Sugar.of? op lhs' rhs' = some (.nonEmpty element))
    (hlhs : lhs.rename g = lhs'.rename g)
    (hsource : ∀ x, countedSource? lhs = some x →
      AlikeAt g excused (reduce provider again) (reduce provider' again') x) :
    Alike g excused (rename g) ((binary op lhs rhs).reduce provider again)
      ((binary op lhs' rhs').reduce provider' again') := by
  cases sugarCase hsugar with
  | nonEmpty _ _ hcounted =>
    cases sugarCase hsugar' with
    | nonEmpty _ _ hcounted' =>
      -- what is counted is the same up to names, as the counts are
      have hsame := congrArg countedSource? hlhs
      rw [countedSource_rename, countedSource_rename, hcounted, hcounted'] at hsame
      rw [reduce_nonEmpty hsugar hcounted, reduce_nonEmpty hsugar' hcounted']
      refine (hsource _ hcounted (Option.some.inj hsame)).map fun a b hab => ?_
      rw [nonEmptyTest_rename, nonEmptyTest_rename, Option.some.inj hsame, hab]

theorem alike_binary {op : BinOp} {lhs rhs : Expr}
    (hl : AlikeAt g excused (reduce provider again) (reduce provider' again') lhs)
    (hr : AlikeAt g excused (reduce provider again) (reduce provider' again') rhs)
    (hsource : ∀ x, countedSource? lhs = some x →
      AlikeAt g excused (reduce provider again) (reduce provider' again') x) :
    AlikeAt g excused (reduce provider again) (reduce provider' again') (binary op lhs rhs) := by
  intro y hy
  cases sameNode_of_rename hy with
  | @binary _ _ lhs' _ rhs' hlhs hrhs =>
    have hsame : Sugar.of? op lhs' rhs' = Sugar.of? op lhs rhs := by
      rw [← sugar_rename g, ← hlhs, ← hrhs, sugar_rename]
    rcases hsugar : Sugar.of? op lhs rhs with _ | element | element
    · simp only [Expr.reduce, hsame, hsugar]
      refine (hl hlhs).bind fun a b hab => (hr hrhs).map fun c d hcd => ?_
      rw [rename_binary, rename_binary, hab, hcd]
    · simp only [Expr.reduce, hsame, hsugar, callInMemory_elementAt]
      refine (hl hlhs).bind fun a b hab => (hr hrhs).map fun c d hcd => ?_
      rw [elementRead_rename, elementRead_rename, hlhs, hab, hcd]
    · exact alike_nonEmpty hsugar (hsame.trans hsugar) hlhs hsource

variable (hmode : ∀ mode : Mode, mode.supportedBy provider = mode.supportedBy provider' ∨
  mode.supportedBy provider = false ∧ excused (.problem .constantsUnsupported))
include hmode

/-- Visits end alike, if visits of what flattening has built do. -/
theorem alike_reduce (hagain : ∀ x, AlikeAt g excused again again' x) :
    AlikeAt g excused (reduce provider again) (reduce provider' again') e := by
  induction hn : e.size using Nat.strongRecOn generalizing e with
  | _ n ih =>
    subst hn
    have hparts : ∀ x ∈ e.parts,
        AlikeAt g excused (reduce provider again) (reduce provider' again') x :=
      fun x hx => ih _ (size_lt_of_mem hx) rfl
    by_cases hplain : e.isPlain = true
    · exact alike_plain hplain hparts
    cases e with
    | call m r args =>
      intro y hy
      cases sameNode_of_rename hy with
      | call hr hargs =>
        cases hrule : Rule.of m r args with
        | note n => exact alike_note hr hargs hparts hrule
        | hint mode => exact alike_hint hr hargs hparts hrule (hmode mode)
        | index element => exact alike_index hr hargs hparts hrule
        | inMemory => exact alike_inMemory hr hargs hparts hagain hrule
        | membership element => exact alike_membership hr hargs hparts hrule
        | loading => exact alike_loading hr hargs hparts hrule
        | other => exact alike_other hr hargs hparts hagain hrule
    | binary op lhs rhs =>
      refine alike_binary (hparts lhs (by simp [parts])) (hparts rhs (by simp [parts])) ?_
      intro x hx
      have hlhs : lhs ∈ (binary op lhs rhs).parts := by simp [parts]
      exact ih _ (Nat.lt_trans (size_of_counted hx) (size_lt_of_mem hlhs)) rfl
    | _ => exact absurd rfl hplain

/-- **The operator pass ends alike** on trees that are the same but for names. The first may have less
budget, if it is excused for using it up. -/
theorem alike_reduceOperators {budget budget' : Nat}
    (hbudget : budget = budget' ∨ budget ≤ budget' ∧ excused .exhausted) (e : Expr) :
    AlikeAt g excused (reduceOperators provider budget) (reduceOperators provider' budget') e := by
  induction budget generalizing budget' e with
  | zero =>
    intro y _
    rcases hbudget with rfl | ⟨-, hexcused⟩
    · exact alike_fail rfl
    · exact alike_of_excused hexcused
  | succ budget ih =>
    obtain ⟨rest, rfl⟩ : ∃ rest, budget' = rest + 1 := Nat.exists_eq_succ_of_ne_zero (by omega)
    exact alike_reduce hmode (ih (hbudget.imp (by omega) fun h => ⟨by omega, h.2⟩))

theorem alike_reduceQuery (h : e.rename g = e'.rename g) :
    Alike g excused (rename g) (reduceQuery provider e) (reduceQuery provider' e') := by
  have hbudget : e.budget = e'.budget := by
    rw [Expr.budget, Expr.budget, ← size_rename g e, h, size_rename]
  refine (alike_reduceOperators hmode (.inl hbudget) e h).bind fun a b hab => alike_ofExcept ?_
  rw [← finishGroupJoins_rename, hab, finishGroupJoins_rename]

end Visit

/-! ## Runs -/

section Runs

variable {provider : Provider} {e a b : Expr} {s t u : ReductionState}

/-- With more budget the operator pass yields the same. -/
theorem yields_of_budget_le {budget budget' : Nat} (hbudget : budget ≤ budget')
    (h : Yields (reduceOperators provider budget e) s a t) :
    Yields (reduceOperators provider budget' e) s a t := by
  have halike : Alike (fun name => name) (Eq .exhausted) (rename fun name => name)
      (reduceOperators provider budget e) (reduceOperators provider budget' e) :=
    alike_reduceOperators (fun _ => .inl rfl) (.inr ⟨hbudget, rfl⟩) e rfl
  rcases halike s with ⟨f, u, hf, -⟩ | ⟨a', b, u, ha, hb, hsame⟩ | ⟨f, f', u, hf, -⟩
  · exact absurd hf h.not_fails
  · cases h.symm.trans ha
    rw [rename_id, rename_id] at hsame
    exact hsame ▸ hb
  · exact absurd hf h.not_fails

/-- **A run comes to one result**, whatever its budget is. So the states in which the pass visits what
it visits are those of one run. -/
theorem Runs.unique (h : Runs provider e s a t) (h' : Runs provider e s b u) : a = b ∧ t = u := by
  obtain ⟨budget, h⟩ := h
  obtain ⟨budget', h'⟩ := h'
  have hmore := yields_of_budget_le (Nat.le_max_left budget budget') h
  have hmore' := yields_of_budget_le (Nat.le_max_right budget budget') h'
  cases hmore.symm.trans hmore'
  exact ⟨rfl, rfl⟩

end Runs

/-! ## Names are irrelevant -/

/-- The expression with every parameter named alike, so that the names say nothing. -/
def Expr.unnamed (e : Expr) : Expr := e.rename fun _ => ""

/-- The failure with every parameter in it named alike. -/
def Failure.unnamed (f : Failure) : Failure := f.rename fun _ => ""

/-- **Names are irrelevant.** Trees that differ only in the names of parameters end in the same
context, both with normal forms or both with failures that differ only in names again. -/
theorem normalize_unnamed {provider : Provider} {context : Context} {e e' : Expr}
    (h : e.unnamed = e'.unnamed) :
    (normalize provider context e).2 = (normalize provider context e').2 ∧
      ((∃ a a', (normalize provider context e).1 = .ok a ∧ (normalize provider context e').1 = .ok a' ∧
          a.unnamed = a'.unnamed) ∨
        ∃ f f', (normalize provider context e).1 = .error f ∧
          (normalize provider context e').1 = .error f' ∧ f.unnamed = f'.unnamed) := by
  have halike : Alike (fun _ => "") (fun _ => False) (rename fun _ => "") (reduceQuery provider e)
      (reduceQuery provider e') := alike_reduceQuery (fun _ => .inl rfl) h
  have hsupply : ParamSupply.after e = .after e' := by
    rw [ParamSupply.after, ParamSupply.after, maxId?_eq_max?, maxId?_eq_max?, ← ids_rename (fun _ => "") e, ← ids_rename _ e']
    rw [show e.rename (fun _ => "") = e'.rename fun _ => "" from h]
  rcases halike ⟨context, .after e⟩ with
    ⟨_, _, -, hexcused⟩ | ⟨a, a', t, ha, ha', hsame⟩ | ⟨f, f', t, hf, hf', hsame⟩
  · exact hexcused.elim
  · rw [normalize_of_run ha, normalize_of_run (hsupply ▸ ha')]
    exact ⟨rfl, .inl ⟨a, a', rfl, rfl, hsame⟩⟩
  · rw [normalize_of_run hf, normalize_of_run (hsupply ▸ hf')]
    exact ⟨rfl, .inr ⟨f, f', rfl, rfl, hsame⟩⟩

/-- The paid orders of the customers, with every parameter named `it`. -/
def paidOfGroupsNamedIt : Expr := paidOfGroups.rename fun _ => "it"

theorem normalize_paidOfGroupsNamedIt :
    paidOfGroups.unnamed = paidOfGroupsNamedIt.unnamed ∧
      normalize ⟨false⟩ default paidOfGroups = (.ok paidOfJoin, default) ∧
      ∃ e', normalize ⟨false⟩ default paidOfGroupsNamedIt = (.ok e', default) ∧
        e'.unnamed = paidOfJoin.unnamed := by
  have hnormal : normalize ⟨false⟩ default paidOfGroups = (.ok paidOfJoin, default) := rfl
  obtain ⟨hcontext, hresults⟩ :=
    @normalize_unnamed ⟨false⟩ default paidOfGroups paidOfGroupsNamedIt rfl
  rw [hnormal] at hcontext hresults
  refine ⟨rfl, hnormal, ?_⟩
  rcases hresults with ⟨a, a', ha, ha', hsame⟩ | ⟨f, _, hf, -⟩
  · cases ha
    exact ⟨a', Prod.ext ha' hcontext.symm, hsame.symm⟩
  · cases hf

/-! ## Inlining constants -/

/-- A provider that supports every hint refuses none. -/
theorem Cause.ne_unsupported {provider : Provider} {n : Expr} {s : ReductionState} {f : Failure}
    (h : Cause provider n s f) (hmode : ∀ mode : Mode, mode.supportedBy provider = true) :
    f ≠ .problem .constantsUnsupported := by
  intro hf
  cases h with
  | unsupported hrule hunsupported => simp [hmode] at hunsupported
  | unconverted _ _ _ hfailed =>
    subst hf
    cases outOfRange_of_toQueryable hfailed
  | projection _ _ _ hcheck =>
    cases hf
    unfold checkProjection at hcheck
    split at hcheck <;> cases hcheck
  | _ => cases hf

/-- **Inlining constants only helps.** A provider that can inline constants comes to the same as one
that cannot, unless the latter refuses a hint for it, and itself refuses none. -/
theorem normalize_of_inlining (context : Context) (e : Expr) :
    ((normalize ⟨false⟩ context e).1 ≠ .error (.problem .constantsUnsupported) →
        normalize ⟨true⟩ context e = normalize ⟨false⟩ context e) ∧
      (normalize ⟨true⟩ context e).1 ≠ .error (.problem .constantsUnsupported) := by
  constructor
  · intro hsupported
    have hmode (mode : Mode) : mode.supportedBy ⟨false⟩ = mode.supportedBy ⟨true⟩ ∨
        mode.supportedBy ⟨false⟩ = false ∧
          Failure.problem .constantsUnsupported = .problem .constantsUnsupported := by
      cases mode <;> simp [Mode.supportedBy]
    have halike : Alike (fun name => name) (· = .problem .constantsUnsupported)
        (rename fun name => name) (reduceQuery ⟨false⟩ e) (reduceQuery ⟨true⟩ e) :=
      alike_reduceQuery hmode rfl
    rcases halike ⟨context, .after e⟩ with
      ⟨f, t, hf, rfl⟩ | ⟨a, a', t, ha, ha', hsame⟩ | ⟨f, f', t, hf, hf', hsame⟩
    · rw [normalize_of_run hf] at hsupported
      exact absurd rfl hsupported
    · rw [rename_id, rename_id] at hsame
      rw [normalize_of_run ha, normalize_of_run ha', hsame]
    · rw [Failure.rename_id, Failure.rename_id] at hsame
      rw [normalize_of_run hf, normalize_of_run hf', hsame]
  · intro hfailed
    have hmode (mode : Mode) : mode.supportedBy ⟨true⟩ = true := by simp [Mode.supportedBy]
    rcases failure_of_normalize (Prod.ext hfailed rfl) with
      hf | ⟨n, _, -, hcause⟩ | ⟨c, -, -, _, -, hf⟩
    · cases hf
    · exact hcause.ne_unsupported hmode rfl
    · cases hf

end QueryNormal
