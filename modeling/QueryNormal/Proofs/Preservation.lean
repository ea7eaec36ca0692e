import QueryNormal.Proofs.Invariants
import QueryNormal.Proofs.Meaning

/-!
# Normal forms mean the same

* `ReducesBy.sameValue`: what one layer of the operator pass keeps, rule by rule.
* `Runs.sameValue`: so the pass keeps the value of an expression.
* `eval_normalize`: a normal form has the value of the expression, grouped joins apart.
-/

universe u

namespace QueryNormal

/-! ## Calls without grouped joins -/

/-- The call is proper and not of an operator named like the grouped join. -/
structure Call.Ungrouped (c : Call) : Prop where
  proper : c.Proper
  name : c.method.name ≠ "GroupJoin"

theorem established_ungrouped : Established Call.Ungrouped Call.Ungrouped where
  reshaped h hc := ⟨h.proper hc.proper, by rw [h.method]; exact hc.name⟩
  built h :=
    ⟨h.isProper, (by decide : ∀ s ∈ builtOperators, s.name ≠ "GroupJoin") _ h.mem⟩
  flat hc := absurd rfl hc.name
  weaken h := h
  walked hq _ _ := hq
  converted hq _ _ hlen hfound _ _ := by
    have hcounterpart := toQueryable_eq_some hfound
    refine ⟨hcounterpart.proper (hlen.symm.trans hq.proper.args), ?_⟩
    rw [hcounterpart.name]
    exact hq.name
  kept hq _ _ := hq
  unmatched hq _ _ := hq
  member hq _ _ := hq
  loading hq _ hlen :=
    ⟨fun _ _ h => h,
      ⟨hlen.trans hq.proper.typeArgs, hq.proper.args, hq.proper.receiver⟩, hq.name⟩
  elementAt _ := ⟨⟨rfl, rfl, fun hr => by cases hr⟩, by change "ElementAt" ≠ _; decide⟩
  any _ := ⟨⟨rfl, rfl, fun hr => by cases hr⟩, by change "Any" ≠ _; decide⟩

section Rules

variable {V : Type u} {I : Interpretation V} {e e' : Expr}

/-! ## Arguments -/

theorem sameValue_quoteLambda (hI : I.Lawful) (e : Expr) : SameValue I e (quoteLambda e) := by
  intro env
  unfold quoteLambda
  split
  · exact hI.quote _
  · rfl

theorem sameValue_asQueryable (hI : I.Lawful) (element : Ty) (e : Expr) :
    SameValue I e (asQueryable e element) := fun _ => hI.asQueryable _

theorem sameValue_underConversions (hI : I.Lawful) (e : Expr) :
    SameValue I e (underConversions e) := by
  intro env
  fun_induction underConversions e with
  | case1 operand type htype ih => rw [ih, Expr.eval, hI.convert type _ htype]
  | case3 operand type htype ih => rw [ih, Expr.eval, hI.typeAs type _ htype]
  | _ => rfl

/-- A copy into a list that is dropped, if it is proper, has one argument and no receiver. -/
theorem uncopied_cases (element : Option Ty) (he : e.EveryCall Call.Ungrouped) :
    (uncopied e element).1 = e ∨ ∃ m source, m.signature = Enumerable.toList ∧
      e = .call m none [source] ∧ (uncopied e element).1 = source := by
  unfold uncopied
  split
  · rename_i m r source rest
    split
    · rename_i hm
      have hcopy : m.signature = Enumerable.toList := of_decide_eq_true hm
      have hfamily : m.family = .enumerable := congrArg Signature.family hcopy
      have hproper : Call.Proper ⟨m, r, source :: rest⟩ := (Expr.everyCall_call.mp he).1.proper
      obtain ⟨rfl, rfl⟩ := hproper.eq_single (by simp [hfamily]) (by rw [hcopy]; rfl)
      exact .inr ⟨m, source, hcopy, rfl, rfl⟩
    · exact .inl rfl
  · exact .inl rfl

theorem sameValue_uncopied (hI : I.Lawful) (element : Option Ty)
    (he : e.EveryCall Call.Ungrouped) : SameValue I e (uncopied e element).1 := by
  intro env
  rcases uncopied_cases element he with h | ⟨m, source, hcopy, rfl, h⟩ <;> rw [h]
  have hfamily : m.family = .enumerable := congrArg Signature.family hcopy
  have hname : m.name = "ToList" := congrArg Signature.name hcopy
  rw [eval_call, hfamily, hname]
  exact ((hI.domain _ _).trans (hI.toList _)).symm

theorem sameValue_queryArgument (hI : I.Lawful) (fallback : Option Ty)
    (he : e.EveryCall Call.Ungrouped) : SameValue I e (queryArgument e fallback) := by
  have hsource := sameValue_uncopied hI (e.ty.element?.or fallback) he
  rcases queryArgument_eq e fallback with h | ⟨element, h⟩ <;> rw [h]
  · exact hsource
  · exact hsource.trans
      ((sameValue_underConversions hI _).trans (sameValue_asQueryable hI element _))

theorem sameValue_of_passes (hI : I.Lawful) (h : Passes e e') (he : e.EveryCall Call.Ungrouped) :
    SameValue I e e' := by
  cases h with
  | same => exact fun _ => rfl
  | converted => exact sameValue_queryArgument hI _ he

/-- The arguments of a counterpart have the values of the arguments. -/
theorem sameValue_of_counterpart (hI : I.Lawful) {m m' : Method} {args args' : List Expr}
    (h : Counterpart m args m' args') (hargs : ∀ a ∈ args, a.EveryCall Call.Ungrouped) :
    List.Forall₂ (SameValue I) args args' := by
  obtain ⟨passed, hpassed, rfl⟩ := h.args
  rw [List.forall₂_map_right_iff]
  clear h
  induction hpassed with
  | nil => exact .nil
  | cons hx _ ih =>
    rw [List.forall_mem_cons] at hargs
    exact .cons ((sameValue_of_passes hI hx hargs.1).trans (sameValue_quoteLambda hI _))
      (ih hargs.2)

/-! ## Reading sequences -/

theorem eval_elementRead (hI : I.Lawful) {element : Ty} {raw source position : Expr}
    (hsource : source.EveryCall Call.Ungrouped) (env : Env V) :
    (elementRead element raw source position).eval I env =
      I.call .queryable "ElementAt" none [source.eval I env, position.eval I env] := by
  unfold elementRead
  split
  · exact hI.domain _ _
  · have hargument := (sameValue_queryArgument hI (some element) hsource).trans
      (sameValue_quoteLambda hI _)
    change I.call .queryable "ElementAt" none [_, _] = _
    rw [hargument env, sameValue_quoteLambda hI position env]

theorem eval_nonEmptyTest (hI : I.Lawful) {element : Ty} {raw source : Expr}
    (hsource : source.EveryCall Call.Ungrouped) (env : Env V) :
    (nonEmptyTest element raw source).eval I env =
      I.call .queryable "Any" none [source.eval I env] := by
  unfold nonEmptyTest
  split
  · exact hI.domain _ _
  · have hargument := (sameValue_queryArgument hI (some element) hsource).trans
      (sameValue_quoteLambda hI _)
    change I.call .queryable "Any" none [_] = _
    rw [hargument env]

theorem eval_contains (hI : I.Lawful) {element : Ty} {raw collection item : Expr} (env : Env V) :
    (contains element raw collection item).eval I env =
      I.call .queryable "Contains" none [collection.eval I env, item.eval I env] := by
  have hsource : (if raw.ty.isValueType then .unary (.convert (.enumerable element)) collection
      else collection : Expr).eval I env = collection.eval I env := by
    split
    · exact hI.convert _ _ rfl
    · rfl
  change I.call .queryable "Contains" none [_, _] = _
  rw [sameValue_asQueryable hI element _ env, hsource]

/-! ## One layer -/

variable {provider : Provider} {c : Call} {s t : ReductionState}

/-- A run on a part that keeps its value. -/
structure Kept (provider : Provider) (I : Interpretation V) (x : Expr) (s : ReductionState)
    (y : Expr) (t : ReductionState) : Prop where
  run : Runs provider x s y t
  value : x.EveryCall Call.Ungrouped → SameValue I x y

theorem Kept.improved {x y : Expr} (h : Kept provider I x s y t) :
    Improved False Call.Ungrouped Call.Ungrouped x y :=
  (h.run.improved established_ungrouped).mono False.elim

theorem sameValue_of_threads {args args' : List Expr} (h : Threads (Kept provider I) args s args' t)
    (hargs : ∀ a ∈ args, a.EveryCall Call.Ungrouped) : List.Forall₂ (SameValue I) args args' := by
  have hvalues : Threads (fun x (_ : ReductionState) y _ => SameValue I x y) args s args' t :=
    h.mono_mem fun a ha _ _ _ hkept => hkept.value (hargs a ha)
  exact hvalues.forall₂ fun h => h

theorem sameValue_of_threadsOption {r r' : Option Expr} (h : ThreadsOption (Kept provider I) r s r' t)
    (hr : ∀ x ∈ r, x.EveryCall Call.Ungrouped) : Option.Rel (SameValue I) r r' := by
  have hvalues : ThreadsOption (fun x (_ : ReductionState) y _ => SameValue I x y) r s r' t :=
    h.mono_mem fun a ha _ _ _ hkept => hkept.value (hr a ha)
  exact hvalues.rel fun h => h

theorem sameValue_of_walk (h : WalksBy (Kept provider I) e s e' t) (he : e.EveryCall Call.Ungrouped) :
    SameValue I e e' := by
  have hvalues : WalksBy (fun x (_ : ReductionState) y _ => SameValue I x y) e s e' t :=
    h.mono_mem fun x hx _ _ _ hkept => hkept.value (he.part hx)
  exact hvalues.sameValue

theorem VisitsBy.sameValue (hI : I.Lawful) (h : VisitsBy (Kept provider I) e s c t)
    (he : e.EveryCall Call.Ungrouped) : SameValue I e c.toExpr := by
  cases h with
  | walked _ _ hr hargs =>
    rw [Expr.everyCall_call] at he
    exact sameValue_call rfl rfl (sameValue_of_threadsOption hr he.2.1)
      (sameValue_of_threads hargs he.2.2)
  | @converted m m' r args args' args'' _ _ hrule _ hargs hfound =>
    rw [Expr.everyCall_call] at he
    have hcounterpart := toQueryable_eq_some hfound
    have hargs' : ∀ a ∈ args', a.EveryCall Call.Ungrouped := by
      intro a' ha'
      obtain ⟨a, ha, himproved⟩ := exists_of_forall₂ (hargs.forall₂ Kept.improved) ha'
      exact himproved.everyCall (he.2.2 a ha)
    have hfamily : m.family = .enumerable := by
      cases ruleCase hrule with
      | inMemory _ _ _ hfamily => exact hfamily
    obtain rfl : r = none := he.1.proper.receiver_eq_none (by simp [hfamily])
    intro env
    change (Expr.call m' none args'').eval I env = _
    rw [eval_call, eval_call, hfamily, hcounterpart.family, hcounterpart.name,
      evalList_congr (sameValue_of_counterpart hI hcounterpart hargs') env,
      evalList_congr (sameValue_of_threads hargs he.2.2) env]
    exact (hI.domain _ _).symm

/-- A visited call on queries has no receiver. -/
theorem VisitsBy.receiver_eq_none {P : PartRun} (h : VisitsBy P e s c t)
    (he : e.EveryCall Call.Ungrouped) (hfamily : c.method.family = .queryable) :
    c.receiver = none := by
  cases h with
  | walked _ _ hr _ =>
    obtain rfl : _ = none :=
      (Expr.everyCall_call.mp he).1.proper.receiver_eq_none (by simp [hfamily])
    cases hr
    rfl
  | converted => rfl

theorem eval_identity (p : Param) (env : Env V) :
    (Lambda.identity p).toExpr.eval I env = I.lambda 1 fun values => values 0 := by
  have hbody (values : Fin 1 → V) : Env.bind [p] values env p.id = values 0 :=
    Function.update_self _ _ _
  exact congrArg (I.lambda 1) (funext hbody)

theorem eval_keyed (hI : I.Lawful) (ordering : Signature) (typeArgs : List Ty) (source : Expr)
    (p : Param) (env : Env V) :
    (Expr.apply ordering typeArgs [source, (Lambda.identity p).quoted]).eval I env =
      I.call ordering.family ordering.name none
        [source.eval I env, I.lambda 1 fun values => values 0] := by
  have hkey : (Lambda.identity p).quoted.eval I env = I.lambda 1 fun values => values 0 :=
    (hI.quote _).trans (eval_identity p env)
  exact congrArg (fun v => I.call ordering.family ordering.name none [source.eval I env, v]) hkey

theorem Call.Ungrouped.not_groupJoin (h : c.Ungrouped) : ¬ c.is Queryable.groupJoin :=
  fun hc => h.name (congrArg Signature.name (of_decide_eq_true hc))

/-- A grouped join is not among the visited arguments, so the call is not flattened. -/
theorem SettlesBy.sameValue (hI : I.Lawful) (h : SettlesBy (Kept provider I) c s e' t)
    (hargs : ∀ a ∈ c.args, a.EveryCall Call.Ungrouped)
    (hreceiver : c.method.family = .queryable → c.receiver = none) :
    SameValue I c.toExpr e' := by
  have hnone : Flattening.of? c = none := flattening_eq_none fun a ha =>
    not_isGroupJoin_of_everyCall ((hargs a ha).mono fun _ hc => hc.not_groupJoin)
  cases h with
  | same => exact fun _ => rfl
  | @ordered ordering element rest source hord _ hsource =>
    obtain ⟨m, r, args⟩ := c
    obtain rfl : args = [source] := hsource
    intro env
    rw [eval_keyed hI, Call.toExpr, eval_call]
    rcases keyedOrdering_cases hord with ⟨hm, rfl⟩ | ⟨hm, rfl⟩
    · have hfamily : m.family = .queryable := congrArg Signature.family hm
      have hname : m.name = "Order" := congrArg Signature.name hm
      obtain rfl : r = none := hreceiver hfamily
      rw [hfamily, hname]
      exact (hI.order _).symm
    · have hfamily : m.family = .queryable := congrArg Signature.family hm
      have hname : m.name = "OrderDescending" := congrArg Signature.name hm
      obtain rfl : r = none := hreceiver hfamily
      rw [hfamily, hname]
      exact (hI.orderDescending _).symm
  | pairs hflat | members hflat =>
    rw [hnone] at hflat
    cases hflat

theorem sameValue_reselected (hI : I.Lawful) {selector body : Expr} {l : Lambda}
    (hl : selector.lambda? = some l) (hbody : SameValue I l.body body) :
    SameValue I selector (reselected selector ⟨l.params, body⟩) := by
  have hlambda : SameValue I l.toExpr (.lambda l.params body) := fun env =>
    congrArg (I.lambda _) (funext fun values => hbody _)
  have hselector : SameValue I selector (.lambda l.params body) := by
    refine Expr.induction_lambda (P := fun x => SameValue I x (.lambda l.params body)) hl hlambda ?_
    intro x hx env
    rw [hx env]
    exact (hI.quote _).symm
  intro env
  unfold reselected
  split
  · exact (hI.quote _).trans (hselector env)
  · exact hselector env

/-- A test whether a collection counts more than nothing asks it for an element. -/
theorem eval_counted (hI : I.Lawful) {op : BinOp} {lhs source : Expr} {type : Ty}
    (hop : op = .greater ∨ op = .notEqual) (hcounted : countedSource? lhs = some source)
    (env : Env V) :
    (Expr.binary op lhs (.const (.int 0) type)).eval I env =
      I.call .queryable "Any" none [source.eval I env] := by
  rcases counted_iff.mp hcounted with ⟨m, rfl, hname, howner⟩ | rfl
  · exact hI.count op _ type _ hop hname howner
  · exact hI.length op type _ hop

theorem eval_noted (hI : I.Lawful) {m : Method} {r : Option Expr} {source : Expr}
    {rest : List Expr} {n : Note} (hnote : Note.of? m = some n)
    (hproper : Call.Proper ⟨m, r, source :: rest⟩) (env : Env V) :
    (Expr.call m r (source :: rest)).eval I env = source.eval I env := by
  have hfamily := Note.family_of_of? hnote
  obtain rfl : r = none := hproper.receiver_eq_none (by simp [hfamily])
  rw [eval_call, hfamily, Method.name, Note.signature_of_of? hnote]
  exact hI.note n _ _

/-- A hint, if it is proper, has one argument and no receiver. -/
theorem eq_single_of_hinted {m : Method} {r : Option Expr} {argument : Expr} {rest : List Expr}
    {mode : Mode} (hhint : Mode.hinted? m = some mode)
    (hproper : Call.Proper ⟨m, r, argument :: rest⟩) : r = none ∧ rest = [] := by
  have hm := mem_hints_of_hinted hhint
  have hshape : (∀ owner, m.family ≠ .ofType owner) ∧ m.signature.params.length = 1 := by
    simp only [Hint.all, List.mem_cons, List.not_mem_nil, or_false] at hm
    unfold Method.family
    rcases hm with hm | hm | hm <;> rw [hm] <;> refine ⟨fun owner h => ?_, rfl⟩ <;> cases h
  exact hproper.eq_single hshape.1 hshape.2

theorem eval_hinted (hI : I.Lawful) {m : Method} {r : Option Expr} {argument : Expr}
    {rest : List Expr} {mode : Mode} (hhint : Mode.hinted? m = some mode)
    (hproper : Call.Proper ⟨m, r, argument :: rest⟩) (env : Env V) :
    (Expr.call m r (argument :: rest)).eval I env = argument.eval I env := by
  obtain ⟨rfl, rfl⟩ := eq_single_of_hinted hhint hproper
  exact hI.hint _ _ (mem_hints_of_hinted hhint)

/-- What one layer of the operator pass keeps. -/
theorem ReducesBy.sameValue (hI : I.Lawful) (h : ReducesBy provider (Kept provider I) (Kept provider I) e s e' t)
    (he : e.EveryCall Call.Ungrouped) : SameValue I e e' := by
  cases h with
  | node _ hwalk => exact sameValue_of_walk hwalk he
  | binary _ hl hr =>
    rw [Expr.everyCall_binary] at he
    intro env
    simp only [Expr.eval, hl.value he.1 env, hr.value he.2 env]
  | elementAt hsugar hl hr =>
    rw [Expr.everyCall_binary] at he
    intro env
    rw [eval_elementRead hI (hl.improved.everyCall he.1) env, hl.value he.1 env, hr.value he.2 env]
    cases sugarCase hsugar with
    | elementAt => exact (hI.arrayIndex _ _).symm
  | nonEmpty hsugar hcounted hsource =>
    rw [Expr.everyCall_binary] at he
    have hcalls := he.1.part (mem_parts_of_counted hcounted).1
    intro env
    rw [eval_nonEmptyTest hI (hsource.improved.everyCall hcalls) env, hsource.value hcalls env]
    cases sugarCase hsugar with
    | nonEmpty hop hrhs =>
      subst hrhs
      exact (eval_counted hI hop hcounted env).symm
  | note hrule _ hsource =>
    intro env
    cases ruleCase hrule with
    | note hnote =>
      rw [eval_noted hI hnote (Expr.everyCall_call.mp he).1.proper env]
      exact hsource.value (he.part (by simp [Expr.parts])) env
  | hint hrule _ hargument =>
    intro env
    cases ruleCase hrule with
    | hint _ hhint =>
      rw [eval_hinted hI hhint (Expr.everyCall_call.mp he).1.proper env]
      exact hargument.value (he.part (by simp [Expr.parts])) env
  | @index m target target' position position' element _ _ _ hrule htarget hposition =>
    have ht : target.EveryCall Call.Ungrouped := he.part (by simp [Expr.parts])
    have hp : position.EveryCall Call.Ungrouped := he.part (by simp [Expr.parts])
    intro env
    rw [eval_elementRead hI (htarget.improved.everyCall ht) env, htarget.value ht env,
      hposition.value hp env, eval_call]
    cases ruleCase hrule with
    | index _ _ hindex =>
      obtain ⟨hname, owner, hfamily, hlist⟩ := owner_of_indexed hindex
      rw [hname, hfamily]
      exact (hI.indexer owner _ _ hlist).symm
  | kept _ _ hwalk | member _ _ hwalk => exact sameValue_of_walk hwalk he
  | unmatched _ _ hargs _ hr =>
    rw [Expr.everyCall_call] at he
    exact sameValue_call rfl rfl (sameValue_of_threadsOption hr he.2.1)
      (sameValue_of_threads hargs he.2.2)
  | @contains m c c' item item' _ _ _ _ hrule _ hcollection hitem =>
    have hc : c.EveryCall Call.Ungrouped := he.part (by simp [Expr.parts])
    have hi : item.EveryCall Call.Ungrouped := he.part (by simp [Expr.parts])
    intro env
    rw [eval_contains hI env, hcollection.value hc env, hitem.value hi env, eval_call]
    cases ruleCase hrule with
    | membership _ _ _ _ hmembership =>
      obtain ⟨hname, owner, hfamily, hcollects⟩ := owner_of_membership hmembership
      rw [hname, hfamily]
      exact (hI.contains owner _ _ hcollects).symm
  | @loading m r source source' selector body body' _ _ _ _ hrule hlambda hsource hbody =>
    rw [Expr.everyCall_call] at he
    have hselector : body.EveryCall Call.Ungrouped :=
      (Expr.everyCall_of_lambda hlambda).mp (he.2.2 selector (by simp))
    obtain ⟨typeArgs, _, hreloaded⟩ := reloaded_eq m body'.ty
    rw [hreloaded]
    refine sameValue_call rfl rfl ?_ (.cons (hsource.value (he.2.2 source (by simp)))
      (.cons (sameValue_reselected hI hlambda (hbody.value hselector)) .nil))
    cases r with
    | none => exact .none
    | some r => exact .some fun _ => rfl
  | settle hvisit hsettle =>
    exact (hvisit.sameValue hI he).trans
      (hsettle.sameValue hI (hvisit.everyCall Kept.improved established_ungrouped he)
        (hvisit.receiver_eq_none he))

/-- **What the operator pass keeps.** -/
theorem Runs.sameValue (hI : I.Lawful) (h : Runs provider e s e' t) :
    e.EveryCall Call.Ungrouped → SameValue I e e' := by
  refine Runs.induction_run (P := fun x _ y _ => x.EveryCall Call.Ungrouped → SameValue I x y) ?_ h
  intro x x' s t hlayer
  have hkept : ReducesBy provider (Kept provider I) (Kept provider I) x s x' t :=
    hlayer.mono (fun _ _ _ _ _ hrun => ⟨hrun.1, hrun.2⟩) fun _ _ _ _ hrun => ⟨hrun.1, hrun.2⟩
  exact hkept.sameValue hI

end Rules

/-- **Normalization keeps meaning.** A tree of proper calls, none of them of an operator named like
the grouped join, and its normal form have the same value in every lawful interpretation. -/
theorem eval_normalize {V : Type u} {I : Interpretation V} (hI : I.Lawful) {provider : Provider}
    {context context' : Context} {e e' : Expr} (hproper : ∀ c ∈ e.calls, c.Proper)
    (hname : ∀ c ∈ e.calls, c.method.name ≠ "GroupJoin")
    (h : normalize provider context e = (.ok e', context')) (env : Env V) :
    e'.eval I env = e.eval I env := by
  have he : e.EveryCall Call.Ungrouped := fun c hc => ⟨hproper c hc, hname c hc⟩
  obtain ⟨middle, t, hrun, _, hfinish⟩ := runs_of_normalize h
  have hmiddle : middle.EveryCall Call.Ungrouped := (hrun.improved established_ungrouped).everyCall he
  rw [finish_eq_self (hmiddle.mono fun _ hc => hc.not_groupJoin)] at hfinish
  cases hfinish
  exact hrun.sameValue hI he env

/-! ## Numbers above one -/

/-- The numbers `3, 1, 2`. -/
def numbers : Expr := .const (.list [.int 3, .int 1, .int 2]) (.seq .array .int)

/-- The predicate `x > 1`. -/
def aboveOne : Expr :=
  .lambda [⟨0, "x", .int⟩] (.binary .greater (.param ⟨0, "x", .int⟩) (.const (.int 1) .int))

/-- The smallest of the numbers above one: the array index zero of the ordered ones. -/
def smallestAboveOne : Expr :=
  .binary .arrayIndex
    (.apply Domain.memory.order [.int]
      [.apply Enumerable.toList [.int] [.apply Domain.memory.filter [.int] [numbers, aboveOne]]])
    (.const (.int 0) .int)

/-- The smallest of the numbers above one, by a query. -/
def smallestByQuery : Expr :=
  .apply Domain.queries.elementAt [.int]
    [.apply Queryable.orderBy [.int, .int]
      [.apply Queryable.filter [.int] [asQueryable numbers .int, .quote aboveOne],
        (Lambda.identity ⟨1, "p", .int⟩).quoted],
      .const (.int 0) .int]

theorem eval_normalize_smallestAboveOne :
    arithmetic.Lawful ∧ (∀ c ∈ smallestAboveOne.calls, c.Proper) ∧
      (∀ c ∈ smallestAboveOne.calls, c.method.name ≠ "GroupJoin") ∧
      normalize ⟨false⟩ default smallestAboveOne = (.ok smallestByQuery, default) ∧
      smallestByQuery.eval arithmetic (fun _ => .datum .nothing) = .datum (.number 2) ∧
      smallestByQuery.eval arithmetic (fun _ => .datum .nothing) =
        smallestAboveOne.eval arithmetic (fun _ => .datum .nothing) :=
  have hproper : ∀ c ∈ smallestAboveOne.calls, c.Proper := by decide
  have hname : ∀ c ∈ smallestAboveOne.calls, c.method.name ≠ "GroupJoin" := by decide
  have hnormal : normalize ⟨false⟩ default smallestAboveOne = (.ok smallestByQuery, default) := rfl
  ⟨arithmetic_lawful, hproper, hname, hnormal, rfl,
    eval_normalize arithmetic_lawful hproper hname hnormal _⟩

end QueryNormal
