import QueryNormal.Proofs.Arity
import QueryNormal.Proofs.Reduced

/-!
# Misuse of operators

* `Call.WellUsed`: a call is exact, and its arguments are of the form that its operator requires.
* `established_prepared`: every rule leaves calls that are exact and reduced and whose selectors fit.
* `membership_of_cause`: in a tree of well-used calls, the only cause of a misuse is that a collection
  is asked for an item with other than one argument.
* `misuse_of_normalize`: so that is the only misuse that normalizing such a tree reports.

A call that a rule does not match is kept, with this one exception (`normalize_refuses_membership`).
-/

namespace QueryNormal

open QueryNormal.Expr Reduction

/-! ## Literals -/

/-- The kinds of literals that annotations are given besides their source. -/
inductive LiteralKind where
  | string
  | integer
  /-- A list of strings, or null. -/
  | names
deriving DecidableEq, Repr, Inhabited

/-- Whether the expression is a constant of the kind. -/
def LiteralKind.admits : LiteralKind → Expr → Bool
  | .string, .const (.string _) _ => true
  | .integer, .const (.int _) _ => true
  | .names, .const .null _ => true
  | .names, .const (.list items) _ => items.all fun item => item.string?.isSome
  | _, _ => false

/-- The literals that the annotation is given besides its source. -/
def Note.literals : Note → List LiteralKind
  | .tagWith => [.string]
  | .tagWithCallSite => [.string, .integer]
  | .ignoreNamedQueryFilters => [.names]
  | _ => []

section Literals

variable {m : Method} {x : Expr}

theorem readString_isOk (h : LiteralKind.string.admits x = true) :
    ∃ value, Note.readString m (some x) = .ok value := by
  unfold LiteralKind.admits at h
  split at h <;> simp_all [Note.readString]

theorem readInt_isOk (h : LiteralKind.integer.admits x = true) :
    ∃ value, Note.readInt m (some x) = .ok value := by
  unfold LiteralKind.admits at h
  split at h <;> simp_all [Note.readInt]

theorem readItems_isOk : ∀ {items : List Literal},
    (items.all fun item => item.string?.isSome) = true → ∃ values, Note.readItems m items = .ok values
  | [], _ => ⟨[], rfl⟩
  | item :: items, h => by
    rw [List.all_cons, Bool.and_eq_true] at h
    obtain ⟨values, hvalues⟩ := readItems_isOk h.2
    cases item with
    | string value => exact ⟨value :: values, by rw [Note.readItems, hvalues]; rfl⟩
    | _ => cases h.1

theorem readStrings_isOk (h : LiteralKind.names.admits x = true) :
    ∃ values, Note.readStrings m (some x) = .ok values := by
  unfold LiteralKind.admits at h
  split at h
  · rename_i hkind
    cases hkind
  · rename_i hkind
    cases hkind
  · exact ⟨[], rfl⟩
  · exact readItems_isOk h
  · cases h

/-- An annotation with the literals that it expects can be read. -/
theorem Note.effect_isOk {n : Note} {rest : List Expr}
    (h : List.Forall₂ (fun kind x => kind.admits x = true) n.literals rest) :
    ∃ effect, n.effect m rest = .ok effect := by
  cases n with
  | tagWith =>
    obtain ⟨x, _, hx, hrest, rfl⟩ := List.forall₂_cons_left_iff.mp h
    obtain ⟨value, hvalue⟩ := readString_isOk (m := m) hx
    exact ⟨.tag value, by simp [Note.effect, hvalue, bind, Except.bind, pure, Except.pure]⟩
  | tagWithCallSite =>
    obtain ⟨x, _, hx, hrest, rfl⟩ := List.forall₂_cons_left_iff.mp h
    obtain ⟨y, _, hy, hnil, rfl⟩ := List.forall₂_cons_left_iff.mp hrest
    obtain ⟨file, hfile⟩ := readString_isOk (m := m) hx
    obtain ⟨line, hline⟩ := readInt_isOk (m := m) hy
    exact ⟨.tag ("File: " ++ file ++ ":" ++ toString line),
      by simp [Note.effect, hfile, hline, bind, Except.bind, pure, Except.pure]⟩
  | ignoreNamedQueryFilters =>
    obtain ⟨x, _, hx, hrest, rfl⟩ := List.forall₂_cons_left_iff.mp h
    obtain ⟨values, hvalues⟩ := readStrings_isOk (m := m) hx
    exact ⟨.ignoreNamedFilters values,
      by simp [Note.effect, hvalues, bind, Except.bind, pure, Except.pure]⟩
  | _ => exact ⟨_, rfl⟩

end Literals

/-! ## Selectors -/

/-- The number of parameters of a delegate type, plain or quoted. -/
def Ty.delegateArity? : Ty → Option Nat
  | .func params _ => some params.length
  | .quoted (.func params _) => some params.length
  | _ => none

/-- The argument for a delegate is a lambda, quoted or not, with as many parameters. -/
def FitsDelegate (type : Ty) (x : Expr) : Prop :=
  ∀ n ∈ type.delegateArity?, x.lambda?.map (fun l => l.params.length) = some n

instance (type : Ty) (x : Expr) : Decidable (FitsDelegate type x) :=
  inferInstanceAs
    (Decidable (∀ n ∈ type.delegateArity?, x.lambda?.map (fun l => l.params.length) = some n))

/-- The grouped join, on queries or in memory, and the eager loadings. -/
def Signature.TakesSelectors (s : Signature) : Prop :=
  s.name = "GroupJoin" ∧ s.family ∈ [.queryable, .enumerable] ∨ s ∈ Metadata.loading

instance (s : Signature) : Decidable s.TakesSelectors :=
  inferInstanceAs
    (Decidable (s.name = "GroupJoin" ∧ s.family ∈ [.queryable, .enumerable] ∨ s ∈ Metadata.loading))

/-- The delegates of a grouped join or of an eager loading are given lambdas. -/
def Call.SelectorsFit (c : Call) : Prop :=
  c.method.signature.TakesSelectors → List.Forall₂ FitsDelegate c.method.params c.args

instance (c : Call) : Decidable c.SelectorsFit :=
  inferInstanceAs
    (Decidable (c.method.signature.TakesSelectors → List.Forall₂ FitsDelegate c.method.params c.args))

section Selectors

variable {c c' : Call} {m : Method} {r : Option Expr} {args : List Expr}

theorem FitsDelegate.keepsShape {type : Ty} {x y : Expr} (h : FitsDelegate type x)
    (hkeeps : KeepsShape x y) : FitsDelegate type y := by
  intro n hn
  obtain ⟨l, hl, hlen⟩ := Option.map_eq_some_iff.mp (h n hn)
  obtain ⟨body, hbody⟩ := hkeeps.lambda hl
  simp [hbody, hlen]

theorem fitsDelegate_of_forall₂ {types : List Ty} {xs ys : List Expr}
    (h : List.Forall₂ FitsDelegate types xs) (hkeeps : List.Forall₂ KeepsShape xs ys) :
    List.Forall₂ FitsDelegate types ys := by
  induction h generalizing ys with
  | nil =>
    cases hkeeps
    exact .nil
  | cons hx _ ih =>
    cases hkeeps with
    | cons hxy hrest => exact .cons (hx.keepsShape hxy) (ih hrest)

theorem Reshaped.selectorsFit (h : Reshaped c c') (hc : c.SelectorsFit) : c'.SelectorsFit := by
  intro htakes
  rw [h.method] at htakes ⊢
  exact fitsDelegate_of_forall₂ (hc htakes) h.args

/-- A call of an operator of other names and families takes no selectors. -/
theorem Call.SelectorsFit.of_not_takes (h : ¬ c.method.signature.TakesSelectors) : c.SelectorsFit :=
  fun htakes => absurd htakes h

/-- An argument that fits is passed as it is to a delegate. -/
theorem FitsDelegate.passedAs {p q : Ty} {x y : Expr} (h : FitsDelegate p x)
    (hpassed : passedAs? p q x = some y) : FitsDelegate q y := by
  intro n hn
  unfold passedAs? at hpassed
  split at hpassed
  · rename_i hsame
    cases hpassed
    refine h n ?_
    rcases hsame with rfl | hquoted
    · exact hn
    · cases q with
      | quoted d =>
        obtain rfl : d = p := Option.some.inj hquoted
        cases d with
        | func => exact hn
        | _ => cases hn
      | _ => cases hquoted
  · split at hpassed
    · rename_i hconvertible
      cases q with
      | func | quoted => cases p <;> simp [convertible] at hconvertible
      | _ => cases hn
    · cases hpassed

theorem fitsDelegate_of_fitArguments : ∀ {ps qs : List Ty} {args passed : List Expr},
    ps.length = qs.length → List.Forall₂ FitsDelegate ps args →
      fitArguments ps qs args = .ok (some passed) → List.Forall₂ FitsDelegate qs passed
  | [], [], [], passed, _, _, h => by
    obtain rfl : [] = passed := by simpa [fitArguments] using h
    exact .nil
  | p :: ps, q :: qs, a :: args, passed, hlen, .cons ha hargs, h => by
    obtain ⟨x, rest, hx, hrest, rfl⟩ := exists_of_fitArguments_cons h
    exact .cons (ha.passedAs hx) (fitsDelegate_of_fitArguments (by simpa using hlen) hargs hrest)

theorem FitsDelegate.quoteLambda {type : Ty} {x : Expr} (h : FitsDelegate type x) :
    FitsDelegate type (quoteLambda x) := by
  intro n hn
  rw [← h n hn]
  unfold QueryNormal.quoteLambda
  split <;> rfl

end Selectors

/-! ## Calls that rewrites leave -/

/-- The call is exact, and its selectors fit. -/
structure Call.Fitted (c : Call) : Prop where
  exact : c.Exact
  selectors : c.SelectorsFit

/-- Eager loading takes a sequence and a selector of one parameter. -/
theorem delegateArity_of_loading {m : Method} (h : m.signature ∈ Metadata.loading) :
    m.params.map Ty.delegateArity? = [none, some 1] := by
  unfold Method.params
  simp only [Metadata.loading, List.mem_cons, List.not_mem_nil, or_false] at h
  rcases h with hm | hm | hm | hm <;> rw [hm] <;> rfl

/-- The selectors of an eager loading fit whatever its type arguments are. -/
theorem fitsDelegate_of_loading {m : Method} {args : List Expr} (hmem : m.signature ∈ Metadata.loading)
    (typeArgs : List Ty) (h : List.Forall₂ FitsDelegate m.params args) :
    List.Forall₂ FitsDelegate (m.withTypeArgs typeArgs).params args := by
  have harity : (m.withTypeArgs typeArgs).params.map Ty.delegateArity? =
      m.params.map Ty.delegateArity? := by
    rw [delegateArity_of_loading hmem, delegateArity_of_loading (m := m.withTypeArgs typeArgs) hmem]
  have hfits (types : List Ty) : List.Forall₂ FitsDelegate types args ↔
      List.Forall₂ (fun (arity : Option Nat) (x : Expr) =>
        ∀ n ∈ arity, x.lambda?.map (fun l => l.params.length) = some n)
        (types.map Ty.delegateArity?) args := by
    rw [List.forall₂_map_left_iff]
    rfl
  rw [hfits, harity, ← hfits]
  exact h

/-- The selectors of a counterpart fit if those of the operator do. -/
theorem selectorsFit_of_toQueryable {m m' : Method} {args args' : List Expr}
    (hfamily : m.family = .enumerable)
    (h : m.signature.TakesSelectors → List.Forall₂ FitsDelegate m.params args)
    (hfound : toQueryable m args = .ok (some (m', args'))) :
    Call.SelectorsFit ⟨m', none, args'⟩ := by
  have hcounterpart := toQueryable_eq_some hfound
  intro htakes
  have hname : m'.name = "GroupJoin" := by
    rcases htakes with ⟨hname, -⟩ | hloading
    · exact hname
    · have hmetadata := family_of_mem_loading hloading
      rw [hcounterpart.family] at hmetadata
      cases hmetadata
  have hargs := h (.inl ⟨hcounterpart.name.symm.trans hname, by
    rw [← Method.family, hfamily]
    decide⟩)
  unfold toQueryable at hfound
  rcases hta : counterpartTypeArgs m args.length with f | typeArgs <;> rw [hta] at hfound
  · cases hfound
  · obtain ⟨s, -, hat, passed, hfit, rfl⟩ := firstFit_eq_some hfound
    have hlen : m.params.length = m'.params.length := by
      simp [Method.params, hcounterpart.params]
    rw [List.forall₂_map_right_iff]
    exact (fitsDelegate_of_fitArguments hlen hargs hfit).imp fun _ _ hx => hx.quoteLambda

/-- **Selectors stay lambdas.** Every rule leaves exact calls whose selectors fit. -/
theorem established_fitted : Established Call.Fitted Call.Fitted where
  reshaped h hc := ⟨h.exact hc.exact, h.selectorsFit hc.selectors⟩
  built h := by
    refine ⟨established_exact.built h, .of_not_takes ?_⟩
    exact (by decide : ∀ s ∈ builtOperators, ¬ s.TakesSelectors) _ h.mem
  flat hc hjoined htypes hargs := by
    refine ⟨established_exact.flat hc.exact hjoined htypes hargs, .of_not_takes ?_⟩
    rcases hjoined with rfl | rfl
    · exact (by decide : ¬ Queryable.join.TakesSelectors)
    · exact (by decide : ¬ Queryable.leftJoin.TakesSelectors)
  weaken h := h
  walked hq _ _ := hq
  converted hq hrule hstays hlen hfound hord hshape := by
    refine ⟨established_exact.converted hq.exact hrule hstays hlen hfound hord hshape, ?_⟩
    cases ruleCase hrule with
    | inMemory _ _ _ hfamily =>
      exact selectorsFit_of_toQueryable hfamily
        (fun htakes => fitsDelegate_of_forall₂ (hq.selectors htakes) hshape) hfound
  kept hq _ _ := hq
  unmatched hq _ _ := hq
  member hq _ _ := hq
  loading hq hrule hlen := by
    refine ⟨fun _ _ h => h, (established_exact.loading hq.exact hrule hlen).2, fun htakes => ?_⟩
    cases ruleCase hrule with
    | loading _ _ _ _ _ hloads =>
      have hmem := mem_loading_of_loadsOrdered hloads
      exact fitsDelegate_of_loading hmem _ (hq.selectors (.inr hmem))
  elementAt hsource :=
    ⟨established_exact.elementAt hsource,
      .of_not_takes (by decide : ¬ Enumerable.elementAt.TakesSelectors)⟩
  any hsource :=
    ⟨established_exact.any hsource, .of_not_takes (by decide : ¬ Enumerable.any.TakesSelectors)⟩

/-! ## Calls that are used well -/

/-- Whether the expression is a placeholder. -/
def Expr.isPlaceholder : Expr → Bool
  | .placeholder _ => true
  | _ => false

/-- The call is exact, an annotation is given the literals that it expects, a hint is given a
placeholder, and selectors are lambdas. -/
structure Call.WellUsed (c : Call) : Prop where
  exact : c.Exact
  literals : ∀ n ∈ Note.of? c.method,
    List.Forall₂ (fun kind x => kind.admits x = true) n.literals c.args.tail
  placeholder : (Mode.hinted? c.method).isSome → ∀ x ∈ c.args, x.isPlaceholder = true
  selectors : c.SelectorsFit

instance (c : Call) : Decidable c.WellUsed :=
  decidable_of_iff
    (c.Exact ∧
      (∀ n ∈ Note.of? c.method,
        List.Forall₂ (fun kind x => kind.admits x = true) n.literals c.args.tail) ∧
      ((Mode.hinted? c.method).isSome → ∀ x ∈ c.args, x.isPlaceholder = true) ∧ c.SelectorsFit)
    ⟨fun h => ⟨h.1, h.2.1, h.2.2.1, h.2.2.2⟩,
      fun h => ⟨h.exact, h.literals, h.placeholder, h.selectors⟩⟩

/-- Every rule leaves calls that are used well, to which no rule applies again but by the type of a
part. -/
theorem established_prepared :
    Established Call.WellUsed fun c => c.Fitted ∧ c.Reduced :=
  (established_fitted.and established_reduced).of_stronger
    (fun h => ⟨⟨h.exact, h.selectors⟩, Call.ReceiverFits.of_loading h.exact.isProper.receiver⟩)
    fun h => ⟨h.1.exact, by simp [h.2.note], by simp [h.2.hint], h.1.selectors⟩

section Causes

variable {provider : Provider} {e n : Expr} {c : Call} {cause : Misuse} {s t : ReductionState}

theorem runs_placeholder {p : Placeholder} (h : Runs provider (.placeholder p) s e t) :
    e = .placeholder p := by
  obtain ⟨budget, h⟩ := h
  cases budget with
  | zero => simp [reduceOperators] at h
  | succ budget =>
    simp only [reduceOperators, Expr.reduce, yields_pure] at h
    exact h.1.symm

/-- A grouped join whose selectors fit can be written as a projection. -/
theorem correlate_isOk (hc : c.Fitted) (hm : c.is Queryable.groupJoin = true) :
    ∃ pieces, correlate c.method c.args = .ok pieces := by
  obtain ⟨⟨signature, typeArgs⟩, r, args⟩ := c
  obtain rfl : signature = Queryable.groupJoin := of_decide_eq_true hm
  have hfour : typeArgs.length = 4 := hc.exact.typeArgs
  obtain ⟨a, b, k, w, rfl⟩ : ∃ a b k w, typeArgs = [a, b, k, w] := by
    rcases typeArgs with _ | ⟨a, _ | ⟨b, _ | ⟨k, _ | ⟨w, _ | ⟨_, _⟩⟩⟩⟩⟩ <;> simp at hfour
    exact ⟨a, b, k, w, rfl⟩
  have hselectors := hc.selectors (by decide : Queryable.groupJoin.TakesSelectors)
  change List.Forall₂ FitsDelegate [.queryable a, .enumerable b, .quoted (.func [a] k),
    .quoted (.func [b] k), .quoted (.func [a, .enumerable b] w)] args at hselectors
  obtain ⟨outer, _, -, hrest₁, rfl⟩ := List.forall₂_cons_left_iff.mp hselectors
  obtain ⟨inner, _, -, hrest₂, rfl⟩ := List.forall₂_cons_left_iff.mp hrest₁
  obtain ⟨outerKey, _, houterKey, hrest₃, rfl⟩ := List.forall₂_cons_left_iff.mp hrest₂
  obtain ⟨innerKey, _, hinnerKey, hrest₄, rfl⟩ := List.forall₂_cons_left_iff.mp hrest₃
  obtain ⟨result, _, hresult, hnil, rfl⟩ := List.forall₂_cons_left_iff.mp hrest₄
  obtain rfl := List.forall₂_nil_left_iff.mp hnil
  obtain ⟨⟨oparams, obody⟩, hol, hone⟩ := Option.map_eq_some_iff.mp (houterKey 1 rfl)
  obtain ⟨il, hil, -⟩ := Option.map_eq_some_iff.mp (hinnerKey 1 rfl)
  obtain ⟨⟨rparams, rbody⟩, hrl, htwo⟩ := Option.map_eq_some_iff.mp (hresult 2 rfl)
  obtain ⟨key, rfl⟩ := List.length_eq_one_iff.mp hone
  obtain ⟨element, group, rfl⟩ := List.length_eq_two.mp htwo
  simp [correlate, requireLambda, hol, hil, hrl, bind, Except.bind, pure, Except.pure]

theorem navigationSelector_isOk {m : Method} {source selector : Expr}
    (hmem : m.signature ∈ Metadata.loading)
    (h : List.Forall₂ FitsDelegate m.params [source, selector]) :
    ∃ l, navigationSelector m selector = .ok l := by
  have hone := delegateArity_of_loading hmem
  obtain ⟨first, second, hparams⟩ : ∃ first second, m.params = [first, second] := by
    have hlen : m.params.length = 2 := h.length_eq
    exact List.length_eq_two.mp hlen
  rw [hparams] at h hone
  have harity : second.delegateArity? = some 1 := by
    simp only [List.map_cons, List.cons.injEq] at hone
    exact hone.2.1
  cases h with
  | cons _ hrest =>
    cases hrest with
    | cons hselector _ =>
      obtain ⟨l, hl, hlen⟩ := Option.map_eq_some_iff.mp (hselector 1 harity)
      exact ⟨l, by simp [navigationSelector, hl, hlen, Selector.arity]⟩

/-- A visit of an exact call leaves an exact call. -/
theorem VisitsBy.exact {P : PartRun} (h : VisitsBy P e s c t) (he : e.EveryCall Call.Exact) :
    c.Exact := by
  cases h with
  | walked _ _ hreceiver hargs =>
    have hexact := (everyCall_call.mp he).1
    refine ⟨hexact.typeArgs, hargs.length_eq.trans hexact.args, ?_⟩
    cases hreceiver <;> exact hexact.receiver
  | converted _ _ hargs hfound =>
    have hexact := (everyCall_call.mp he).1
    have hcounterpart := toQueryable_eq_some hfound
    refine (hcounterpart.proper (hargs.length_eq.trans hexact.args)).exact (owner_of_family ?_)
    simp [hcounterpart.family]

/-- A misuse is reported of a call that is used well only if it asks a collection, that is not
constructed on the spot, for an item with other than one argument. -/
theorem membership_of_cause (hn : n.EveryCall Call.WellUsed)
    (h : Cause provider n s (.problem (.misuse cause))) :
    ∃ c collection, n.call? = some c ∧ (membershipElement? c.method).isSome ∧
      c.receiver = some collection ∧ collection.isConstruction = false ∧ c.args.length ≠ 1 ∧
      cause = .malformed c.method := by
  generalize hf : Failure.problem (.misuse cause) = f at h
  cases h with
  | @noSource m r note _ hrule =>
    have hargs := (everyCall_call.mp hn).1.exact.args
    cases ruleCase hrule with
    | note hnote =>
      rw [Note.signature_of_of? hnote] at hargs
      cases note <;> cases hargs
  | unread hrule hunread =>
    cases ruleCase hrule with
    | note hnote =>
      obtain ⟨effect, heffect⟩ := Note.effect_isOk ((everyCall_call.mp hn).1.literals _ hnote)
      cases hunread.symm.trans heffect
  | unsupported => cases hf
  | noArgument hrule =>
    have hargs := (everyCall_call.mp hn).1.exact.args
    cases ruleCase hrule with
    | hint _ hhint =>
      have hone : ∀ s ∈ Hint.all, s.params.length = 1 := by decide
      rw [hone _ (mem_hints_of_hinted hhint)] at hargs
      cases hargs
  | @unmarked m r argument found rest mode _ _ _ hrule hrun hmark =>
    cases ruleCase hrule with
    | hint _ hhint =>
      have hplaceholder := (everyCall_call.mp hn).1.placeholder (by simp [hhint]) argument (by simp)
      cases argument with
      | placeholder p =>
        rw [runs_placeholder hrun] at hmark
        cases hmark
      | _ => cases hplaceholder
  | unconverted _ _ _ hfailed =>
    subst hf
    cases outOfRange_of_toQueryable hfailed
  | @membership m r args element _ hrule hmalformed =>
    cases hf
    cases ruleCase hrule with
    | membership _ _ _ _ hmember =>
      have hreceiver : r.isSome := by
        refine (everyCall_call.mp hn).1.exact.receiver.mpr ?_
        obtain ⟨hm, owner, howner, -⟩ := membership_iff.mp hmember
        exact ⟨by simp [howner], hm.2⟩
      obtain ⟨collection, rfl⟩ := Option.isSome_iff_exists.mp hreceiver
      obtain ⟨hc, hmany⟩ := hmalformed collection rfl
      exact ⟨⟨m, some collection, args⟩, collection, rfl, by simp [hmember], rfl, hc, hmany, rfl⟩
  | loading hrule hmany =>
    have hargs := (everyCall_call.mp hn).1.exact.args
    cases ruleCase hrule with
    | loading _ _ _ _ _ hloads =>
      have htwo : ∀ s ∈ Metadata.loading, s.params.length = 2 := by decide
      exact absurd (hargs.trans (htwo _ (mem_loading_of_loadsOrdered hloads))) hmany
  | selector hrule hfailed =>
    cases ruleCase hrule with
    | loading _ _ _ _ _ hloads =>
      have hmem := mem_loading_of_loadsOrdered hloads
      obtain ⟨l, hl⟩ := navigationSelector_isOk hmem
        ((everyCall_call.mp hn).1.selectors (.inr hmem))
      cases hfailed.symm.trans hl
  | projection _ _ _ hrefused =>
    cases hf
    unfold checkProjection at hrefused
    split at hrefused <;> cases hrefused
  | ordering hvisit hord hmalformed =>
    have hexact := hvisit.exact (hn.mono fun _ hc => hc.exact)
    have htypes := hexact.typeArgs
    have hargs := hexact.args
    have hone : ∀ s ∈ [Queryable.order, Queryable.orderDescending],
        s.typeParams = 1 ∧ s.params.length = 1 := by decide
    have hmem := keyedOrdering_cases hord
    rw [(hone _ (by simp; tauto)).1] at htypes
    rw [(hone _ (by simp; tauto)).2] at hargs
    rcases hmalformed with hnone | hmany
    · rw [hnone] at htypes
      cases htypes
    · exact absurd hargs hmany

end Causes

/-! ## Normalization -/

/-- **The only misuse of well-used calls.** If normalizing a tree of well-used calls reports a misuse,
the tree has a call that asks a collection, that is not constructed on the spot, for an item with
other than one argument, and that call is reported. -/
theorem misuse_of_normalize {provider : Provider} {context context' : Context} {e : Expr}
    {cause : Misuse} (he : ∀ c ∈ e.calls, c.WellUsed)
    (h : normalize provider context e = (.error (.problem (.misuse cause)), context')) :
    ∃ c ∈ e.calls, (membershipElement? c.method).isSome ∧ c.args.length ≠ 1 ∧
      (∀ collection ∈ c.receiver, collection.isConstruction = false) ∧
      cause = .malformed c.method := by
  rcases failure_of_established established_prepared he h with
    hexhausted | ⟨n, _, hmeets, hcause⟩ | ⟨c, hc, hm, f, hfailed, -⟩
  · cases hexhausted
  · obtain ⟨c, collection, hcall, hmember, hreceiver, hbuilt, hargs, rfl⟩ :=
      membership_of_cause (hmeets.everyCall established_prepared he) hcause
    rcases hmeets.mem_or_everyCall established_prepared he with hn | hn
    · refine ⟨c, List.mem_filterMap.mpr ⟨n, hn, hcall⟩, hmember, hargs, ?_, rfl⟩
      intro x hx
      obtain rfl : collection = x := Option.some.inj (hreceiver.symm.trans hx)
      exact hbuilt
    · -- what a flattening has built is reduced, so it asks no such collection for an item
      obtain ⟨x, hx, hconstruction⟩ := ((everyCall_iff.mp hn).1 c hcall).2.membership hmember
      obtain rfl : collection = x := Option.some.inj (hreceiver.symm.trans hx)
      rw [hbuilt] at hconstruction
      cases hconstruction
  · obtain ⟨pieces, hpieces⟩ := correlate_isOk hc.1 hm
    cases hfailed.symm.trans hpieces

/-- Whether a list of numbers has a number, up to a comparer. -/
def comparedIn (number : Expr) : Expr :=
  .call ⟨.onType (.seq .list .int) "Contains" [.int, .entity "Comparer"] .bool, []⟩
    (some (.const (.reference "xs") (.seq .list .int)))
    [number, .const (.reference "comparer") (.entity "Comparer")]

/-- The orders of which a list of numbers has the id, up to a comparer, with a tag. -/
def ordersCompared : Expr :=
  let order : Param := ⟨0, "x", .entity "Order"⟩
  .apply Metadata.tagWith [.entity "Order"]
    [.apply Queryable.filter [.entity "Order"]
        [.const (.reference "DbSet<Order>()") (.queryable (.entity "Order")),
          .quote (.lambda [order] (comparedIn (.access (.param order) "Id" .int)))],
      .const (.string "compared") .string]

theorem misuse_ordersCompared :
    (∀ c ∈ ordersCompared.calls, c.WellUsed) ∧
      ∃ c ∈ ordersCompared.calls, (membershipElement? c.method).isSome ∧ c.args.length ≠ 1 ∧
        ∀ collection ∈ c.receiver, collection.isConstruction = false :=
  have hused : ∀ c ∈ ordersCompared.calls, c.WellUsed := by decide
  have hrefused : (normalize ⟨false⟩ default ordersCompared).1 = .error (.problem (.misuse
      (.malformed ⟨.onType (.seq .list .int) "Contains" [.int, .entity "Comparer"] .bool, []⟩))) :=
    rfl
  have ⟨c, hc, hmember, hargs, hbuilt, _⟩ := misuse_of_normalize hused (Prod.ext hrefused rfl)
  ⟨hused, c, hc, hmember, hargs, hbuilt⟩

/-- A membership test of another arity is not kept, even if nothing else is wrong with it. -/
theorem normalize_refuses_membership :
    (∀ c ∈ (comparedIn (.const (.int 1) .int)).calls, c.WellUsed) ∧
      normalize ⟨false⟩ default (comparedIn (.const (.int 1) .int)) =
        (.error (.problem (.misuse (.malformed
          ⟨.onType (.seq .list .int) "Contains" [.int, .entity "Comparer"] .bool, []⟩))), default) :=
  ⟨by decide, rfl⟩

end QueryNormal
