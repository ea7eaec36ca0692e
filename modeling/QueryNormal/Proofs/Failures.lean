import QueryNormal.Proofs.Invariants

/-!
# Why there is no normal form

* `Cause`: why the operator pass fails at a node.
* `cause_of_fails`: the operator pass fails only with a cause at a node that it meets, or because the
  budget is used up.
* `uncorrelated_of_reduceGroupJoins`: the grouped-join pass fails only at a grouped join that cannot
  be written as a projection, or because the budget is used up.
* `failure_of_established`: a query has no normal form only for one of these reasons.
-/

namespace QueryNormal

open QueryNormal.Expr Reduction

/-! ## Causes -/

/-- Why the operator pass, begun on the node in the state, fails at it, given that it does not fail
in the parts. -/
inductive Cause (provider : Provider) : Expr → ReductionState → Failure → Prop
  | noSource {m : Method} {r : Option Expr} {n : Note} {s : ReductionState} :
      Rule.of m r [] = .note n → Cause provider (.call m r []) s (.problem (.misuse (.noSource m)))
  | unread {m : Method} {r : Option Expr} {source : Expr} {rest : List Expr} {n : Note}
      {cause : Misuse} {s : ReductionState} : Rule.of m r (source :: rest) = .note n →
      n.effect m rest = .error cause → Cause provider (.call m r (source :: rest)) s (.problem (.misuse cause))
  | unsupported {m : Method} {r : Option Expr} {args : List Expr} {mode : Mode}
      {s : ReductionState} : Rule.of m r args = .hint mode → mode.supportedBy provider = false →
      Cause provider (.call m r args) s (.problem .constantsUnsupported)
  | noArgument {m : Method} {r : Option Expr} {mode : Mode} {s : ReductionState} :
      Rule.of m r [] = .hint mode → Cause provider (.call m r []) s (.problem (.misuse (.noArgument m)))
  | unmarked {m : Method} {r : Option Expr} {argument found : Expr} {rest : List Expr} {mode : Mode}
      {cause : Misuse} {s t : ReductionState} : Rule.of m r (argument :: rest) = .hint mode →
      Runs provider argument s found t → mode.mark m found = .error cause →
      Cause provider (.call m r (argument :: rest)) s (.problem (.misuse cause))
  | unconverted {m : Method} {r : Option Expr} {args args' : List Expr} {f : Failure}
      {s t : ReductionState} : Rule.of m r args = .inMemory → staysInMemory m args = false →
      Threads (Runs provider) args s args' t → toQueryable m args' = .error f →
      Cause provider (.call m r args) s f
  | membership {m : Method} {r : Option Expr} {args : List Expr} {element : Ty}
      {s : ReductionState} : Rule.of m r args = .membership element →
      (∀ c ∈ r, c.isConstruction = false ∧ args.length ≠ 1) →
      Cause provider (.call m r args) s (.problem (.misuse (.malformed m)))
  | loading {m : Method} {r : Option Expr} {args : List Expr} {s : ReductionState} :
      Rule.of m r args = .loading → args.length ≠ 2 →
      Cause provider (.call m r args) s (.problem (.misuse (.malformed m)))
  | selector {m : Method} {r : Option Expr} {source selector : Expr} {cause : Misuse}
      {s : ReductionState} : Rule.of m r [source, selector] = .loading →
      navigationSelector m selector = .error cause →
      Cause provider (.call m r [source, selector]) s (.problem (.misuse cause))
  | projection {m : Method} {r : Option Expr} {args : List Expr} {p : Param} {body : Expr}
      {problem : Problem} {s : ReductionState} : Rule.of m r args = .other →
      m.is Queryable.select = true → args[1]?.bind lambda? = some ⟨[p], body⟩ →
      checkProjection p body = .error problem → Cause provider (.call m r args) s (.problem problem)
  | ordering {e : Expr} {c : Call} {ordering : Signature} {s t : ReductionState} :
      VisitsBy (Runs provider) e s c t → keyedOrdering? c.method = some ordering →
      (c.method.typeArgs = [] ∨ c.args.length ≠ 1) →
      Cause provider e s (.problem (.misuse (.malformed c.method)))

/-- One layer of a failing run: a part fails as `F` says, what a flattening has built fails as `A`
says, or the node itself fails. -/
inductive FailsBy (provider : Provider) (F A : Expr → ReductionState → Failure → Prop) (e : Expr)
    (s : ReductionState) (f : Failure) : Prop
  | part {x : Expr} {u : ReductionState} : Enters provider e s x u → F x u f →
      FailsBy provider F A e s f
  | again {c : Call} {flattening : Flattening} {u : ReductionState} :
      VisitsBy (Runs provider) e s c u → Flattening.of? c = some flattening →
      A flattening.inner u f → FailsBy provider F A e s f
  | own : Cause provider e s f → FailsBy provider F A e s f

section Layer

variable {provider : Provider} {again : Expr → Reduction Expr} {budget : Nat} {e : Expr} {c : Call}
  {m : Method} {r : Option Expr} {args : List Expr} {f : Failure} {s t : ReductionState}

/-! ## Lists, options and bindings -/

/-- The computation, begun in the state, fails so. -/
def CanFail {α : Type} (x : Reduction α) (s : ReductionState) (f : Failure) : Prop :=
  ∃ t, Fails x s f t

/-- A list fails at an item, in the state in which those before it leave off. -/
def ListCanFail (provider : Provider) (again : Expr → Reduction Expr) (es : List Expr)
    (s : ReductionState) (f : Failure) : Prop :=
  ∃ l l' x u, l ++ [x] <+: es ∧ Threads (partRun provider again) l s l' u ∧
    CanFail (x.reduce provider again) u f

theorem ListCanFail.cons {x x' : Expr} {es : List Expr} (hx : Yields (x.reduce provider again) s x' t)
    (h : ListCanFail provider again es t f) : ListCanFail provider again (x :: es) s f := by
  obtain ⟨l, l', y, u, hfirst, hbefore, hfail⟩ := h
  exact ⟨x :: l, x' :: l', y, u, List.cons_prefix_cons.mpr ⟨rfl, hfirst⟩, .cons hx hbefore, hfail⟩

theorem ListCanFail.append {es es' rest : List Expr} (hes : Threads (partRun provider again) es s es' t)
    (h : ListCanFail provider again rest t f) : ListCanFail provider again (es ++ rest) s f := by
  induction hes with
  | nil => exact h
  | cons hx _ ih => exact (ih h).cons hx

theorem ListCanFail.extend {es rest : List Expr} (h : ListCanFail provider again es s f)
    (hfirst : es <+: rest) : ListCanFail provider again rest s f := by
  obtain ⟨l, l', y, u, hl, hrest⟩ := h
  exact ⟨l, l', y, u, hl.trans hfirst, hrest⟩

theorem listCanFail_of_head {x : Expr} {es : List Expr} (h : Fails (x.reduce provider again) s f t) :
    ListCanFail provider again (x :: es) s f :=
  ⟨[], [], x, s, List.prefix_append [x] es, .nil, t, h⟩

theorem listCanFail_of_reduceList : ∀ {es : List Expr} {s t : ReductionState},
    Fails (reduceList provider again es) s f t → ListCanFail provider again es s f
  | [], _, _, h => by simp [reduceList] at h
  | x :: es, s, t, h => by
    simp only [reduceList, fails_bind, not_fails_pure, and_false, exists_false, or_false] at h
    rcases h with h | ⟨_, _, hx, h⟩
    · exact listCanFail_of_head h
    · exact (listCanFail_of_reduceList h).cons hx

theorem listCanFail_of_reduceOption (h : Fails (reduceOption provider again r) s f t) :
    ListCanFail provider again r.toList s f := by
  cases r with
  | none => simp [reduceOption] at h
  | some x =>
    simp only [reduceOption, fails_bind, not_fails_pure, and_false, exists_false, or_false] at h
    exact listCanFail_of_head h

theorem listCanFail_of_reduceBindings : ∀ {bs : List Binding} {s t : ReductionState},
    Fails (reduceBindings provider again bs) s f t →
      ListCanFail provider again (bs.flatMap Binding.values) s f
  | [], _, _, h => by simp [reduceBindings] at h
  | .assign name value :: bs, s, t, h => by
    simp only [reduceBindings, fails_bind, not_fails_pure, and_false, exists_false, or_false] at h
    rcases h with h | ⟨_, _, hvalue, h⟩
    · exact listCanFail_of_head h
    · exact (listCanFail_of_reduceBindings h).cons hvalue
  | .items name values :: bs, s, t, h => by
    simp only [reduceBindings, fails_bind, not_fails_pure, and_false, exists_false, or_false] at h
    rcases h with h | ⟨_, _, hvalues, h⟩
    · exact (listCanFail_of_reduceList h).extend (List.prefix_append values _)
    · exact (listCanFail_of_reduceBindings h).append (threads_of_reduceList hvalues)

/-! ## Calls, rule by rule -/

/-- One layer of a failing run within a budget. -/
abbrev FailsWithin (provider : Provider) (budget : Nat) (e : Expr) (s : ReductionState)
    (f : Failure) : Prop :=
  FailsBy provider (fun x => CanFail (x.reduce provider (reduceOperators provider budget)))
    (fun x => CanFail (reduceOperators provider budget x)) e s f

theorem runs_of_threads {es es' : List Expr}
    (h : Threads (partRun provider (reduceOperators provider budget)) es s es' t) :
    Threads (Runs provider) es s es' t :=
  h.mono_mem fun _ _ _ _ _ hrun => ⟨budget + 1, hrun⟩

theorem failsWithin_of_list {es : List Expr} (hagenda : e.agenda provider = es)
    (h : ListCanFail provider (reduceOperators provider budget) es s f) :
    FailsWithin provider budget e s f := by
  obtain ⟨l, l', x, u, hfirst, hbefore, hfail⟩ := h
  exact .part (.part (hagenda ▸ hfirst) (runs_of_threads hbefore)) hfail

/-- Settling a visited call fails if its ordering cannot be spelled out, or where what a flattening
has built is visited again. -/
theorem failsWithin_of_settle {u : ReductionState} (hvisit : VisitsBy (Runs provider) e s c u)
    (h : Fails (settle (reduceOperators provider budget) c) u f t) :
    FailsWithin provider budget e s f := by
  rcases hord : keyedOrdering? c.method with _ | ordering
  · rw [settle_eq_flatten hord] at h
    unfold flatten at h
    split at h
    · simp at h
    · rename_i hflat
      simp only [fails_bind, not_fails_pure, and_false, exists_false, or_false] at h
      exact .again hvisit hflat ⟨t, h⟩
    · rename_i hflat
      simp only [fails_bind, not_fails_pure, not_fails_fresh, and_false, exists_false,
        or_false] at h
      exact .again hvisit hflat ⟨t, h⟩
  · by_cases hshape : c.method.typeArgs = [] ∨ c.args.length ≠ 1
    · rw [settle_malformed hord hshape, fails_misuse] at h
      obtain ⟨rfl, -⟩ := h
      exact .own (.ordering hvisit hord hshape)
    · obtain ⟨element, rest, source, htypes, hargs⟩ := exists_of_wellFormed hshape
      simp only [settle_ordered hord htypes hargs, fails_bind, not_fails_fresh, not_fails_pure,
        and_false, exists_false, or_false] at h

theorem toQueryable_of_convertCall (h : Yields (convertCall again m args) s none t) :
    toQueryable m args = .ok none ∧ s = t := by
  simp only [convertCall, yields_bind, yields_ofExcept] at h
  obtain ⟨found, _, ⟨hfound, rfl⟩, h⟩ := h
  cases found with
  | none => exact ⟨hfound, (yields_pure.mp h).2⟩
  | some found =>
    simp only [yields_bind, yields_pure, reduceCtorEq, false_and, and_false, exists_false] at h

/-- A receiver and arguments that are visited in turn. -/
theorem failsWithin_of_call (hagenda : e.agenda provider = r.toList ++ args)
    (h : Fails (reduceOption provider (reduceOperators provider budget) r) s f t ∨
      ∃ r' u, Yields (reduceOption provider (reduceOperators provider budget) r) s r' u ∧
        Fails (reduceList provider (reduceOperators provider budget) args) u f t) :
    FailsWithin provider budget e s f := by
  refine failsWithin_of_list hagenda ?_
  rcases h with h | ⟨r', u, hr, h⟩
  · exact (listCanFail_of_reduceOption h).extend (List.prefix_append _ _)
  · exact (listCanFail_of_reduceList h).append (threads_of_reduceOption hr).threads

theorem failsWithin_of_note {n : Note} (hrule : Rule.of m r args = .note n)
    (h : Fails ((call m r args).reduce provider (reduceOperators provider budget)) s f t) :
    FailsWithin provider budget (call m r args) s f := by
  rw [Expr.reduce.eq_def] at h
  simp only [hrule] at h
  cases args with
  | nil =>
    rw [fails_misuse] at h
    obtain ⟨rfl, -⟩ := h
    exact .own (.noSource hrule)
  | cons source rest =>
    simp only [fails_bind, not_fails_pure, and_false, exists_false, or_false] at h
    rcases h with h | ⟨_, _, _, h⟩
    · exact .part (.first (by simp [agenda, hrule])) ⟨t, h⟩
    · unfold Note.perform at h
      split at h
      · simp at h
      · rename_i cause heffect
        rw [fails_misuse] at h
        obtain ⟨rfl, -⟩ := h
        exact .own (.unread hrule heffect)

theorem failsWithin_of_hint {mode : Mode} (hrule : Rule.of m r args = .hint mode)
    (h : Fails ((call m r args).reduce provider (reduceOperators provider budget)) s f t) :
    FailsWithin provider budget (call m r args) s f := by
  rw [Expr.reduce.eq_def] at h
  simp only [hrule] at h
  split at h
  · rename_i hsupported
    cases args with
    | nil =>
      rw [fails_misuse] at h
      obtain ⟨rfl, -⟩ := h
      exact .own (.noArgument hrule)
    | cons argument rest =>
      simp only [fails_bind] at h
      rcases h with h | ⟨found, u, hfound, h⟩
      · exact .part (.first (by simp [agenda, hrule, hsupported])) ⟨t, h⟩
      · split at h
        · simp at h
        · rename_i cause hmark
          rw [fails_misuse] at h
          obtain ⟨rfl, -⟩ := h
          exact .own (.unmarked hrule ⟨budget + 1, hfound⟩ hmark)
  · rename_i hunsupported
    rw [fails_fail] at h
    obtain ⟨rfl, -⟩ := h
    exact .own (.unsupported hrule (by simpa using hunsupported))

theorem failsWithin_of_index {element : Ty} (hrule : Rule.of m r args = .index element)
    (h : Fails ((call m r args).reduce provider (reduceOperators provider budget)) s f t) :
    FailsWithin provider budget (call m r args) s f := by
  obtain ⟨target, position, rfl, rfl⟩ := exists_of_index hrule
  rw [reduce_index hrule] at h
  simp only [fails_bind, not_fails_pure, and_false, exists_false, or_false] at h
  rcases h with h | ⟨_, _, htarget, h⟩
  · exact .part (.first (by simp [agenda, hrule])) ⟨t, h⟩
  · exact .part (.second (by simp [agenda, hrule]) ⟨budget + 1, htarget⟩) ⟨t, h⟩

theorem failsWithin_of_inMemory (hrule : Rule.of m r args = .inMemory)
    (h : Fails ((call m r args).reduce provider (reduceOperators provider budget)) s f t) :
    FailsWithin provider budget (call m r args) s f := by
  rw [Expr.reduce.eq_def] at h
  simp only [hrule] at h
  by_cases hstays : staysInMemory m args = true
  · have hagenda : (call m r args).agenda provider = r.toList ++ args := by
      simp [agenda, hrule, hstays]
    simp only [hstays, if_true, fails_bind, not_fails_pure, and_false, exists_false, or_false] at h
    exact failsWithin_of_call hagenda h
  · rw [Bool.not_eq_true] at hstays
    have hagenda : (call m r args).agenda provider = args := by simp [agenda, hrule, hstays]
    simp only [hstays, Bool.false_eq_true, if_false, fails_bind] at h
    rcases h with h | ⟨args', u, hrun, h⟩
    · exact failsWithin_of_list hagenda (listCanFail_of_reduceList h)
    · have hthreads := runs_of_threads (threads_of_reduceList hrun)
      rcases h with h | ⟨found, v, hfound, h⟩
      · simp only [convertCall, fails_bind, fails_ofExcept, yields_ofExcept] at h
        rcases h with ⟨hfailed, -⟩ | ⟨found, v, ⟨hfound, rfl⟩, h⟩
        · exact .own (.unconverted hrule hstays hthreads hfailed)
        · cases found with
          | none => simp at h
          | some found =>
            obtain ⟨m', args''⟩ := found
            simp only [fails_bind, not_fails_pure, and_false, exists_false, or_false] at h
            exact failsWithin_of_settle (.converted hrule hstays hthreads hfound) h
      · cases found with
        | none =>
          obtain ⟨hnone, rfl⟩ := toQueryable_of_convertCall hfound
          cases r with
          | none => simp [reduceOption] at h
          | some x =>
            simp only [reduceOption, fails_bind, not_fails_pure, and_false, exists_false,
              or_false] at h
            exact .part (.receiver hrule hstays hthreads hnone) ⟨t, h⟩
        | some e => simp at h

theorem failsWithin_of_membership {element : Ty} (hrule : Rule.of m r args = .membership element)
    (h : Fails ((call m r args).reduce provider (reduceOperators provider budget)) s f t) :
    FailsWithin provider budget (call m r args) s f := by
  rw [Expr.reduce.eq_def] at h
  simp only [hrule] at h
  cases r with
  | none =>
    rw [fails_misuse] at h
    obtain ⟨rfl, -⟩ := h
    exact .own (.membership hrule (by simp))
  | some c =>
    by_cases hc : c.isConstruction = true
    · simp only [hc, if_true, fails_bind, not_fails_pure, and_false, exists_false, or_false] at h
      have hagenda : (call m (some c) args).agenda provider = c :: args := by
        simp [agenda, hrule, hc]
      rcases h with h | ⟨_, _, hcollection, h⟩
      · exact failsWithin_of_list hagenda (listCanFail_of_head h)
      · exact failsWithin_of_list hagenda ((listCanFail_of_reduceList h).cons hcollection)
    · simp only [hc, Bool.false_eq_true, if_false] at h
      split at h
      · simp only [fails_bind, not_fails_pure, and_false, exists_false, or_false] at h
        rcases h with h | ⟨_, u, hcollection, h⟩
        · exact .part (.first (by simp [agenda, hrule])) ⟨t, h⟩
        · exact .part (.second (by simp [agenda, hrule]) ⟨budget + 1, hcollection⟩) ⟨t, h⟩
      · rename_i hmany
        rw [fails_misuse] at h
        obtain ⟨rfl, -⟩ := h
        refine .own (.membership hrule ?_)
        rintro _ ⟨⟩
        refine ⟨by simpa using hc, fun hone => ?_⟩
        obtain ⟨item, hitem⟩ := List.length_eq_one_iff.mp hone
        exact hmany item hitem

theorem failsWithin_of_loading (hrule : Rule.of m r args = .loading)
    (h : Fails ((call m r args).reduce provider (reduceOperators provider budget)) s f t) :
    FailsWithin provider budget (call m r args) s f := by
  rw [Expr.reduce.eq_def] at h
  simp only [hrule] at h
  split at h
  · rename_i source selector
    simp only [fails_bind] at h
    rcases h with h | ⟨source', u, hsource, h⟩
    · refine .part (.first ?_) ⟨t, h⟩
      rcases hselector : navigationSelector m selector with _ | _ <;> simp [agenda, hrule, hselector]
    · split at h
      · rename_i cause hselector
        rw [fails_misuse] at h
        obtain ⟨rfl, -⟩ := h
        exact .own (.selector hrule hselector)
      · rename_i l hselector
        simp only [fails_bind] at h
        rcases h with h | ⟨normal, v, hnormal, h⟩
        · exact .part (.second (by simp [agenda, hrule, hselector]) ⟨budget + 1, hsource⟩) ⟨t, h⟩
        · -- the visited selector is a lambda again
          obtain ⟨params, body, hunquote⟩ : ∃ params body, selector.unquote = .lambda params body := by
            unfold navigationSelector lambda? at hselector
            split at hselector
            · cases hselector
            · rename_i hlambda
              split at hlambda
              · exact ⟨_, _, by assumption⟩
              · cases hlambda
          obtain ⟨body', -, hnormal'⟩ := reduce_unquote hunquote hnormal
          simp [hnormal'] at h
  · rename_i hmany
    rw [fails_misuse] at h
    obtain ⟨rfl, -⟩ := h
    refine .own (.loading hrule fun htwo => ?_)
    obtain ⟨source, selector, hargs⟩ := List.length_eq_two.mp htwo
    exact hmany source selector hargs

theorem fails_checkSelect (h : Fails (checkSelect m args) s f t) :
    m.is Queryable.select = true ∧ ∃ p body problem, args[1]?.bind lambda? = some ⟨[p], body⟩ ∧
      checkProjection p body = .error problem ∧ f = .problem problem := by
  unfold checkSelect at h
  split at h
  · rename_i hm
    split at h
    · rename_i p body hlambda
      split at h
      · simp at h
      · rename_i problem hrefused
        rw [fails_fail] at h
        exact ⟨hm, p, body, problem, hlambda, hrefused, h.1.symm⟩
    · simp at h
  · simp at h

theorem failsWithin_of_other (hrule : Rule.of m r args = .other)
    (h : Fails ((call m r args).reduce provider (reduceOperators provider budget)) s f t) :
    FailsWithin provider budget (call m r args) s f := by
  rw [Expr.reduce.eq_def] at h
  simp only [hrule, fails_bind] at h
  rcases h with h | ⟨_, _, hcheck, h⟩
  · obtain ⟨hm, p, body, problem, hlambda, hrefused, rfl⟩ := fails_checkSelect h
    exact .own (.projection hrule hm hlambda hrefused)
  · obtain ⟨hprojection, rfl⟩ := yields_checkSelect.mp hcheck
    have hagenda : (call m r args).agenda provider = r.toList ++ args := by
      simp [agenda, hrule, hprojection]
    rcases h with h | ⟨r', u, hr, h | ⟨args', v, hargs, h⟩⟩
    · exact failsWithin_of_call hagenda (.inl h)
    · exact failsWithin_of_call hagenda (.inr ⟨r', u, hr, h⟩)
    · have hr' : ThreadsOption (Runs provider) r s r' u :=
        (threads_of_reduceOption hr).mono_mem fun _ _ _ _ _ hrun => ⟨budget + 1, hrun⟩
      exact failsWithin_of_settle
        (.walked hrule hprojection hr' (runs_of_threads (threads_of_reduceList hargs))) h

/-! ## Every node -/

theorem failsWithin_of_plain (hplain : e.isPlain = true)
    (h : Fails (e.reduce provider (reduceOperators provider budget)) s f t) :
    FailsWithin provider budget e s f := by
  refine failsWithin_of_list (agenda_of_isPlain hplain) ?_
  cases e with
  | call | binary => cases hplain
  | lambda params body | quote body | unary op body =>
    simp only [reduce, fails_bind, not_fails_pure, and_false, exists_false, or_false] at h
    exact listCanFail_of_head h
  | member target m =>
    simp only [reduce, fails_bind, not_fails_pure, and_false, exists_false, or_false] at h
    exact listCanFail_of_reduceOption h
  | new type args names =>
    simp only [reduce, fails_bind, not_fails_pure, and_false, exists_false, or_false] at h
    exact listCanFail_of_reduceList h
  | newWith type args names bindings =>
    simp only [reduce, fails_bind, not_fails_pure, and_false, exists_false, or_false] at h
    rcases h with h | ⟨_, _, hargs, h⟩
    · exact (listCanFail_of_reduceList h).extend (List.prefix_append args _)
    · exact (listCanFail_of_reduceBindings h).append (threads_of_reduceList hargs)
  | cond test a b =>
    simp only [reduce, fails_bind, not_fails_pure, and_false, exists_false, or_false] at h
    rcases h with h | ⟨_, _, htest, h | ⟨_, _, ha, h⟩⟩
    · exact listCanFail_of_head h
    · exact (listCanFail_of_head h).cons htest
    · exact ((listCanFail_of_head h).cons ha).cons htest
  | param | const | placeholder => simp [reduce] at h

theorem failsWithin_of_binary {op : BinOp} {lhs rhs : Expr}
    (h : Fails ((binary op lhs rhs).reduce provider (reduceOperators provider budget)) s f t) :
    FailsWithin provider budget (binary op lhs rhs) s f := by
  rcases hsugar : Sugar.of? op lhs rhs with _ | element | element
  · simp only [reduce, hsugar, fails_bind, not_fails_pure, and_false, exists_false, or_false] at h
    rcases h with h | ⟨_, u, hlhs, h⟩
    · exact .part (.first (by simp [agenda, hsugar])) ⟨t, h⟩
    · exact .part (.second (by simp [agenda, hsugar]) ⟨budget + 1, hlhs⟩) ⟨t, h⟩
  · simp only [reduce, hsugar, callInMemory_elementAt, fails_bind, not_fails_pure, and_false,
      exists_false, or_false] at h
    rcases h with h | ⟨_, u, hlhs, h⟩
    · exact .part (.first (by simp [agenda, hsugar])) ⟨t, h⟩
    · exact .part (.second (by simp [agenda, hsugar]) ⟨budget + 1, hlhs⟩) ⟨t, h⟩
  · cases sugarCase hsugar with
    | @nonEmpty _ source _ _ _ _ hcounted =>
      rw [reduce_nonEmpty hsugar hcounted] at h
      simp only [fails_bind, not_fails_pure, and_false, exists_false, or_false] at h
      exact .part (.first (by simp [agenda, hsugar, hcounted])) ⟨t, h⟩

/-- Every failing run is a layer over failing runs. -/
theorem failsWithin_of_fails
    (h : Fails (e.reduce provider (reduceOperators provider budget)) s f t) :
    FailsWithin provider budget e s f := by
  cases e with
  | call m r args =>
    cases hrule : Rule.of m r args with
    | note n => exact failsWithin_of_note hrule h
    | hint mode => exact failsWithin_of_hint hrule h
    | index element => exact failsWithin_of_index hrule h
    | inMemory => exact failsWithin_of_inMemory hrule h
    | membership element => exact failsWithin_of_membership hrule h
    | loading => exact failsWithin_of_loading hrule h
    | other => exact failsWithin_of_other hrule h
  | binary op lhs rhs => exact failsWithin_of_binary h
  | _ => exact failsWithin_of_plain rfl h

end Layer

/-! ## The operator pass -/

section Pass

variable {provider : Provider} {e : Expr} {f : Failure} {s t : ReductionState}

/-- **Why the operator pass fails.** -/
theorem cause_of_fails {budget : Nat} (h : Fails (reduceOperators provider budget e) s f t) :
    f = .exhausted ∨ ∃ n u, Meets provider e s n u ∧ Cause provider n u f := by
  induction budget generalizing e s t with
  | zero => exact .inl (fails_fail.mp h).1.symm
  | succ budget ih =>
    -- inside one visit the tree gets smaller; a visit of what was built has less budget
    induction hn : e.size using Nat.strongRecOn generalizing e s t with
    | _ size ihn =>
      subst hn
      cases failsWithin_of_fails h with
      | part henters hfail =>
        obtain ⟨_, hfail⟩ := hfail
        exact (ihn _ henters.below.2 hfail rfl).imp_right fun ⟨n, u, hmeets, hcause⟩ =>
          ⟨n, u, henters.visits.meets hmeets, hcause⟩
      | again hvisit hflat hfail =>
        obtain ⟨_, hfail⟩ := hfail
        exact (ih hfail).imp_right fun ⟨n, u, hmeets, hcause⟩ =>
          ⟨n, u, .again .here hvisit hflat hmeets, hcause⟩
      | own hcause => exact .inr ⟨e, s, .visit .here, hcause⟩

end Pass

/-! ## The grouped-join pass -/

section GroupedJoins

variable {again : Expr → Except Failure Expr} {e : Expr} {f : Failure}

theorem bind_eq_error {α β : Type} {x : Except Failure α} {k : α → Except Failure β} :
    (x >>= k) = .error f ↔ x = .error f ∨ ∃ a, x = .ok a ∧ k a = .error f := by
  cases x with
  | ok a =>
    constructor
    · intro h
      exact .inr ⟨a, rfl, h⟩
    · rintro (h | ⟨_, h, hk⟩)
      · cases h
      · cases h
        exact hk
  | error g =>
    constructor
    · intro h
      cases h
      exact .inl rfl
    · rintro (h | ⟨_, h, _⟩)
      · cases h
        rfl
      · cases h

theorem pure_ne_error {α : Type} {a : α} : (pure a : Except Failure α) ≠ .error f := by
  intro h
  cases h

/-- A grouped join with the property cannot be written as a projection, which is why there is no
normal form. -/
def Uncorrelated (p : Call → Prop) (f : Failure) : Prop :=
  ∃ c : Call, p c ∧ c.is Queryable.groupJoin = true ∧
    ∃ cause, correlate c.method c.args = .error cause ∧ f = .problem (.misuse cause)

/-- One layer of a failing run of the grouped-join pass: a part fails, what a grouped join has become
fails, or a grouped join cannot be written as a projection. -/
inductive UngroupFailsBy (again : Expr → Except Failure Expr) : Expr → Failure → Prop
  | part {e x : Expr} {f : Failure} : x ∈ e.parts → x.ungroup again = .error f →
      UngroupFailsBy again e f
  | again {m select : Method} {r : Option Expr} {args : List Expr} {outer selector x : Expr}
      {f : Failure} : m.is Queryable.groupJoin = true →
      correlate m args = .ok (select, outer, selector) → x = outer ∨ x = selector →
      again x = .error f → UngroupFailsBy again (.call m r args) f
  | own {m : Method} {r : Option Expr} {args : List Expr} {cause : Misuse} :
      m.is Queryable.groupJoin = true → correlate m args = .error cause →
      UngroupFailsBy again (.call m r args) (.problem (.misuse cause))

theorem error_of_ungroupList : ∀ {es : List Expr}, ungroupList again es = .error f →
    ∃ x ∈ es, x.ungroup again = .error f
  | [], h => absurd h pure_ne_error
  | x :: es, h => by
    simp only [ungroupList, bind_eq_error, pure_ne_error, and_false, exists_false, or_false] at h
    rcases h with h | ⟨_, _, h⟩
    · exact ⟨x, by simp, h⟩
    · obtain ⟨y, hy, hfail⟩ := error_of_ungroupList h
      exact ⟨y, by simp [hy], hfail⟩

theorem error_of_ungroupOption {r : Option Expr} (h : ungroupOption again r = .error f) :
    ∃ x ∈ r, x.ungroup again = .error f := by
  cases r with
  | none => exact absurd h pure_ne_error
  | some x =>
    simp only [ungroupOption, bind_eq_error, pure_ne_error, and_false, exists_false, or_false] at h
    exact ⟨x, rfl, h⟩

theorem error_of_ungroupBindings : ∀ {bs : List Binding}, ungroupBindings again bs = .error f →
    ∃ x ∈ bs.flatMap Binding.values, x.ungroup again = .error f
  | [], h => absurd h pure_ne_error
  | .assign name value :: bs, h => by
    simp only [ungroupBindings, bind_eq_error, pure_ne_error, and_false, exists_false,
      or_false] at h
    rcases h with h | ⟨_, _, h⟩
    · exact ⟨value, by simp [Binding.values], h⟩
    · obtain ⟨x, hx, hfail⟩ := error_of_ungroupBindings h
      exact ⟨x, List.mem_append_right _ hx, hfail⟩
  | .items name values :: bs, h => by
    simp only [ungroupBindings, bind_eq_error, pure_ne_error, and_false, exists_false,
      or_false] at h
    rcases h with h | ⟨_, _, h⟩
    · obtain ⟨x, hx, hfail⟩ := error_of_ungroupList h
      exact ⟨x, List.mem_append_left _ hx, hfail⟩
    · obtain ⟨x, hx, hfail⟩ := error_of_ungroupBindings h
      exact ⟨x, List.mem_append_right _ hx, hfail⟩

/-- Every failing run of the grouped-join pass is a layer over failing runs. -/
theorem ungroupFailsBy_of_error (h : e.ungroup again = .error f) : UngroupFailsBy again e f := by
  cases e with
  | call m r args =>
    rw [Expr.ungroup.eq_def] at h
    by_cases hm : m.is Queryable.groupJoin = true
    · simp only [hm, if_true] at h
      rcases hcor : correlate m args with cause | ⟨select, outer, selector⟩
      · simp only [hcor, Except.error.injEq] at h
        subst h
        exact .own hm hcor
      · simp only [hcor, bind_eq_error, pure_ne_error, and_false, exists_false, or_false] at h
        rcases h with h | ⟨_, _, h⟩
        · exact .again hm hcor (.inl rfl) h
        · exact .again hm hcor (.inr rfl) h
    · rw [Bool.not_eq_true] at hm
      simp only [hm, Bool.false_eq_true, if_false, bind_eq_error, pure_ne_error, and_false,
        exists_false, or_false] at h
      rcases h with h | ⟨_, _, h⟩
      · obtain ⟨x, hx, hfail⟩ := error_of_ungroupOption h
        exact .part (by simp_all [parts]) hfail
      · obtain ⟨x, hx, hfail⟩ := error_of_ungroupList h
        exact .part (by simp [parts, hx]) hfail
  | lambda params body | quote body | unary op body =>
    simp only [ungroup, bind_eq_error, pure_ne_error, and_false, exists_false, or_false] at h
    exact .part (x := body) (by simp [parts]) h
  | member target m =>
    simp only [ungroup, bind_eq_error, pure_ne_error, and_false, exists_false, or_false] at h
    obtain ⟨x, hx, hfail⟩ := error_of_ungroupOption h
    exact .part (by simp_all [parts]) hfail
  | binary op lhs rhs =>
    simp only [ungroup, bind_eq_error, pure_ne_error, and_false, exists_false, or_false] at h
    rcases h with h | ⟨_, _, h⟩
    · exact .part (x := lhs) (by simp [parts]) h
    · exact .part (x := rhs) (by simp [parts]) h
  | new type args names =>
    simp only [ungroup, bind_eq_error, pure_ne_error, and_false, exists_false, or_false] at h
    obtain ⟨x, hx, hfail⟩ := error_of_ungroupList h
    exact .part hx hfail
  | newWith type args names bindings =>
    simp only [ungroup, bind_eq_error, pure_ne_error, and_false, exists_false, or_false] at h
    rcases h with h | ⟨_, _, h⟩
    · obtain ⟨x, hx, hfail⟩ := error_of_ungroupList h
      exact .part (List.mem_append_left _ hx) hfail
    · obtain ⟨x, hx, hfail⟩ := error_of_ungroupBindings h
      exact .part (List.mem_append_right _ hx) hfail
  | cond test a b =>
    simp only [ungroup, bind_eq_error, pure_ne_error, and_false, exists_false, or_false] at h
    rcases h with h | ⟨_, _, h | ⟨_, _, h⟩⟩
    · exact .part (x := test) (by simp [parts]) h
    · exact .part (x := a) (by simp [parts]) h
    · exact .part (x := b) (by simp [parts]) h
  | param | const | placeholder => exact absurd h pure_ne_error

/-- **Why the grouped-join pass fails.** A property that rewrites maintain is one of the grouped join
that cannot be written as a projection. -/
theorem uncorrelated_of_reduceGroupJoins {p : Call → Prop} (hp : Maintained p) {budget : Nat}
    (he : e.EveryCall p) (h : reduceGroupJoins budget e = .error f) :
    f = .exhausted ∨ Uncorrelated p f := by
  induction budget generalizing e with
  | zero =>
    cases h
    exact .inl rfl
  | succ budget ih =>
    change e.ungroup (reduceGroupJoins budget) = .error f at h
    induction e using induction_parts with
    | _ e ihe =>
      cases ungroupFailsBy_of_error h with
      | part hx hfail => exact ihe _ hx (he.part hx) hfail
      | again _ hcorrelate hx hfail =>
        have hargs := (holds_call.mp (holds_top.mpr he)).2.2
        obtain ⟨houter, hselector, -⟩ := (correlatePieces hcorrelate).holds hp hargs
        rcases hx with rfl | rfl
        · exact ih houter.calls hfail
        · exact ih hselector.calls hfail
      | own hm hcause => exact .inr ⟨_, (everyCall_call.mp he).1, hm, _, hcause, rfl⟩

end GroupedJoins

/-! ## Queries without a normal form -/

/-- A query without a normal form fails in the operator pass, or in the grouped-join pass on what the
operator pass yields. -/
theorem fails_of_normalize {provider : Provider} {context context' : Context} {e : Expr}
    {f : Failure} (h : normalize provider context e = (.error f, context')) :
    (∃ t, Fails (reduceOperators provider e.budget e) ⟨context, .after e⟩ f t) ∨
      ∃ middle t, Runs provider e ⟨context, .after e⟩ middle t ∧
        reduceGroupJoins middle.budget middle = .error f := by
  have hfails : ∃ t, Fails (reduceQuery provider e) ⟨context, .after e⟩ f t := by
    rcases yields_or_fails (reduceQuery provider e) ⟨context, .after e⟩ with
      ⟨e', t, hrun⟩ | ⟨g, t, hrun⟩
    · cases (congrArg (fun out => (out.1, out.2.context)) hrun).symm.trans h
    · cases (congrArg (fun out => (out.1, out.2.context)) hrun).symm.trans h
      exact ⟨t, hrun⟩
  obtain ⟨t, hfails⟩ := hfails
  simp only [reduceQuery, fails_bind, fails_ofExcept] at hfails
  rcases hfails with hfails | ⟨middle, u, hrun, hfinish, _⟩
  · exact .inl ⟨t, hfails⟩
  · unfold finishGroupJoins at hfinish
    split at hfinish
    · exact .inr ⟨middle, u, ⟨_, hrun⟩, hfinish⟩
    · cases hfinish

/-- **Why a query has no normal form.** The operator pass has a cause at a node that it meets, a
grouped join cannot be written as a projection, or the budget is used up. A property that the rules
establish is one of that grouped join. -/
theorem failure_of_established {provider : Provider} {context context' : Context} {e : Expr}
    {f : Failure} {q p : Call → Prop} (hqp : Established q p) (he : e.EveryCall q)
    (h : normalize provider context e = (.error f, context')) :
    f = .exhausted ∨ (∃ n u, Meets provider e ⟨context, .after e⟩ n u ∧ Cause provider n u f) ∨
      Uncorrelated p f := by
  rcases fails_of_normalize h with ⟨t, hfails⟩ | ⟨middle, t, hrun, hfails⟩
  · exact (cause_of_fails hfails).imp_right .inl
  · have hmiddle : middle.EveryCall p := (hrun.improved hqp).everyCall he
    exact (uncorrelated_of_reduceGroupJoins hqp.toMaintained hmiddle hfails).imp_right .inr

theorem failure_of_normalize {provider : Provider} {context context' : Context} {e : Expr}
    {f : Failure} (h : normalize provider context e = (.error f, context')) :
    f = .exhausted ∨ (∃ n u, Meets provider e ⟨context, .after e⟩ n u ∧ Cause provider n u f) ∨
      Uncorrelated (fun _ => True) f :=
  failure_of_established established_true (fun _ _ => trivial) h

end QueryNormal
