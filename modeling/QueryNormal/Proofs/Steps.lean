import QueryNormal.Proofs.Counterpart
import QueryNormal.Proofs.Parts
import QueryNormal.Proofs.Rules
import QueryNormal.Proofs.Yields

/-!
# What the operator pass can do

* `ReducesBy`: one layer of the pass, given what is done to the parts of a node.
* `VisitsBy`: a call whose parts are normal, before orderings and joins are settled.
* `SettlesBy`: what such a call becomes.
* `Runs`: a run of the pass that yields an expression.
* `Runs.induction`: a relation that every layer keeps holds of every run.

Every fact about the pass is proved from these. A proof says what each rule keeps, and does not open
the pass again.
-/

namespace QueryNormal

open Reduction

/-- What a pass does to an expression: the state before, the result and the state after. -/
abbrev PartRun : Type := Expr → ReductionState → Expr → ReductionState → Prop

/-- The lambda that maps a value to itself. -/
def Lambda.identity (p : Param) : Lambda := ⟨[p], .param p⟩

/-- The leaf for which the projection that a call makes is refused. -/
def deferredProjection? (m : Method) (args : List Expr) : Option Expr :=
  if m.is Queryable.select then
    match args[1]?.bind Expr.lambda? with
    | some ⟨[_], body⟩ => body.deferredLeaf?
    | _ => none
  else none

/-- What reading a sequence at a position becomes. `raw` is the sequence before it was visited. -/
def elementRead (element : Ty) (raw source position : Expr) : Expr :=
  if raw.isConstruction then .apply Enumerable.elementAt [element] [source, position]
  else .apply Domain.queries.elementAt [element]
    [quoteLambda (queryArgument source (some element)), quoteLambda position]

/-- What asking a sequence for an element becomes. `raw` is the sequence before it was visited. -/
def nonEmptyTest (element : Ty) (raw source : Expr) : Expr :=
  if raw.isConstruction then .apply Enumerable.any [element] [source]
  else .apply Domain.queries.any [element] [quoteLambda (queryArgument source (some element))]

/-- The selector of an eager-loading call with another body, quoted once if it was quoted. -/
def reselected (selector : Expr) (l : Lambda) : Expr :=
  if isQuote selector then l.quoted else l.toExpr

/-- Whether the node is neither a call nor a binary operation, which are what rules apply to. -/
def Expr.isPlain : Expr → Bool
  | .call .. | .binary .. => false
  | _ => true

theorem Expr.call?_of_isPlain {e : Expr} (h : e.isPlain = true) : e.call? = none := by
  cases e with
  | call | binary => cases h
  | _ => rfl

/-! ## One layer -/

/-- A call whose parts are normal: the call itself, or its counterpart on queries. -/
inductive VisitsBy (P : PartRun) : Expr → ReductionState → Call → ReductionState → Prop
  | walked {m : Method} {r r' : Option Expr} {args args' : List Expr} {s t u : ReductionState} :
      Rule.of m r args = .other → deferredProjection? m args = none → ThreadsOption P r s r' t →
      Threads P args t args' u → VisitsBy P (.call m r args) s ⟨m, r', args'⟩ u
  | converted {m m' : Method} {r : Option Expr} {args args' args'' : List Expr}
      {s t : ReductionState} :
      Rule.of m r args = .inMemory → staysInMemory m args = false → Threads P args s args' t →
      toQueryable m args' = .ok (some (m', args'')) →
      VisitsBy P (.call m r args) s ⟨m', none, args''⟩ t

/-- What a call whose parts are normal becomes. -/
inductive SettlesBy (P : PartRun) : Call → ReductionState → Expr → ReductionState → Prop
  | same {c : Call} {s : ReductionState} :
      keyedOrdering? c.method = none → Flattening.of? c = none → SettlesBy P c s c.toExpr s
  | ordered {c : Call} {s : ReductionState} {ordering : Signature} {element : Ty}
      {rest : List Ty} {source : Expr} :
      keyedOrdering? c.method = some ordering → c.method.typeArgs = element :: rest →
      c.args = [source] →
      SettlesBy P c s
        (.apply ordering [element, element]
          [source, (Lambda.identity ⟨s.supply.next, "p", element⟩).quoted])
        { s with supply := ⟨s.supply.next + 1⟩ }
  | pairs {c : Call} {s t : ReductionState} {join : GroupJoin} {left : Bool}
      {inner inner' : Expr} {result : Lambda} :
      Flattening.of? c = some (.pairs join left inner result) → P inner s inner' t →
      SettlesBy P c s (join.flat left (unwrapQueryable inner') result) t
  | members {c : Call} {s t : ReductionState} {join : GroupJoin} {left : Bool}
      {inner inner' : Expr} {outer element : Param} :
      Flattening.of? c = some (.members join left inner outer element) → P inner s inner' t →
      SettlesBy P c s
        (join.flat left inner' ⟨[outer, ⟨t.supply.next, element.name, element.ty⟩],
          .param ⟨t.supply.next, element.name, element.ty⟩⟩)
        { t with supply := ⟨t.supply.next + 1⟩ }

/-- One layer of the operator pass. Parts are reduced as `P` says, and what flattening has built
as `A` says. -/
inductive ReducesBy (provider : Provider) (P A : PartRun) :
    Expr → ReductionState → Expr → ReductionState → Prop
  | node {e e' : Expr} {s t : ReductionState} :
      e.isPlain = true → WalksBy P e s e' t → ReducesBy provider P A e s e' t
  | binary {op : BinOp} {lhs lhs' rhs rhs' : Expr} {s t u : ReductionState} :
      Sugar.of? op lhs rhs = none → P lhs s lhs' t → P rhs t rhs' u →
      ReducesBy provider P A (.binary op lhs rhs) s (.binary op lhs' rhs') u
  | elementAt {op : BinOp} {lhs lhs' rhs rhs' : Expr} {element : Ty} {s t u : ReductionState} :
      Sugar.of? op lhs rhs = some (.elementAt element) → P lhs s lhs' t → P rhs t rhs' u →
      ReducesBy provider P A (.binary op lhs rhs) s (elementRead element lhs lhs' rhs') u
  | nonEmpty {op : BinOp} {lhs rhs source source' : Expr} {element : Ty} {s t : ReductionState} :
      Sugar.of? op lhs rhs = some (.nonEmpty element) → countedSource? lhs = some source →
      P source s source' t →
      ReducesBy provider P A (.binary op lhs rhs) s (nonEmptyTest element source source') t
  | note {m : Method} {r : Option Expr} {source source' : Expr} {rest : List Expr} {n : Note}
      {effect : Effect} {s t : ReductionState} :
      Rule.of m r (source :: rest) = .note n → n.effect m rest = .ok effect →
      P source s source' t →
      ReducesBy provider P A (.call m r (source :: rest)) s source'
        { t with context := effect.apply t.context }
  | hint {m : Method} {r : Option Expr} {argument : Expr} {rest : List Expr} {mode : Mode}
      {p : Placeholder} {s t : ReductionState} :
      Rule.of m r (argument :: rest) = .hint mode → mode.supportedBy provider = true →
      P argument s (.placeholder p) t →
      ReducesBy provider P A (.call m r (argument :: rest)) s (.placeholder { p with mode }) t
  | index {m : Method} {target target' position position' : Expr} {element : Ty}
      {s t u : ReductionState} :
      Rule.of m (some target) [position] = .index element → P target s target' t →
      P position t position' u →
      ReducesBy provider P A (.call m (some target) [position]) s
        (elementRead element target target' position') u
  | kept {m : Method} {r : Option Expr} {args : List Expr} {e' : Expr} {s t : ReductionState} :
      Rule.of m r args = .inMemory → staysInMemory m args = true →
      WalksBy P (.call m r args) s e' t → ReducesBy provider P A (.call m r args) s e' t
  | unmatched {m : Method} {r r' : Option Expr} {args args' : List Expr}
      {s t u : ReductionState} :
      Rule.of m r args = .inMemory → staysInMemory m args = false → Threads P args s args' t →
      toQueryable m args' = .ok none → ThreadsOption P r t r' u →
      ReducesBy provider P A (.call m r args) s (.call m r' args') u
  | member {m : Method} {c : Expr} {args : List Expr} {element : Ty} {e' : Expr}
      {s t : ReductionState} :
      Rule.of m (some c) args = .membership element → c.isConstruction = true →
      WalksBy P (.call m (some c) args) s e' t →
      ReducesBy provider P A (.call m (some c) args) s e' t
  | contains {m : Method} {c c' item item' : Expr} {element : Ty} {s t u : ReductionState} :
      Rule.of m (some c) [item] = .membership element → c.isConstruction = false →
      P c s c' t → P item t item' u →
      ReducesBy provider P A (.call m (some c) [item]) s (contains element c c' item') u
  | loading {m : Method} {r : Option Expr} {source source' selector body body' : Expr}
      {p : Param} {s t u : ReductionState} :
      Rule.of m r [source, selector] = .loading → selector.lambda? = some ⟨[p], body⟩ →
      P source s source' t → P body t body' u →
      ReducesBy provider P A (.call m r [source, selector]) s
        (.call (reloaded m body'.ty) r [source', reselected selector ⟨[p], body'⟩]) u
  | settle {e e' : Expr} {c : Call} {s t u : ReductionState} :
      VisitsBy P e s c t → SettlesBy A c t e' u → ReducesBy provider P A e s e' u

/-! ## The layer of a run -/

section Layer

variable {provider : Provider} {again : Expr → Reduction Expr} {e e' : Expr} {c : Call}
  {m : Method} {r : Option Expr} {args : List Expr} {s t : ReductionState}

theorem yields_checkSelect {u : Unit} :
    Yields (checkSelect m args) s u t ↔ deferredProjection? m args = none ∧ s = t := by
  unfold checkSelect deferredProjection? checkProjection
  by_cases hm : m.is Queryable.select = true
  · simp only [hm, if_true]
    rcases args[1]?.bind Expr.lambda? with _ | ⟨_ | ⟨p, _ | _⟩, body⟩
    · simp
    · simp
    · rcases hleaf : body.deferredLeaf? with _ | leaf <;> simp [hleaf]
    · simp
  · simp [hm]

theorem flattening_of_ordering {ordering : Signature} {typeArgs : List Ty}
    (h : ordering = Queryable.orderBy ∨ ordering = Queryable.orderByDescending) :
    Flattening.of? ⟨⟨ordering, typeArgs⟩, r, args⟩ = none := by
  rcases hf : Flattening.of? ⟨⟨ordering, typeArgs⟩, r, args⟩ with _ | f
  · rfl
  · have hm : ordering = Queryable.selectManyPairs ∨ ordering = Queryable.selectMany :=
      is_selectMany_of_flattening hf
    rcases h with rfl | rfl <;> exact absurd hm (by decide)

/-- A call that is not ordered by its elements is only flattened. -/
theorem settle_eq_flatten (hord : keyedOrdering? c.method = none) :
    settle again c = flatten again c := by
  unfold settle
  split
  · simp [orderByItself, hord]
  · rename_i hgen
    have hflat : Flattening.of? c = none :=
      Option.eq_none_iff_forall_ne_some.mpr fun _ hf => hgen (isGenericQuery_of_flattening hf)
    simp [flatten, hflat]

/-- An ordering by the elements is only spelled out. -/
theorem settle_ordered {ordering : Signature} {element : Ty} {rest : List Ty} {source : Expr}
    (hord : keyedOrdering? c.method = some ordering) (htypes : c.method.typeArgs = element :: rest)
    (hargs : c.args = [source]) :
    settle again c = do
      let p ← Reduction.fresh "p" element
      return .apply ordering [element, element] [source, (Lambda.identity p).quoted] := by
  obtain ⟨hgen, hordering⟩ := isGenericQuery_of_keyedOrdering hord
  unfold settle orderByItself
  simp only [if_pos hgen, hord, htypes, hargs, bind_assoc, pure_bind, flatten,
    flattening_of_ordering hordering]
  rfl

theorem settle_malformed {ordering : Signature} (hord : keyedOrdering? c.method = some ordering)
    (h : c.method.typeArgs = [] ∨ c.args.length ≠ 1) :
    settle again c = Reduction.misuse (.malformed c.method) := by
  unfold settle orderByItself
  simp only [if_pos (isGenericQuery_of_keyedOrdering hord).1, hord]
  split
  · simp_all
  · rfl

theorem exists_of_wellFormed (h : ¬ (c.method.typeArgs = [] ∨ c.args.length ≠ 1)) :
    ∃ element rest source, c.method.typeArgs = element :: rest ∧ c.args = [source] := by
  obtain ⟨htypes, hargs⟩ := not_or.mp h
  obtain ⟨element, rest, htypes⟩ := List.exists_cons_of_ne_nil htypes
  obtain ⟨source, hargs⟩ := List.length_eq_one_iff.mp (not_not.mp hargs)
  exact ⟨element, rest, source, htypes, hargs⟩

theorem settlesBy_of_yields (h : Yields (settle again c) s e t) :
    SettlesBy (fun x s x' t => Yields (again x) s x' t) c s e t := by
  rcases hord : keyedOrdering? c.method with _ | ordering
  · rw [settle_eq_flatten hord] at h
    unfold flatten at h
    split at h
    · rename_i hflat
      rw [yields_pure] at h
      obtain ⟨rfl, rfl⟩ := h
      exact .same hord hflat
    · rename_i hflat
      simp only [yields_bind, yields_pure] at h
      obtain ⟨inner', u, hinner, rfl, rfl⟩ := h
      exact .pairs hflat hinner
    · rename_i hflat
      simp only [yields_bind, yields_pure, yields_fresh] at h
      obtain ⟨inner', u, hinner, _, _, ⟨rfl, rfl⟩, rfl, rfl⟩ := h
      exact .members hflat hinner
  · by_cases hshape : c.method.typeArgs = [] ∨ c.args.length ≠ 1
    · simp [settle_malformed hord hshape] at h
    · obtain ⟨element, rest, source, htypes, hargs⟩ := exists_of_wellFormed hshape
      simp only [settle_ordered hord htypes hargs, yields_bind, yields_fresh, yields_pure] at h
      obtain ⟨_, _, ⟨rfl, rfl⟩, rfl, rfl⟩ := h
      exact .ordered hord htypes hargs

theorem callInMemory_elementAt (element : Ty) (raw source position : Expr) :
    callInMemory again Enumerable.elementAt element raw [source, position] =
      pure (elementRead element raw source position) := by
  unfold callInMemory elementRead
  split
  · rfl
  · rw [convertCall, toQueryable_elementAt]
    rfl

theorem callInMemory_any (element : Ty) (raw source : Expr) :
    callInMemory again Enumerable.any element raw [source] =
      pure (nonEmptyTest element raw source) := by
  unfold callInMemory nonEmptyTest
  split
  · rfl
  · rw [convertCall, toQueryable_any]
    rfl

/-- Reading a list at a position visits the list and the position. -/
theorem reduce_index {element : Ty} {target position : Expr}
    (hrule : Rule.of m (some target) [position] = .index element) :
    (Expr.call m (some target) [position]).reduce provider again = do
      let target' ← target.reduce provider again
      let position' ← position.reduce provider again
      return elementRead element target target' position' := by
  rw [Expr.reduce.eq_def]
  simp only [hrule, Expr.reduceList, bind_assoc, pure_bind, callInMemory_elementAt]

/-- Comparing a count with zero visits the collection that is counted, and not the count. -/
theorem reduce_nonEmpty {op : BinOp} {lhs rhs source : Expr} {element : Ty}
    (hsugar : Sugar.of? op lhs rhs = some (.nonEmpty element))
    (hcounted : countedSource? lhs = some source) :
    (Expr.binary op lhs rhs).reduce provider again = do
      let source' ← source.reduce provider again
      return nonEmptyTest element source source' := by
  rcases counted_iff.mp hcounted with ⟨_, rfl, -⟩ | rfl <;>
    simp only [Expr.reduce, hsugar, callInMemory_any]

/-- The run of a part of a node. -/
abbrev partRun (provider : Provider) (again : Expr → Reduction Expr) : PartRun :=
  fun x s x' t => Yields (x.reduce provider again) s x' t

theorem threads_of_reduceList : ∀ {es es' : List Expr} {s t : ReductionState},
    Yields (Expr.reduceList provider again es) s es' t →
      Threads (partRun provider again) es s es' t
  | [], es', s, t, h => by
    rw [Expr.reduceList, yields_pure] at h
    obtain ⟨rfl, rfl⟩ := h
    exact .nil
  | x :: es, es', s, t, h => by
    simp only [Expr.reduceList, yields_bind, yields_pure] at h
    obtain ⟨x', u, hx, xs', v, hxs, rfl, rfl⟩ := h
    exact .cons hx (threads_of_reduceList hxs)

theorem threads_of_reduceOption {r r' : Option Expr}
    (h : Yields (Expr.reduceOption provider again r) s r' t) :
    ThreadsOption (partRun provider again) r s r' t := by
  cases r with
  | none =>
    rw [Expr.reduceOption, yields_pure] at h
    obtain ⟨rfl, rfl⟩ := h
    exact .none
  | some x =>
    simp only [Expr.reduceOption, yields_bind, yields_pure] at h
    obtain ⟨x', u, hx, rfl, rfl⟩ := h
    exact .some hx

theorem threads_of_reduceBindings : ∀ {bs bs' : List Binding} {s t : ReductionState},
    Yields (Expr.reduceBindings provider again bs) s bs' t →
      Threads (ThreadsBinding (partRun provider again)) bs s bs' t
  | [], bs', s, t, h => by
    rw [Expr.reduceBindings, yields_pure] at h
    obtain ⟨rfl, rfl⟩ := h
    exact .nil
  | .assign name value :: bs, bs', s, t, h => by
    simp only [Expr.reduceBindings, yields_bind, yields_pure] at h
    obtain ⟨value', u, hvalue, bs', v, hbs, rfl, rfl⟩ := h
    exact .cons (.assign hvalue) (threads_of_reduceBindings hbs)
  | .items name values :: bs, bs', s, t, h => by
    simp only [Expr.reduceBindings, yields_bind, yields_pure] at h
    obtain ⟨values', u, hvalues, bs', v, hbs, rfl, rfl⟩ := h
    exact .cons (.items (threads_of_reduceList hvalues)) (threads_of_reduceBindings hbs)

-- The attribute makes the equations of `Expr.reduce` here, once for all the proofs that open it.
attribute [local simp] Expr.reduce in
/-- Quotes are kept, and a lambda keeps its parameters. -/
theorem reduce_unquote {params : List Param} {body : Expr} : ∀ {e e' : Expr},
    e.unquote = .lambda params body → Yields (e.reduce provider again) s e' t →
      ∃ body', Yields (body.reduce provider again) s body' t ∧ e'.unquote = .lambda params body' := by
  intro e
  fun_induction Expr.unquote e with
  | case1 inner ih =>
    intro e' hq h
    simp only [Expr.reduce, yields_bind, yields_pure] at h
    obtain ⟨inner', u, hinner, rfl, rfl⟩ := h
    obtain ⟨body', hbody, hunquote⟩ := ih hq hinner
    exact ⟨body', hbody, hunquote⟩
  | case2 e =>
    rintro e' rfl h
    simp only [Expr.reduce, yields_bind, yields_pure] at h
    obtain ⟨body', u, hbody, rfl, rfl⟩ := h
    exact ⟨body', hbody, rfl⟩

/-! ### Calls, rule by rule -/

/-- The run of what flattening has built. -/
abbrev againRun (again : Expr → Reduction Expr) : PartRun := fun x s x' t => Yields (again x) s x' t

theorem reducesBy_of_note {n : Note} (hrule : Rule.of m r args = .note n)
    (h : Yields ((Expr.call m r args).reduce provider again) s e' t) :
    ReducesBy provider (partRun provider again) (againRun again) (.call m r args) s e' t := by
  rw [Expr.reduce.eq_def] at h
  simp only [hrule] at h
  cases args with
  | nil => simp at h
  | cons source rest =>
    simp only [yields_bind, yields_pure] at h
    obtain ⟨source', u, hsource, _, v, hperform, rfl, rfl⟩ := h
    unfold Note.perform at hperform
    split at hperform
    · rename_i effect heffect
      rw [yields_perform] at hperform
      subst hperform
      exact .note hrule heffect hsource
    · simp at hperform

theorem reducesBy_of_hint {mode : Mode} (hrule : Rule.of m r args = .hint mode)
    (h : Yields ((Expr.call m r args).reduce provider again) s e' t) :
    ReducesBy provider (partRun provider again) (againRun again) (.call m r args) s e' t := by
  rw [Expr.reduce.eq_def] at h
  simp only [hrule] at h
  split at h
  · rename_i hsupported
    cases args with
    | nil => simp at h
    | cons argument rest =>
      simp only [yields_bind] at h
      obtain ⟨argument', u, hargument, h⟩ := h
      cases argument' with
      | placeholder p =>
        simp only [Mode.mark, yields_pure] at h
        obtain ⟨rfl, rfl⟩ := h
        exact .hint hrule hsupported hargument
      | _ => simp [Mode.mark] at h
  · simp at h

theorem reducesBy_of_index {element : Ty} (hrule : Rule.of m r args = .index element)
    (h : Yields ((Expr.call m r args).reduce provider again) s e' t) :
    ReducesBy provider (partRun provider again) (againRun again) (.call m r args) s e' t := by
  obtain ⟨target, position, rfl, rfl⟩ := exists_of_index hrule
  rw [reduce_index hrule] at h
  simp only [yields_bind, yields_pure] at h
  obtain ⟨target', u, htarget, position', v, hposition, rfl, rfl⟩ := h
  exact .index hrule htarget hposition

theorem reducesBy_of_inMemory (hrule : Rule.of m r args = .inMemory)
    (h : Yields ((Expr.call m r args).reduce provider again) s e' t) :
    ReducesBy provider (partRun provider again) (againRun again) (.call m r args) s e' t := by
  rw [Expr.reduce.eq_def] at h
  simp only [hrule] at h
  by_cases hstays : staysInMemory m args = true
  · simp only [hstays, if_true, yields_bind, yields_pure] at h
    obtain ⟨r', u, hr, args', v, hargs, rfl, rfl⟩ := h
    exact .kept hrule hstays
      (.call (threads_of_reduceOption hr) (threads_of_reduceList hargs))
  · rw [Bool.not_eq_true] at hstays
    simp only [hstays, Bool.false_eq_true, if_false, yields_bind, convertCall,
      yields_ofExcept] at h
    obtain ⟨args', u, hargs, result, v, ⟨found, _, ⟨hfound, rfl⟩, hresult⟩, h⟩ := h
    cases found with
    | none =>
      simp only [yields_pure] at hresult
      obtain ⟨rfl, rfl⟩ := hresult
      simp only [yields_bind, yields_pure] at h
      obtain ⟨r', w, hr, rfl, rfl⟩ := h
      exact .unmatched hrule hstays (threads_of_reduceList hargs) hfound (threads_of_reduceOption hr)
    | some found =>
      obtain ⟨m', args''⟩ := found
      simp only [yields_bind, yields_pure] at hresult
      obtain ⟨e'', w, hsettle, rfl, rfl⟩ := hresult
      simp only [yields_pure] at h
      obtain ⟨rfl, rfl⟩ := h
      exact .settle (.converted hrule hstays (threads_of_reduceList hargs) hfound)
        (settlesBy_of_yields hsettle)

theorem reducesBy_of_membership {element : Ty} (hrule : Rule.of m r args = .membership element)
    (h : Yields ((Expr.call m r args).reduce provider again) s e' t) :
    ReducesBy provider (partRun provider again) (againRun again) (.call m r args) s e' t := by
  rw [Expr.reduce.eq_def] at h
  simp only [hrule] at h
  cases r with
  | none => simp at h
  | some c =>
    by_cases hc : c.isConstruction = true
    · simp only [hc, if_true, yields_bind, yields_pure] at h
      obtain ⟨c', u, hcollection, args', v, hargs, rfl, rfl⟩ := h
      exact .member hrule hc (.call (.some hcollection) (threads_of_reduceList hargs))
    · rw [Bool.not_eq_true] at hc
      simp only [hc, Bool.false_eq_true, if_false] at h
      split at h
      · simp only [yields_bind, yields_pure] at h
        obtain ⟨c', u, hcollection, item', v, hitem, rfl, rfl⟩ := h
        exact .contains hrule hc hcollection hitem
      · simp at h

theorem reducesBy_of_loading (hrule : Rule.of m r args = .loading)
    (h : Yields ((Expr.call m r args).reduce provider again) s e' t) :
    ReducesBy provider (partRun provider again) (againRun again) (.call m r args) s e' t := by
  rw [Expr.reduce.eq_def] at h
  simp only [hrule] at h
  split at h
  · rename_i source selector
    simp only [yields_bind] at h
    obtain ⟨source', u, hsource, h⟩ := h
    unfold navigationSelector at h
    rcases hlambda : selector.lambda? with _ | ⟨params, body⟩
    · simp [hlambda] at h
    · rw [hlambda] at h
      by_cases hone : params.length = Selector.navigation.arity
      · obtain ⟨p, rfl⟩ := List.length_eq_one_iff.mp hone
        simp only [hone, if_true, yields_bind] at h
        obtain ⟨normal, v, hnormal, h⟩ := h
        have hunquote : selector.unquote = .lambda [p] body := by
          unfold Expr.lambda? at hlambda
          split at hlambda <;> cases hlambda
          assumption
        obtain ⟨body', hbody, hunquote'⟩ := reduce_unquote hunquote hnormal
        rw [hunquote', yields_pure] at h
        obtain ⟨rfl, rfl⟩ := h
        exact .loading hrule hlambda hsource hbody
      · simp [hone] at h
  · simp at h

theorem reducesBy_of_other (hrule : Rule.of m r args = .other)
    (h : Yields ((Expr.call m r args).reduce provider again) s e' t) :
    ReducesBy provider (partRun provider again) (againRun again) (.call m r args) s e' t := by
  rw [Expr.reduce.eq_def] at h
  simp only [hrule, yields_bind, yields_checkSelect] at h
  obtain ⟨_, _, ⟨hproj, rfl⟩, r', u, hr, args', v, hargs, h⟩ := h
  exact .settle (.walked hrule hproj (threads_of_reduceOption hr) (threads_of_reduceList hargs))
    (settlesBy_of_yields h)

theorem reducesBy_of_nonEmpty {op : BinOp} {lhs rhs : Expr} {element : Ty}
    (hsugar : Sugar.of? op lhs rhs = some (.nonEmpty element))
    (h : Yields ((Expr.binary op lhs rhs).reduce provider again) s e' t) :
    ReducesBy provider (partRun provider again) (againRun again) (.binary op lhs rhs) s e' t := by
  cases sugarCase hsugar with
  | nonEmpty _ _ hcounted _ =>
    simp only [reduce_nonEmpty hsugar hcounted, yields_bind, yields_pure] at h
    obtain ⟨source', u, hrun, rfl, rfl⟩ := h
    exact .nonEmpty hsugar hcounted hrun

/-- Every run that yields an expression is a layer over runs of the parts. -/
theorem reducesBy_of_yields (h : Yields (e.reduce provider again) s e' t) :
    ReducesBy provider (partRun provider again) (againRun again) e s e' t := by
  cases e with
  | call m r args =>
    cases hrule : Rule.of m r args with
    | note n => exact reducesBy_of_note hrule h
    | hint mode => exact reducesBy_of_hint hrule h
    | index element => exact reducesBy_of_index hrule h
    | inMemory => exact reducesBy_of_inMemory hrule h
    | membership element => exact reducesBy_of_membership hrule h
    | loading => exact reducesBy_of_loading hrule h
    | other => exact reducesBy_of_other hrule h
  | lambda params body =>
    simp only [Expr.reduce, yields_bind, yields_pure] at h
    obtain ⟨body', u, hbody, rfl, rfl⟩ := h
    exact .node rfl (.lambda hbody)
  | quote inner =>
    simp only [Expr.reduce, yields_bind, yields_pure] at h
    obtain ⟨inner', u, hinner, rfl, rfl⟩ := h
    exact .node rfl (.quote hinner)
  | param p =>
    simp only [Expr.reduce, yields_pure] at h
    obtain ⟨rfl, rfl⟩ := h
    exact .node rfl .param
  | member target m =>
    simp only [Expr.reduce, yields_bind, yields_pure] at h
    obtain ⟨target', u, htarget, rfl, rfl⟩ := h
    exact .node rfl (.member (threads_of_reduceOption htarget))
  | binary op lhs rhs =>
    rcases hsugar : Sugar.of? op lhs rhs with _ | element | element
    · simp only [Expr.reduce, hsugar, yields_bind, yields_pure] at h
      obtain ⟨lhs', u, hlhs, rhs', v, hrhs, rfl, rfl⟩ := h
      exact .binary hsugar hlhs hrhs
    · simp only [Expr.reduce, hsugar, yields_bind, callInMemory_elementAt, yields_pure] at h
      obtain ⟨lhs', u, hlhs, rhs', v, hrhs, rfl, rfl⟩ := h
      exact .elementAt hsugar hlhs hrhs
    · exact reducesBy_of_nonEmpty hsugar h
  | unary op operand =>
    simp only [Expr.reduce, yields_bind, yields_pure] at h
    obtain ⟨operand', u, hoperand, rfl, rfl⟩ := h
    exact .node rfl (.unary hoperand)
  | const value type =>
    simp only [Expr.reduce, yields_pure] at h
    obtain ⟨rfl, rfl⟩ := h
    exact .node rfl .const
  | new type args names =>
    simp only [Expr.reduce, yields_bind, yields_pure] at h
    obtain ⟨args', u, hargs, rfl, rfl⟩ := h
    exact .node rfl (.new (threads_of_reduceList hargs))
  | newWith type args names bindings =>
    simp only [Expr.reduce, yields_bind, yields_pure] at h
    obtain ⟨args', u, hargs, bindings', v, hbindings, rfl, rfl⟩ := h
    exact .node rfl
      (.newWith (threads_of_reduceList hargs) (threads_of_reduceBindings hbindings))
  | cond test a b =>
    simp only [Expr.reduce, yields_bind, yields_pure] at h
    obtain ⟨test', u, htest, a', v, ha, b', w, hb, rfl, rfl⟩ := h
    exact .node rfl (.cond htest ha hb)
  | placeholder p =>
    simp only [Expr.reduce, yields_pure] at h
    obtain ⟨rfl, rfl⟩ := h
    exact .node rfl .placeholder

end Layer

/-! ## Runs -/

/-- A run of the operator pass, within some budget, yields an expression. -/
def Runs (provider : Provider) : PartRun := fun e s e' t =>
  ∃ budget, Yields (reduceOperators provider budget e) s e' t

section Induction

variable {provider : Provider} {P Q A B : PartRun} {e e' : Expr} {c : Call}
  {s t : ReductionState}

theorem size_of_counted {source : Expr} (h : countedSource? e = some source) :
    source.size < e.size := by
  rcases counted_iff.mp h with ⟨_, rfl, -⟩ | rfl <;>
    exact Expr.size_lt_of_mem (by simp [Expr.parts])

theorem size_of_lambda {l : Lambda} (h : e.lambda? = some l) : l.body.size < e.size := by
  refine Expr.induction_lambda (P := fun e => l.body.size < e.size) h ?_ ?_
  · exact Expr.size_lt_of_mem (by simp [Lambda.toExpr, Expr.parts])
  · intro x hx
    exact Nat.lt_trans hx (Expr.size_lt_of_mem (by simp [Expr.parts]))

theorem VisitsBy.mono (h : VisitsBy P e s c t)
    (hpq : ∀ x, x.size < e.size → ∀ s y t, P x s y t → Q x s y t) : VisitsBy Q e s c t := by
  cases h with
  | walked hrule hproj hr hargs =>
    exact .walked hrule hproj
      (hr.mono_mem fun x hx => hpq x (Expr.size_lt_of_mem (by simp_all [Expr.parts])))
      (hargs.mono_mem fun x hx => hpq x (Expr.size_lt_of_mem (by simp [Expr.parts, hx])))
  | converted hrule hstays hargs hfound =>
    exact .converted hrule hstays
      (hargs.mono_mem fun x hx => hpq x (Expr.size_lt_of_mem (by simp [Expr.parts, hx]))) hfound

theorem SettlesBy.mono (h : SettlesBy A c s e t) (hab : ∀ x s y t, A x s y t → B x s y t) :
    SettlesBy B c s e t := by
  cases h with
  | same hord hflat => exact .same hord hflat
  | ordered hord htypes hargs => exact .ordered hord htypes hargs
  | pairs hflat hinner => exact .pairs hflat (hab _ _ _ _ hinner)
  | members hflat hinner => exact .members hflat (hab _ _ _ _ hinner)

/-- A layer depends only on what is done to smaller expressions, and to what was built. -/
theorem ReducesBy.mono (h : ReducesBy provider P A e s e' t)
    (hpq : ∀ x, x.size < e.size → ∀ s y t, P x s y t → Q x s y t)
    (hab : ∀ x s y t, A x s y t → B x s y t) : ReducesBy provider Q B e s e' t := by
  have hpart : ∀ x ∈ e.parts, ∀ s y t, P x s y t → Q x s y t :=
    fun x hx => hpq x (Expr.size_lt_of_mem hx)
  cases h with
  | node hplain hwalk => exact .node hplain (hwalk.mono_mem hpart)
  | binary hsugar hl hr =>
    exact .binary hsugar (hpart _ (by simp [Expr.parts]) _ _ _ hl)
      (hpart _ (by simp [Expr.parts]) _ _ _ hr)
  | elementAt hsugar hl hr =>
    exact .elementAt hsugar (hpart _ (by simp [Expr.parts]) _ _ _ hl)
      (hpart _ (by simp [Expr.parts]) _ _ _ hr)
  | nonEmpty hsugar hsource hrun =>
    refine .nonEmpty hsugar hsource (hpq _ ?_ _ _ _ hrun)
    exact Nat.lt_trans (size_of_counted hsource) (Expr.size_lt_of_mem (by simp [Expr.parts]))
  | note hrule heffect hrun =>
    exact .note hrule heffect (hpart _ (by simp [Expr.parts]) _ _ _ hrun)
  | hint hrule hsup hrun => exact .hint hrule hsup (hpart _ (by simp [Expr.parts]) _ _ _ hrun)
  | index hrule ht hp =>
    exact .index hrule (hpart _ (by simp [Expr.parts]) _ _ _ ht)
      (hpart _ (by simp [Expr.parts]) _ _ _ hp)
  | kept hrule hstays hwalk => exact .kept hrule hstays (hwalk.mono_mem hpart)
  | unmatched hrule hstays hargs hfound hr =>
    exact .unmatched hrule hstays
      (hargs.mono_mem fun x hx => hpart x (by simp [Expr.parts, hx])) hfound
      (hr.mono_mem fun x hx => hpart x (by simp_all [Expr.parts]))
  | member hrule hc hwalk => exact .member hrule hc (hwalk.mono_mem hpart)
  | contains hrule hc hcol hitem =>
    exact .contains hrule hc (hpart _ (by simp [Expr.parts]) _ _ _ hcol)
      (hpart _ (by simp [Expr.parts]) _ _ _ hitem)
  | loading hrule hlambda hsource hbody =>
    refine .loading hrule hlambda (hpart _ (by simp [Expr.parts]) _ _ _ hsource)
      (hpq _ ?_ _ _ _ hbody)
    exact Nat.lt_trans (size_of_lambda hlambda) (Expr.size_lt_of_mem (by simp [Expr.parts]))
  | settle hvisit hsettle => exact .settle (hvisit.mono hpq) (hsettle.mono hab)

/-- **Induction over runs.** A relation that every layer keeps, given that the parts and what
flattening has built are runs that satisfy it, holds of every run. -/
theorem Runs.induction_run
    (hstep : ∀ {e e' : Expr} {s t : ReductionState},
      ReducesBy provider (fun x s y t => Runs provider x s y t ∧ P x s y t)
        (fun x s y t => Runs provider x s y t ∧ P x s y t) e s e' t → P e s e' t)
    (h : Runs provider e s e' t) : P e s e' t := by
  obtain ⟨budget, h⟩ := h
  induction budget generalizing e e' s t with
  | zero => simp [reduceOperators] at h
  | succ budget ih =>
    -- inside one visit the tree gets smaller; a visit of what was built has less budget
    induction hn : e.size using Nat.strongRecOn generalizing e e' s t with
    | _ n ihn =>
      subst hn
      refine hstep ((reducesBy_of_yields h).mono ?_ ?_)
      · intro x hx s y t hrun
        exact ⟨⟨budget + 1, hrun⟩, ihn _ hx hrun rfl⟩
      · intro x s y t hrun
        exact ⟨⟨budget, hrun⟩, ih hrun⟩

theorem Runs.induction
    (hstep : ∀ {e e' : Expr} {s t : ReductionState},
      ReducesBy provider P P e s e' t → P e s e' t)
    (h : Runs provider e s e' t) : P e s e' t := by
  refine Runs.induction_run (fun hlayer => hstep ?_) h
  exact hlayer.mono (fun _ _ _ _ _ hx => hx.2) fun _ _ _ _ hx => hx.2

end Induction

/-- How normalizing ends is how the two passes do. -/
theorem normalize_of_run {provider : Provider} {context : Context} {e : Expr}
    {result : Except Failure Expr} {t : ReductionState}
    (h : ((reduceQuery provider e).run.run ⟨context, .after e⟩).run = (result, t)) :
    normalize provider context e = (result, t.context) :=
  congrArg (fun out => (out.1, out.2.context)) h

/-- What a normal form comes from: what the operator pass yields, and then the grouped-join pass. -/
theorem yields_of_normalize {provider : Provider} {context context' : Context} {e e' : Expr}
    (h : normalize provider context e = (.ok e', context')) :
    ∃ middle t, Yields (reduceOperators provider e.budget e) ⟨context, .after e⟩ middle t ∧
      t.context = context' ∧ finishGroupJoins middle = .ok e' := by
  have hyields : ∃ t : ReductionState, Yields (reduceQuery provider e) ⟨context, .after e⟩ e' t ∧
      t.context = context' := by
    rcases hrun : ((reduceQuery provider e).run.run ⟨context, .after e⟩).run with ⟨result, t⟩
    change (match ((reduceQuery provider e).run.run ⟨context, .after e⟩).run with
      | (result, t) => (result, t.context)) = _ at h
    rw [hrun] at h
    cases h
    exact ⟨t, hrun, rfl⟩
  obtain ⟨t, hrun, rfl⟩ := hyields
  simp only [reduceQuery, yields_bind, yields_ofExcept] at hrun
  obtain ⟨middle, u, hmiddle, hfinish, rfl⟩ := hrun
  exact ⟨middle, u, hmiddle, rfl, hfinish⟩

theorem runs_of_normalize {provider : Provider} {context context' : Context} {e e' : Expr}
    (h : normalize provider context e = (.ok e', context')) :
    ∃ middle t, Runs provider e ⟨context, .after e⟩ middle t ∧ t.context = context' ∧
      finishGroupJoins middle = .ok e' := by
  obtain ⟨middle, t, hmiddle, hrest⟩ := yields_of_normalize h
  exact ⟨middle, t, ⟨_, hmiddle⟩, hrest⟩

end QueryNormal
