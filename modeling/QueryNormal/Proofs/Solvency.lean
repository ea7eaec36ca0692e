import QueryNormal.Proofs.Weights

/-!
# What a run costs

* `Expr.inert`: an expression that becomes neither a lambda nor a construction.
* `Call.Fixed`: the selectors of a call that flattening reads are lambdas, or inert.
* `Call.Secured`: besides, their parameters weigh what is put in their place.
* `improves_replace`: replacing a parameter by something of at most its weight costs no more.
* `PairsPieces.within`, `MembersPieces.within`: what a flattening builds costs less than the call.
* `Runs.solvent`: in a run of the operator pass, what is drawn and what the result costs is paid for
  by what the expression costs.

The weights stay as they are during a run, so a fresh parameter must weigh nothing.
-/

namespace QueryNormal

open QueryNormal.Expr Reduction

/-! ## Selectors that stay what they are -/

/-- Whether the expression becomes neither a lambda nor a construction, whatever is done to it: rewrites
take off annotations and copies into lists, replace parameters and read members of constructions. -/
def Expr.inert : Expr → Bool
  | .quote inner => inner.inert
  | .member none _ => true
  | .member (some target) _ => target.inert
  | .call m _ _ => (Note.of? m).isNone && !m.is Enumerable.toList
  | .lambda .. | .param _ | .new .. | .newWith .. => false
  | _ => true

/-- A lambda stays a lambda of the same parameters or becomes inert, and what is inert stays so. -/
structure KeepsFixed (x y : Expr) : Prop where
  lambda {l : Lambda} : x.lambda? = some l →
    (∃ body, y.lambda? = some ⟨l.params, body⟩) ∨ y.inert = true
  inert : x.inert = true → y.inert = true

/-- The selectors in which flattening replaces a parameter are lambdas, or inert. -/
def Call.Fixed (c : Call) : Prop :=
  ∀ d ∈ feeds, c.method.isOperator d.operator = true →
    ∀ selector ∈ c.args[d.selector]?, selector.lambda?.isSome = true ∨ selector.inert = true

instance (c : Call) : Decidable c.Fixed :=
  inferInstanceAs (Decidable (∀ d ∈ feeds, c.method.isOperator d.operator = true →
    ∀ selector ∈ c.args[d.selector]?, selector.lambda?.isSome = true ∨ selector.inert = true))

section Fixed

variable {e x y z : Expr} {l : Lambda} {m : Method} {r : Option Expr} {args : List Expr}

theorem lambda_of_inert (h : e.inert = true) : e.lambda? = none := by
  rcases hl : e.lambda? with _ | l
  · rfl
  · have hnot : e.inert = false :=
      induction_lambda (P := fun x => x.inert = false) hl rfl fun x hx => hx
    rw [hnot] at h
    cases h

theorem inert_of_family (h : m.family = .queryable) : (call m r args).inert = true := by
  have hcopy : m.is Enumerable.toList = false := by
    refine decide_eq_false fun hm => ?_
    rw [Method.family, hm] at h
    cases h
  simp [inert, note_eq_none (m := m) (by simp [h]), hcopy]

theorem KeepsFixed.of_inert (hx : x.lambda? = none) (hy : x.inert = true → y.inert = true) :
    KeepsFixed x y :=
  ⟨fun hl => by simp [hx] at hl, hy⟩

theorem KeepsFixed.refl (x : Expr) : KeepsFixed x x := ⟨fun hl => .inl ⟨_, hl⟩, fun hi => hi⟩

theorem KeepsFixed.trans (h : KeepsFixed x y) (h' : KeepsFixed y z) : KeepsFixed x z := by
  refine ⟨fun hl => ?_, fun hx => h'.inert (h.inert hx)⟩
  rcases h.lambda hl with ⟨body, hbody⟩ | hy
  · exact h'.lambda (l := ⟨_, body⟩) hbody
  · exact .inr (h'.inert hy)

theorem KeepsFixed.quote (h : KeepsFixed x y) : KeepsFixed (.quote x) (.quote y) :=
  ⟨h.lambda, h.inert⟩

theorem WalksBy.keepsFixed {σ : Type} {P : Expr → σ → Expr → σ → Prop} {s t : σ}
    (h : WalksBy P x s y t) (hparts : List.Forall₂ KeepsFixed x.parts y.parts) : KeepsFixed x y := by
  cases h with
  | lambda =>
    refine ⟨fun hl => ?_, fun hi => hi⟩
    cases hl
    exact .inl ⟨_, rfl⟩
  | quote => exact (List.forall₂_cons.mp hparts).1.quote
  | member htarget =>
    cases htarget with
    | none => exact .of_inert rfl fun hi => hi
    | some => exact .of_inert rfl (List.forall₂_cons.mp hparts).1.inert
  | _ => exact .of_inert rfl fun hi => hi

theorem keepsFixed_quoteLambda (e : Expr) : KeepsFixed e (quoteLambda e) := by
  unfold quoteLambda
  split
  · exact ⟨fun hl => .inl ⟨_, hl⟩, fun hi => hi⟩
  · exact .refl e

theorem inert_asQueryable (e : Expr) (element : Ty) : (asQueryable e element).inert = true :=
  inert_of_family rfl

/-- What is not copied into a list is passed as it is, or as a query. -/
theorem queryArgument_of_uncopied {fallback : Option Ty}
    (h : (uncopied e (e.ty.element?.or fallback)).1 = e) :
    queryArgument e fallback = e ∨ (queryArgument e fallback).inert = true := by
  rcases queryArgument_eq e fallback with hsame | ⟨element, hquery⟩
  · exact .inl (hsame.trans h)
  · rw [hquery]
    exact .inr (inert_asQueryable _ _)

theorem keepsFixed_queryArgument (e : Expr) (fallback : Option Ty) :
    KeepsFixed e (queryArgument e fallback) := by
  constructor
  · intro l hl
    have huncopied : (uncopied e (e.ty.element?.or fallback)).1 = e :=
      induction_lambda (P := fun x => ∀ o, (uncopied x o).1 = x) hl (fun _ => rfl)
        (fun _ _ _ => rfl) _
    rcases queryArgument_of_uncopied huncopied with h | h
    · exact .inl ⟨l.body, by rw [h, hl]⟩
    · exact .inr h
  · intro hi
    have huncopied : (uncopied e (e.ty.element?.or fallback)).1 = e := by
      unfold uncopied
      split
      · simp only [inert, Bool.and_eq_true, Bool.not_eq_true'] at hi
        rw [if_neg (by simp [hi.2])]
      · rfl
    rcases queryArgument_of_uncopied huncopied with h | h
    · rw [h, hi]
    · exact h

theorem keepsFixed_of_passes (h : Passes x y) : KeepsFixed x (quoteLambda y) := by
  cases h with
  | same => exact keepsFixed_quoteLambda x
  | converted => exact (keepsFixed_queryArgument x _).trans (keepsFixed_quoteLambda _)

end Fixed

/-! ## Secured calls -/

/-- The selectors in which flattening replaces a parameter are lambdas, or inert, and the parameter
weighs what is put in its place. -/
structure Call.Secured (w : UInt32 → Nat) (c : Call) : Prop where
  fixed : c.Fixed
  paid : ∀ f ∈ c.fed, f.1.cost w ≤ w f.2.id

/-- The expression costs at most so much, and its calls are secured. -/
structure Expr.Within (w : UInt32 → Nat) (n : Nat) (e : Expr) : Prop where
  secured : e.EveryCall (Call.Secured w)
  cost : e.cost w ≤ n

/-- An expression may stand for another: it costs no more, its calls are secured, and a selector
stays what it is. -/
structure Improves (w : UInt32 → Nat) (x y : Expr) : Prop where
  fixed : KeepsFixed x y
  within : y.Within w (x.cost w)

/-- The operators that are charged, or in the selectors of which flattening replaces a parameter. -/
def weighedOperators : List String := "GroupJoin" :: chargedOperators

/-- Whether the method is such an operator. -/
def Method.isWeighed (m : Method) : Bool := weighedOperators.any m.isOperator

/-- The operators that rewrites introduce. -/
def introducedOperators : List Signature :=
  [Queryable.join, Queryable.leftJoin, Enumerable.elementAt, Enumerable.any] ++ builtOperators

section Secured

variable {w : UInt32 → Nat} {n a b : Nat} {e e' x y : Expr} {c c' : Call} {m : Method}
  {r : Option Expr} {args : List Expr}

theorem Expr.Within.mono (h : e.Within w a) (hab : a ≤ b) : e.Within w b :=
  ⟨h.secured, Nat.le_trans h.cost hab⟩

theorem Expr.Within.node (h : e.Within w n) (hx : x ∈ e.nodes) : x.Within w n :=
  ⟨h.secured.node hx, Nat.le_trans (cost_le_of_mem hx) h.cost⟩

theorem within_self (h : e.EveryCall (Call.Secured w)) : e.Within w (e.cost w) := ⟨h, Nat.le_refl _⟩

theorem getElem_of_forall₂ {α β : Type} {R : α → β → Prop} {as : List α} {bs : List β}
    (h : List.Forall₂ R as bs) {i : Nat} {b : β} (hb : bs[i]? = some b) :
    ∃ a, as[i]? = some a ∧ R a b := by
  induction h generalizing i with
  | nil => cases hb
  | @cons a _ _ _ hab _ ih =>
    cases i with
    | zero =>
      cases hb
      exact ⟨a, rfl, hab⟩
    | succ i => exact ih hb

theorem exists_selector : ∀ d ∈ feeds, ∃ i, d.selector = i + 1 := by
  intro d hd
  exact Nat.exists_eq_succ_of_ne_zero (Nat.ne_zero_of_lt (source_lt_selector d hd))

/-- A call stays secured if its arguments cost no more and its selectors stay what they are. The first
argument is no selector. -/
theorem Call.Secured.improve (h : c.Secured w)
    (hop : ∀ name, c'.method.isOperator name = c.method.isOperator name)
    (hcost : List.Forall₂ (fun x y => y.cost w ≤ x.cost w) c.args c'.args)
    (hfixed : List.Forall₂ KeepsFixed c.args.tail c'.args.tail) : c'.Secured w := by
  have hselectors {d : Feed} (hd : d ∈ feeds) {selector' : Expr}
      (hselector' : c'.args[d.selector]? = some selector') :
      ∃ selector, c.args[d.selector]? = some selector ∧ KeepsFixed selector selector' := by
    obtain ⟨i, hi⟩ := exists_selector d hd
    rw [hi, ← List.getElem?_tail] at hselector' ⊢
    exact getElem_of_forall₂ hfixed hselector'
  constructor
  · intro d hd hm selector' hselector'
    obtain ⟨selector, hselector, hkeeps⟩ := hselectors hd hselector'
    rcases h.fixed d hd (hop _ ▸ hm) selector hselector with hl | hinert
    · obtain ⟨l, hl⟩ := Option.isSome_iff_exists.mp hl
      rcases hkeeps.lambda hl with ⟨body, hbody⟩ | hinert
      · exact .inl (by simp [hbody])
      · exact .inr hinert
    · exact .inr (hkeeps.inert hinert)
  · rintro ⟨source', p⟩ hf
    obtain ⟨d, hd, hfed⟩ := mem_fed.mp hf
    obtain ⟨hm, hsource', selector', l', hselector', hl', hp⟩ := Feed.at?_eq_some.mp hfed
    rw [hop] at hm
    obtain ⟨source, hsource, hless⟩ := getElem_of_forall₂ hcost hsource'
    obtain ⟨selector, hselector, hkeeps⟩ := hselectors hd hselector'
    -- the selector was a lambda that declares the same parameter, or it would be inert
    have hnot : selector'.inert ≠ true := fun hinert => by simp [lambda_of_inert hinert] at hl'
    have hlambda := (h.fixed d hd hm selector hselector).resolve_right
      fun hinert => hnot (hkeeps.inert hinert)
    obtain ⟨l, hl⟩ := Option.isSome_iff_exists.mp hlambda
    obtain ⟨body, hbody⟩ := (hkeeps.lambda hl).resolve_right hnot
    obtain rfl : l' = ⟨l.params, body⟩ := Option.some.inj (hl'.symm.trans hbody)
    have hbefore : (source, p) ∈ c.fed :=
      mem_fed.mpr ⟨d, hd, Feed.at?_eq_some.mpr ⟨hm, hsource, selector, l, hselector, hl, hp⟩⟩
    exact Nat.le_trans hless (h.paid _ hbefore)

/-- A call stays secured if its arguments are improved. -/
theorem Call.Secured.of_improves (h : c.Secured w)
    (hop : ∀ name, c'.method.isOperator name = c.method.isOperator name)
    (hargs : List.Forall₂ (Improves w) c.args c'.args) : c'.Secured w := by
  refine h.improve hop (hargs.imp fun _ _ hxy => hxy.within.cost) ?_
  have hfixed := hargs.imp fun _ _ hxy => hxy.fixed
  revert hfixed
  rcases c.args with _ | ⟨x, xs⟩ <;> rcases c'.args with _ | ⟨y, ys⟩ <;> intro hfixed
  · exact .nil
  · cases hfixed
  · cases hfixed
  · exact (List.forall₂_cons.mp hfixed).2

theorem isOperator_of_not_weighed (h : m.isWeighed = false) {name : String}
    (hname : name ∈ weighedOperators) : m.isOperator name = false := by
  simpa using List.any_eq_false.mp h name hname

theorem Call.secured_of_not_weighed (h : m.isWeighed = false) : Call.Secured w ⟨m, r, args⟩ := by
  have hnot : ∀ d ∈ feeds, m.isOperator d.operator = false := fun d hd =>
    isOperator_of_not_weighed h ((by decide : ∀ d ∈ feeds, d.operator ∈ weighedOperators) d hd)
  constructor
  · intro d hd hm
    rw [hnot d hd] at hm
    cases hm
  · rintro ⟨source, p⟩ hf
    obtain ⟨d, hd, hfed⟩ := mem_fed.mp hf
    have hm := (Feed.at?_eq_some.mp hfed).1
    rw [hnot d hd] at hm
    cases hm

theorem isWeighed_of_metadata (h : m.family = .metadata) : m.isWeighed = false := by
  simp [Method.isWeighed, Method.isOperator, h]

/-- Rewrites introduce only operators that cost nothing, and are neither annotations nor copies. -/
theorem introduced_cases : ∀ s ∈ introducedOperators,
    Method.isWeighed ⟨s, []⟩ = false ∧ (call ⟨s, []⟩ none []).inert = true := by
  decide +kernel

theorem inert_apply {s : Signature} (typeArgs : List Ty) (args : List Expr)
    (hs : s ∈ introducedOperators) : (Expr.apply s typeArgs args).inert = true :=
  (introduced_cases s hs).2

/-! ### Costs, node by node -/

theorem cost_call (w : UInt32 → Nat) (m : Method) (r : Option Expr) (args : List Expr) :
    (call m r args).cost w = (call m r args).charge w + (r.toList.map (cost w)).sum +
      (args.map (cost w)).sum := by
  rw [cost_eq, parts, List.map_append, List.sum_append, Nat.add_assoc]

theorem sum_cost_le {xs ys : List Expr} (h : List.Forall₂ (fun x y => y.cost w ≤ x.cost w) xs ys) :
    (ys.map (cost w)).sum ≤ (xs.map (cost w)).sum := by
  induction h with
  | nil => exact Nat.le_refl _
  | cons hxy _ ih =>
    simp only [List.map_cons, List.sum_cons]
    omega

theorem charge_congr {m' : Method} {r' : Option Expr} {args' : List Expr}
    (h : ∀ name, m'.isOperator name = m.isOperator name) :
    (call m' r' args').charge w = (call m r args).charge w := by
  have hsame : m'.isOperator = m.isOperator := funext h
  simp [charge, hsame]

theorem charge_of_not_weighed (h : m.isWeighed = false) : (call m r args).charge w = 0 := by
  have hany : chargedOperators.any m.isOperator = false :=
    List.any_eq_false.mpr fun name hname => by
      simp [isOperator_of_not_weighed h (List.mem_cons_of_mem _ hname)]
  simp [charge, hany]

@[simp] theorem cost_quote : (quote e).cost w = e.cost w := by
  rw [cost_eq]
  simp [charge, parts]

@[simp] theorem cost_lambda {params : List Param} : (lambda params e).cost w = e.cost w := by
  rw [cost_eq]
  simp [charge, parts]

@[simp] theorem cost_param {p : Param} : (param p).cost w = w p.id := by
  rw [cost_eq]
  simp [charge, parts]

@[simp] theorem cost_placeholder {p : Placeholder} : (placeholder p).cost w = 0 := rfl

theorem cost_of_lambda {l : Lambda} (h : e.lambda? = some l) : e.cost w = l.body.cost w := by
  refine induction_lambda (P := fun e => e.cost w = l.body.cost w) h ?_ ?_
  · exact cost_lambda
  · intro x hx
    rw [cost_quote, hx]

theorem within_quote (h : e.Within w n) : (quote e).Within w n :=
  ⟨everyCall_quote.mpr h.secured, by simpa using h.cost⟩

theorem within_lambda {params : List Param} (h : e.Within w n) : (lambda params e).Within w n :=
  ⟨everyCall_lambda.mpr h.secured, by simpa using h.cost⟩

theorem within_param {p : Param} (h : w p.id = 0) : (param p).Within w 0 :=
  ⟨everyCall_iff.mpr ⟨fun _ hc => (by cases hc), fun _ hx => (by cases hx)⟩, by simp [h]⟩

theorem within_placeholder {p : Placeholder} : (placeholder p).Within w n :=
  ⟨everyCall_iff.mpr ⟨fun _ hc => (by cases hc), fun _ hx => (by cases hx)⟩, by simp⟩

theorem within_unary {op : UnOp} (h : e.Within w n) : (unary op e).Within w n := by
  refine ⟨everyCall_iff.mpr ⟨fun _ hc => (by cases hc), ?_⟩, ?_⟩
  · simpa [parts] using h.secured
  · rw [cost_eq]
    simpa [charge, parts] using h.cost

/-- A call of an operator that costs nothing. -/
theorem within_apply {s : Signature} {typeArgs : List Ty}
    (hs : s ∈ introducedOperators) (hargs : ∀ x ∈ args, x.EveryCall (Call.Secured w))
    (hcost : (args.map (cost w)).sum ≤ n) : (Expr.apply s typeArgs args).Within w n := by
  have hm : Method.isWeighed ⟨s, typeArgs⟩ = false := (introduced_cases s hs).1
  constructor
  · exact everyCall_call.mpr ⟨Call.secured_of_not_weighed hm, by simp, hargs⟩
  · rw [Expr.apply, cost_call, charge_of_not_weighed hm]
    simpa using hcost

/-- A walked node may stand for the node if its parts may stand for the parts. -/
theorem WalksBy.improves {σ : Type} {P : Expr → σ → Expr → σ → Prop} {s t : σ}
    (h : WalksBy P e s e' t) (he : e.EveryCall (Call.Secured w))
    (hparts : List.Forall₂ (Improves w) e.parts e'.parts) : Improves w e e' := by
  refine ⟨h.keepsFixed (hparts.imp fun _ _ hxy => hxy.fixed), everyCall_iff.mpr ⟨?_, ?_⟩, ?_⟩
  · intro c' hc'
    cases h with
    | @call m r r' args args' _ _ _ hr hargs =>
      cases hc'
      have hargs' : List.Forall₂ (Improves w) args args' := by
        cases hr with
        | none => exact hparts
        | some => exact (List.forall₂_cons.mp hparts).2
      exact (everyCall_call.mp he).1.of_improves (fun _ => rfl) hargs'
    | _ => cases hc'
  · intro y hy
    obtain ⟨x, -, hxy⟩ := exists_of_forall₂ hparts hy
    exact hxy.within.secured
  · have hcharge : e'.charge w = e.charge w := by cases h <;> rfl
    have hsum := sum_cost_le (hparts.imp fun _ _ hxy => hxy.within.cost)
    rw [cost_eq, cost_eq w e, hcharge]
    omega

end Secured

/-! ## Rewrites -/

section Rewrites

variable {w : UInt32 → Nat} {n a b : Nat} {e x y : Expr}

/-- What is inert is no construction, so that its members are not read off. -/
theorem project_of_inert (h : e.inert = true) (m : Member) : e.project m = .member (some e) m := by
  cases e with
  | new | newWith => cases h
  | _ => rfl

/-- **Replacing a parameter by something of at most its weight costs no more.** -/
theorem improves_replace {id : UInt32} {value : Expr} (hvalue : value.Within w (w id))
    (he : e.EveryCall (Call.Secured w)) : Improves w e (replace id value e) := by
  induction e using induction_parts with
  | _ e ih =>
    rcases replace_cases id value e with ⟨p, rfl, rfl, h⟩ | ⟨target, m, rfl, h⟩ | ⟨-, hwalk⟩
    · rw [h]
      exact ⟨.of_inert rfl fun hi => (by cases hi), by simpa using hvalue⟩
    · have htarget := ih target (by simp [parts]) (he.part (by simp [parts]))
      have hcost : (member (some target) m).cost w = target.cost w := by
        rw [cost_eq]
        simp [charge, parts]
      rw [h]
      refine ⟨.of_inert rfl fun hi => ?_, ?_⟩
      · have hinert : (replace id value target).inert = true := htarget.fixed.inert hi
        rw [project_of_inert hinert]
        exact hinert
      · rw [hcost]
        rcases project_cases (replace id value target) m with h | ⟨h, -⟩
        · rw [h]
          refine ⟨everyCall_iff.mpr ⟨fun _ hc => (by cases hc), ?_⟩, ?_⟩
          · simpa [parts] using htarget.within.secured
          · rw [cost_eq]
            simpa [charge, parts] using htarget.within.cost
        · exact htarget.within.node (mem_nodes_of_mem_parts h)
    · have hparts : WalksBy (fun x (_ : Unit) y _ => Improves w x y) e () (replace id value e) () := by
        refine hwalk.mono_mem ?_
        rintro x hx _ _ _ rfl
        exact ih x hx (he.part hx)
      exact hparts.improves he (hparts.forall₂ fun h => h)

theorem within_quoteLambda (h : e.Within w n) : (quoteLambda e).Within w n := by
  unfold quoteLambda
  split
  · exact within_quote h
  · exact h

theorem within_asQueryable (element : Ty) (h : e.Within w n) : (asQueryable e element).Within w n :=
  within_apply (by decide) (by simpa using h.secured) (by simpa using h.cost)

theorem within_queryArgument (fallback : Option Ty) (h : e.Within w n) :
    (queryArgument e fallback).Within w n := by
  obtain ⟨x, hx, h' | ⟨element, h'⟩⟩ := queryArgument_cases e fallback
  · rw [h']
    exact h.node hx
  · rw [h']
    exact within_asQueryable element (h.node hx)

theorem improves_of_passes (h : Passes x y) (hx : x.EveryCall (Call.Secured w)) :
    Improves w x (quoteLambda y) := by
  refine ⟨keepsFixed_of_passes h, within_quoteLambda ?_⟩
  cases h with
  | same => exact within_self hx
  | converted => exact within_queryArgument _ (within_self hx)

theorem improves_of_forall₂ {xs ys : List Expr} (hxs : ∀ x ∈ xs, x.EveryCall (Call.Secured w))
    (h : List.Forall₂ Passes xs ys) : List.Forall₂ (Improves w) xs (ys.map quoteLambda) := by
  induction h with
  | nil => exact .nil
  | cons hxy _ ih =>
    exact .cons (improves_of_passes hxy (hxs _ (by simp))) (ih fun x hx => hxs x (by simp [hx]))

theorem within_elementRead (element : Ty) (raw : Expr) (hx : x.Within w a) (hy : y.Within w b) :
    (elementRead element raw x y).Within w (a + b) := by
  unfold elementRead
  split
  · have hcost := Nat.add_le_add hx.cost hy.cost
    exact within_apply (by decide) (by simpa using ⟨hx.secured, hy.secured⟩) (by simpa using hcost)
  · have hx' := within_quoteLambda (within_queryArgument (some element) hx)
    have hy' := within_quoteLambda hy
    have hcost := Nat.add_le_add hx'.cost hy'.cost
    exact within_apply (by decide) (by simpa using ⟨hx'.secured, hy'.secured⟩)
      (by simpa using hcost)

theorem inert_elementRead (element : Ty) (raw source position : Expr) :
    (elementRead element raw source position).inert = true := by
  unfold elementRead
  split <;> exact inert_apply _ _ (by decide)

theorem inert_nonEmptyTest (element : Ty) (raw source : Expr) :
    (nonEmptyTest element raw source).inert = true := by
  unfold nonEmptyTest
  split <;> exact inert_apply _ _ (by decide)

theorem within_nonEmptyTest (element : Ty) (raw : Expr) (h : e.Within w n) :
    (nonEmptyTest element raw e).Within w n := by
  unfold nonEmptyTest
  split
  · exact within_apply (by decide) (by simpa using h.secured) (by simpa using h.cost)
  · have h' := within_quoteLambda (within_queryArgument (some element) h)
    exact within_apply (by decide) (by simpa using h'.secured) (by simpa using h'.cost)

theorem within_contains (element : Ty) (raw : Expr) (hx : x.Within w a) (hy : y.Within w b) :
    (QueryNormal.contains element raw x y).Within w (a + b) := by
  have hsource : (if raw.ty.isValueType then .unary (.convert (.enumerable element)) x
      else x : Expr).Within w a := by
    split
    · exact within_unary hx
    · exact hx
  have hx' := within_asQueryable element hsource
  have hcost := Nat.add_le_add hx'.cost hy.cost
  exact within_apply (by decide) (by simpa using ⟨hx'.secured, hy.secured⟩)
    (by simpa using hcost)

theorem within_reselected (selector : Expr) {l : Lambda} (h : l.body.Within w n) :
    (reselected selector l).Within w n := by
  unfold reselected
  split
  · exact within_quote (within_lambda h)
  · exact within_lambda h

/-- The first argument of a call may be unwrapped, as it is no selector. -/
theorem within_unwrapQueryable (he : e.EveryCall (Call.Secured w)) :
    (unwrapQueryable e).Within w (e.cost w) := by
  induction e using induction_parts with
  | _ e ih =>
    unfold unwrapQueryable
    split
    · rename_i m r source rest
      have hsource := ih source (by simp [parts]) (he.part (by simp [parts]))
      split
      · exact hsource.mono (cost_le_of_mem (mem_nodes_of_mem_parts (by simp [parts])))
      · split
        · obtain ⟨hcall, hr, hargs⟩ := everyCall_call.mp he
          have hkept : List.Forall₂ KeepsFixed rest rest :=
            List.forall₂_same.mpr fun x _ => .refl x
          have hcosts : List.Forall₂ (fun x y : Expr => y.cost w ≤ x.cost w) (source :: rest)
              (unwrapQueryable source :: rest) :=
            .cons hsource.cost (List.forall₂_same.mpr fun x _ => Nat.le_refl _)
          have hsum := sum_cost_le hcosts
          refine ⟨everyCall_call.mpr ⟨hcall.improve (fun _ => rfl) hcosts hkept, hr, ?_⟩, ?_⟩
          · intro x hx
            rcases List.mem_cons.mp hx with rfl | hx
            · exact hsource.secured
            · exact hargs x (by simp [hx])
          · rw [cost_call, cost_call]
            exact Nat.add_le_add_left hsum _
        · exact within_self he
    · exact within_self he

end Rewrites

/-! ## Flattening -/

/-- What a flat join keeps of the grouped join is secured and costs at most so much. -/
structure GroupJoin.Within (w : UInt32 → Nat) (n : Nat) (join : GroupJoin) : Prop where
  outer : join.outer.EveryCall (Call.Secured w)
  outerKey : join.outerKey.EveryCall (Call.Secured w)
  innerKey : join.innerKey.EveryCall (Call.Secured w)
  cost : join.outer.cost w + join.outerKey.cost w + join.innerKey.cost w ≤ n

section Flattening

variable {w : UInt32 → Nat} {n a b : Nat} {c : Call} {join : GroupJoin} {e body inner : Expr}
  {left : Bool} {m : Method} {r : Option Expr} {args : List Expr}

theorem isOperator_of_signature {s : Signature} (h : m.signature = s) (name : String) :
    m.isOperator name = Method.isOperator ⟨s, []⟩ name := by
  subst h
  rfl

theorem charge_of_charged {name : String} (hname : name ∈ chargedOperators)
    (h : m.isOperator name = true) : (call m r args).charge w = 1 := by
  have hany : chargedOperators.any m.isOperator = true := List.any_eq_true.mpr ⟨name, hname, h⟩
  simp [charge, hany]

theorem mem_introduced_of_join (left : Bool) :
    (if left then Queryable.leftJoin else Queryable.join) ∈ introducedOperators := by
  cases left <;> simp [introducedOperators]

theorem within_flat (left : Bool) (hjoin : join.Within w n) (hinner : inner.Within w a) {result : Lambda}
    (hresult : result.body.Within w b) : (join.flat left inner result).Within w (n + a + b) := by
  have hquoted : result.quoted.Within w b := within_quote (within_lambda hresult)
  refine within_apply (mem_introduced_of_join left) ?_ ?_
  · simpa using ⟨hjoin.outer, hinner.secured, hjoin.outerKey, hjoin.innerKey, hquoted.secured⟩
  · have hkept := hjoin.cost
    have hcost := hinner.cost
    have hcost' := hquoted.cost
    simp only [List.map_cons, List.map_nil, List.sum_cons, List.sum_nil]
    omega

/-- The group weighs what the inner source costs. -/
theorem JoinPieces.within (h : JoinPieces e join) (he : e.EveryCall (Call.Secured w)) :
    join.Within w (e.cost w) ∧ join.result.body.Within w (e.cost w) ∧
      ∀ outer group more, join.result.params = outer :: group :: more →
        join.inner.Within w (w group.id) := by
  cases h with
  | @intro m r outer inner outerKey innerKey result _ _ l hm _ _ hl =>
    obtain ⟨hcall, -, hargs⟩ := everyCall_call.mp he
    simp only [List.forall_mem_cons] at hargs
    obtain ⟨houter, hinner, houterKey, hinnerKey, hresult, -⟩ := hargs
    have hcost := cost_call w m r [outer, inner, outerKey, innerKey, result]
    simp only [List.map_cons, List.map_nil, List.sum_cons, List.sum_nil] at hcost
    refine ⟨⟨houter, houterKey, hinnerKey, ?_⟩, ⟨(everyCall_of_lambda hl).mp hresult, ?_⟩, ?_⟩
    · dsimp only
      omega
    · rw [← cost_of_lambda hl]
      omega
    · intro first group more hparams
      have hop : m.isOperator "GroupJoin" = true := by
        rw [isOperator_of_signature hm]
        decide
      refine ⟨hinner, hcall.paid (inner, group) (mem_fed.mpr ⟨⟨"GroupJoin", 1, 4, 1⟩, ?_, ?_⟩)⟩
      · simp [feeds]
      · exact Feed.at?_eq_some.mpr ⟨hop, rfl, result, l, rfl, hl, by rw [hparams]; rfl⟩

/-- The parameter of a selector of a `SelectMany` weighs what its source costs. -/
theorem cost_le_of_selector {source selector : Expr} {l : Lambda} {x : Param} {i : Nat}
    (hop : m.isOperator "SelectMany" = true) (hcall : Call.Secured w ⟨m, r, args⟩) (hi : i = 1 ∨ i = 2)
    (hsource : args[0]? = some source) (hselector : args[i]? = some selector)
    (hl : selector.lambda? = some l) (hx : l.params[0]? = some x) : source.cost w ≤ w x.id := by
  refine hcall.paid (source, x) (mem_fed.mpr ⟨⟨"SelectMany", 0, i, 0⟩, ?_, ?_⟩)
  · rcases hi with rfl | rfl <;> simp [feeds]
  · exact Feed.at?_eq_some.mpr ⟨hop, hsource, selector, l, hselector, hl, hx⟩

/-- **A flat join of pairs costs less than the call,** before its inner source is visited. -/
theorem PairsPieces.within {result : Lambda} (h : PairsPieces c join body left inner result)
    (hc : c.toExpr.EveryCall (Call.Secured w)) :
    ∃ n a b, join.Within w n ∧ inner.Within w a ∧ result.body.Within w b ∧
      n + a + b < c.toExpr.cost w := by
  cases h with
  | @intro m r source collection result join x y element outer group more body pairBody hm hjoin
      hcollection hresult hparams _ =>
    obtain ⟨hcall, -, hargs⟩ := everyCall_call.mp hc
    simp only [List.forall_mem_cons] at hargs
    obtain ⟨hsource, hcollect, hpair, -⟩ := hargs
    have hop : m.isOperator "SelectMany" = true := by
      rw [isOperator_of_signature hm]
      decide
    obtain ⟨hkept, hbody, hgroup⟩ := hjoin.within hsource
    have hx := cost_le_of_selector hop hcall (.inl rfl) rfl rfl hcollection rfl
    have hy := cost_le_of_selector hop hcall (.inr rfl) rfl rfl hresult rfl
    have hpeeled : (peelDefault body).1.Within w (body.cost w) :=
      (within_self ((everyCall_of_lambda hcollection).mp hcollect)).node (peelDefault_mem_nodes body)
    have hcollected : (join.collected x body).Within w (body.cost w) :=
      (improves_replace (hbody.mono hx) hpeeled.secured).within.mono hpeeled.cost
    have hinner := (improves_replace (hgroup outer group more hparams) hcollected.secured).within
    refine ⟨_, _, _, hkept, hinner.mono hcollected.cost, (improves_replace (hbody.mono hy)
      ((everyCall_of_lambda hresult).mp hpair)).within, ?_⟩
    rw [Call.toExpr, cost_call, charge_of_charged (by decide) hop]
    simp only [List.map_cons, List.map_nil, List.sum_cons, List.sum_nil, cost_of_lambda hcollection,
      cost_of_lambda hresult]
    omega

/-- **A flat join of members costs less than the call,** before its inner source is visited. -/
theorem MembersPieces.within {outer element : Param}
    (h : MembersPieces c join body left inner outer element)
    (hc : c.toExpr.EveryCall (Call.Secured w)) :
    ∃ n a, join.Within w n ∧ inner.Within w a ∧ n + a < c.toExpr.cost w := by
  cases h with
  | @intro m r source selector join x element outer group more body hm hjoin hselector _ hparams _ =>
    obtain ⟨hcall, -, hargs⟩ := everyCall_call.mp hc
    simp only [List.forall_mem_cons] at hargs
    obtain ⟨hsource, hselect, -⟩ := hargs
    have hop : m.isOperator "SelectMany" = true := by
      rw [isOperator_of_signature hm]
      decide
    obtain ⟨hkept, hbody, hgroup⟩ := hjoin.within hsource
    have hx := cost_le_of_selector hop hcall (.inl rfl) rfl rfl hselector rfl
    have hpeeled := hbody.node (peelDefault_mem_nodes join.result.body)
    have hmembers := (improves_replace (hgroup outer group more hparams) hpeeled.secured).within
    have hvalue := hmembers.mono (Nat.le_trans hpeeled.cost hx)
    refine ⟨_, _, hkept, (improves_replace hvalue
      ((everyCall_of_lambda hselector).mp hselect)).within, ?_⟩
    rw [Call.toExpr, cost_call, charge_of_charged (by decide) hop]
    simp only [List.map_cons, List.map_nil, List.sum_cons, List.sum_nil, cost_of_lambda hselector]
    omega

end Flattening

/-! ## The operator pass -/

/-- The calls of the expressions are secured, no id that is still to be drawn weighs anything, and
there are enough ids for what the expressions cost. -/
structure Affords (w : UInt32 → Nat) (es : List Expr) (s : ReductionState) : Prop where
  secured : ∀ e ∈ es, e.EveryCall (Call.Secured w)
  fresh : ∀ id : UInt32, s.next ≤ id.toNat → w id = 0
  room : s.next + (es.map (cost w)).sum < UInt32.size

/-- On the way from `s` to `t`, the expression `x` becomes `y`, which may stand for it. What is drawn,
and what is left to pay for, is paid for by what `x` costs. -/
structure Solvent (w : UInt32 → Nat) (x : Expr) (s : ReductionState) (y : Expr)
    (t : ReductionState) : Prop where
  fixed : KeepsFixed x y
  secured : y.EveryCall (Call.Secured w)
  le : s.next ≤ t.next
  paid : t.next + y.cost w ≤ s.next + x.cost w

section OperatorPass

variable {w : UInt32 → Nat} {provider : Provider} {e e' x y z : Expr} {es xs ys : List Expr} {c : Call}
  {s t u : ReductionState}

/-- What is left to pay for after a run is affordable. -/
theorem Affords.after (h : Affords w es s) (hxs : ∀ x ∈ xs, x.EveryCall (Call.Secured w))
    (hle : s.next ≤ t.next)
    (hpaid : t.next + (xs.map (cost w)).sum ≤ s.next + (es.map (cost w)).sum) : Affords w xs t where
  secured := hxs
  fresh id hid := h.fresh id (Nat.le_trans hle hid)
  room := Nat.lt_of_le_of_lt hpaid h.room

theorem Affords.left (h : Affords w (xs ++ ys) s) : Affords w xs s := by
  refine h.after (fun x hx => h.secured x (by simp [hx])) (Nat.le_refl _) ?_
  simp only [List.map_append, List.sum_append]
  omega

theorem Affords.right (h : Affords w (xs ++ ys) s) : Affords w ys s := by
  refine h.after (fun y hy => h.secured y (by simp [hy])) (Nat.le_refl _) ?_
  simp only [List.map_append, List.sum_append]
  omega

theorem Affords.within {n : Nat} (h : Affords w [e] s) (hx : x.Within w n) (hn : n ≤ e.cost w) :
    Affords w [x] s := by
  refine h.after (by simpa using hx.secured) (Nat.le_refl _) ?_
  have := hx.cost
  simp only [List.map_cons, List.map_nil, List.sum_cons, List.sum_nil]
  omega

theorem Affords.self (h : Affords w [e] s) : e.EveryCall (Call.Secured w) := h.secured e (by simp)

theorem Affords.node (h : Affords w [e] s) (hx : x ∈ e.nodes) : Affords w [x] s :=
  h.within ((within_self h.self).node hx) (Nat.le_refl _)

theorem Affords.part (h : Affords w [e] s) (hx : x ∈ e.parts) : Affords w [x] s :=
  h.node (mem_nodes_of_mem_parts hx)

theorem sum_parts_le (w : UInt32 → Nat) (e : Expr) : (e.parts.map (cost w)).sum ≤ e.cost w := by
  rw [cost_eq]
  exact Nat.le_add_left _ _

theorem Affords.parts (h : Affords w [e] s) : Affords w e.parts s := by
  refine h.after (fun x hx => h.self.part hx) (Nat.le_refl _) ?_
  simpa using sum_parts_le w e

theorem Solvent.improves (h : Solvent w x s y t) : Improves w x y := by
  refine ⟨h.fixed, h.secured, ?_⟩
  have hle := h.le
  have hpaid := h.paid
  omega

theorem Solvent.refl (s : ReductionState) (h : x.EveryCall (Call.Secured w)) : Solvent w x s x s :=
  ⟨.refl x, h, Nat.le_refl _, Nat.le_refl _⟩

theorem Solvent.trans (h : Solvent w x s y t) (h' : Solvent w y t z u) : Solvent w x s z u :=
  ⟨h.fixed.trans h'.fixed, h'.secured, Nat.le_trans h.le h'.le, Nat.le_trans h'.paid h.paid⟩

theorem Threads.next_le (h : Threads (Solvent w) xs s ys t) : s.next ≤ t.next := by
  induction h with
  | nil => exact Nat.le_refl _
  | cons hx _ ih => exact Nat.le_trans hx.le ih

theorem Threads.paid (h : Threads (Solvent w) xs s ys t) :
    t.next + (ys.map (cost w)).sum ≤ s.next + (xs.map (cost w)).sum := by
  induction h with
  | nil => exact Nat.le_refl _
  | cons hx _ ih =>
    have := hx.paid
    simp only [List.map_cons, List.sum_cons]
    omega

/-- What comes after some expressions is affordable once they are visited. -/
theorem Affords.rest (h : Affords w (xs ++ es) s) (hruns : Threads (Solvent w) xs s ys t) :
    Affords w es t := by
  refine h.after h.right.secured hruns.next_le ?_
  have hpaid := hruns.paid
  simp only [List.map_append, List.sum_append]
  omega

theorem Threads.secured (h : Threads (Solvent w) xs s ys t) :
    ∀ y ∈ ys, y.EveryCall (Call.Secured w) := by
  intro y hy
  obtain ⟨x, -, hxy⟩ := exists_of_forall₂ (h.forall₂ Solvent.improves) hy
  exact hxy.within.secured

/-- What is made of visited expressions, at no more than they cost. -/
theorem Threads.solvent_of (h : Threads (Solvent w) xs s ys t)
    (hbefore : (xs.map (cost w)).sum ≤ e.cost w) (hfixed : KeepsFixed e e')
    (hafter : e'.Within w (ys.map (cost w)).sum) : Solvent w e s e' t := by
  refine ⟨hfixed, hafter.secured, h.next_le, ?_⟩
  have hpaid := h.paid
  have hcost := hafter.cost
  omega

/-- What is made of one visited node, at no more than it costs. -/
theorem Solvent.of_node (h : Solvent w x s y t) (hx : x ∈ e.nodes) (hfixed : KeepsFixed e e')
    (hafter : e'.Within w (y.cost w)) : Solvent w e s e' t := by
  refine ⟨hfixed, hafter.secured, h.le, ?_⟩
  have hpaid := h.paid
  have hcost := hafter.cost
  have hless := cost_le_of_mem (w := w) hx
  omega

theorem next_draw (h : s.next + 1 < UInt32.size) :
    (ReductionState.mk s.context ⟨s.supply.next + 1⟩).next = s.next + 1 := by
  unfold ReductionState.next
  rw [UInt32.toNat_add]
  exact Nat.mod_eq_of_lt h

/-- An ordering by itself pays for the parameter that is drawn, which weighs nothing. -/
theorem Affords.ordered {ordering : Signature} {element : Ty} {source : Expr}
    (h : Affords w [c.toExpr] s) (hord : keyedOrdering? c.method = some ordering)
    (hsource : c.args = [source]) :
    Solvent w c.toExpr s (.apply ordering [element, element]
      [source, (Lambda.identity ⟨s.supply.next, "p", element⟩).quoted])
        ⟨s.context, ⟨s.supply.next + 1⟩⟩ := by
  obtain ⟨hbuilt, name, hname, hop⟩ : ordering ∈ builtOperators ∧
      ∃ name ∈ chargedOperators, c.method.isOperator name = true := by
    rcases keyedOrdering_cases hord with ⟨hm, rfl⟩ | ⟨hm, rfl⟩
    · exact ⟨by simp [builtOperators], "Order", by decide, by rw [isOperator_of_signature hm]; decide⟩
    · exact ⟨by simp [builtOperators], "OrderDescending", by decide,
        by rw [isOperator_of_signature hm]; decide⟩
  have hintroduced : ordering ∈ introducedOperators := List.mem_append_right _ hbuilt
  have hroom : s.next + c.toExpr.cost w < UInt32.size := by simpa using h.room
  have hcost : source.cost w + 1 ≤ c.toExpr.cost w := by
    rw [Call.toExpr, cost_call, charge_of_charged hname hop, hsource]
    simp only [List.map_cons, List.map_nil, List.sum_cons, List.sum_nil]
    omega
  have hbefore : source.EveryCall (Call.Secured w) :=
    h.self.part (by simp [Call.toExpr, Expr.parts, hsource])
  have hkey : (Lambda.identity ⟨s.supply.next, "p", element⟩).quoted.Within w 0 :=
    within_quote (within_lambda (within_param (h.fresh _ (Nat.le_refl _))))
  have hafter : (Expr.apply ordering [element, element] [source,
      (Lambda.identity ⟨s.supply.next, "p", element⟩).quoted]).Within w (source.cost w) := by
    refine within_apply hintroduced (by simpa using ⟨hbefore, hkey.secured⟩) ?_
    have := hkey.cost
    simp only [List.map_cons, List.map_nil, List.sum_cons, List.sum_nil]
    omega
  have hcost' := hafter.cost
  refine ⟨.of_inert rfl fun _ => inert_apply _ _ hintroduced, hafter.secured, ?_, ?_⟩ <;>
    rw [next_draw (by omega)] <;> omega

variable {P : PartRun} (hP : ∀ {x s y t}, P x s y t → Affords w [x] s → Solvent w x s y t)
include hP

theorem Threads.solvent (h : Threads P xs s ys t) (hafford : Affords w xs s) :
    Threads (Solvent w) xs s ys t := by
  induction h with
  | nil => exact .nil
  | @cons x y xs ys s u t hx _ ih =>
    have hcons : Affords w ([x] ++ xs) s := hafford
    have hfirst := hP hx hcons.left
    exact .cons hfirst (ih (hcons.rest (.cons hfirst .nil)))

theorem WalksBy.solvent (h : WalksBy P e s e' t) (hafford : Affords w [e] s) :
    Solvent w e s e' t := by
  have hruns := h.threads.solvent hP hafford.parts
  have himproves := h.improves hafford.self (hruns.forall₂ Solvent.improves)
  refine ⟨himproves.fixed, himproves.within.secured, hruns.next_le, ?_⟩
  have hcharge : e'.charge w = e.charge w := by cases h <;> rfl
  have hpaid := hruns.paid
  rw [cost_eq, cost_eq w e, hcharge]
  omega

/-- A visited call may stand for the call. -/
theorem VisitsBy.solvent (h : VisitsBy P e s c t) (hafford : Affords w [e] s) :
    Solvent w e s c.toExpr t := by
  cases h with
  | walked _ _ hr hargs => exact WalksBy.solvent hP (.call hr hargs) hafford
  | @converted m m' r args args' args'' _ _ hrule _ hargs hfound =>
    have hcounterpart := toQueryable_eq_some hfound
    have hop (name : String) : m'.isOperator name = m.isOperator name := by
      cases ruleCase hrule with
      | inMemory _ _ _ hfamily =>
        simp [Method.isOperator, hfamily, hcounterpart.family, hcounterpart.name]
    have hruns := hargs.solvent hP hafford.parts.right
    obtain ⟨passed, hpassed, rfl⟩ := hcounterpart.args
    have himproves := improves_of_forall₂ hruns.secured hpassed
    have hvisited : Call.Secured w ⟨m', none, args'⟩ :=
      (everyCall_call.mp hafford.self).1.of_improves hop (hruns.forall₂ Solvent.improves)
    refine ⟨.of_inert rfl fun _ => inert_of_family hcounterpart.family,
      everyCall_call.mpr ⟨hvisited.of_improves (fun _ => rfl) himproves, by simp, ?_⟩,
      hruns.next_le, ?_⟩
    · intro x hx
      obtain ⟨y, -, hyx⟩ := exists_of_forall₂ himproves hx
      exact hyx.within.secured
    · have hpaid := hruns.paid
      have hsum := sum_cost_le (himproves.imp fun _ _ hxy => hxy.within.cost)
      have hcharge : (call m' none (passed.map quoteLambda)).charge w = (call m r args).charge w :=
        charge_congr hop
      rw [Call.toExpr, cost_call, cost_call w m r args, hcharge]
      simp only [Option.toList_none, List.map_nil, List.sum_nil]
      omega

/-- A call that is settled pays for its draw, and for what its flattening has built. -/
theorem SettlesBy.solvent (h : SettlesBy P c s e' t) (hafford : Affords w [c.toExpr] s) :
    Solvent w c.toExpr s e' t := by
  have hroom : s.next + c.toExpr.cost w < UInt32.size := by simpa using hafford.room
  cases h with
  | same => exact .refl s hafford.self
  | ordered hord _ hsource => exact hafford.ordered hord hsource
  | @pairs _ join left inner inner' result hflat hinner =>
    obtain ⟨body, hpieces⟩ := Flattening.pairsPieces hflat
    obtain ⟨n, a, b, hjoin, hin, hresult, hless⟩ := hpieces.within hafford.self
    have hagain := hP hinner (hafford.within hin (by omega))
    have hflat := within_flat left hjoin (within_unwrapQueryable hagain.secured) hresult
    refine ⟨.of_inert rfl fun _ => inert_apply _ _ (mem_introduced_of_join left), hflat.secured,
      hagain.le, ?_⟩
    have hpaid := hagain.paid
    have hcost := hflat.cost
    have hcost' := hin.cost
    omega
  | @members u join left inner inner' outer element hflat hinner =>
    obtain ⟨body, hpieces⟩ := Flattening.membersPieces hflat
    obtain ⟨n, a, hjoin, hin, hless⟩ := hpieces.within hafford.self
    have hagain := hP hinner (hafford.within hin (by omega))
    have hle := hagain.le
    have hpaid := hagain.paid
    have hcost := hin.cost
    have hmember : (param ⟨u.supply.next, element.name, element.ty⟩).Within w 0 :=
      within_param (hafford.fresh _ hle)
    have hflat : (join.flat left inner' ⟨[outer, ⟨u.supply.next, element.name, element.ty⟩],
        .param ⟨u.supply.next, element.name, element.ty⟩⟩).Within w (n + inner'.cost w + 0) :=
      within_flat left hjoin (within_self hagain.secured) hmember
    have hcost' := hflat.cost
    refine ⟨.of_inert rfl fun _ => inert_apply _ _ (mem_introduced_of_join left), hflat.secured,
      ?_, ?_⟩ <;> rw [next_draw (by omega)] <;> omega

/-- The receiver of a call that stays in memory is visited after the arguments. -/
theorem solvent_unmatched {m : Method} {r r' : Option Expr} {args args' : List Expr}
    (hargs : Threads P args s args' t) (hr : ThreadsOption P r t r' u)
    (hafford : Affords w [call m r args] s) : Solvent w (call m r args) s (call m r' args') u := by
  obtain ⟨hcall, -, -⟩ := everyCall_call.mp hafford.self
  have hparts : Affords w (r.toList ++ args) s := hafford.parts
  have hafford' : Affords w (args ++ r.toList) s := by
    refine hparts.after (fun x hx => hparts.secured x ?_) (Nat.le_refl _) ?_
    · exact List.mem_append.mpr (List.mem_append.mp hx).symm
    · simp only [List.map_append, List.sum_append]
      omega
  have hruns := (hargs.append hr.threads).solvent hP hafford'
  have himproves : List.Forall₂ (Improves w) args args' :=
    (hargs.solvent hP hafford'.left).forall₂ Solvent.improves
  refine ⟨.of_inert rfl fun hi => hi, everyCall_iff.mpr ⟨?_, ?_⟩, hruns.next_le, ?_⟩
  · rintro _ ⟨⟩
    exact hcall.of_improves (fun _ => rfl) himproves
  · intro x hx
    exact hruns.secured x (List.mem_append.mpr (List.mem_append.mp hx).symm)
  · have hpaid := hruns.paid
    simp only [List.map_append, List.sum_append] at hpaid
    rw [cost_call, cost_call w m r args]
    have hcharge : (call m r' args').charge w = (call m r args).charge w := rfl
    omega

/-- A loading costs nothing, and its selector is rebuilt around the visited body. -/
theorem solvent_loading {m : Method} {r : Option Expr} {source source' selector body body' : Expr}
    {p : Param} (hrule : Rule.of m r [source, selector] = .loading)
    (hlambda : selector.lambda? = some ⟨[p], body⟩) (hsource : P source s source' t)
    (hbody : P body t body' u) (hafford : Affords w [call m r [source, selector]] s) :
    Solvent w (call m r [source, selector]) s
      (call (reloaded m body'.ty) r [source', reselected selector ⟨[p], body'⟩]) u := by
  obtain ⟨-, hr, hargs⟩ := everyCall_call.mp hafford.self
  have hbodies : body.EveryCall (Call.Secured w) :=
    (everyCall_of_lambda hlambda).mp (hargs selector (by simp))
  have hcost := cost_call w m r [source, selector]
  simp only [List.map_cons, List.map_nil, List.sum_cons, List.sum_nil, cost_of_lambda hlambda]
    at hcost
  have hafford' : Affords w [source, body] s := by
    refine hafford.after (by simpa using ⟨hargs source (by simp), hbodies⟩) (Nat.le_refl _) ?_
    simp only [List.map_cons, List.map_nil, List.sum_cons, List.sum_nil]
    omega
  have hruns := Threads.solvent hP (.cons hsource (.cons hbody .nil)) hafford'
  have hsecured := hruns.secured
  have hselector : (reselected selector ⟨[p], body'⟩).Within w (body'.cost w) :=
    within_reselected selector (within_self (hsecured body' (by simp)))
  obtain ⟨typeArgs, -, hreloaded⟩ := reloaded_eq m body'.ty
  have hm : (reloaded m body'.ty).isWeighed = false := by
    cases ruleCase hrule with
    | loading _ _ _ _ _ hloading =>
      rw [hreloaded]
      exact isWeighed_of_metadata (family_of_loadsOrdered hloading)
  refine ⟨.of_inert rfl fun hi => ?_, ?_, hruns.next_le, ?_⟩
  · rw [hreloaded]
    exact hi
  · refine everyCall_call.mpr ⟨Call.secured_of_not_weighed hm, hr, ?_⟩
    simpa using ⟨hsecured source' (by simp), hselector.secured⟩
  · have hpaid := hruns.paid
    have hcost' := hselector.cost
    rw [cost_call, charge_of_not_weighed hm]
    simp only [List.map_cons, List.map_nil, List.sum_cons, List.sum_nil] at hpaid ⊢
    omega

/-- **What one layer of the operator pass costs.** -/
theorem ReducesBy.solvent (h : ReducesBy provider P P e s e' t) (hafford : Affords w [e] s) :
    Solvent w e s e' t := by
  have hparts := hafford.parts
  have hsum := sum_parts_le w e
  cases h with
  | node _ hwalk | kept _ _ hwalk | member _ _ hwalk => exact hwalk.solvent hP hafford
  | binary _ hl hr => exact WalksBy.solvent hP (.binary hl hr) hafford
  | elementAt _ hl hr | index _ hl hr =>
    have hruns := Threads.solvent hP (.cons hl (.cons hr .nil)) hparts
    have hsecured := hruns.secured
    refine hruns.solvent_of hsum (.of_inert rfl fun _ => inert_elementRead _ _ _ _) ?_
    simpa using within_elementRead _ _ (within_self (hsecured _ (by simp)))
      (within_self (hsecured _ (by simp)))
  | @nonEmpty op lhs rhs source source' _ _ _ _ hcounted hsource =>
    have hmem : source ∈ lhs.nodes := mem_nodes_of_mem_parts (mem_parts_of_counted hcounted).1
    have hnode : source ∈ (Expr.binary op lhs rhs).nodes :=
      nodes_trans (mem_nodes_of_mem_parts (by simp [parts])) hmem
    have hrun := hP hsource (hafford.node hnode)
    exact hrun.of_node hnode (.of_inert rfl fun _ => inert_nonEmptyTest _ _ _)
      (within_nonEmptyTest _ _ (within_self hrun.secured))
  | @note m r source source' rest n _ _ t hrule _ hsource =>
    have hnode : source ∈ (call m r (source :: rest)).nodes :=
      mem_nodes_of_mem_parts (by simp [parts])
    have hrun := hP hsource (hafford.node hnode)
    have hnot : (call m r (source :: rest)).inert = false := by
      cases ruleCase hrule with
      | note hnote => simp [inert, hnote]
    have hsolvent : Solvent w (call m r (source :: rest)) s e' t :=
      hrun.of_node hnode (.of_inert rfl fun hi => by simp [hnot] at hi) (within_self hrun.secured)
    -- the annotation changes the context only
    exact ⟨hsolvent.fixed, hsolvent.secured, hsolvent.le, hsolvent.paid⟩
  | @hint m r argument rest mode _ _ _ _ _ hargument =>
    have hnode : argument ∈ (call m r (argument :: rest)).nodes :=
      mem_nodes_of_mem_parts (by simp [parts])
    have hrun := hP hargument (hafford.node hnode)
    exact hrun.of_node hnode (.of_inert rfl fun _ => rfl) within_placeholder
  | unmatched _ _ hargs _ hr => exact solvent_unmatched hP hargs hr hafford
  | contains _ _ hc hitem =>
    have hruns := Threads.solvent hP (.cons hc (.cons hitem .nil)) hparts
    have hsecured := hruns.secured
    refine hruns.solvent_of hsum (.of_inert rfl fun _ => inert_apply _ _ (by decide)) ?_
    simpa using within_contains _ _ (within_self (hsecured _ (by simp)))
      (within_self (hsecured _ (by simp)))
  | loading hrule hlambda hsource hbody =>
    exact solvent_loading hP hrule hlambda hsource hbody hafford
  | settle hvisit hsettle =>
    have hvisited := hvisit.solvent hP hafford
    refine hvisited.trans (hsettle.solvent hP (hafford.after ?_ hvisited.le ?_))
    · simpa using hvisited.secured
    · simpa using hvisited.paid

omit hP in
/-- **What the operator pass costs.** -/
theorem Runs.solvent (h : Runs provider e s e' t) (hafford : Affords w [e] s) : Solvent w e s e' t :=
  Runs.induction (P := fun x s y t => Affords w [x] s → Solvent w x s y t)
    (fun hlayer => hlayer.solvent fun h => h) h hafford

end OperatorPass

end QueryNormal
