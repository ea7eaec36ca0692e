import QueryNormal.Proofs.Failures
import QueryNormal.Proofs.Preservation
import QueryNormal.Proofs.Scope

/-!
# Shorthand

* `Expr.SpelledOut`: no node of a tree is shorthand.
* `Steady`: what decides whether an operation is shorthand has not come up.
* `Runs.steady`: the operator pass keeps an operand steady, unless a call in it is `Unsteady`.
* `ReducesToShorthand`: the ways in which a run of the operator pass makes shorthand.
* `SelectsShorthand`: a grouped join that makes shorthand as a projection.
* `spelledOut_or_shorthand_of_normalize`: a normal form is spelled out, unless one of these happens.

An operation is looked at before its operands are visited, and what flattening and the grouped-join
pass put together is not visited again by the operator pass. Each way is real
(`normalize_keeps_shorthand`).
-/

namespace QueryNormal

open QueryNormal.Expr Reduction

/-! ## Shorthand -/

namespace Expr

/-- Whether the type of the expression is a sequence. -/
def isSequence (e : Expr) : Bool := e.ty.element?.isSome

/-- Whether the expression counts a sequence. -/
def isCount (e : Expr) : Bool := (countedSource? e).any isSequence

/-- Whether the node is short for an operator on a sequence. -/
def isShorthand : Expr → Bool
  | .binary op lhs rhs => (Sugar.of? op lhs rhs).isSome
  | _ => false

/-- No node of the tree is shorthand. -/
def SpelledOut (e : Expr) : Prop := ∀ n ∈ e.nodes, n.isShorthand = false

instance (e : Expr) : Decidable e.SpelledOut :=
  inferInstanceAs (Decidable (∀ n ∈ e.nodes, n.isShorthand = false))

section SpelledOut

variable {e x : Expr} {m : Method} {r : Option Expr} {args : List Expr}

theorem spelledOut_iff : e.SpelledOut ↔ e.isShorthand = false ∧ ∀ x ∈ e.parts, x.SpelledOut := by
  unfold SpelledOut
  rw [nodes_eq]
  simp only [List.forall_mem_cons, List.mem_flatMap, forall_exists_index, and_imp]
  exact and_congr_right fun _ => ⟨fun h x hx n hn => h n x hx hn, fun h n x hx => h x hx n⟩

theorem SpelledOut.node (h : e.SpelledOut) (hx : x ∈ e.nodes) : x.SpelledOut :=
  fun n hn => h n (nodes_trans hx hn)

theorem SpelledOut.part (h : e.SpelledOut) (hx : x ∈ e.parts) : x.SpelledOut :=
  h.node (mem_nodes_of_mem_parts hx)

theorem SpelledOut.sugar {op : BinOp} {lhs rhs : Expr} (h : e.SpelledOut)
    (hmem : binary op lhs rhs ∈ e.nodes) : Sugar.of? op lhs rhs = none :=
  by simpa [isShorthand] using h _ hmem

@[simp] theorem spelledOut_call :
    (call m r args).SpelledOut ↔ (∀ x ∈ r, x.SpelledOut) ∧ ∀ x ∈ args, x.SpelledOut := by
  rw [spelledOut_iff]
  simp [isShorthand, parts, or_imp, forall_and]

@[simp] theorem spelledOut_lambda {params : List Param} {body : Expr} :
    (lambda params body).SpelledOut ↔ body.SpelledOut := by
  rw [spelledOut_iff]
  simp [isShorthand, parts]

@[simp] theorem spelledOut_quote {inner : Expr} : (quote inner).SpelledOut ↔ inner.SpelledOut := by
  rw [spelledOut_iff]
  simp [isShorthand, parts]

@[simp] theorem spelledOut_unary {op : UnOp} {operand : Expr} :
    (unary op operand).SpelledOut ↔ operand.SpelledOut := by
  rw [spelledOut_iff]
  simp [isShorthand, parts]

@[simp] theorem spelledOut_param {p : Param} : (param p).SpelledOut := by
  rw [spelledOut_iff]
  simp [isShorthand, parts]

@[simp] theorem spelledOut_placeholder {p : Placeholder} : (placeholder p).SpelledOut := by
  rw [spelledOut_iff]
  simp [isShorthand, parts]

end SpelledOut

end Expr

/-! ## What rewrites make of trees that are spelled out -/

section Rewrites

variable {e x : Expr}

theorem spelledOut_quoteLambda : (quoteLambda e).SpelledOut ↔ e.SpelledOut := by
  unfold quoteLambda
  split
  · exact spelledOut_quote
  · rfl

theorem spelledOut_asQueryable (element : Ty) : (asQueryable e element).SpelledOut ↔ e.SpelledOut := by
  simp [asQueryable, Expr.apply]

theorem spelledOut_queryArgument (fallback : Option Ty) (he : e.SpelledOut) :
    (queryArgument e fallback).SpelledOut := by
  obtain ⟨x, hx, h | ⟨element, h⟩⟩ := queryArgument_cases e fallback
  · rw [h]
    exact he.node hx
  · rw [h]
    exact (spelledOut_asQueryable element).mpr (he.node hx)

theorem Counterpart.spelledOut {m m' : Method} {args args' : List Expr}
    (h : Counterpart m args m' args') (hargs : ∀ a ∈ args, a.SpelledOut) :
    ∀ a ∈ args', a.SpelledOut := by
  obtain ⟨passed, hpassed, rfl⟩ := h.args
  intro a ha
  obtain ⟨x, hx, rfl⟩ := List.mem_map.mp ha
  obtain ⟨y, hy, hpasses⟩ := exists_of_forall₂ hpassed hx
  rw [spelledOut_quoteLambda]
  cases hpasses with
  | same => exact hargs _ hy
  | converted => exact spelledOut_queryArgument _ (hargs y hy)

theorem spelledOut_unwrapQueryable (he : e.SpelledOut) : (unwrapQueryable e).SpelledOut := by
  induction e using induction_parts with
  | _ e ih =>
    unfold unwrapQueryable
    split
    · rename_i m r source rest
      have hsource : (unwrapQueryable source).SpelledOut :=
        ih source (by simp [parts]) (he.part (by simp [parts]))
      split
      · exact hsource
      · split
        · rw [spelledOut_call] at he ⊢
          refine ⟨he.1, fun x hx => ?_⟩
          rcases List.mem_cons.mp hx with rfl | hx
          · exact hsource
          · exact he.2 x (by simp [hx])
        · exact he
    · exact he

theorem spelledOut_elementRead {element : Ty} {raw source position : Expr}
    (hsource : source.SpelledOut) (hposition : position.SpelledOut) :
    (elementRead element raw source position).SpelledOut := by
  unfold elementRead
  split
  · simp [Expr.apply, hsource, hposition]
  · simp [Expr.apply, spelledOut_quoteLambda, spelledOut_queryArgument _ hsource, hposition]

theorem spelledOut_nonEmptyTest {element : Ty} {raw source : Expr} (hsource : source.SpelledOut) :
    (nonEmptyTest element raw source).SpelledOut := by
  unfold nonEmptyTest
  split
  · simp [Expr.apply, hsource]
  · simp [Expr.apply, spelledOut_quoteLambda, spelledOut_queryArgument _ hsource]

theorem spelledOut_contains {element : Ty} {raw collection item : Expr}
    (hcollection : collection.SpelledOut) (hitem : item.SpelledOut) :
    (QueryNormal.contains element raw collection item).SpelledOut := by
  unfold QueryNormal.contains
  split <;> simp [Expr.apply, spelledOut_asQueryable, hcollection, hitem]

theorem spelledOut_reselected {selector : Expr} {l : Lambda} (h : l.body.SpelledOut) :
    (reselected selector l).SpelledOut := by
  unfold reselected Lambda.quoted Lambda.toExpr
  split <;> simpa using h

/-- A flat join is spelled out if the grouped join, the inner source and the result selector are. -/
theorem JoinPieces.spelledOut_flat {source inner : Expr} {join : GroupJoin} {left : Bool}
    {result : Lambda} (h : JoinPieces source join) (hsource : source.SpelledOut)
    (hinner : inner.SpelledOut) (hresult : result.body.SpelledOut) :
    (join.flat left inner result).SpelledOut := by
  cases h with
  | intro =>
    simp only [spelledOut_call, List.forall_mem_cons] at hsource
    obtain ⟨-, houter, -, houterKey, hinnerKey, -⟩ := hsource
    simp [GroupJoin.flat, Expr.apply, Lambda.quoted, Lambda.toExpr, houter, hinner, houterKey,
      hinnerKey, hresult]

end Rewrites

/-! ## What decides whether an operation is shorthand -/

/-- The second expression is a sequence, a count of a sequence or zero only if the first is. -/
structure Steady (x y : Expr) : Prop where
  sequence : y.isSequence = true → x.isSequence = true
  count : y.isCount = true → x.isCount = true
  zero : isZero y = true → isZero x = true

section Steady

variable {op : BinOp} {e e' lhs lhs' rhs rhs' : Expr}

theorem isCount_iff : e.isCount = true ↔ ∃ x, countedSource? e = some x ∧ x.isSequence = true := by
  unfold isCount
  cases countedSource? e <;> simp

/-- An operation whose operands are steady does not become shorthand. -/
theorem Steady.sugar (hl : Steady lhs lhs') (hr : Steady rhs rhs')
    (h : Sugar.of? op lhs rhs = none) : Sugar.of? op lhs' rhs' = none := by
  refine Option.eq_none_iff_forall_ne_some.mpr fun sugar hsugar => ?_
  cases sugarCase hsugar with
  | elementAt helement =>
    have hsequence : lhs.isSequence = true := hl.sequence (by simp [isSequence, helement])
    simp only [Sugar.of?, Option.map_eq_none_iff] at h
    simp [isSequence, h] at hsequence
  | nonEmpty hop hzero hcounted helement =>
    have hcount : lhs.isCount = true :=
      hl.count (isCount_iff.mpr ⟨_, hcounted, by simp [isSequence, helement]⟩)
    have hzero' : isZero rhs = true := hr.zero (by rw [hzero]; rfl)
    obtain ⟨x, hx, hsequence⟩ := isCount_iff.mp hcount
    obtain ⟨type, htype⟩ := Option.isSome_iff_exists.mp hsequence
    rcases hop with rfl | rfl <;> simp [Sugar.of?, hzero', hx, htype] at h

theorem Steady.binary (hl : Steady lhs lhs') (hr : Steady rhs rhs')
    (h : Sugar.of? op lhs rhs = none) :
    Steady (.binary op lhs rhs) (.binary op lhs' rhs') := by
  refine ⟨fun hsequence => ?_, fun hcount => hcount, fun hzero => hzero⟩
  cases op with
  | arrayIndex =>
    -- what is indexed is no sequence, so that the type is that of an untyped operand
    have hnone : lhs'.ty.element? = none := by simpa [Sugar.of?] using hl.sugar hr h
    simp only [isSequence, Expr.ty, BinOp.yieldsBool, hnone, Option.getD_none] at hsequence
    cases hsequence
  | coalesce => exact hr.sequence hsequence
  | add | subtract | multiply | divide | modulo => exact hl.sequence hsequence
  | _ => cases hsequence

theorem Steady.member (h : Steady e e') (m : Member) :
    Steady (.member (some e) m) (.member (some e') m) := by
  refine ⟨fun hsequence => hsequence, fun hcount => ?_, fun hzero => hzero⟩
  obtain ⟨x, hx, hsequence⟩ := isCount_iff.mp hcount
  obtain ⟨hm, hx⟩ := Option.ite_none_right_eq_some.mp hx
  cases hx
  exact isCount_iff.mpr ⟨e, if_pos hm, h.sequence hsequence⟩

theorem Steady.unary (h : Steady e e') (op : UnOp) : Steady (.unary op e) (.unary op e') := by
  refine ⟨fun hsequence => ?_, fun hcount => ?_, fun hzero => hzero⟩
  · cases op with
    | not | negate => exact h.sequence hsequence
    | _ => exact hsequence
  · cases op with
    | arrayLength => exact h.sequence hcount
    | _ => exact hcount

/-- A call is no count and not zero. -/
theorem Steady.of_call (hcall : e'.call?.isSome = true)
    (hsequence : e'.isSequence = true → e.isSequence = true) : Steady e e' := by
  cases e' with
  | call m r args =>
    refine ⟨hsequence, fun h => ?_, fun h => ?_⟩
    · cases h
    · cases h
  | _ => cases hcall

/-- A walk keeps a node from becoming shorthand, and steady, if it keeps the parts steady. -/
theorem WalksBy.steady {σ : Type} {P : Expr → σ → Expr → σ → Prop} {s t : σ}
    (h : WalksBy P e s e' t) (he : e.isShorthand = false) (hP : ∀ {x s y t}, P x s y t → Steady x y) :
    e'.isShorthand = false ∧ Steady e e' := by
  cases h with
  | @binary op lhs lhs' rhs rhs' _ _ _ hl hr =>
    have hsugar : Sugar.of? op lhs rhs = none := by simpa [isShorthand] using he
    exact ⟨by simp [isShorthand, (hP hl).sugar (hP hr) hsugar], (hP hl).binary (hP hr) hsugar⟩
  | member ht =>
    refine ⟨rfl, ?_⟩
    cases ht with
    | none => exact ⟨fun h => h, fun h => h, fun h => h⟩
    | some hx => exact (hP hx).member _
  | unary hx => exact ⟨rfl, (hP hx).unary _⟩
  | cond _ ha _ => exact ⟨rfl, (hP ha).sequence, fun h => h, fun h => h⟩
  | _ => exact ⟨rfl, fun h => h, fun h => h, fun h => h⟩

end Steady

/-- Only an operation becomes shorthand by a walk. -/
theorem WalksBy.not_isShorthand {σ : Type} {P : Expr → σ → Expr → σ → Prop} {e e' : Expr} {s t : σ}
    (h : WalksBy P e s e' t) (he : ∀ op lhs rhs, e ≠ .binary op lhs rhs) :
    e'.isShorthand = false := by
  cases h with
  | binary => exact absurd rfl (he _ _ _)
  | _ => rfl

theorem WalksBy.spelledOut {σ : Type} {P : Expr → σ → Expr → σ → Prop} {e e' : Expr} {s t : σ}
    (h : WalksBy P e s e' t) (hroot : e'.isShorthand = false)
    (hP : ∀ {x s y t}, P x s y t → y.SpelledOut) : e'.SpelledOut := by
  refine spelledOut_iff.mpr ⟨hroot, fun y hy => ?_⟩
  obtain ⟨x, _, hx⟩ := exists_of_forall₂ (h.forall₂ (R := fun _ y => y.SpelledOut) hP) hy
  exact hx

/-! ## Operands -/

/-- What is left of the call, visited in the state, is not steady: its method declares no sequence as
the result, but that is what it is reduced to, or an annotation is taken off a count or a zero. -/
inductive Unsteady (provider : Provider) : Expr → ReductionState → Prop
  | note {m : Method} {r : Option Expr} {source : Expr} {rest : List Expr} {s : ReductionState} :
      (Note.of? m).isSome = true → source.isCount = true ∨ isZero source = true →
      Unsteady provider (.call m r (source :: rest)) s
  | hint {m : Method} {r : Option Expr} {argument : Expr} {rest : List Expr} {mode : Mode}
      {p : Placeholder} {s t : ReductionState} : Rule.of m r (argument :: rest) = .hint mode →
      Runs provider argument s (.placeholder p) t → m.result.element? = none →
      p.ty.element?.isSome = true → Unsteady provider (.call m r (argument :: rest)) s
  | index {m : Method} {target position : Expr} {element : Ty} {s : ReductionState} :
      Rule.of m (some target) [position] = .index element → m.result.element? = none →
      element.element?.isSome = true → Unsteady provider (.call m (some target) [position]) s
  | converted {m m' : Method} {r : Option Expr} {args args' args'' : List Expr}
      {s t : ReductionState} : Rule.of m r args = .inMemory →
      Threads (Runs provider) args s args' t → toQueryable m args' = .ok (some (m', args'')) →
      m.result.element? = none → m'.result.element?.isSome = true →
      Unsteady provider (.call m r args) s

/-- What is known of a visited part. -/
def SteadyRun (provider : Provider) : PartRun := fun x s y t => Runs provider x s y t ∧ Steady x y

section Operands

variable {provider : Provider} {e e' : Expr} {c : Call} {m : Method} {r : Option Expr}
  {args : List Expr} {s t : ReductionState}

theorem result_eq_none (h : ¬ (call m r args).isSequence = true) : m.result.element? = none := by
  simpa [isSequence, Expr.ty] using h

/-- The result of these operators is a sequence, whatever the type arguments are. -/
theorem isSequence_of_flattening {f : Flattening} (h : Flattening.of? c = some f) :
    c.toExpr.isSequence = true := by
  unfold Call.toExpr isSequence Expr.ty Method.result
  rcases is_selectMany_of_flattening h with hm | hm <;> rw [hm] <;> rfl

theorem isSequence_of_ordering {ordering : Signature} (h : keyedOrdering? c.method = some ordering) :
    c.toExpr.isSequence = true := by
  unfold Call.toExpr isSequence Expr.ty Method.result
  rcases keyedOrdering_cases h with ⟨hm, -⟩ | ⟨hm, -⟩ <;> rw [hm] <;> rfl

theorem isSequence_of_note {n : Note} (h : Note.of? m = some n) :
    (call m r args).isSequence = true := by
  unfold isSequence Expr.ty Method.result
  rw [Note.signature_of_of? h]
  cases n <;> rfl

theorem isSequence_of_loading (h : m.signature ∈ Metadata.loading) :
    (call m r args).isSequence = true := by
  unfold isSequence Expr.ty Method.result
  simp only [Metadata.loading, List.mem_cons, List.not_mem_nil, or_false] at h
  rcases h with h | h | h | h <;> rw [h] <;> rfl

theorem call_elementRead (element : Ty) (raw source position : Expr) :
    (elementRead element raw source position).call?.isSome = true := by
  unfold elementRead
  split <;> rfl

theorem elementRead_ty (element : Ty) (raw source position : Expr) :
    (elementRead element raw source position).ty = element := by
  unfold elementRead
  split <;> rfl

theorem call_nonEmptyTest (element : Ty) (raw source : Expr) :
    (nonEmptyTest element raw source).call?.isSome = true := by
  unfold nonEmptyTest
  split <;> rfl

theorem isSequence_nonEmptyTest (element : Ty) (raw source : Expr) :
    (nonEmptyTest element raw source).isSequence = false := by
  unfold nonEmptyTest
  split <;> rfl

/-- What a call becomes is a call, and a sequence only if the call is one. -/
theorem SettlesBy.isSequence {A : PartRun} (h : SettlesBy A c s e' t) :
    e'.call?.isSome = true ∧ (e'.isSequence = true → c.toExpr.isSequence = true) := by
  cases h with
  | same => exact ⟨rfl, fun h => h⟩
  | ordered hord => exact ⟨rfl, fun _ => isSequence_of_ordering hord⟩
  | pairs hflat | members hflat => exact ⟨rfl, fun _ => isSequence_of_flattening hflat⟩

/-- A visited call is a sequence only if the call before was one. -/
theorem VisitsBy.isSequence (h : VisitsBy (Runs provider) e s c t)
    (hsteady : ¬ Unsteady provider e s) (hsequence : c.toExpr.isSequence = true) : e.isSequence = true := by
  cases h with
  | walked => exact hsequence
  | converted hrule _ hargs hfound =>
    by_contra hnone
    exact hsteady (.converted hrule hargs hfound (result_eq_none hnone) hsequence)

/-- **One layer of the operator pass** keeps a call steady that is not unsteady. -/
theorem ReducesBy.steady {A : PartRun} (h : ReducesBy provider (SteadyRun provider) A e s e' t)
    (hroot : ¬ Unsteady provider e s) : Steady e e' := by
  cases h with
  | node hplain hwalk =>
    refine (hwalk.steady ?_ fun h => h.2).2
    cases e with
    | call | binary => cases hplain
    | _ => rfl
  | binary hsugar hl hr => exact hl.2.binary hr.2 hsugar
  | elementAt hsugar =>
    refine .of_call (call_elementRead _ _ _ _) fun hsequence => ?_
    rw [isSequence, elementRead_ty] at hsequence
    cases sugarCase hsugar with
    | elementAt helement => simpa [isSequence, Expr.ty, BinOp.yieldsBool, helement] using hsequence
  | nonEmpty =>
    refine .of_call (call_nonEmptyTest _ _ _) fun hsequence => ?_
    rw [isSequence_nonEmptyTest] at hsequence
    cases hsequence
  | @note m r source source' rest n _ _ _ hrule _ hsource =>
    cases ruleCase hrule with
    | note hnote =>
      have hnone : ¬ (source.isCount = true ∨ isZero source = true) := fun h =>
        hroot (.note (by simp [hnote]) h)
      refine ⟨fun _ => isSequence_of_note hnote, fun h => ?_, fun h => ?_⟩
      · exact absurd (.inl (hsource.2.count h)) hnone
      · exact absurd (.inr (hsource.2.zero h)) hnone
  | hint hrule _ hrun =>
    refine ⟨fun hsequence => ?_, fun h => ?_, fun h => ?_⟩
    · by_contra hnone
      exact hroot (.hint hrule hrun.1 (result_eq_none hnone) hsequence)
    · cases h
    · cases h
  | index hrule =>
    refine .of_call (call_elementRead _ _ _ _) fun hsequence => ?_
    rw [isSequence, elementRead_ty] at hsequence
    by_contra hnone
    exact hroot (.index hrule (result_eq_none hnone) hsequence)
  | kept _ _ hwalk | member _ _ hwalk => exact (hwalk.steady rfl fun h => h.2).2
  | unmatched => exact .of_call rfl fun h => h
  | contains =>
    refine .of_call rfl fun h => ?_
    cases h
  | loading hrule =>
    refine .of_call rfl fun _ => ?_
    cases ruleCase hrule with
    | loading _ _ _ _ _ hloading => exact isSequence_of_loading (mem_loading_of_loadsOrdered hloading)
  | settle hvisit hsettle =>
    have hvisit' := hvisit.mono fun _ _ _ _ _ h => h.1
    obtain ⟨hcall, hsequence⟩ := hsettle.isSequence
    exact .of_call hcall fun h => hvisit'.isSequence hroot (hsequence h)

/-- **The operator pass** keeps a tree steady, if it visits no unsteady call of the tree. -/
theorem Runs.steady (h : Runs provider e s e' t)
    (hno : ∀ n u, Visits provider e s n u → ¬ Unsteady provider n u) : Steady e e' := by
  revert hno
  refine Runs.induction_visits
    (P := fun x s y _ => (∀ n u, Visits provider x s n u → ¬ Unsteady provider n u) → Steady x y) ?_ h
  intro x x' s t hlayer hno
  refine ReducesBy.steady (hlayer.mono (fun _ _ _ _ _ h => ?_) fun _ _ _ _ h => h) (hno x s .here)
  exact ⟨h.1.1, h.1.2 fun n u hn => hno n u (h.2.trans hn)⟩

end Operands

/-! ## The operator pass -/

/-- Begun on the tree in the state, the operator pass makes shorthand. Flattening replaces the
parameter of a pair selector by what the grouped join makes of the group, or an operation becomes
shorthand as its operands are visited, in which the pass comes to an unsteady call. -/
inductive ReducesToShorthand (provider : Provider) (e : Expr) (s : ReductionState) : Prop
  | flattened {c : Call} {join : GroupJoin} {body inner : Expr} {left : Bool} {result : Lambda}
      {t : ReductionState} : Reaches provider e s c t → PairsPieces c join body left inner result →
      (∀ a ∈ c.args, a.SpelledOut) → ¬ result.body.SpelledOut → ReducesToShorthand provider e s
  | operand {op : BinOp} {lhs lhs' rhs rhs' n : Expr} {t u v w : ReductionState} :
      Meets provider e s (.binary op lhs rhs) t → Sugar.of? op lhs rhs = none →
      Runs provider lhs t lhs' u → Runs provider rhs u rhs' v → Sugar.of? op lhs' rhs' ≠ none →
      Visits provider (.binary op lhs rhs) t n w → Unsteady provider n w →
      ReducesToShorthand provider e s

section OperatorPass

variable {provider : Provider} {e e' x : Expr} {c : Call} {s t u : ReductionState}

theorem ReducesToShorthand.meets (h : ReducesToShorthand provider x u)
    (hx : Meets provider e s x u) : ReducesToShorthand provider e s := by
  cases h with
  | flattened hreach hpieces hargs hresult => exact .flattened (hx.reaches hreach) hpieces hargs hresult
  | operand hmeets hplain hl hr hsugar hn hunsteady =>
    exact .operand (hx.trans hmeets) hplain hl hr hsugar hn hunsteady

/-- What is known of a visited part. -/
def SpelledRun (provider : Provider) : PartRun := fun x s y t =>
  Runs provider x s y t ∧ (x.EveryCall Call.Whole → y.SpelledOut)

theorem spelledOut_of_threads {args args' : List Expr}
    (h : Threads (SpelledRun provider) args s args' t)
    (hargs : ∀ x ∈ args, ∀ s y t, SpelledRun provider x s y t → y.SpelledOut) :
    ∀ a ∈ args', a.SpelledOut := by
  intro a ha
  obtain ⟨x, _, hx⟩ := exists_of_forall₂
    ((h.mono_mem hargs).forall₂ (R := fun _ y => y.SpelledOut) fun h => h) ha
  exact hx

theorem spelledOut_of_threadsOption {r r' : Option Expr}
    (h : ThreadsOption (SpelledRun provider) r s r' t)
    (hr : ∀ x ∈ r, ∀ s y t, SpelledRun provider x s y t → y.SpelledOut) :
    ∀ x ∈ r', x.SpelledOut := by
  cases h with
  | none =>
    intro _ hx
    cases hx
  | some hrun =>
    rintro _ ⟨⟩
    exact hr _ rfl _ _ _ hrun

/-- A visited call is spelled out. -/
theorem VisitsBy.spelledOut (h : VisitsBy (SpelledRun provider) e s c t)
    (hparts : ∀ x ∈ e.parts, ∀ s y t, SpelledRun provider x s y t → y.SpelledOut) :
    c.toExpr.SpelledOut := by
  cases h with
  | walked _ _ hr hargs =>
    refine spelledOut_call.mpr ⟨?_, ?_⟩
    · exact spelledOut_of_threadsOption hr fun x hx => hparts x (by simp_all [parts])
    · exact spelledOut_of_threads hargs fun x hx => hparts x (by simp [parts, hx])
  | converted _ _ hargs hfound =>
    have hargs' := spelledOut_of_threads hargs fun x hx => hparts x (by simp [parts, hx])
    exact spelledOut_call.mpr ⟨by simp, (toQueryable_eq_some hfound).spelledOut hargs'⟩

/-- What a visited call becomes is spelled out. -/
theorem SettlesBy.spelledOut (h : SettlesBy (SpelledRun provider) c u e' t)
    (hreach : Reaches provider e s c u) (hno : ¬ ReducesToShorthand provider e s)
    (hc : c.toExpr.SpelledOut) (hreduced : ∀ a ∈ c.args, a.EveryCall Call.Reduced) :
    e'.SpelledOut := by
  obtain ⟨-, hargs⟩ : (∀ x ∈ c.receiver, x.SpelledOut) ∧ ∀ a ∈ c.args, a.SpelledOut :=
    spelledOut_call.mp hc
  have hagain {f : Flattening} {y : Expr} {u v : ReductionState}
      (hflat : Flattening.of? c = some f) (hrun : SpelledRun provider f.inner u y v) :
      y.SpelledOut := by
    have hinner : f.inner.EveryCall Call.Whole :=
      (Flattening.everyCall_inner established_reduced.toMaintained hflat hreduced).mono
        fun _ hc => hc.loading
    exact hrun.2 hinner
  cases h with
  | same => exact hc
  | ordered _ _ hsource =>
    simpa [Expr.apply, Lambda.quoted, Lambda.toExpr, Lambda.identity] using
      hargs _ (by simp [hsource])
  | pairs hflat hrun =>
    obtain ⟨body, hpieces⟩ := Flattening.pairsPieces hflat
    have hresult : _ := not_not.mp fun h => hno (.flattened hreach hpieces hargs h)
    have hinner := spelledOut_unwrapQueryable (hagain hflat hrun)
    cases hpieces with
    | intro _ hjoin => exact hjoin.spelledOut_flat (hargs _ (by simp)) hinner hresult
  | members hflat hrun =>
    obtain ⟨body, hpieces⟩ := Flattening.membersPieces hflat
    have hinner := hagain hflat hrun
    cases hpieces with
    | intro _ hjoin => exact hjoin.spelledOut_flat (hargs _ (by simp)) hinner spelledOut_param

/-- An operation becomes shorthand only with an operand that is not steady. -/
theorem sugar_eq_none_of_runs {op : BinOp} {lhs lhs' rhs rhs' : Expr}
    (hsugar : Sugar.of? op lhs rhs = none) (hl : Runs provider lhs s lhs' t)
    (hr : Runs provider rhs t rhs' u)
    (hno : ¬ ReducesToShorthand provider (.binary op lhs rhs) s) : Sugar.of? op lhs' rhs' = none := by
  by_contra hmade
  have hsteady {x : Expr} {v : ReductionState} (hx : Enters provider (.binary op lhs rhs) s x v) :
      ∀ n w, Visits provider x v n w → ¬ Unsteady provider n w := fun n w hn hunsteady =>
    hno (.operand (.visit .here) hsugar hl hr hmade (.inside hx hn) hunsteady)
  have hlhs : Steady lhs lhs' := hl.steady (hsteady (.first (by simp [agenda, hsugar])))
  have hrhs : Steady rhs rhs' := hr.steady (hsteady (.second (by simp [agenda, hsugar]) hl))
  exact hmade (hlhs.sugar hrhs hsugar)

/-- **One layer of the operator pass** makes no other shorthand. -/
theorem ReducesBy.spelledOut
    (h : ReducesBy provider (SpelledRun provider) (SpelledRun provider) e s e' t)
    (he : e.EveryCall Call.Whole) (hno : ¬ ReducesToShorthand provider e s) : e'.SpelledOut := by
  have hnode {x y : Expr} {s t : ReductionState} (hx : x ∈ e.nodes)
      (hrun : SpelledRun provider x s y t) : y.SpelledOut := hrun.2 (he.node hx)
  have hparts : ∀ x ∈ e.parts, ∀ s y t, SpelledRun provider x s y t → y.SpelledOut :=
    fun x hx _ _ _ => hnode (mem_nodes_of_mem_parts hx)
  cases h with
  | node hplain hwalk =>
    refine (hwalk.mono_mem hparts).spelledOut (hwalk.not_isShorthand ?_) fun h => h
    rintro op lhs rhs rfl
    cases hplain
  | binary hsugar hl hr =>
    refine spelledOut_iff.mpr ⟨?_, ?_⟩
    · simp [isShorthand, sugar_eq_none_of_runs hsugar hl.1 hr.1 hno]
    · simpa [parts] using
        ⟨hparts _ (by simp [parts]) _ _ _ hl, hparts _ (by simp [parts]) _ _ _ hr⟩
  | elementAt _ hl hr =>
    exact spelledOut_elementRead (hparts _ (by simp [parts]) _ _ _ hl)
      (hparts _ (by simp [parts]) _ _ _ hr)
  | nonEmpty _ hcounted hrun =>
    exact spelledOut_nonEmptyTest (hnode (nodes_trans (mem_nodes_of_mem_parts (by simp [parts]))
      (mem_nodes_of_mem_parts (mem_parts_of_counted hcounted).1)) hrun)
  | note _ _ hrun => exact hparts _ (by simp [parts]) _ _ _ hrun
  | hint => exact spelledOut_placeholder
  | index _ ht hp =>
    exact spelledOut_elementRead (hparts _ (by simp [parts]) _ _ _ ht)
      (hparts _ (by simp [parts]) _ _ _ hp)
  | kept _ _ hwalk | member _ _ hwalk =>
    exact (hwalk.mono_mem hparts).spelledOut (hwalk.not_isShorthand (by simp)) fun h => h
  | unmatched _ _ hargs _ hr =>
    refine spelledOut_call.mpr ⟨?_, ?_⟩
    · exact spelledOut_of_threadsOption hr fun x hx => hparts x (by simp_all [parts])
    · exact spelledOut_of_threads hargs fun x hx => hparts x (by simp [parts, hx])
  | contains _ _ hcollection hitem =>
    exact spelledOut_contains (hparts _ (by simp [parts]) _ _ _ hcollection)
      (hparts _ (by simp [parts]) _ _ _ hitem)
  | @loading m r source source' selector body body' p _ _ _ hrule hlambda hsource hbody =>
    obtain rfl : r = none := by
      cases ruleCase hrule with
      | loading _ _ _ _ _ hloading =>
        exact (everyCall_call.mp he).1 (mem_loading_of_loadsOrdered hloading)
    have hsource' := hparts source (by simp [parts]) _ _ _ hsource
    have hbody' := hnode (nodes_trans (mem_nodes_of_mem_parts (by simp [parts]))
      (body_mem_nodes_of_lambda hlambda)) hbody
    simpa using ⟨hsource', spelledOut_reselected hbody'⟩
  | settle hvisit hsettle =>
    have hvisit' := hvisit.mono fun _ _ _ _ _ h => h.1
    exact hsettle.spelledOut hvisit'.reaches hno (hvisit.spelledOut hparts)
      (hvisit'.everyCall_args established_reduced he)

/-- **The operator pass** makes no other shorthand. -/
theorem Runs.spelledOut (h : Runs provider e s e' t) (he : e.EveryCall Call.Whole)
    (hno : ¬ ReducesToShorthand provider e s) : e'.SpelledOut := by
  revert he hno
  refine Runs.induction_meets (P := fun x s y _ =>
    x.EveryCall Call.Whole → ¬ ReducesToShorthand provider x s → y.SpelledOut) ?_ h
  intro x x' s t hlayer hx hno
  have hrun {y z : Expr} {u v : ReductionState}
      (h : (Runs provider y u z v ∧ (y.EveryCall Call.Whole → ¬ ReducesToShorthand provider y u →
        z.SpelledOut)) ∧ Meets provider x s y u) : SpelledRun provider y u z v :=
    ⟨h.1.1, fun hy => h.1.2 hy fun hshort => hno (hshort.meets h.2)⟩
  exact (hlayer.mono (fun _ _ _ _ _ => hrun) fun _ _ _ _ => hrun).spelledOut hx hno

end OperatorPass

/-! ## The grouped-join pass -/

/-- Replacing the group in the result selector of the grouped join gives a selector that is not
spelled out, though the arguments of the join are. -/
def SelectsShorthand (c : Call) : Prop :=
  ∃ select outer selector, correlate c.method c.args = .ok (select, outer, selector) ∧
    (∀ a ∈ c.args, a.SpelledOut) ∧ ¬ selector.SpelledOut

section GroupedJoinPass

variable {e e' : Expr}

/-- A tree that is spelled out stays so, and steady, unless the pass comes to a grouped join that
makes shorthand. -/
def StaysSpelled (x y : Expr) : Prop :=
  x.SpelledOut → (∀ c, ComesTo x c → ¬ SelectsShorthand c) → Steady x y ∧ y.SpelledOut

/-- **One layer of the grouped-join pass** makes no other shorthand. -/
theorem UngroupsBy.staysSpelled (h : UngroupsBy StaysSpelled StaysSpelled e e') :
    StaysSpelled e e' := by
  intro he hno
  cases h with
  | node hnot hwalk =>
    have hvisited : WalksBy (fun x (_ : Unit) y _ => Steady x y ∧ y.SpelledOut) e () e' () :=
      hwalk.mono_mem fun x hx _ _ _ hrun => hrun (he.part hx) fun c hc => hno c (.part hnot hx hc)
    obtain ⟨hroot, hsteady⟩ := hvisited.steady (spelledOut_iff.mp he).1 fun h => h.1
    exact ⟨hsteady, hvisited.spelledOut hroot fun h => h.2⟩
  | @join m select r args outer outer' selector selector' hm hcorrelate houter hselector =>
    obtain ⟨-, hargs⟩ := spelledOut_call.mp he
    have hmem : outer ∈ args := by
      cases correlatePieces hcorrelate with
      | intro => simp
    have hspelled : selector.SpelledOut := not_not.mp fun h =>
      hno _ (.here hm) ⟨select, outer, selector, hcorrelate, hargs, h⟩
    obtain ⟨-, houter'⟩ := houter (hargs outer hmem) fun c hc => hno c (.source hm hcorrelate hc)
    obtain ⟨-, hselector'⟩ := hselector hspelled fun c hc => hno c (.selector hm hcorrelate hc)
    refine ⟨.of_call rfl fun _ => ?_, by simpa using ⟨houter', hselector'⟩⟩
    simp only [Method.is, decide_eq_true_eq] at hm
    rw [isSequence, Expr.ty, Method.result, hm]
    rfl

/-- **The grouped-join pass** makes no other shorthand. -/
theorem Ungroups.staysSpelled (h : Ungroups e e') : StaysSpelled e e' :=
  Ungroups.induction UngroupsBy.staysSpelled h

end GroupedJoinPass

/-! ## Normal forms -/

/-- **What is left of shorthand.** No operation in a normal form is shorthand, unless the run of the
operator pass has made it, or it has not and the grouped-join pass comes to a join that does. -/
theorem spelledOut_or_shorthand_of_normalize {provider : Provider} {context context' : Context}
    {e e' : Expr}
    (hloading : ∀ c ∈ e.calls, c.method.signature ∈ Metadata.loading → c.receiver = none)
    (h : normalize provider context e = (.ok e', context')) :
    (∀ op lhs rhs, .binary op lhs rhs ∈ e'.nodes → Sugar.of? op lhs rhs = none) ∨
      ReducesToShorthand provider e ⟨context, .after e⟩ ∨
      ∃ middle t, Yields (reduceOperators provider e.budget e) ⟨context, .after e⟩ middle t ∧
        middle.SpelledOut ∧ ∃ c, ComesTo middle c ∧ SelectsShorthand c := by
  obtain ⟨middle, t, hyields, _, hfinish⟩ := yields_of_normalize h
  by_cases hreduces : ReducesToShorthand provider e ⟨context, .after e⟩
  · exact .inr (.inl hreduces)
  have hmiddle : middle.SpelledOut := Runs.spelledOut ⟨_, hyields⟩ hloading hreduces
  by_cases hselects : ∃ c, ComesTo middle c ∧ SelectsShorthand c
  · exact .inr (.inr ⟨middle, t, hyields, hmiddle, hselects⟩)
  have hspelled : e'.SpelledOut :=
    ((ungroups_of_finish hfinish).staysSpelled hmiddle fun c hc hshort =>
      hselects ⟨c, hc, hshort⟩).2
  exact .inl fun op lhs rhs hmem => hspelled.sugar hmem

/-! ## Trees in which nothing is flattened -/

section Flat

variable {provider : Provider} {e : Expr} {c : Call} {s : ReductionState}

/-- The method of a call that is not steady declares no sequence, or the call is applied to a count or
a zero. -/
theorem Unsteady.exists_call {n : Expr} (h : Unsteady provider n s) :
    ∃ c : Call, n.call? = some c ∧ (c.method.result.element? = none ∨
      ∃ source ∈ c.args.head?, source.isCount = true ∨ isZero source = true) := by
  cases h with
  | note _ hsource => exact ⟨_, rfl, .inr ⟨_, rfl, hsource⟩⟩
  | hint _ _ hnone | index _ hnone | converted _ _ _ hnone => exact ⟨_, rfl, .inl hnone⟩

theorem not_reducesToShorthand (hname : ∀ c ∈ e.calls, c.method.name ≠ "SelectMany")
    (hcalls : ∀ c ∈ e.calls, c.method.result.element?.isSome = true ∧
      ∀ source ∈ c.args.head?, source.isCount = false ∧ isZero source = false) :
    ¬ ReducesToShorthand provider e s := by
  intro h
  cases h with
  | flattened hreach hpieces =>
    have hflat := hpieces.flattening
    rw [hreach.flattening_eq_none hname] at hflat
    cases hflat
  | operand hmeets _ _ _ _ hn hunsteady =>
    rcases hmeets.mem_or_rebuilt with hmem | ⟨c, f, _, hreach, hflat, -⟩
    · obtain ⟨c, hc, hcause⟩ := hunsteady.exists_call
      obtain ⟨hresult, hsource⟩ :=
        hcalls c (List.mem_filterMap.mpr ⟨_, nodes_trans hmem hn.mem_nodes, hc⟩)
      rcases hcause with hnone | ⟨source, hmem, hcause⟩
      · simp [hnone] at hresult
      · simp [hsource source hmem] at hcause
    · rw [hreach.flattening_eq_none hname] at hflat
      cases hflat

end Flat

/-! ## Customers whose first order is paid -/

/-- The orders of a customer. -/
def ordersOf (customer : Expr) : Expr := .access customer "Orders" (.seq .list (.entity "Order"))

/-- The integer zero. -/
def zeroInt : Expr := .const (.int 0) .int

/-- The shorthand for asking a list for an element. -/
def countIsPositive (source : Expr) : Expr := .binary .greater (.access source "Count" .int) zeroInt

/-- The customers that have a first order, which is paid. -/
def withFirstPaid (customers : Expr → Expr) (any first : Expr → Expr) : Expr :=
  let customer : Ty := .entity "Customer"
  let c : Param := ⟨0, "c", customer⟩
  .apply Queryable.filter [customer]
    [customers (.const (.reference "DbSet<Customer>()") (.queryable customer)),
      .quote (.lambda [c] (.binary .and (any (ordersOf (.param c)))
        (.access (first (ordersOf (.param c))) "Paid" .bool)))]

/-- The customers are not tracked, and their orders are counted and indexed. -/
def untrackedFirstPaid : Expr :=
  withFirstPaid (fun customers => .apply Metadata.asNoTracking [.entity "Customer"] [customers])
    countIsPositive fun orders => .binary .arrayIndex orders zeroInt

/-- The orders are asked by queries. -/
def firstPaidByQuery : Expr :=
  let order : Ty := .entity "Order"
  withFirstPaid (fun customers => customers)
    (fun orders => .apply Domain.queries.any [order] [asQueryable orders order])
    fun orders => .apply Domain.queries.elementAt [order] [asQueryable orders order, zeroInt]

theorem spelledOut_firstPaidByQuery :
    (∀ c ∈ untrackedFirstPaid.calls,
        c.method.signature ∈ Metadata.loading → c.receiver = none) ∧
      normalize ⟨false⟩ default untrackedFirstPaid =
        (.ok firstPaidByQuery, .ofTracking .noTracking) ∧
      ¬ untrackedFirstPaid.SpelledOut ∧
      ¬ ReducesToShorthand ⟨false⟩ untrackedFirstPaid ⟨default, .after untrackedFirstPaid⟩ ∧
      (∀ c, ¬ ComesTo firstPaidByQuery c) ∧
      ∀ op lhs rhs, .binary op lhs rhs ∈ firstPaidByQuery.nodes → Sugar.of? op lhs rhs = none := by
  have hloading : ∀ c ∈ untrackedFirstPaid.calls,
      c.method.signature ∈ Metadata.loading → c.receiver = none := by decide
  have hnormal : normalize ⟨false⟩ default untrackedFirstPaid =
      (.ok firstPaidByQuery, .ofTracking .noTracking) := rfl
  have hreduces : ¬ ReducesToShorthand ⟨false⟩ untrackedFirstPaid ⟨default, .after untrackedFirstPaid⟩ :=
    not_reducesToShorthand (by decide) (by decide)
  have hjoins : ∀ c ∈ firstPaidByQuery.calls, ¬ c.is Queryable.groupJoin := by decide
  have hungrouped : ∀ c, ¬ ComesTo firstPaidByQuery c := fun c => not_comesTo hjoins
  refine ⟨hloading, hnormal, by decide, hreduces, hungrouped, ?_⟩
  rcases spelledOut_or_shorthand_of_normalize hloading hnormal with
    hspelled | hshort | ⟨middle, t, hmiddle, -, c, hcomes, -⟩
  · exact hspelled
  · exact absurd hshort hreduces
  · cases hmiddle
    exact absurd hcomes (hungrouped c)

/-! ## Shorthand that is made -/

/-- A customer of a join. -/
def joinedCustomer : Expr := .param ⟨2, "o", .entity "Customer"⟩

/-- A customer with the number of orders, and the group of a join. -/
def countedOrders : Expr :=
  .anonymous [("n", .access (ordersOf joinedCustomer) "Count" .int),
    ("g", .param ⟨3, "g", .enumerable (.entity "Order")⟩)]

/-- The number of orders, which the grouped join has named, is compared by the pair selector. -/
def countInPairs : Expr :=
  let order : Ty := .entity "Order"
  let x : Param := ⟨4, "x", countedOrders.ty⟩
  let y : Param := ⟨5, "y", countedOrders.ty⟩
  .apply Queryable.selectManyPairs [x.ty, order, .bool]
    [ordersGrouped countedOrders, .quote (.lambda [x] (groupOf (.param x))),
      .quote (.lambda [y, ⟨6, "e", order⟩] (.binary .greater (.access (.param y) "n" .int) zeroInt))]

/-- The number of orders is named and compared by the result selector of a grouped join. -/
def countInGroups : Expr :=
  let named : Expr := .anonymous [("n", .access (ordersOf joinedCustomer) "Count" .int)]
  ordersGrouped (.binary .greater (.access named "n" .int) zeroInt)

/-- A list of lists. -/
def listOfLists : Expr := .const (.reference "xs") (.seq .list (.seq .list .int))

/-- A list is passed as a parameter that is declared to be an integer. -/
def hintedList : Expr :=
  .apply Hint.parameter [.int] [.placeholder (.ofName "p" (.seq .list .int))]

/-- An indexer that is declared to give an integer is applied to a list of lists. -/
def indexedList : Expr :=
  .call ⟨.onType listOfLists.ty "get_Item" [.int] .int, []⟩ (some listOfLists) [zeroInt]

/-- A filter in memory that is declared to give an integer. -/
def filteredList : Expr :=
  .apply { Domain.memory.filter with result := .int } [.int]
    [.const (.reference "xs") (.seq .list .int),
      .lambda [⟨0, "x", .int⟩] (.const (.bool true) .bool)]

/-- A count that is declared to be a query, which is not tracked. -/
def untrackedCount : Expr :=
  .apply Metadata.asNoTracking [.int] [.access listOfLists "Count" (.queryable .int)]

/-- Whether the expression is an integer constant. -/
def Expr.isInteger : Expr → Bool
  | .const (.int _) _ => true
  | _ => false

/-- The tree is closed, its calls are proper, annotations are of sequences and of no integer, and
the normal form is not spelled out. -/
def Expr.KeepsShorthand (e : Expr) : Prop :=
  e.Closed ∧ (∀ c ∈ e.calls, c.Proper) ∧
    (∀ c ∈ e.calls, (Note.of? c.method).isSome = true →
      ∀ source ∈ c.args.head?, source.isSequence = true ∧ source.isInteger = false) ∧
    ∃ e' context, normalize ⟨false⟩ default e = (.ok e', context) ∧ ¬ e'.SpelledOut

/-- Each way to make shorthand is real: by the pair selector of a flattening, by the result selector
of a grouped join, and by each kind of operand. -/
theorem normalize_keeps_shorthand :
    countInPairs.KeepsShorthand ∧ countInGroups.KeepsShorthand ∧
      (Expr.binary .arrayIndex hintedList zeroInt).KeepsShorthand ∧
      (Expr.binary .arrayIndex indexedList zeroInt).KeepsShorthand ∧
      (Expr.binary .arrayIndex filteredList zeroInt).KeepsShorthand ∧
      (Expr.binary .greater untrackedCount zeroInt).KeepsShorthand := by
  refine ⟨⟨?_, ?_, ?_, _, _, rfl, ?_⟩, ⟨?_, ?_, ?_, _, _, rfl, ?_⟩, ⟨?_, ?_, ?_, _, _, rfl, ?_⟩,
    ⟨?_, ?_, ?_, _, _, rfl, ?_⟩, ⟨?_, ?_, ?_, _, _, rfl, ?_⟩, ?_, ?_, ?_, _, _, rfl, ?_⟩ <;> decide

end QueryNormal
