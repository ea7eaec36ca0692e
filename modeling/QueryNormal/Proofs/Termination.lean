import QueryNormal.Proofs.Alike
import QueryNormal.Proofs.Arity
import QueryNormal.Proofs.Solvency

/-!
# The operator pass ends

* `Reduction.Lasts`: a computation does not use up the budget.
* `lasts_reduceOperators`: the operator pass does not use up a budget above what the tree costs.
* `reduceOperators_ends`: so the pass comes to one result with every such budget, and the budget of a
  tree is one.
* `Expr.Diverges`: the pass uses up every budget.
* `diverges_selfApplied`: so it does where a lambda is read off an object and applied to the object.
-/

namespace QueryNormal

open QueryNormal.Expr Reduction

/-! ## Computations that last -/

namespace Reduction

/-- Begun in the state, the computation does not use up the budget. -/
def Lasts {α : Type} (x : Reduction α) (s : ReductionState) : Prop := ∀ t, ¬ Fails x s .exhausted t

section Lasts

variable {α β : Type} {x : Reduction α} {k : α → Reduction β} {s : ReductionState}

theorem lasts_pure {a : α} : Lasts (pure a) s := fun _ => not_fails_pure

theorem lasts_misuse {cause : Misuse} : Lasts (misuse cause : Reduction α) s := fun t h => by
  simp at h

theorem lasts_problem {problem : Problem} : Lasts (fail (.problem problem) : Reduction α) s :=
  fun t h => by simp at h

theorem Lasts.bind (hx : Lasts x s) (hk : ∀ a t, Yields x s a t → Lasts (k a) t) :
    Lasts (x >>= k) s := by
  intro t h
  rcases fails_bind.mp h with h | ⟨a, u, ha, h⟩
  · exact hx t h
  · exact hk a u ha t h

theorem Lasts.map {f : α → β} (hx : Lasts x s) : Lasts (x >>= fun a => pure (f a)) s :=
  hx.bind fun _ _ _ => lasts_pure

end Lasts

end Reduction

/-! ## The operator pass -/

section OperatorPass

variable {w : UInt32 → Nat} {provider : Provider} {budget : Nat} {e x y : Expr} {es : List Expr}
  {c : Call} {m : Method} {r : Option Expr} {args : List Expr} {s t : ReductionState}

/-- A visit of the expression lasts, in every state in which the expression is affordable. -/
def LastsAt (w : UInt32 → Nat) (visit : Expr → Reduction Expr) (x : Expr) : Prop :=
  ∀ s, Affords w [x] s → Lasts (visit x) s

theorem solvent_of_yields (h : Yields (x.reduce provider (reduceOperators provider budget)) s y t)
    (hafford : Affords w [x] s) : Solvent w x s y t :=
  Runs.solvent ⟨budget + 1, h⟩ hafford

theorem solvent_of_reduceList {ys : List Expr}
    (h : Yields (reduceList provider (reduceOperators provider budget) es) s ys t)
    (hafford : Affords w es s) : Threads (Solvent w) es s ys t :=
  (threads_of_reduceList h).solvent solvent_of_yields hafford

theorem solvent_of_reduceOption {r' : Option Expr}
    (h : Yields (reduceOption provider (reduceOperators provider budget) r) s r' t)
    (hafford : Affords w r.toList s) : Threads (Solvent w) r.toList s r'.toList t :=
  (threads_of_reduceOption h).threads.solvent solvent_of_yields hafford

theorem lasts_reduceList
    (hes : ∀ x ∈ es, LastsAt w (Expr.reduce provider (reduceOperators provider budget)) x)
    (hafford : Affords w es s) :
    Lasts (reduceList provider (reduceOperators provider budget) es) s := by
  induction es generalizing s with
  | nil => exact lasts_pure
  | cons x es ih =>
    have hcons : Affords w ([x] ++ es) s := hafford
    refine (hes x (by simp) s hcons.left).bind fun y t hy => Lasts.map ?_
    have hrest : Affords w es t := hcons.rest (.cons (solvent_of_yields hy hcons.left) .nil)
    exact ih (fun z hz => hes z (by simp [hz])) hrest

theorem lasts_reduceOption
    (hr : ∀ x ∈ r, LastsAt w (Expr.reduce provider (reduceOperators provider budget)) x)
    (hafford : Affords w r.toList s) :
    Lasts (reduceOption provider (reduceOperators provider budget) r) s := by
  cases r with
  | none => exact lasts_pure
  | some x => exact (hr x rfl s hafford).map

theorem lasts_reduceBindings {bs : List Binding}
    (hbs : ∀ x ∈ bs.flatMap Binding.values,
      LastsAt w (Expr.reduce provider (reduceOperators provider budget)) x)
    (hafford : Affords w (bs.flatMap Binding.values) s) :
    Lasts (reduceBindings provider (reduceOperators provider budget) bs) s := by
  induction bs generalizing s with
  | nil => exact lasts_pure
  | cons b bs ih =>
    have hcons : Affords w (b.values ++ bs.flatMap Binding.values) s := hafford
    have hrest : ∀ x ∈ bs.flatMap Binding.values,
        LastsAt w (Expr.reduce provider (reduceOperators provider budget)) x :=
      fun x hx => hbs x (List.mem_append_right _ hx)
    cases b with
    | assign name value =>
      refine (hbs value (by simp [Binding.values]) s hcons.left).bind fun y t hy => Lasts.map ?_
      exact ih hrest (hcons.rest (.cons (solvent_of_yields hy hcons.left) .nil))
    | items name values =>
      refine (lasts_reduceList (fun x hx => hbs x (List.mem_append_left _ hx)) hcons.left).bind
        fun ys t hys => Lasts.map ?_
      exact ih hrest (hcons.rest (solvent_of_reduceList hys hcons.left))

/-! ### Calls, rule by rule -/

section Calls

/-- What a flattening has built costs less than the call, and so its visit lasts. -/
theorem lasts_settle (hagain : ∀ x, x.cost w < budget → LastsAt w (reduceOperators provider budget) x)
    (hafford : Affords w [c.toExpr] s) (hcost : c.toExpr.cost w ≤ budget) :
    Lasts (settle (reduceOperators provider budget) c) s := by
  rcases hord : keyedOrdering? c.method with _ | ordering
  · rw [settle_eq_flatten hord]
    unfold flatten
    split
    · exact lasts_pure
    · rename_i join left inner result hflat
      obtain ⟨body, hpieces⟩ := Flattening.pairsPieces hflat
      obtain ⟨n, a, b, -, hin, -, hless⟩ := hpieces.within hafford.self
      have hcost' := hin.cost
      exact (hagain inner (by omega) s (hafford.within hin (by omega))).map
    · rename_i join left inner outer element hflat
      obtain ⟨body, hpieces⟩ := Flattening.membersPieces hflat
      obtain ⟨n, a, -, hin, hless⟩ := hpieces.within hafford.self
      have hcost' := hin.cost
      refine (hagain inner (by omega) s (hafford.within hin (by omega))).bind fun _ _ _ => ?_
      exact Lasts.map fun _ => not_fails_fresh
  · by_cases hshape : c.method.typeArgs = [] ∨ c.args.length ≠ 1
    · rw [settle_malformed hord hshape]
      exact lasts_misuse
    · obtain ⟨element, rest, source, htypes, hargs⟩ := exists_of_wellFormed hshape
      rw [settle_ordered hord htypes hargs]
      exact Lasts.map fun _ => not_fails_fresh

/-- A visited call costs no more than the call. -/
theorem lasts_visited
    (hagain : ∀ x, x.cost w < budget → LastsAt w (reduceOperators provider budget) x)
    (hafford : Affords w [e] s) (hcost : e.cost w ≤ budget)
    (hvisit : VisitsBy (partRun provider (reduceOperators provider budget)) e s c t) :
    Lasts (settle (reduceOperators provider budget) c) t := by
  have hvisited := hvisit.solvent solvent_of_yields hafford
  refine lasts_settle hagain (hafford.after ?_ hvisited.le ?_) ?_
  · simpa using hvisited.secured
  · simpa using hvisited.paid
  · exact Nat.le_trans hvisited.improves.within.cost hcost

variable (hparts : ∀ x ∈ (call m r args).parts,
    LastsAt w (Expr.reduce provider (reduceOperators provider budget)) x)
  (hafford : Affords w [call m r args] s)
include hparts hafford

theorem lasts_note {n : Note} (hrule : Rule.of m r args = .note n) :
    Lasts ((call m r args).reduce provider (reduceOperators provider budget)) s := by
  rw [Expr.reduce.eq_def]
  simp only [hrule]
  cases args with
  | nil => exact lasts_misuse
  | cons source rest =>
    have hmem : source ∈ (call m r (source :: rest)).parts := by simp [parts]
    refine (hparts source hmem s (hafford.part hmem)).bind fun _ _ _ => ?_
    refine Lasts.map ?_
    unfold Note.perform
    split
    · exact fun _ => not_fails_perform
    · exact lasts_misuse

theorem lasts_hint {mode : Mode} (hrule : Rule.of m r args = .hint mode) :
    Lasts ((call m r args).reduce provider (reduceOperators provider budget)) s := by
  rw [Expr.reduce.eq_def]
  simp only [hrule]
  split
  · cases args with
    | nil => exact lasts_misuse
    | cons argument rest =>
      have hmem : argument ∈ (call m r (argument :: rest)).parts := by simp [parts]
      refine (hparts argument hmem s (hafford.part hmem)).bind fun _ _ _ => ?_
      split
      · exact lasts_pure
      · exact lasts_misuse
  · exact lasts_problem

theorem lasts_index {element : Ty} (hrule : Rule.of m r args = .index element) :
    Lasts ((call m r args).reduce provider (reduceOperators provider budget)) s := by
  obtain ⟨target, position, rfl, rfl⟩ := exists_of_index hrule
  rw [reduce_index hrule]
  have hboth : Affords w ([target] ++ [position]) s := hafford.parts
  refine (hparts target (by simp [parts]) s hboth.left).bind fun target' t htarget => ?_
  have hposition := hboth.rest (.cons (solvent_of_yields htarget hboth.left) .nil)
  exact (hparts position (by simp [parts]) t hposition).map

theorem lasts_inMemory
    (hagain : ∀ x, x.cost w < budget → LastsAt w (reduceOperators provider budget) x)
    (hcost : (call m r args).cost w ≤ budget) (hrule : Rule.of m r args = .inMemory) :
    Lasts ((call m r args).reduce provider (reduceOperators provider budget)) s := by
  have hreceiver : ∀ x ∈ r, LastsAt w (Expr.reduce provider (reduceOperators provider budget)) x :=
    fun x hx => hparts x (by simp_all [parts])
  have hargs : ∀ x ∈ args, LastsAt w (Expr.reduce provider (reduceOperators provider budget)) x :=
    fun x hx => hparts x (by simp [parts, hx])
  have hboth : Affords w (r.toList ++ args) s := hafford.parts
  rw [Expr.reduce.eq_def]
  simp only [hrule]
  split
  · refine (lasts_reduceOption hreceiver hboth.left).bind fun r' t hr' => Lasts.map ?_
    exact lasts_reduceList hargs (hboth.rest (solvent_of_reduceOption hr' hboth.left))
  · rename_i hstays
    refine (lasts_reduceList hargs hboth.right).bind fun args' t hargs' => ?_
    have hruns := solvent_of_reduceList hargs' hboth.right
    refine Lasts.bind ?_ fun result u hresult => ?_
    · refine Lasts.bind (fun u h => ?_) fun found u hyields => ?_
      · rw [fails_ofExcept] at h
        cases outOfRange_of_toQueryable h.1
      · obtain ⟨hfound, rfl⟩ := yields_ofExcept.mp hyields
        cases found with
        | none => exact lasts_pure
        | some found =>
          have hvisit : VisitsBy (partRun provider (reduceOperators provider budget)) (call m r args) s
              ⟨found.1, none, found.2⟩ t :=
            .converted hrule (Bool.eq_false_iff.mpr hstays) (threads_of_reduceList hargs') hfound
          exact (lasts_visited hagain hafford hcost hvisit).map
    · simp only [convertCall, yields_bind, yields_ofExcept] at hresult
      obtain ⟨found, _, ⟨-, rfl⟩, hresult⟩ := hresult
      cases found with
      | none =>
        obtain ⟨rfl, rfl⟩ := yields_pure.mp hresult
        refine Lasts.map (lasts_reduceOption hreceiver ?_)
        refine hboth.after hboth.left.secured hruns.next_le ?_
        have hpaid := hruns.paid
        simp only [List.map_append, List.sum_append]
        omega
      | some found =>
        simp only [yields_bind, yields_pure] at hresult
        obtain ⟨e', v, -, rfl, -⟩ := hresult
        exact lasts_pure

theorem lasts_membership {element : Ty} (hrule : Rule.of m r args = .membership element) :
    Lasts ((call m r args).reduce provider (reduceOperators provider budget)) s := by
  rw [Expr.reduce.eq_def]
  simp only [hrule]
  cases r with
  | none => exact lasts_misuse
  | some c =>
    have hboth : Affords w ([c] ++ args) s := hafford.parts
    have hc := hparts c (by simp [parts]) s hboth.left
    dsimp only
    split
    · refine hc.bind fun c' t hc' => Lasts.map ?_
      refine lasts_reduceList (fun x hx => hparts x (by simp [parts, hx])) ?_
      exact hboth.rest (.cons (solvent_of_yields hc' hboth.left) .nil)
    · split
      · rename_i item
        refine hc.bind fun c' t hc' => Lasts.map ?_
        refine hparts item (by simp [parts]) t ?_
        exact hboth.rest (.cons (solvent_of_yields hc' hboth.left) .nil)
      · exact lasts_misuse

theorem lasts_loading (hrule : Rule.of m r args = .loading) :
    Lasts ((call m r args).reduce provider (reduceOperators provider budget)) s := by
  rw [Expr.reduce.eq_def]
  simp only [hrule]
  split
  · rename_i source selector
    have hboth : Affords w ([source] ++ [selector]) s := hafford.parts.right
    refine (hparts source (by simp [parts]) s hboth.left).bind fun source' t hsource => ?_
    split
    · exact lasts_misuse
    · have hrest := hboth.rest (.cons (solvent_of_yields hsource hboth.left) .nil)
      refine (hparts selector (by simp [parts]) t hrest).bind fun normal u _ => ?_
      split
      · exact lasts_pure
      · exact lasts_misuse
  · exact lasts_misuse

theorem lasts_other
    (hagain : ∀ x, x.cost w < budget → LastsAt w (reduceOperators provider budget) x)
    (hcost : (call m r args).cost w ≤ budget) (hrule : Rule.of m r args = .other) :
    Lasts ((call m r args).reduce provider (reduceOperators provider budget)) s := by
  have hboth : Affords w (r.toList ++ args) s := hafford.parts
  rw [Expr.reduce.eq_def]
  simp only [hrule]
  refine Lasts.bind (fun t h => ?_) fun _ _ hcheck => ?_
  · obtain ⟨-, _, _, _, -, -, hproblem⟩ := fails_checkSelect h
    cases hproblem
  obtain ⟨hprojection, rfl⟩ := yields_checkSelect.mp hcheck
  refine (lasts_reduceOption (fun x hx => hparts x (by simp_all [parts])) hboth.left).bind
    fun r' t hr' => ?_
  have hrest := hboth.rest (solvent_of_reduceOption hr' hboth.left)
  refine (lasts_reduceList (fun x hx => hparts x (by simp [parts, hx])) hrest).bind
    fun args' u hargs' => ?_
  exact lasts_visited hagain hafford hcost (.walked hrule hprojection (threads_of_reduceOption hr')
    (threads_of_reduceList hargs'))

end Calls

/-! ### Every node -/

theorem lasts_plain (hplain : e.isPlain = true)
    (hparts : ∀ x ∈ e.parts, LastsAt w (Expr.reduce provider (reduceOperators provider budget)) x)
    (hafford : Affords w [e] s) :
    Lasts (e.reduce provider (reduceOperators provider budget)) s := by
  have hsome := hafford.parts
  cases e with
  | call | binary => cases hplain
  | lambda params body =>
    rw [Expr.reduce]
    exact (hparts body (by simp [parts]) s hsome).map
  | quote inner =>
    rw [Expr.reduce]
    exact (hparts inner (by simp [parts]) s hsome).map
  | unary op operand =>
    rw [Expr.reduce]
    exact (hparts operand (by simp [parts]) s hsome).map
  | param | const | placeholder =>
    rw [Expr.reduce]
    exact lasts_pure
  | member target m =>
    rw [Expr.reduce]
    exact (lasts_reduceOption (fun x hx => hparts x (by simp_all [parts])) hsome).map
  | new type args names =>
    rw [Expr.reduce]
    exact (lasts_reduceList hparts hsome).map
  | newWith type args names bindings =>
    rw [Expr.reduce]
    have hboth : Affords w (args ++ bindings.flatMap Binding.values) s := hsome
    refine (lasts_reduceList (fun x hx => hparts x (by simp [parts, hx])) hboth.left).bind
      fun args' t hargs' => Lasts.map ?_
    refine lasts_reduceBindings (fun x hx => hparts x (List.mem_append_right _ hx)) ?_
    exact hboth.rest (solvent_of_reduceList hargs' hboth.left)
  | cond test a b =>
    rw [Expr.reduce]
    have hthree : Affords w ([test] ++ ([a] ++ [b])) s := hsome
    refine (hparts test (by simp [parts]) s hthree.left).bind fun _ t htest => ?_
    have htwo := hthree.rest (.cons (solvent_of_yields htest hthree.left) .nil)
    refine (hparts a (by simp [parts]) t htwo.left).bind fun _ u ha => Lasts.map ?_
    exact hparts b (by simp [parts]) u (htwo.rest (.cons (solvent_of_yields ha htwo.left) .nil))

theorem lasts_binary {op : BinOp} {lhs rhs : Expr}
    (hparts : ∀ x ∈ (binary op lhs rhs).parts,
      LastsAt w (Expr.reduce provider (reduceOperators provider budget)) x)
    (hsource : ∀ x, countedSource? lhs = some x →
      LastsAt w (Expr.reduce provider (reduceOperators provider budget)) x)
    (hafford : Affords w [binary op lhs rhs] s) :
    Lasts ((binary op lhs rhs).reduce provider (reduceOperators provider budget)) s := by
  have hboth : Affords w ([lhs] ++ [rhs]) s := hafford.parts
  have hl := hparts lhs (by simp [parts]) s hboth.left
  have hr {lhs' : Expr} {t : ReductionState}
      (hlhs : Yields (lhs.reduce provider (reduceOperators provider budget)) s lhs' t) :
      Lasts (rhs.reduce provider (reduceOperators provider budget)) t :=
    hparts rhs (by simp [parts]) t (hboth.rest (.cons (solvent_of_yields hlhs hboth.left) .nil))
  rcases hsugar : Sugar.of? op lhs rhs with _ | element | element
  · rw [Expr.reduce, hsugar]
    exact hl.bind fun _ _ hlhs => (hr hlhs).map
  · rw [Expr.reduce, hsugar]
    refine hl.bind fun _ _ hlhs => (hr hlhs).bind fun _ _ _ => ?_
    rw [callInMemory_elementAt]
    exact lasts_pure
  · cases sugarCase hsugar with
    | @nonEmpty _ source _ _ _ _ hcounted =>
      have hnode : source ∈ (binary op lhs rhs).nodes :=
        nodes_trans (mem_nodes_of_mem_parts (by simp [parts]))
          (mem_nodes_of_mem_parts (mem_parts_of_counted hcounted).1)
      rw [reduce_nonEmpty hsugar hcounted]
      exact (hsource source hcounted s (hafford.node hnode)).map

theorem lasts_reduce
    (hagain : ∀ x, x.cost w < budget → LastsAt w (reduceOperators provider budget) x)
    (hcost : e.cost w ≤ budget) :
    LastsAt w (Expr.reduce provider (reduceOperators provider budget)) e := by
  induction hn : e.size using Nat.strongRecOn generalizing e with
  | _ n ih =>
    subst hn
    intro s hafford
    have hnodes : ∀ x ∈ e.nodes, x.size < e.size →
        LastsAt w (Expr.reduce provider (reduceOperators provider budget)) x :=
      fun x hx hsize => ih _ hsize (Nat.le_trans (cost_le_of_mem hx) hcost) rfl
    have hparts : ∀ x ∈ e.parts, LastsAt w (Expr.reduce provider (reduceOperators provider budget)) x :=
      fun x hx => hnodes x (mem_nodes_of_mem_parts hx) (size_lt_of_mem hx)
    by_cases hplain : e.isPlain = true
    · exact lasts_plain hplain hparts hafford
    cases e with
    | call m r args =>
      cases hrule : Rule.of m r args with
      | note n => exact lasts_note hparts hafford hrule
      | hint mode => exact lasts_hint hparts hafford hrule
      | index element => exact lasts_index hparts hafford hrule
      | inMemory => exact lasts_inMemory hparts hafford hagain hcost hrule
      | membership element => exact lasts_membership hparts hafford hrule
      | loading => exact lasts_loading hparts hafford hrule
      | other => exact lasts_other hparts hafford hagain hcost hrule
    | binary op lhs rhs =>
      refine lasts_binary hparts (fun x hx => ?_) hafford
      have hlhs : lhs ∈ (binary op lhs rhs).parts := by simp [parts]
      refine hnodes x ?_ (Nat.lt_trans (size_of_counted hx) (size_lt_of_mem hlhs))
      exact nodes_trans (mem_nodes_of_mem_parts hlhs)
        (mem_nodes_of_mem_parts (mem_parts_of_counted hx).1)
    | _ => exact absurd rfl hplain

/-- **The operator pass does not use up a budget above what the tree costs.** -/
theorem lasts_reduceOperators (hcost : e.cost w < budget) :
    LastsAt w (reduceOperators provider budget) e := by
  induction budget generalizing e with
  | zero => exact absurd hcost (Nat.not_lt_zero _)
  | succ budget ih => exact lasts_reduce (fun x hx => ih hx) (Nat.le_of_lt_succ hcost)

end OperatorPass

/-! ## Results -/

/-- At the start, the tree is affordable by its weights. -/
theorem affords_start {e : Expr} (hclosed : e.Closed) (hdistinct : e.binders.Nodup)
    (hfixed : ∀ c ∈ e.calls, c.Fixed) (hroom : e.firstFree + e.demand < UInt32.size)
    (context : Context) : Affords e.weights [e] ⟨context, .after e⟩ := by
  have hnext : (ReductionState.mk context (.after e)).next = e.firstFree := next_after (by omega)
  refine ⟨?_, fun id hid => weights_eq_zero fun hmem => ?_, ?_⟩
  · simp only [List.mem_singleton, forall_eq]
    refine fun c hc => ⟨hfixed c hc, fun f hf => ?_⟩
    exact cost_le_weights hclosed hdistinct (List.mem_flatMap.mpr ⟨c, hc, hf⟩)
  · have := lt_firstFree (binders_subset_ids hmem)
    omega
  · simpa [hnext, Expr.demand] using hroom

/-- **The operator pass ends.** In a closed tree that declares no id twice, let the selectors that
flattening reads be lambdas, or inert, and let there be enough ids. Then the pass comes to one result
with every budget above what the tree demands, as its own is, and is never cut off. -/
theorem reduceOperators_ends {e : Expr} (hclosed : e.Closed) (hdistinct : e.binders.Nodup)
    (hfixed : ∀ c ∈ e.calls, c.Fixed) (hroom : e.firstFree + e.demand < UInt32.size)
    (provider : Provider) (context : Context) :
    e.demand < e.budget ∧ ∃ result t, result ≠ .error .exhausted ∧
      ∀ budget, e.demand < budget →
        ((reduceOperators provider budget e).run.run ⟨context, .after e⟩).run = (result, t) := by
  refine ⟨demand_lt_budget hdistinct, ?_⟩
  have hlasts : Lasts (reduceOperators provider (e.demand + 1) e) ⟨context, .after e⟩ :=
    lasts_reduceOperators (Nat.lt_succ_self _) _ (affords_start hclosed hdistinct hfixed hroom context)
  -- with more budget the pass ends as with just enough, which is not used up
  rcases yields_or_fails (reduceOperators provider (e.demand + 1) e) ⟨context, .after e⟩ with
    ⟨a, t, ha⟩ | ⟨f, t, hf⟩
  · exact ⟨.ok a, t, by simp, fun budget hbudget => yields_of_budget_le hbudget ha⟩
  · refine ⟨.error f, t, ?_, fun budget hbudget => ?_⟩
    · rintro ⟨⟩
      exact hlasts t hf
    · have halike : Alike (fun name => name) (Eq .exhausted) (rename fun name => name)
          (reduceOperators provider (e.demand + 1) e) (reduceOperators provider budget e) :=
        alike_reduceOperators (fun _ => .inl rfl) (.inr ⟨hbudget, rfl⟩) e rfl
      rcases halike ⟨context, .after e⟩ with
        ⟨f', u, hf', rfl⟩ | ⟨b, b', u, hb, -⟩ | ⟨g, g', u, hg, hg', hsame⟩
      · exact absurd hf' (hlasts u)
      · exact absurd hf hb.not_fails
      · cases hf.symm.trans hg
        rw [Failure.rename_id, Failure.rename_id] at hsame
        exact hsame ▸ hg'

/-! ## Steps -/

/-- The type of an object that holds a selector. -/
def stepType : Ty := .entity "Step"

/-- A grouped join of the customers with their orders, with a result of each customer. The ids that it
declares begin with `first`. -/
def groupedFrom (first : UInt32) (result : Expr) : Expr :=
  let customer : Ty := .entity "Customer"
  let order : Ty := .entity "Order"
  let a : Param := ⟨first, "a", customer⟩
  let b : Param := ⟨first + 1, "b", order⟩
  .apply Queryable.groupJoin [customer, order, .int, result.ty]
    [.const (.reference "DbSet<Customer>()") (.queryable customer), storedOrders,
      .quote (.lambda [a] (.access (.param a) "Id" .int)),
      .quote (.lambda [b] (.access (.param b) "CustomerId" .int)),
      .quote (.lambda [⟨first + 2, "o", customer⟩, ⟨first + 3, "g", .enumerable order⟩] result)]

/-- What a selector makes of a step, for each customer. -/
def stepped (first : UInt32) (step selector : Expr) : Expr :=
  .apply Queryable.selectMany [stepType, .int] [groupedFrom first step, selector]

/-- An object that holds the selector. -/
def stepOf (selector : Expr) : Expr := .new stepType [selector] (some ["next"])

/-- The selector that an object holds. -/
def nextOf (step : Expr) : Expr :=
  .access step "next" (.quoted (.func [stepType] (.queryable .int)))

/-- The selector that gives the same numbers for each step. -/
def steadily (id : UInt32) : Expr :=
  .quote (.lambda [⟨id, "v", stepType⟩] (.const (.reference "DbSet<int>()") (.queryable .int)))

/-- Two flattenings, the second of which is found when what the first has built is visited. -/
def steppedTwice : Expr :=
  let z : Param := ⟨6, "z", stepType⟩
  stepped 7 (stepOf (steadily 0)) (.quote (.lambda [z] (stepped 11 (.param z) (steadily 1))))

theorem reduceOperators_steppedTwice :
    steppedTwice.Closed ∧ steppedTwice.binders.Nodup ∧ (∀ c ∈ steppedTwice.calls, c.Fixed) ∧
      steppedTwice.firstFree + steppedTwice.demand < UInt32.size ∧ steppedTwice.demand = 2 ∧
      ∃ result t, result ≠ .error .exhausted ∧ ∀ budget, 2 < budget →
        ((reduceOperators ⟨false⟩ budget steppedTwice).run.run ⟨default, .after steppedTwice⟩).run =
          (result, t) := by
  have hclosed : steppedTwice.Closed := by decide
  have hdistinct : steppedTwice.binders.Nodup := by decide
  have hfixed : ∀ c ∈ steppedTwice.calls, c.Fixed := by decide
  have hroom : steppedTwice.firstFree + steppedTwice.demand < UInt32.size := by decide
  have hdemand : steppedTwice.demand = 2 := by decide
  obtain ⟨-, result, t, hresult, hends⟩ :=
    reduceOperators_ends hclosed hdistinct hfixed hroom ⟨false⟩ default
  rw [hdemand] at hends
  exact ⟨hclosed, hdistinct, hfixed, hroom, hdemand, result, t, hresult, hends⟩

/-! ## Steps without end -/

/-- The operator pass uses up every budget. -/
def Expr.Diverges (e : Expr) : Prop :=
  ∀ provider budget s, Fails (reduceOperators provider budget e) s .exhausted s

/-- The expression, converted so often. -/
def converted : Nat → Expr → Expr
  | 0, e => e
  | n + 1, e => .unary (.convert (.queryable .int)) (converted n e)

/-- What a selector makes of a step, with each number projected to itself, which hides from the scan
what there is to refer to. -/
def followed (depth : Nat) (step selector : Expr) : Expr :=
  let w : Param := ⟨1, "w", .int⟩
  .apply Queryable.select [.int, .int]
    [converted depth (stepped 2 step selector), .quote (.lambda [w] (.param w))]

/-- The selector that takes the selector from a step and applies it to the step. -/
def applying (depth : Nat) : Expr :=
  let z : Expr := .param ⟨0, "z", stepType⟩
  .quote (.lambda [⟨0, "z", stepType⟩] (followed depth z (nextOf z)))

/-- The selector that applies what a step holds to the step, applied to a step that holds it. -/
def selfApplied (depth : Nat) : Expr :=
  let z : Expr := .param ⟨6, "z", stepType⟩
  stepped 7 (stepOf (applying depth)) (.quote (.lambda [⟨6, "z", stepType⟩] (stepped 11 z (nextOf z))))

section Divergence

variable {provider : Provider} {again : Expr → Reduction Expr} {depth : Nat} {e x : Expr} {f : Failure}
  {s t : ReductionState}

theorem rule_of_query {m : Method} (h : m.family = .queryable) (r : Option Expr) (args : List Expr) :
    Rule.of m r args = .other := by
  cases hrule : Rule.of m r args with
  | other => rfl
  | note n =>
    cases ruleCase hrule with
    | note hnote => simp [note_eq_none (m := m) (by simp [h])] at hnote
  | hint mode =>
    cases ruleCase hrule with
    | hint _ hhint => simp [hint_eq_none (m := m) (by rw [h]; decide)] at hhint
  | index element =>
    cases ruleCase hrule with
    | index _ _ hindex =>
      obtain ⟨-, owner, howner, -⟩ := owner_of_indexed hindex
      simp [h] at howner
  | inMemory =>
    cases ruleCase hrule with
    | inMemory _ _ _ hfamily => simp [h] at hfamily
  | membership element =>
    cases ruleCase hrule with
    | membership _ _ _ _ hmember => simp [membership_eq_none (m := m) (by simp [h])] at hmember
  | loading =>
    cases ruleCase hrule with
    | loading _ _ _ _ _ hloading =>
      have hmetadata := family_of_loadsOrdered hloading
      simp [h] at hmetadata

/-- A static call on queries is settled once its arguments are visited. -/
theorem reduce_query {signature : Signature} {typeArgs : List Ty} {args : List Expr}
    (hfamily : signature.family = .queryable)
    (hprojection : deferredProjection? ⟨signature, typeArgs⟩ args = none) :
    (Expr.apply signature typeArgs args).reduce provider again =
      reduceList provider again args >>= fun args' => settle again ⟨⟨signature, typeArgs⟩, none, args'⟩ := by
  rw [Expr.apply, Expr.reduce.eq_def]
  simp only [rule_of_query (m := ⟨signature, typeArgs⟩) hfamily, checkSelect_eq_pure hprojection,
    reduceOption, pure_bind]

theorem reduce_converted (n : Nat) (e : Expr) : (converted n e).reduce provider again =
    e.reduce provider again >>= fun e' => pure (converted n e') := by
  induction n with
  | zero => simp [converted]
  | succ n ih => simp [converted, Expr.reduce, ih]

theorem replace_converted (id : UInt32) (value : Expr) (n : Nat) (e : Expr) :
    replace id value (converted n e) = converted n (replace id value e) := by
  induction n with
  | zero => rfl
  | succ n ih => rw [converted, replace, ih, converted]

theorem reduce_groupedFrom {first : UInt32} (h : x.reduce provider again = pure x) :
    (groupedFrom first x).reduce provider again = pure (groupedFrom first x) := by
  rw [groupedFrom, reduce_query rfl rfl]
  simp only [reduceList, Expr.reduce, reduceOption, storedOrders, Expr.access, h, pure_bind]
  rfl

/-- There is nothing to flatten while the selector is not known. -/
theorem reduce_stepped (first : UInt32) (z : Param) :
    (stepped first (.param z) (nextOf (.param z))).reduce provider again =
      pure (stepped first (.param z) (nextOf (.param z))) := by
  have hz : (param z).reduce provider again = pure (param z) := by rw [Expr.reduce]
  have hnext : (nextOf (.param z)).reduce provider again = pure (nextOf (.param z)) := by
    rw [nextOf, Expr.access, Expr.reduce, reduceOption, hz]
    rfl
  have hargs : reduceList provider again [groupedFrom first (.param z), nextOf (.param z)] =
      pure [groupedFrom first (.param z), nextOf (.param z)] :=
    reduceList_eq_self (by simpa using ⟨reduce_groupedFrom hz, hnext⟩)
  rw [stepped, reduce_query rfl rfl, hargs, pure_bind]
  exact settle_eq_self rfl rfl

theorem reduce_applying : (applying depth).reduce provider again = pure (applying depth) := by
  rw [applying, Expr.reduce, Expr.reduce, followed, reduce_query rfl rfl, reduceList,
    reduce_converted, reduce_stepped]
  rfl

/-- A visit of what a flattening has built that fails makes the visit of the call fail. -/
theorem fails_settle {c : Call} {flattening : Flattening} (hflat : Flattening.of? c = some flattening)
    (h : Fails (again flattening.inner) s f t) : Fails (settle again c) s f t := by
  have hord : keyedOrdering? c.method = none := by
    unfold keyedOrdering? Method.is
    rcases is_selectMany_of_flattening hflat with hm | hm <;> rw [hm] <;> rfl
  rw [settle_eq_flatten hord]
  unfold flatten
  cases flattening with
  | pairs =>
    simp only [hflat]
    exact h.bind
  | members =>
    simp only [hflat]
    exact h.bind

/-- No other parameter than those of the selector is replaced in a step that holds it. -/
theorem replace_stepOf {id : UInt32} (hid : id ∉ [0, 1, 2, 3]) (value : Expr) :
    replace id value (stepOf (applying depth)) = stepOf (applying depth) := by
  simp only [List.mem_cons, List.not_mem_nil, or_false, not_or, ne_comm (a := id)] at hid
  obtain ⟨h0, h1, h2, h3⟩ := hid
  simp [stepOf, applying, followed, stepped, groupedFrom, nextOf, storedOrders, Expr.apply, Expr.access,
    replace, replaceList, replace_converted, project, initializer?, h0, h1, h2, h3]

/-- The step takes the place of the parameter, and its selector that of the selector. -/
theorem replace_followed : replace 0 (stepOf (applying depth))
    (followed depth (.param ⟨0, "z", stepType⟩) (nextOf (.param ⟨0, "z", stepType⟩))) =
      followed depth (stepOf (applying depth)) (applying depth) := by
  simp only [followed, Expr.apply, replace, replaceList, replace_converted]
  rfl

/-- What the selector makes of the step is visited. -/
theorem fails_stepped {first : UInt32} (hfirst : first + 3 ∉ [0, 1, 2, 3]) {z : Param} {body : Expr}
    (hbody : (quote (lambda [z] body)).reduce provider again = pure (quote (lambda [z] body)))
    (h : Fails (again (replace z.id (stepOf (applying depth)) body)) s f t) :
    Fails ((stepped first (stepOf (applying depth)) (.quote (.lambda [z] body))).reduce provider again)
      s f t := by
  have hstep : (stepOf (applying depth)).reduce provider again = pure (stepOf (applying depth)) := by
    rw [stepOf, Expr.reduce, reduceList, reduce_applying]
    rfl
  have hargs : reduceList provider again [groupedFrom first (stepOf (applying depth)),
      .quote (.lambda [z] body)] = pure [groupedFrom first (stepOf (applying depth)),
        .quote (.lambda [z] body)] :=
    reduceList_eq_self (by simpa using ⟨reduce_groupedFrom hstep, hbody⟩)
  rw [stepped, reduce_query rfl rfl, hargs, pure_bind]
  obtain ⟨join, outer, element, hflat⟩ : ∃ join outer element, Flattening.of?
      ⟨⟨Queryable.selectMany, [stepType, .int]⟩, none,
        [groupedFrom first (stepOf (applying depth)), .quote (.lambda [z] body)]⟩ =
        some (.members join false (replace z.id (replace (first + 3) storedOrders
          (stepOf (applying depth))) body) outer element) := ⟨_, _, _, rfl⟩
  rw [replace_stepOf hfirst] at hflat
  exact fails_settle hflat h

/-- A followed step is visited again and again. -/
theorem diverges_followed : (followed depth (stepOf (applying depth)) (applying depth)).Diverges := by
  intro provider budget s
  induction budget with
  | zero => exact fails_fail.mpr ⟨rfl, rfl⟩
  | succ budget ih =>
    rw [reduceOperators, followed, reduce_query rfl rfl, reduceList, reduce_converted]
    refine Fails.bind (Fails.bind (Fails.bind ?_))
    refine fails_stepped (by decide) reduce_applying ?_
    rw [replace_followed]
    exact ih

/-- Every visit of what the selector of the step makes of the step comes to another. -/
theorem diverges_selfApplied (depth : Nat) : (selfApplied depth).Diverges := by
  have happlied : (stepped 11 (stepOf (applying depth)) (applying depth)).Diverges := by
    intro provider budget s
    cases budget with
    | zero => exact fails_fail.mpr ⟨rfl, rfl⟩
    | succ budget =>
      refine fails_stepped (by decide) reduce_applying ?_
      rw [replace_followed]
      exact diverges_followed provider budget s
  intro provider budget s
  cases budget with
  | zero => exact fails_fail.mpr ⟨rfl, rfl⟩
  | succ budget =>
    refine fails_stepped (by decide) ?_ (happlied provider budget s)
    rw [Expr.reduce, Expr.reduce, reduce_stepped]
    rfl

end Divergence

/-- The tree is closed, its calls are exact, no id is declared twice, there are enough ids, and the
operator pass does not end. -/
def Expr.Endless (e : Expr) : Prop :=
  e.Closed ∧ (∀ c ∈ e.calls, c.Exact) ∧ e.binders.Nodup ∧ e.firstFree + e.demand < UInt32.size ∧
    e.Diverges

/-- A selector that is not spelled out may become a lambda, and then the pass need not end. -/
theorem endless_selfApplied : (selfApplied 0).Endless ∧ (selfApplied 30).Endless := by
  refine ⟨⟨?_, ?_, ?_, ?_, diverges_selfApplied 0⟩, ?_, ?_, ?_, ?_, diverges_selfApplied 30⟩ <;>
    decide +kernel

end QueryNormal
