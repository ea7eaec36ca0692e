import QueryNormal.Proofs.Calls
import QueryNormal.Proofs.Steps

/-!
# What the operator pass visits

* `Expr.agenda`: the parts of a node that the pass visits, in this order.
* `Enters`: begun on a node, the pass comes to one of its parts.
* `Visits`: begun on a tree, the pass comes to a node of the tree.
* `Meets`: begun on a tree, the pass comes to a node of the tree, or of what a flattening has built.
* `Reaches`: begun on a tree, the pass comes to settle a call.
* `Runs.induction_visits`: induction over runs, where the pass visits every part.

The states are those of the run. A part is visited in the state in which the parts before it leave
off, and what a flattening has built in the state in which its call has been visited. What a rule
passes over, and what comes after a failure, is not visited.
-/

namespace QueryNormal

/-- The inner source that a flattening visits again. -/
def Flattening.inner : Flattening → Expr
  | .pairs _ _ inner _ => inner
  | .members _ _ inner _ _ => inner

/-- The parts of a node that the operator pass visits, in this order. The receiver of an operator
that is to be converted is not among them: it is visited last, and only if there is no counterpart. -/
def Expr.agenda (provider : Provider) : Expr → List Expr
  | .call m r args =>
      match Rule.of m r args with
      | .note _ => args.take 1
      | .hint mode => if mode.supportedBy provider then args.take 1 else []
      | .index _ => r.toList ++ args
      | .inMemory => if staysInMemory m args then r.toList ++ args else args
      | .membership _ =>
          if r.any fun c => c.isConstruction || args.length == 1 then r.toList ++ args else []
      | .loading =>
          match args with
          | [source, selector] =>
              match navigationSelector m selector with
              | .ok _ => [source, selector]
              | .error _ => [source]
          | _ => []
      | .other => if (deferredProjection? m args).isNone then r.toList ++ args else []
  | .binary op lhs rhs =>
      match Sugar.of? op lhs rhs with
      | some (.nonEmpty _) => (countedSource? lhs).toList
      | _ => [lhs, rhs]
  | e => e.parts

/-- Begun on a node, the operator pass comes to one of its parts, with the states of both. -/
inductive Enters (provider : Provider) : Expr → ReductionState → Expr → ReductionState → Prop
  | part {e x : Expr} {l l' : List Expr} {s u : ReductionState} :
      l ++ [x] <+: e.agenda provider → Threads (Runs provider) l s l' u → Enters provider e s x u
  | receiver {m : Method} {x : Expr} {args args' : List Expr} {s u : ReductionState} :
      Rule.of m (some x) args = .inMemory → staysInMemory m args = false →
      Threads (Runs provider) args s args' u → toQueryable m args' = .ok none →
      Enters provider (.call m (some x) args) s x u

/-- Begun on a tree, the operator pass comes to a node of the tree, with the states of both. -/
inductive Visits (provider : Provider) : Expr → ReductionState → Expr → ReductionState → Prop
  | here {e : Expr} {s : ReductionState} : Visits provider e s e s
  | inside {e x n : Expr} {s u v : ReductionState} : Enters provider e s x u →
      Visits provider x u n v → Visits provider e s n v

/-- Begun on a tree, the operator pass comes to a node, with the states of both: a node of the tree,
or of what the flattening of a visited call has built. -/
inductive Meets (provider : Provider) : Expr → ReductionState → Expr → ReductionState → Prop
  | visit {e n : Expr} {s u : ReductionState} : Visits provider e s n u → Meets provider e s n u
  | again {e m n : Expr} {c : Call} {f : Flattening} {s u v w : ReductionState} :
      Visits provider e s m u → VisitsBy (Runs provider) m u c v → Flattening.of? c = some f →
      Meets provider f.inner v n w → Meets provider e s n w

/-- Begun on a tree, the operator pass comes to settle a call, with the states of both: the parts of
a node that it meets have been visited, and this is the call. -/
def Reaches (provider : Provider) (e : Expr) (s : ReductionState) (c : Call) (t : ReductionState) :
    Prop :=
  ∃ n u, Meets provider e s n u ∧ VisitsBy (Runs provider) n u c t

/-- Begun on the tree in the state, the operator pass settles no call that is bad. -/
def Avoids (provider : Provider) (bad : Call → Prop) (e : Expr) (s : ReductionState) : Prop :=
  ∀ c t, Reaches provider e s c t → ¬ bad c

section Visits

variable {provider : Provider} {e e' x n : Expr} {c : Call} {s t u v : ReductionState}

theorem Visits.trans (h : Visits provider e s x u) (h' : Visits provider x u n v) :
    Visits provider e s n v := by
  induction h with
  | here => exact h'
  | inside henters _ ih => exact .inside henters (ih h')

theorem Visits.meets (h : Visits provider e s x u) (h' : Meets provider x u n v) :
    Meets provider e s n v := by
  cases h' with
  | visit hn => exact .visit (h.trans hn)
  | again hm hvisit hflat hn => exact .again (h.trans hm) hvisit hflat hn

theorem Meets.trans (h : Meets provider e s x u) (h' : Meets provider x u n v) :
    Meets provider e s n v := by
  induction h with
  | visit hx => exact hx.meets h'
  | again hm hvisit hflat _ ih => exact .again hm hvisit hflat (ih h')

theorem Meets.reaches (h : Meets provider e s x u) (h' : Reaches provider x u c t) :
    Reaches provider e s c t := by
  obtain ⟨n, v, hmeets, hvisit⟩ := h'
  exact ⟨n, v, h.trans hmeets, hvisit⟩

theorem VisitsBy.reaches (h : VisitsBy (Runs provider) e s c t) : Reaches provider e s c t :=
  ⟨e, s, .visit .here, h⟩

theorem Avoids.meets {bad : Call → Prop} (h : Avoids provider bad e s)
    (hx : Meets provider e s x u) : Avoids provider bad x u :=
  fun c t hreach => h c t (hx.reaches hreach)

theorem Avoids.visited {bad : Call → Prop} (h : Avoids provider bad e s)
    (hc : VisitsBy (Runs provider) e s c t) : ¬ bad c :=
  h c t hc.reaches

/-! ## Parts -/

theorem Enters.first (h : [x] <+: e.agenda provider) : Enters provider e s x s :=
  .part (l := []) h .nil

theorem Enters.second {y y' : Expr} (h : [y, x] <+: e.agenda provider)
    (hy : Runs provider y s y' u) : Enters provider e s x u :=
  .part (l := [y]) h (.cons hy .nil)

theorem agenda_of_isPlain (h : e.isPlain = true) : e.agenda provider = e.parts := by
  cases e with
  | call | binary => cases h
  | _ => rfl

theorem mem_parts_of_counted (h : countedSource? e = some x) : x ∈ e.parts ∧ e.declared = [] := by
  rcases counted_iff.mp h with ⟨_, rfl, -⟩ | rfl <;> exact ⟨by simp [Expr.parts], rfl⟩

theorem mem_agenda (h : x ∈ e.agenda provider) :
    x ∈ e.parts ∨ ∃ op lhs rhs, e = .binary op lhs rhs ∧ countedSource? lhs = some x := by
  cases e with
  | call m r args =>
    left
    have hargs (hx : x ∈ args) : x ∈ (Expr.call m r args).parts := List.mem_append_right _ hx
    rw [Expr.agenda.eq_def] at h
    dsimp only at h
    generalize Rule.of m r args = rule at h
    cases rule with
    | note n => exact hargs (List.mem_of_mem_take h)
    | hint mode =>
      dsimp only at h
      split at h
      · exact hargs (List.mem_of_mem_take h)
      · cases h
    | index element => exact h
    | inMemory =>
      dsimp only at h
      split at h
      · exact h
      · exact hargs h
    | membership element | other =>
      dsimp only at h
      split at h
      · exact h
      · cases h
    | loading =>
      dsimp only at h
      split at h
      · split at h
        · exact hargs h
        · exact hargs (List.mem_cons.mpr (.inl (List.mem_singleton.mp h)))
      · cases h
  | binary op lhs rhs =>
    rw [Expr.agenda] at h
    split at h
    · exact .inr ⟨op, lhs, rhs, rfl, by simpa using h⟩
    · exact .inl h
  | _ => exact .inl h

/-- A part that the pass comes to is a node of the tree, and smaller. -/
theorem Enters.below (h : Enters provider e s x u) : x ∈ e.nodes ∧ x.size < e.size := by
  have hpart (hx : x ∈ e.parts) : x ∈ e.nodes ∧ x.size < e.size :=
    ⟨Expr.mem_nodes_of_mem_parts hx, Expr.size_lt_of_mem hx⟩
  cases h with
  | part hfirst _ =>
    have hx : x ∈ e.agenda provider := hfirst.subset (by simp)
    rcases mem_agenda hx with hx | ⟨op, lhs, rhs, rfl, hcounted⟩
    · exact hpart hx
    · have hlhs : lhs ∈ (Expr.binary op lhs rhs).parts := by simp [Expr.parts]
      refine ⟨Expr.nodes_trans (Expr.mem_nodes_of_mem_parts hlhs) ?_, ?_⟩
      · exact Expr.mem_nodes_of_mem_parts (mem_parts_of_counted hcounted).1
      · exact Nat.lt_trans (size_of_counted hcounted) (Expr.size_lt_of_mem hlhs)
  | receiver => exact hpart (by simp [Expr.parts])

theorem Enters.visits (h : Enters provider e s x u) : Visits provider e s x u :=
  .inside h .here

theorem Visits.mem_nodes (h : Visits provider e s n u) : n ∈ e.nodes := by
  induction h with
  | here => exact Expr.mem_nodes_self _
  | inside henters _ ih => exact Expr.nodes_trans henters.below.1 ih

/-- A node that the pass meets is one of the tree, or it is one of what a flattening has built, which
the pass has come to. -/
theorem Meets.mem_or_rebuilt (h : Meets provider e s n u) :
    n ∈ e.nodes ∨ ∃ c f t, Reaches provider e s c t ∧ Flattening.of? c = some f ∧
      n ∈ f.inner.nodes ∧ Meets provider f.inner t n u := by
  induction h with
  | visit hn => exact .inl hn.mem_nodes
  | again hm hvisit hflat hmeets ih =>
    rcases ih with hn | ⟨c, f, t, hreach, hrest⟩
    · exact .inr ⟨_, _, _, ⟨_, _, .visit hm, hvisit⟩, hflat, hn, hmeets⟩
    · exact .inr ⟨c, f, t, (Meets.again hm hvisit hflat (.visit .here)).reaches hreach, hrest⟩

/-- What a quoted lambda holds is visited in the state in which the quote is. -/
theorem visits_body {l : Lambda} (h : e.lambda? = some l) : Visits provider e s l.body s := by
  refine Expr.induction_lambda (P := fun e => Visits provider e s l.body s) h ?_ ?_
  · exact .inside (.first List.prefix_rfl) .here
  · intro x hx
    exact .inside (.first List.prefix_rfl) hx

/-! ## Layers -/

variable {P A : PartRun}

section

variable (hP : ∀ {x s y t}, P x s y t → Runs provider x s y t)
include hP

/-- What is handled in turn is visited, if it comes first on the agenda. -/
theorem Threads.visits {l l' : List Expr} (h : Threads P l s l' t) (hfirst : l <+: e.agenda provider) :
    Threads (fun x u y v => P x u y v ∧ Visits provider e s x u) l s l' t :=
  h.mono_after fun hl hbefore hx =>
    ⟨hx, .inside (.part (hl.trans hfirst) (hbefore.mono_mem fun _ _ _ _ _ => hP)) .here⟩

theorem WalksBy.visits (h : WalksBy P e s e' t) (hagenda : e.agenda provider = e.parts) :
    WalksBy (fun x u y v => P x u y v ∧ Visits provider e s x u) e s e' t :=
  h.mono_after fun hl hbefore hx =>
    ⟨hx, .inside (.part (hagenda ▸ hl) (hbefore.mono_mem fun _ _ _ _ _ => hP)) .here⟩

theorem VisitsBy.visits (h : VisitsBy P e s c t) :
    VisitsBy (fun x u y v => P x u y v ∧ Visits provider e s x u) e s c t := by
  cases h with
  | @walked m r r' args args' _ _ _ hrule hproj hr hargs =>
    have hwalk : WalksBy P (.call m r args) s (.call m r' args') t := .call hr hargs
    have hagenda : (Expr.call m r args).agenda provider = (Expr.call m r args).parts := by
      simp [Expr.agenda, Expr.parts, hrule, hproj]
    cases hwalk.visits hP hagenda with
    | call hr hargs => exact .walked hrule hproj hr hargs
  | converted hrule hstays hargs hfound =>
    exact .converted hrule hstays (hargs.visits hP (by simp [Expr.agenda, hrule, hstays])) hfound

/-- A layer visits what the pass meets. -/
theorem ReducesBy.visits (h : ReducesBy provider P A e s e' t) :
    ReducesBy provider (fun x u y v => P x u y v ∧ Visits provider e s x u)
      (fun x u y v => A x u y v ∧ Meets provider e s x u) e s e' t := by
  have hfirst {x y : Expr} {v : ReductionState} (hx : P x s y v)
      (hagenda : [x] <+: e.agenda provider) : P x s y v ∧ Visits provider e s x s :=
    ⟨hx, .inside (.first hagenda) .here⟩
  have hsecond {x x' y y' : Expr} {u v : ReductionState} (hx : P x s x' u) (hy : P y u y' v)
      (hagenda : [x, y] <+: e.agenda provider) : P y u y' v ∧ Visits provider e s y u :=
    ⟨hy, .inside (.second hagenda (hP hx)) .here⟩
  cases h with
  | node hplain hwalk => exact .node hplain (hwalk.visits hP (agenda_of_isPlain hplain))
  | binary hsugar hl hr =>
    exact .binary hsugar (hfirst hl (by simp [Expr.agenda, hsugar]))
      (hsecond hl hr (by simp [Expr.agenda, hsugar]))
  | elementAt hsugar hl hr =>
    exact .elementAt hsugar (hfirst hl (by simp [Expr.agenda, hsugar]))
      (hsecond hl hr (by simp [Expr.agenda, hsugar]))
  | nonEmpty hsugar hcounted hsource =>
    exact .nonEmpty hsugar hcounted (hfirst hsource (by simp [Expr.agenda, hsugar, hcounted]))
  | note hrule heffect hsource =>
    exact .note hrule heffect (hfirst hsource (by simp [Expr.agenda, hrule]))
  | hint hrule hsupported hargument =>
    exact .hint hrule hsupported (hfirst hargument (by simp [Expr.agenda, hrule, hsupported]))
  | index hrule htarget hposition =>
    exact .index hrule (hfirst htarget (by simp [Expr.agenda, hrule]))
      (hsecond htarget hposition (by simp [Expr.agenda, hrule]))
  | kept hrule hstays hwalk =>
    exact .kept hrule hstays (hwalk.visits hP (by simp [Expr.agenda, Expr.parts, hrule, hstays]))
  | unmatched hrule hstays hargs hnone hr =>
    refine .unmatched hrule hstays (hargs.visits hP (by simp [Expr.agenda, hrule, hstays])) hnone ?_
    cases hr with
    | none => exact .none
    | some hr =>
      have hruns := hargs.mono_mem (Q := Runs provider) fun _ _ _ _ _ => hP
      exact .some ⟨hr, .inside (.receiver hrule hstays hruns hnone) .here⟩
  | member hrule hc hwalk =>
    exact .member hrule hc (hwalk.visits hP (by simp [Expr.agenda, Expr.parts, hrule, hc]))
  | contains hrule hc hcollection hitem =>
    exact .contains hrule hc (hfirst hcollection (by simp [Expr.agenda, hrule]))
      (hsecond hcollection hitem (by simp [Expr.agenda, hrule]))
  | @loading m r source source' selector body body' p _ _ _ hrule hlambda hsource hbody =>
    have hagenda : (Expr.call m r [source, selector]).agenda provider = [source, selector] := by
      simp [Expr.agenda, hrule, navigationSelector, hlambda, Selector.arity]
    refine .loading hrule hlambda (hfirst hsource (by simp [hagenda])) ⟨hbody, ?_⟩
    exact .inside (.second (by simp [hagenda]) (hP hsource)) (visits_body hlambda)
  | @settle _ _ c _ t _ hvisit hsettle =>
    have hvisit' : VisitsBy (Runs provider) e s c t := hvisit.mono fun _ _ _ _ _ => hP
    refine .settle (hvisit.visits hP) ?_
    cases hsettle with
    | same hord hflat => exact .same hord hflat
    | ordered hord htypes hargs => exact .ordered hord htypes hargs
    | pairs hflat hinner => exact .pairs hflat ⟨hinner, .again .here hvisit' hflat (.visit .here)⟩
    | members hflat hinner => exact .members hflat ⟨hinner, .again .here hvisit' hflat (.visit .here)⟩

end

/-- **Induction over runs, with what they visit.** A relation that every layer keeps, given that the
parts are visited, what flattening has built is met, and both are runs that satisfy it, holds of every
run. -/
theorem Runs.induction_visits
    (hstep : ∀ {e e' : Expr} {s t : ReductionState},
      ReducesBy provider
        (fun x u y v => (Runs provider x u y v ∧ P x u y v) ∧ Visits provider e s x u)
        (fun x u y v => (Runs provider x u y v ∧ P x u y v) ∧ Meets provider e s x u) e s e' t →
      P e s e' t)
    (h : Runs provider e s e' t) : P e s e' t :=
  Runs.induction_run (fun hlayer => hstep (hlayer.visits fun h => h.1)) h

theorem Runs.induction_meets
    (hstep : ∀ {e e' : Expr} {s t : ReductionState},
      ReducesBy provider
        (fun x u y v => (Runs provider x u y v ∧ P x u y v) ∧ Meets provider e s x u)
        (fun x u y v => (Runs provider x u y v ∧ P x u y v) ∧ Meets provider e s x u) e s e' t →
      P e s e' t)
    (h : Runs provider e s e' t) : P e s e' t := by
  refine Runs.induction_visits (fun hlayer => hstep ?_) h
  exact hlayer.mono (fun _ _ _ _ _ h => ⟨h.1, .visit h.2⟩) fun _ _ _ _ h => h

end Visits

end QueryNormal
