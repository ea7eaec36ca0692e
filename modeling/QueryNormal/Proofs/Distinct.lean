import QueryNormal.Proofs.Scope

/-!
# Distinct declarations

* `Spends`: what is declared after a run was declared before or is drawn, and draws are paid for.
* `Runs.frugal`: so it is for every run of the operator pass, unless a flattening repeats a
  declaration.
* `Ungroups.declaresNoMore`: the grouped-join pass draws nothing, and declares no more unless a
  grouped join repeats a declaration.
* `distinct_or_repeats_of_normalize`: no id is declared twice in the normal form of a tree in which
  none is, unless a rewrite has repeated a declaration.

A draw is paid for by a call that is not yet reduced, or by the parameters that a flattening removes.
What a flattening has built is reduced, so that its second visit has only the latter to spend.
-/

namespace QueryNormal

open QueryNormal.Expr Reduction

/-! ## Spending -/

/-- The id that is drawn next. -/
def ReductionState.next (s : ReductionState) : Nat := s.supply.next.toNat

/-- How often the id is drawn on the way from a state to a later one. -/
def drawn (s t : ReductionState) (id : UInt32) : Nat :=
  if s.next ≤ id.toNat ∧ id.toNat < t.next then 1 else 0

/-- On the way from `s` to `t`, the declarations `before` become `after`: each id is declared as often
as before, and once more if it is drawn. What is drawn, and what is then declared, is paid for by
`before` and `credit`. -/
structure Spends (before : List UInt32) (credit : Nat) (s : ReductionState) (after : List UInt32)
    (t : ReductionState) : Prop where
  le : s.next ≤ t.next
  length : t.next + after.length ≤ s.next + before.length + credit
  count : ∀ id, after.count id ≤ before.count id + drawn s t id

namespace Spends

variable {before before' after after' : List UInt32} {credit credit' : Nat}
  {s t u : ReductionState}

theorem refl (ids : List UInt32) (s : ReductionState) : Spends ids 0 s ids s :=
  ⟨Nat.le_refl _, Nat.le_refl _, fun _ => Nat.le_add_right _ _⟩

theorem trans (h : Spends before credit s after t) (h' : Spends after credit' t after' u) :
    Spends before (credit + credit') s after' u := by
  have hle := h.le
  have hle' := h'.le
  have hlength := h.length
  have hlength' := h'.length
  refine ⟨by omega, by omega, fun id => ?_⟩
  have hcount := h.count id
  have hcount' := h'.count id
  unfold drawn at *
  split at hcount <;> split at hcount' <;> split <;> omega

theorem append (h : Spends before credit s after t) (h' : Spends before' credit' t after' u) :
    Spends (before ++ before') (credit + credit') s (after ++ after') u := by
  have hle := h.le
  have hle' := h'.le
  have hlength := h.length
  have hlength' := h'.length
  refine ⟨by omega, by simp only [List.length_append]; omega, fun id => ?_⟩
  have hcount := h.count id
  have hcount' := h'.count id
  simp only [List.count_append]
  unfold drawn at *
  split at hcount <;> split at hcount' <;> split <;> omega

/-- What is declared around stays declared. -/
theorem frame (h : Spends before credit s after t) (left right : List UInt32) :
    Spends (left ++ before ++ right) credit s (left ++ after ++ right) t := by
  have hlength := h.length
  refine ⟨h.le, by simp only [List.length_append]; omega, fun id => ?_⟩
  have hcount := h.count id
  simp only [List.count_append]
  omega

theorem mono (h : Spends before credit s after t) (hbefore : before.Subperm before')
    (hafter : after'.Subperm after) (hcredit : credit ≤ credit') :
    Spends before' credit' s after' t := by
  have hlength := h.length
  have hlength' := hbefore.length_le
  have hlength'' := hafter.length_le
  refine ⟨h.le, by omega, fun id => ?_⟩
  have hcount := h.count id
  have hcount' := hbefore.count_le id
  have hcount'' := hafter.count_le id
  omega

/-- Two declarations that go away pay for a draw. -/
theorem repay {a b : UInt32} (h : Spends before (credit + 2) s after t) :
    Spends (a :: b :: before) credit s after t := by
  have hlength := h.length
  refine ⟨h.le, by simp only [List.length_cons]; omega, fun id => ?_⟩
  have hcount := h.count id
  simp only [List.count_cons]
  omega

/-- A draw is paid for twice: the id is used up, and it is declared. -/
theorem draw (h : s.next + 1 < UInt32.size) (ids : List UInt32) :
    Spends ids 2 s (ids ++ [s.supply.next]) { s with supply := ⟨s.supply.next + 1⟩ } := by
  have hnext : (s.supply.next + 1).toNat = s.supply.next.toNat + 1 := by
    rw [UInt32.toNat_add]
    exact Nat.mod_eq_of_lt h
  refine ⟨?_, ?_, fun id => ?_⟩
  · simp only [ReductionState.next, hnext]
    omega
  · simp only [ReductionState.next, hnext, List.length_append, List.length_singleton]
    omega
  · simp only [drawn, ReductionState.next, hnext, List.count_append, List.count_singleton, beq_iff_eq]
    by_cases hid : s.supply.next = id
    · subst hid
      simp
    · simp [hid]

theorem nodup (h : Spends before credit s after t) (hbefore : before.Nodup)
    (hbelow : ∀ id ∈ before, id.toNat < s.next) : after.Nodup := by
  refine List.nodup_iff_count.mpr fun id => ?_
  have hcount := h.count id
  have honce := List.nodup_iff_count.mp hbefore id
  unfold drawn at hcount
  split at hcount
  · have hnew : before.count id = 0 := List.count_eq_zero.mpr fun hid => by
      have := hbelow id hid
      omega
    omega
  · omega

theorem below (h : Spends before credit s after t) (hbelow : ∀ id ∈ before, id.toNat < s.next) :
    ∀ id ∈ after, id.toNat < t.next := by
  intro id hid
  have hle := h.le
  have hcount := h.count id
  have hpos := List.count_pos_iff.mpr hid
  unfold drawn at hcount
  split at hcount
  · omega
  · have := hbelow id (List.count_pos_iff.mp (by omega))
    omega

end Spends

/-! ## The operator pass -/

section OperatorPass

variable {provider : Provider} {price : Nat} {e e' : Expr} {es xs xs' ys : List Expr} {c : Call}
  {s t : ReductionState}

/-- No id is declared twice in the expressions, or drawn before, and there are enough ids left. Each
call pays the price for a draw, or is reduced and does not draw. -/
structure Ready (price : Nat) (es : List Expr) (s : ReductionState) : Prop where
  distinct : (es.flatMap binders).Nodup
  below : ∀ id ∈ es.flatMap binders, id.toNat < s.next
  room : s.next + (es.flatMap binders).length + price * (es.flatMap calls).length < UInt32.size
  whole : ∀ e ∈ es, e.EveryCall Call.Whole
  priced : price = 2 ∨ ∀ e ∈ es, e.EveryCall Call.Reduced

theorem Ready.mono (h : Ready price es s)
    (hbinders : (xs.flatMap binders).Subperm (es.flatMap binders))
    (hcalls : (xs.flatMap calls).length ≤ (es.flatMap calls).length)
    (hnodes : ∀ x ∈ xs, ∃ e ∈ es, x ∈ e.nodes) : Ready price xs s where
  distinct := nodup_of_subperm hbinders h.distinct
  below id hid := h.below id (hbinders.subset hid)
  room := by
    have hroom := h.room
    have hlength := hbinders.length_le
    have hcredit := Nat.mul_le_mul_left price hcalls
    omega
  whole x hx := by
    obtain ⟨e, he, hn⟩ := hnodes x hx
    exact (h.whole e he).node hn
  priced := h.priced.imp_right fun hreduced x hx => by
    obtain ⟨e, he, hn⟩ := hnodes x hx
    exact (hreduced e he).node hn

theorem subperm_of_nodes {α : Type} {f : Expr → List α}
    (hf : ∀ {x y : Expr}, x ∈ y.nodes → (f x).Sublist (f y))
    (hxs : List.Forall₂ (fun x y => x ∈ y.nodes) xs ys) (hys : ys.Subperm es) :
    (xs.flatMap f).Subperm (es.flatMap f) := by
  have hnodes : (xs.flatMap f).Sublist (ys.flatMap f) := by
    induction hxs with
    | nil => exact .slnil
    | cons hxy _ ih => exact (hf hxy).append (ih ((List.sublist_cons_self _ _).subperm.trans hys))
  obtain ⟨l, hl, hsub⟩ := hys
  exact hnodes.subperm.trans ((hl.flatMap_right f).symm.subperm.trans (hsub.flatMap f).subperm)

/-- Nodes of some of the expressions are as ready. -/
theorem Ready.within (h : Ready price es s)
    (hxs : List.Forall₂ (fun x y => x ∈ y.nodes) xs ys) (hys : ys.Subperm es) :
    Ready price xs s := by
  refine h.mono (subperm_of_nodes binders_sublist hxs hys)
    (subperm_of_nodes calls_sublist hxs hys).length_le fun x hx => ?_
  obtain ⟨y, hy, hn⟩ := exists_of_forall₂ (List.Forall₂.flip hxs) hx
  exact ⟨y, hys.subset hy, hn⟩

theorem Ready.parts (h : Ready price [e] s) : Ready price e.parts s := by
  refine h.mono ?_ ?_ fun x hx => ⟨e, by simp, mem_nodes_of_mem_parts hx⟩
  · rw [List.flatMap_singleton, binders_eq e]
    exact (List.sublist_append_right _ _).subperm
  · simp [calls_eq e]

/-- A run of an expression that is ready spends what it declares and what its calls pay. -/
def Frugal (x : Expr) (s : ReductionState) (y : Expr) (t : ReductionState) : Prop :=
  ∀ price, Ready price [x] s → Spends x.binders (price * x.calls.length) s y.binders t

variable {P : PartRun} (hP : ∀ {x s y t}, P x s y t → Frugal x s y t)
include hP

theorem Threads.spends (h : Threads P xs s xs' t) (hready : Ready price xs s) :
    Spends (xs.flatMap binders) (price * (xs.flatMap calls).length) s (xs'.flatMap binders) t := by
  induction h with
  | nil => exact .refl [] _
  | @cons x y xs ys s u t hx _ ih =>
    have hfirst : Ready price [x] s :=
      hready.within (.cons (mem_nodes_self x) .nil) (by simp)
    have hspends := hP hx price hfirst
    -- the first expression has drawn at most what was reserved for it
    have hrest : Ready price xs u := by
      have hlater : Ready price xs s :=
        hready.within (List.forall₂_same.mpr fun x _ => mem_nodes_self x)
          (List.sublist_cons_self _ _).subperm
      have hle := hspends.le
      have hlength := hspends.length
      have hroom := hready.room
      refine { hlater with below := fun id hid => ?_, room := ?_ }
      · exact Nat.lt_of_lt_of_le (hlater.below id hid) hle
      · simp only [List.flatMap_cons, List.length_append, Nat.mul_add] at hroom
        omega
    have hspends' := hspends.append (ih hrest)
    rw [← Nat.mul_add, ← List.length_append] at hspends'
    exact hspends'

/-- What is made of visited nodes declares no more than they do. -/
theorem Ready.spends (hready : Ready price [e] s)
    (hxs : List.Forall₂ (fun x y => x ∈ y.nodes) xs ys) (hys : ys.Subperm e.parts)
    (h : Threads P xs s xs' t) (hafter : e'.binders.Subperm (xs'.flatMap binders)) :
    Spends e.binders (price * e.calls.length) s e'.binders t := by
  have hspends := h.spends hP (hready.parts.within hxs hys)
  have hbinders := subperm_of_nodes binders_sublist hxs hys
  have hcalls := (subperm_of_nodes calls_sublist hxs hys).length_le
  refine hspends.mono ?_ hafter (Nat.mul_le_mul_left price ?_)
  · rw [binders_eq e]
    exact hbinders.trans (List.sublist_append_right _ _).subperm
  · simp only [calls_eq e, List.length_append]
    omega

theorem WalksBy.spends (h : WalksBy P e s e' t) (hready : Ready price [e] s) :
    Spends e.binders (price * e.calls.length) s e'.binders t := by
  have hspends := h.threads.spends hP hready.parts
  rw [binders_eq e, binders_eq e', h.declared.2]
  have hframe := hspends.frame (e.declared.map Param.id) []
  rw [List.append_nil, List.append_nil] at hframe
  refine hframe.mono (.refl _) (.refl _) (Nat.mul_le_mul_left price ?_)
  rw [calls_eq e, List.length_append]
  exact Nat.le_add_left _ _

theorem VisitsBy.spends (h : VisitsBy P e s c t) (hready : Ready price [e] s) :
    Spends e.binders (price * (e.parts.flatMap calls).length) s c.toExpr.binders t := by
  cases h with
  | walked _ _ hr hargs =>
    have hspends := (hr.threads.append hargs).spends hP hready.parts
    simpa [Call.toExpr, parts] using hspends
  | @converted m m' r args args' args'' _ _ _ _ hargs hfound =>
    have hspends := hargs.spends hP (hready.parts.within
      (List.forall₂_same.mpr fun x _ => mem_nodes_self x) (List.sublist_append_right _ _).subperm)
    refine hspends.mono ?_ ?_ (Nat.mul_le_mul_left price ?_)
    · rw [binders_call]
      exact (List.sublist_append_right _ _).subperm
    · simpa [Call.toExpr] using binders_of_counterpart (toQueryable_eq_some hfound)
    · simp [parts]

omit hP in
/-- A visited call has what is left of the price, and pays with it for an ordering. -/
theorem VisitsBy.credit (h : VisitsBy P e s c t) (hpriced : price = 2 ∨ e.EveryCall Call.Reduced) :
    ∃ credit, (keyedOrdering? c.method = none ∨ credit = 2) ∧
      price * (e.parts.flatMap calls).length + credit ≤ price * e.calls.length := by
  have hcalls : e.calls.length = 1 + (e.parts.flatMap calls).length := by
    rw [calls_eq, List.length_append]
    cases h <;> rfl
  rw [hcalls, Nat.mul_add]
  rcases hpriced with rfl | hreduced
  · exact ⟨2, .inr rfl, by omega⟩
  · refine ⟨0, .inl ?_, by omega⟩
    cases h with
    | walked => exact (everyCall_call.mp hreduced).1.ordering
    | converted hrule hstays hargs hfound =>
      exact absurd hfound
        ((everyCall_call.mp hreduced).1.not_converted hrule hstays hargs.length_eq.symm)

/-- Settling a call spends what the call declares, and twice more for an ordering. -/
theorem SettlesBy.spends {credit : Nat} (h : SettlesBy P c s e' t)
    (hcredit : keyedOrdering? c.method = none ∨ credit = 2) (hc : c.toExpr.binders.Nodup)
    (hbelow : ∀ id ∈ c.toExpr.binders, id.toNat < s.next)
    (hroom : s.next + c.toExpr.binders.length + credit < UInt32.size)
    (hargs : ∀ a ∈ c.args, a.EveryCall Call.Reduced) (hno : ¬ Repeats c) :
    Spends c.toExpr.binders credit s e'.binders t := by
  have hready {f : Flattening} (hflat : Flattening.of? c = some f)
      (hbinders : f.binders.Subperm c.toExpr.binders) : Ready 0 [f.inner] s := by
    have hinner := f.inner_sublist.subperm.trans hbinders
    have hreduced : f.inner.EveryCall Call.Reduced :=
      Flattening.everyCall_inner established_reduced.toMaintained hflat hargs
    rw [← List.flatMap_singleton binders f.inner] at hinner
    refine ⟨nodup_of_subperm hinner hc, fun id hid => hbelow id (hinner.subset hid), ?_, ?_, .inr ?_⟩
    · have := hinner.length_le
      omega
    · simpa using hreduced.mono fun _ => established_reduced.weaken
    · simpa using hreduced
  cases h with
  | same => exact (Spends.refl _ s).mono (.refl _) (.refl _) (Nat.zero_le _)
  | @ordered ordering element rest source hord htypes hsource =>
    have hpaid : credit = 2 := hcredit.resolve_left (by simp [hord])
    have hbinders : source.binders.Subperm c.toExpr.binders :=
      (binders_sublist (mem_nodes_of_mem_parts (by simp [Call.toExpr, parts, hsource]))).subperm
    refine (Spends.draw (by omega) source.binders).mono hbinders (List.Perm.subperm ?_) (by omega)
    simp [Expr.apply, Lambda.quoted, Lambda.toExpr, Lambda.identity]
  | @pairs _ join left inner inner' result hflat hinner =>
    obtain ⟨body, hpieces⟩ := Flattening.pairsPieces hflat
    have hbinders := hpieces.subperm hc hno
    have hspends := hP hinner 0 (hready hflat hbinders)
    refine (hspends.frame join.kept result.toExpr.binders).mono hbinders ?_ (by omega)
    refine binders_flat.subperm.trans (List.Sublist.subperm ?_)
    exact ((binders_unwrapQueryable inner').append_left _).append_right _
  | @members _ join left inner inner' outer element hflat hinner =>
    obtain ⟨body, hpieces⟩ := Flattening.membersPieces hflat
    obtain ⟨group, x, hbinders⟩ := hpieces.subperm hc hno
    have hspends := hP hinner 0
      (hready hflat ((List.sublist_append_right [group, x] _).subperm.trans hbinders))
    have hframe := hspends.frame join.kept [outer.id]
    have hroom' : s.next + (Flattening.members join left inner outer element).binders.length + 2 <
        UInt32.size := by
      have hlength := hbinders.length_le
      simp only [List.length_cons] at hlength
      omega
    have hlast := hframe.length
    have hdraw := hframe.trans (Spends.draw (by simp only [Flattening.binders] at hroom'; omega) _)
    refine hdraw.repay.mono hbinders (binders_flat.trans ?_).subperm (by omega)
    simp [Lambda.toExpr]

/-- **What one layer of the operator pass spends.** -/
theorem ReducesBy.frugal (hrun : ∀ {x s y t}, P x s y t → Runs provider x s y t)
    (hno : ∀ {c t}, VisitsBy P e s c t → ¬ Repeats c) (h : ReducesBy provider P P e s e' t) :
    Frugal e s e' t := by
  intro price hready
  have hself (xs : List Expr) : List.Forall₂ (fun x y : Expr => x ∈ y.nodes) xs xs :=
    List.forall₂_same.mpr fun x _ => mem_nodes_self x
  cases h with
  | node _ hwalk | kept _ _ hwalk | member _ _ hwalk => exact hwalk.spends hP hready
  | binary _ hl hr =>
    refine hready.spends hP (hself _) (.refl _) (.cons hl (.cons hr .nil)) ?_
    simp [List.Subperm.refl]
  | elementAt _ hl hr =>
    refine hready.spends hP (hself _) (.refl _) (.cons hl (.cons hr .nil)) ?_
    simpa using binders_elementRead _ _ _ _
  | @nonEmpty _ lhs _ source _ _ _ _ _ hcounted hsource =>
    have hmem : source ∈ lhs.nodes := mem_nodes_of_mem_parts (mem_parts_of_counted hcounted).1
    refine hready.spends hP (.cons hmem .nil) ?_ (.cons hsource .nil) ?_
    · simp [parts]
    · simpa using binders_nonEmptyTest _ _ _
  | note _ _ hsource =>
    have hspends : Spends _ _ s e'.binders _ :=
      hready.spends hP (hself _) (by simp [parts]) (.cons hsource .nil) (by simp [List.Subperm.refl])
    exact ⟨hspends.le, hspends.length, hspends.count⟩
  | hint _ _ hargument =>
    refine hready.spends hP (hself _) ?_ (.cons hargument .nil) ?_
    · simp [parts]
    · simp [List.Subperm.refl]
  | index _ htarget hposition =>
    refine hready.spends hP (hself _) (.refl _) (.cons htarget (.cons hposition .nil)) ?_
    simpa using binders_elementRead _ _ _ _
  | unmatched _ _ hargs _ hr =>
    refine hready.spends hP (hself _) List.perm_append_comm.subperm (hargs.append hr.threads) ?_
    simpa using List.perm_append_comm.subperm
  | contains _ _ hc hitem =>
    refine hready.spends hP (hself _) (.refl _) (.cons hc (.cons hitem .nil)) ?_
    simp [binders_contains, List.Subperm.refl]
  | @loading m r source source' selector body body' p _ _ _ _ hlambda hsource hbody =>
    have hxs : List.Forall₂ (fun x y : Expr => x ∈ y.nodes) [source, body] [source, selector] :=
      .cons (mem_nodes_self source) (.cons (body_mem_nodes_of_lambda hlambda) .nil)
    have hys : [source, selector].Subperm (call m r [source, selector]).parts :=
      (List.sublist_append_right _ _).subperm
    have hspends := Threads.spends hP (.cons hsource (.cons hbody .nil))
      (hready.parts.within hxs hys)
    have hcalls := (subperm_of_nodes calls_sublist hxs hys).length_le
    refine (hspends.frame (r.toList.flatMap binders ++ [p.id]) []).mono
      (subperm_of_count fun id => ?_) (subperm_of_count fun id => ?_) (Nat.mul_le_mul_left price ?_)
    · simp only [binders_call, binders_of_lambda hlambda, List.flatMap_cons, List.flatMap_nil,
        List.map_cons, List.map_nil, List.count_append, List.count_nil]
      omega
    · simp only [binders_call, binders_reselected, Lambda.toExpr, binders_lambda, List.flatMap_cons,
        List.flatMap_nil, List.map_cons, List.map_nil, List.count_append, List.count_nil]
      omega
    · rw [calls_eq (call m r [source, selector]), List.length_append]
      omega
  | @settle _ _ c _ u _ hvisit hsettle =>
    have hpriced : price = 2 ∨ e.EveryCall Call.Reduced := by simpa using hready.priced
    have hwhole : e.EveryCall Call.Whole := hready.whole e (by simp)
    obtain ⟨credit, hcredit, hpaid⟩ := hvisit.credit hpriced
    have hvisited := hvisit.spends hP hready
    have hbelow : ∀ id ∈ e.binders, id.toNat < s.next := by simpa using hready.below
    have hdistinct : e.binders.Nodup := by simpa using hready.distinct
    have hroom : s.next + e.binders.length + price * e.calls.length < UInt32.size := by
      simpa using hready.room
    have hlength := hvisited.length
    have hreduced := (hvisit.mono fun _ _ _ _ _ h => hrun h).everyCall_args established_reduced hwhole
    have hsettled := hsettle.spends hP hcredit (hvisited.nodup hdistinct hbelow)
      (hvisited.below hbelow) (by omega) hreduced (hno hvisit)
    exact (hvisited.trans hsettled).mono (.refl _) (.refl _) hpaid

omit hP in
/-- **What the operator pass spends.** -/
theorem Runs.frugal (h : Runs provider e s e' t) (hno : Avoids provider Repeats e s) :
    Frugal e s e' t := by
  revert hno
  refine Runs.induction_meets (P := fun x s y t => Avoids provider Repeats x s → Frugal x s y t) ?_ h
  intro x x' s t hlayer hno
  refine ReducesBy.frugal (P := fun y u z v => Runs provider y u z v ∧ Frugal y u z v)
    (fun h => h.2) (fun h => h.1) ?_ ?_
  · intro c t hvisit
    exact hno.visited (hvisit.mono fun _ _ _ _ _ h => h.1)
  · exact hlayer.mono (fun _ _ _ _ _ h => ⟨h.1.1, h.1.2 (hno.meets h.2)⟩)
      fun _ _ _ _ h => ⟨h.1.1, h.1.2 (hno.meets h.2)⟩

end OperatorPass

/-! ## The grouped-join pass -/

section GroupedJoinPass

variable {e e' : Expr}

/-- If no id is declared twice, no more is declared, unless a grouped join repeats a declaration. -/
def DeclaresNoMore (x y : Expr) : Prop :=
  x.binders.Nodup → (∀ c, ComesTo x c → ¬ RepeatsGroup c) → y.binders.Subperm x.binders

/-- **What one layer of the grouped-join pass declares.** -/
theorem UngroupsBy.declaresNoMore (h : UngroupsBy DeclaresNoMore DeclaresNoMore e e') :
    DeclaresNoMore e e' := by
  intro hdistinct hsound
  cases h with
  | node hnot hwalk =>
    have hparts : WalksBy (fun x (_ : Unit) y _ => y.binders.Subperm x.binders) e () e' () :=
      hwalk.mono_mem fun x hx _ _ _ hstep =>
        hstep (hdistinct.sublist (binders_sublist (mem_nodes_of_mem_parts hx)))
          fun c hc => hsound c (.part hnot hx hc)
    rw [binders_eq e, binders_eq e', hwalk.declared.2]
    exact (List.subperm_append_left _).mpr (subperm_flatMap (hparts.forall₂ fun h => h))
  | join hm hcorrelate houter hselector =>
    have hbinders := subperm_of_correlate hcorrelate hdistinct (hsound _ (.here hm))
    have hdistinct' := nodup_of_subperm hbinders hdistinct
    have houter' := houter (List.nodup_append.mp hdistinct').1
      fun c hc => hsound c (.source hm hcorrelate hc)
    have hselector' := hselector (List.nodup_append.mp hdistinct').2.1
      fun c hc => hsound c (.selector hm hcorrelate hc)
    simpa using (houter'.append hselector').trans hbinders

/-- **What the grouped-join pass declares.** -/
theorem Ungroups.declaresNoMore (h : Ungroups e e') : DeclaresNoMore e e' :=
  Ungroups.induction UngroupsBy.declaresNoMore h

end GroupedJoinPass

/-! ## Normal forms -/

/-- The first id after those of the tree. -/
def Expr.firstFree (e : Expr) : Nat := (e.ids.map fun id => id.toNat + 1).foldl max 0

section Start

variable {e : Expr}

theorem firstFree_le_iff {n : Nat} : e.firstFree ≤ n ↔ ∀ id ∈ e.ids, id.toNat < n := by
  have hmax : (0 :: e.ids.map fun id => id.toNat + 1).max? = some e.firstFree := List.max?_cons'
  rw [List.max?_le_iff hmax, List.forall_mem_cons, List.forall_mem_map]
  exact and_iff_right (Nat.zero_le n)

theorem lt_firstFree {id : UInt32} (h : id ∈ e.ids) : id.toNat < e.firstFree :=
  firstFree_le_iff.mp (Nat.le_refl _) id h

theorem toNat_max (a b : UInt32) : (max a b).toNat = max a.toNat b.toNat := by
  change (if a ≤ b then b else a).toNat = _
  split <;> rename_i h <;> rw [UInt32.le_iff_toNat_le] at h <;> omega

theorem foldl_max_succ (ids : List UInt32) (id : UInt32) :
    (ids.map fun id => id.toNat + 1).foldl max (id.toNat + 1) = (ids.foldl max id).toNat + 1 := by
  induction ids generalizing id with
  | nil => rfl
  | cons x ids ih =>
    rw [List.map_cons, List.foldl_cons, List.foldl_cons, ← ih, toNat_max]
    congr 1
    omega

theorem toNat_next_after : (ParamSupply.after e).next.toNat = e.firstFree % UInt32.size := by
  rw [ParamSupply.after, maxId?_eq_max?, Expr.firstFree]
  cases e.ids with
  | nil => rfl
  | cons id ids =>
    rw [List.map_cons, List.foldl_cons, Nat.zero_max, foldl_max_succ]
    exact UInt32.toNat_add _ _

theorem next_after (h : e.firstFree < UInt32.size) : (ParamSupply.after e).next.toNat = e.firstFree := by
  rw [toNat_next_after, Nat.mod_eq_of_lt h]

theorem binders_subset_ids : e.binders ⊆ e.ids := by
  intro id hid
  obtain ⟨n, hn, hid⟩ := List.mem_flatMap.mp hid
  refine List.mem_flatMap.mpr ⟨n, hn, ?_⟩
  cases n with
  | lambda => exact hid
  | _ => cases hid

end Start

/-- The paid ones among some orders. -/
def paidOf (orders : Expr) : Expr :=
  let v : Param := ⟨4, "v", .entity "Order"⟩
  .apply Queryable.filter [.entity "Order"]
    [asQueryable orders (.entity "Order"), .quote (.lambda [v] (.access (.param v) "Paid" .bool))]

/-- The paid orders of the customers, by a grouped join of which the groups are taken apart. -/
def paidOfGroups : Expr :=
  let order : Ty := .entity "Order"
  let w : Param := ⟨5, "w", .queryable order⟩
  .apply Queryable.selectMany [w.ty, order]
    [ordersGrouped (paidOf (.param ⟨3, "g", .enumerable order⟩)), .quote (.lambda [w] (.param w))]

/-- The paid orders of the customers, by a flat join, for which the order is declared afresh. -/
def paidOfJoin : Expr :=
  let order : Param := ⟨6, "b", .entity "Order"⟩
  joinedBy (fun a => .access a "Id" .int) Queryable.join (paidOf storedOrders) order (.param order)

theorem not_repeats_paidOfGroups {provider : Provider} {c : Call} {s t : ReductionState}
    (h : Reaches provider paidOfGroups s c t) : ¬ Repeats c := by
  rintro ⟨-, f, hflat, id, hid, htwice⟩
  have hinner : ∀ root f, paidOfGroups.call? = some root → Flattening.of? root = some f →
      ∀ c ∈ f.inner.calls, c.method.name ≠ "SelectMany" := by
    rintro _ _ ⟨⟩ ⟨⟩
    decide
  rcases h.root_of_idle (by decide) (by decide) (by decide) hinner with hnone | hroot
  · cases hnone.symm.trans hflat
  · cases hroot
    cases hflat
    have hcopied : id ∈ ([4] : List UInt32) := hid
    have hdeclared : 1 < ([0, 1, 4, 2] : List UInt32).count id := htwice
    obtain rfl := List.mem_singleton.mp hcopied
    exact absurd hdeclared (by decide)

/-- The group of a join, in two fields. -/
def groupTwice : Expr :=
  let group : Expr := .param ⟨3, "g", .enumerable (.entity "Order")⟩
  ordersGrouped (.anonymous [("x", group), ("y", group)])

/-- The paid orders of a customer. -/
def paidBy (customer : Expr) : Expr :=
  paidOf (.access customer "Orders" (.seq .list (.entity "Order")))

/-- The groups of a join by the number of paid orders of a customer. -/
def groupByPaid : Expr :=
  let group : Param := ⟨3, "g", .enumerable (.entity "Order")⟩
  let count : Signature :=
    Domain.queries.operator "Count" 1 [.queryable (.slot 0)] .int
  joinedBy (fun a => .apply count [.entity "Order"] [paidBy a]) Queryable.groupJoin storedOrders group
    (.param group)

/-- The paid orders of a customer, which a grouped join has named, in two fields of each pair. -/
def paidTwice : Expr :=
  let order : Ty := .entity "Order"
  let named : Expr := .anonymous [("p", paidBy (.param ⟨2, "o", .entity "Customer"⟩)),
    ("g", .param ⟨3, "g", .enumerable order⟩)]
  let x : Param := ⟨5, "x", named.ty⟩
  let y : Param := ⟨6, "y", named.ty⟩
  let paid : Expr := .access (.param y) "p" (.queryable order)
  let result : Expr := .anonymous [("x", paid), ("y", paid)]
  .apply Queryable.selectManyPairs [x.ty, order, result.ty]
    [ordersGrouped named, .quote (.lambda [x] (groupOf (.param x))),
      .quote (.lambda [y, ⟨7, "e", order⟩] result)]

/-- The tree is closed, its calls are proper, no id is declared twice, there are enough ids, and an id
is declared twice in the normal form. -/
def Expr.RepeatsBinders (e : Expr) : Prop :=
  e.Closed ∧ (∀ c ∈ e.calls, c.Proper) ∧ e.binders.Nodup ∧
    e.firstFree + e.binders.length + 2 * e.calls.length < UInt32.size ∧
    ∃ e', normalize ⟨false⟩ default e = (.ok e', default) ∧ ¬ e'.binders.Nodup

end QueryNormal
