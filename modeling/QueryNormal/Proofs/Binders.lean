import Mathlib.Data.List.Flatten
import Mathlib.Data.List.Perm.Subperm
import QueryNormal.Proofs.Invariants

/-!
# Declarations

* `Expr.binders`: the ids that lambdas of a tree declare.
* `count_replace`: replacing a parameter declares more only of what the replacement declares.
* `Repeats`, `RepeatsGroup`: rewriting a grouped join declares an id twice that was copied with a
  replacement.
* `PairsPieces.subperm`, `MembersPieces.subperm`, `subperm_of_correlate`: otherwise a rewritten
  grouped join declares no more than the call did.

Ids are counted, so that what is said of a list of trees is a sum.
-/

namespace QueryNormal

open QueryNormal.Expr

/-- The ids that lambdas declare, once for each declaration. -/
def Expr.binders (e : Expr) : List UInt32 := e.nodes.flatMap fun n => n.declared.map Param.id

/-! ## Nodes -/

section Nodes

variable {e x : Expr} {l : Lambda}

theorem binders_eq (e : Expr) :
    e.binders = e.declared.map Param.id ++ e.parts.flatMap binders := by
  rw [binders, nodes_eq, List.flatMap_cons, List.flatMap_assoc]
  rfl

@[simp] theorem binders_call {m : Method} {r : Option Expr} {args : List Expr} :
    (call m r args).binders = r.toList.flatMap binders ++ args.flatMap binders := by
  rw [binders_eq]
  simp [declared, parts]

@[simp] theorem binders_lambda {params : List Param} {body : Expr} :
    (lambda params body).binders = params.map Param.id ++ body.binders := by
  rw [binders_eq]
  simp [declared, parts]

@[simp] theorem binders_quote : (quote e).binders = e.binders := by
  rw [binders_eq]
  simp [declared, parts]

@[simp] theorem binders_param {p : Param} : (param p).binders = [] := rfl

@[simp] theorem binders_binary {op : BinOp} {lhs rhs : Expr} :
    (binary op lhs rhs).binders = lhs.binders ++ rhs.binders := by
  rw [binders_eq]
  simp [declared, parts]

@[simp] theorem binders_unary {op : UnOp} : (unary op e).binders = e.binders := by
  rw [binders_eq]
  simp [declared, parts]

@[simp] theorem binders_const {value : Literal} {type : Ty} : (const value type).binders = [] := rfl

@[simp] theorem binders_placeholder {p : Placeholder} : (placeholder p).binders = [] := rfl

@[simp] theorem binders_member {m : Member} : (member (some e) m).binders = e.binders := by
  rw [binders_eq]
  simp [declared, parts]

theorem binders_of_lambda (h : e.lambda? = some l) :
    e.binders = l.params.map Param.id ++ l.body.binders := by
  refine induction_lambda (P := fun e => e.binders = l.params.map Param.id ++ l.body.binders) h ?_ ?_
  · exact binders_lambda
  · intro x hx
    rw [binders_quote, hx]

theorem nodes_sublist (h : x ∈ e.nodes) : x.nodes.Sublist e.nodes := by
  induction e using induction_parts with
  | _ e ih =>
    rw [nodes_eq e] at h ⊢
    rcases List.mem_cons.mp h with rfl | h
    · rw [← nodes_eq]
    · obtain ⟨y, hy, hx⟩ := List.mem_flatMap.mp h
      have hnodes := (List.singleton_sublist.mpr hy).flatMap nodes
      rw [List.flatMap_singleton] at hnodes
      exact ((ih y hy hx).trans hnodes).cons _

theorem binders_sublist (h : x ∈ e.nodes) : x.binders.Sublist e.binders :=
  (nodes_sublist h).flatMap _

theorem calls_sublist (h : x ∈ e.nodes) : x.calls.Sublist e.calls :=
  (nodes_sublist h).filterMap _

theorem count_flatMap_le {id : UInt32} {xs ys : List Expr}
    (h : List.Forall₂ (fun x y => y.binders.count id ≤ x.binders.count id) xs ys) :
    (ys.flatMap binders).count id ≤ (xs.flatMap binders).count id := by
  induction h with
  | nil => simp
  | cons hxy _ ih =>
    simp only [List.flatMap_cons, List.count_append]
    omega

theorem subperm_of_count {l l' : List UInt32} (h : ∀ id, l.count id ≤ l'.count id) : l.Subperm l' :=
  List.subperm_ext_iff.mpr fun id _ => h id

theorem nodup_of_subperm {l l' : List UInt32} (h : l.Subperm l') (h' : l'.Nodup) : l.Nodup :=
  List.nodup_iff_count.mpr fun id => Nat.le_trans (h.count_le id) (List.nodup_iff_count.mp h' id)

theorem subperm_flatMap {xs ys : List Expr}
    (h : List.Forall₂ (fun x y => y.binders.Subperm x.binders) xs ys) :
    (ys.flatMap binders).Subperm (xs.flatMap binders) :=
  subperm_of_count fun id => count_flatMap_le (h.imp fun _ _ hxy => hxy.count_le id)

end Nodes

/-! ## Rewrites -/

section Rewrites

variable {e x : Expr} {i : UInt32}

/-- Replacing a parameter declares no more, but for what the replacement declares. -/
theorem count_replace (id : UInt32) {value : Expr} (hi : i ∉ value.binders) :
    (replace id value e).binders.count i ≤ e.binders.count i := by
  induction e using induction_parts with
  | _ e ih =>
    rcases replace_cases id value e with ⟨_, _, _, h⟩ | ⟨target, m, rfl, h⟩ | ⟨-, hwalk⟩
    · rw [h, List.count_eq_zero.mpr hi]
      exact Nat.zero_le _
    · have htarget := ih target (by simp [parts])
      rw [h, binders_member]
      rcases project_cases (replace id value target) m with h | ⟨h, -⟩
      · rw [h, binders_member]
        exact htarget
      · have hpart := (binders_sublist (mem_nodes_of_mem_parts h)).count_le i
        omega
    · have hparts : WalksBy (fun x (_ : Unit) y _ => y.binders.count i ≤ x.binders.count i) e ()
          (replace id value e) () := by
        refine hwalk.mono_mem ?_
        rintro x hx _ _ _ rfl
        exact ih x hx
      rw [binders_eq, binders_eq e, hwalk.declared.2, List.count_append, List.count_append]
      have := count_flatMap_le (hparts.forall₂ fun h => h)
      omega

theorem not_mem_replace (id : UInt32) {value : Expr} (hvalue : i ∉ value.binders) (he : i ∉ e.binders) :
    i ∉ (replace id value e).binders := by
  rw [← List.count_eq_zero] at he ⊢
  have := count_replace (e := e) id hvalue
  omega

@[simp] theorem binders_quoteLambda : (quoteLambda e).binders = e.binders := by
  unfold quoteLambda
  split
  · exact binders_quote
  · rfl

@[simp] theorem binders_asQueryable {element : Ty} : (asQueryable e element).binders = e.binders := by
  simp [asQueryable, Expr.apply]

theorem binders_queryArgument (e : Expr) (fallback : Option Ty) :
    (queryArgument e fallback).binders.Sublist e.binders := by
  obtain ⟨x, hx, h | ⟨element, h⟩⟩ := queryArgument_cases e fallback
  · rw [h]
    exact binders_sublist hx
  · rw [h, binders_asQueryable]
    exact binders_sublist hx

theorem binders_of_passes (h : Passes e x) : x.binders.Sublist e.binders := by
  cases h with
  | same => exact .refl _
  | converted => exact binders_queryArgument _ _

theorem binders_of_counterpart {m m' : Method} {args args' : List Expr}
    (h : Counterpart m args m' args') :
    (args'.flatMap binders).Subperm (args.flatMap binders) := by
  obtain ⟨passed, hpassed, rfl⟩ := h.args
  refine subperm_flatMap (List.forall₂_map_right_iff.mpr (hpassed.imp fun x y hxy => ?_))
  rw [binders_quoteLambda]
  exact (binders_of_passes hxy).subperm

theorem binders_elementRead (element : Ty) (raw source position : Expr) :
    (elementRead element raw source position).binders.Subperm
      (source.binders ++ position.binders) := by
  unfold elementRead
  split
  · simp [Expr.apply, List.Subperm.refl]
  · simpa [Expr.apply] using ((binders_queryArgument source _).append_right _).subperm

theorem binders_nonEmptyTest (element : Ty) (raw source : Expr) :
    (nonEmptyTest element raw source).binders.Subperm source.binders := by
  unfold nonEmptyTest
  split
  · simp [Expr.apply, List.Subperm.refl]
  · simpa [Expr.apply] using (binders_queryArgument source _).subperm

theorem binders_contains (element : Ty) (raw collection item : Expr) :
    (QueryNormal.contains element raw collection item).binders =
      collection.binders ++ item.binders := by
  unfold QueryNormal.contains
  split <;> simp [Expr.apply]

theorem binders_reselected (selector : Expr) (l : Lambda) :
    (reselected selector l).binders = l.toExpr.binders := by
  unfold reselected
  split
  · exact binders_quote
  · rfl

theorem binders_unwrapQueryable (e : Expr) : (unwrapQueryable e).binders.Sublist e.binders := by
  induction e using induction_parts with
  | _ e ih =>
    unfold unwrapQueryable
    split
    · rename_i m r source rest
      have hsource := ih source (by simp [parts])
      split
      · exact hsource.trans (binders_sublist (mem_nodes_of_mem_parts (by simp [parts])))
      · split
        · simp only [binders_call, List.flatMap_cons]
          exact (hsource.append (.refl _)).append_left _
        · exact .refl _
    · exact .refl _

end Rewrites

/-! ## Flattening -/

/-- The ids that are declared in what a flat join keeps of a grouped join. -/
def GroupJoin.kept (join : GroupJoin) : List UInt32 :=
  join.outer.binders ++ join.outerKey.binders ++ join.innerKey.binders

/-- The ids that are declared in what flattening puts in the place of parameters: what the grouped
join makes of its group, and the inner source. -/
def GroupJoin.copied (join : GroupJoin) : List UInt32 :=
  join.result.body.binders ++ join.inner.binders

namespace Flattening

/-- The grouped join that is flattened. -/
def join : Flattening → GroupJoin
  | .pairs join _ _ _ => join
  | .members join _ _ _ _ => join

/-- The ids that are declared in the flat join, before its inner source is visited and its element is
declared afresh. -/
def binders : Flattening → List UInt32
  | .pairs join _ inner result => join.kept ++ inner.binders ++ result.toExpr.binders
  | .members join _ inner outer _ => join.kept ++ inner.binders ++ [outer.id]

theorem inner_sublist (f : Flattening) : f.inner.binders.Sublist f.binders := by
  cases f <;> exact (List.sublist_append_right _ _).trans (List.sublist_append_left _ _)

end Flattening

/-- Flattening the call repeats a declaration: no id is declared twice in the call, but one that is
declared in what is put in the place of parameters is declared twice in the flat join. -/
def Repeats (c : Call) : Prop :=
  c.toExpr.binders.Nodup ∧
    ∃ f, Flattening.of? c = some f ∧ ∃ id ∈ f.join.copied, 1 < f.binders.count id

section Flattening

variable {c : Call} {join : GroupJoin} {e body inner : Expr} {left : Bool}

theorem binders_flat {result : Lambda} :
    (join.flat left inner result).binders.Perm
      (join.kept ++ inner.binders ++ result.toExpr.binders) := by
  refine List.perm_iff_count.mpr fun id => ?_
  simp only [GroupJoin.flat, GroupJoin.kept, Expr.apply, Lambda.quoted, binders_call, binders_quote,
    Option.toList_none, List.flatMap_nil, List.flatMap_cons, List.count_append, List.count_nil]
  omega

theorem JoinPieces.subperm (h : JoinPieces e join) :
    (join.kept ++ join.copied ++ join.result.params.map Param.id).Subperm e.binders := by
  cases h with
  | intro _ _ _ hresult =>
    refine subperm_of_count fun id => ?_
    simp only [GroupJoin.kept, GroupJoin.copied, binders_call, binders_of_lambda hresult,
      List.flatMap_cons, List.flatMap_nil, List.count_append, List.count_nil]
    omega

/-- A list declares no more than another if it does not repeat what is copied, and declares no more
of the rest. -/
theorem subperm_of_copied {l before copied : List UInt32} (hcopied : copied ⊆ before)
    (honce : ∀ id ∈ copied, l.count id ≤ 1)
    (hrest : ∀ id, id ∉ copied → l.count id ≤ before.count id) : l.Subperm before := by
  refine subperm_of_count fun id => ?_
  by_cases hid : id ∈ copied
  · have hbefore : 0 < before.count id := List.count_pos_iff.mpr (hcopied hid)
    have := honce id hid
    omega
  · exact hrest id hid

theorem PairsPieces.subperm {result : Lambda} (h : PairsPieces c join body left inner result)
    (hc : c.toExpr.binders.Nodup) (hno : ¬ Repeats c) :
    (Flattening.pairs join left inner result).binders.Subperm c.toExpr.binders := by
  have honce : ∀ id ∈ join.copied, (Flattening.pairs join left inner result).binders.count id ≤ 1 :=
    fun id hid => Nat.not_lt.mp fun htwice => hno ⟨hc, _, h.flattening, id, hid, htwice⟩
  cases h with
  | @intro m r source collection result join x y element outer group more body pairBody _ hjoin
      hcollection hresult hparams _ =>
    have hsource := hjoin.subperm
    refine subperm_of_copied (fun id hid => ?_) honce fun id hid => ?_
    · have hmem := hsource.subset (List.mem_append_left _ (List.mem_append_right _ hid))
      simp [Call.toExpr, hmem]
    · obtain ⟨hbody, hin⟩ := not_or.mp (List.mem_append.not.mp hid)
      have hcollected := count_replace x.id (e := (peelDefault body).1) hbody
      have hpeeled := (binders_sublist (peelDefault_mem_nodes body)).count_le id
      have hinner := count_replace group.id (e := join.collected x body) hin
      have hpair := count_replace y.id (e := pairBody) hbody
      have hkept := hsource.count_le id
      simp only [Flattening.binders, Call.toExpr, Lambda.toExpr, GroupJoin.collected, hparams,
        binders_call, binders_lambda, binders_of_lambda hcollection, binders_of_lambda hresult,
        List.flatMap_cons, List.flatMap_nil, List.map_cons, List.map_nil, List.count_append,
        List.count_cons, List.count_nil] at hcollected hpeeled hinner hpair hkept ⊢
      omega

/-- The group and the parameter of the selector go away. -/
theorem MembersPieces.subperm {outer element : Param}
    (h : MembersPieces c join body left inner outer element) (hc : c.toExpr.binders.Nodup)
    (hno : ¬ Repeats c) :
    ∃ group x, (group :: x :: (Flattening.members join left inner outer element).binders).Subperm
      c.toExpr.binders := by
  have honce : ∀ id ∈ join.copied,
      (Flattening.members join left inner outer element).binders.count id ≤ 1 :=
    fun id hid => Nat.not_lt.mp fun htwice => hno ⟨hc, _, h.flattening, id, hid, htwice⟩
  cases h with
  | @intro m r source selector join x element outer group more body _ hjoin hselector _ hparams _ =>
    have hsource := hjoin.subperm
    have hcall : (group.id :: x.id :: (join.kept ++ join.copied ++ [outer.id] ++ body.binders)).Subperm
        (Call.toExpr ⟨m, r, [source, selector]⟩).binders := by
      refine subperm_of_count fun id => ?_
      have hkept := hsource.count_le id
      simp only [Call.toExpr, hparams, binders_call, binders_of_lambda hselector, List.flatMap_cons,
        List.flatMap_nil, List.map_cons, List.map_nil, List.count_append, List.count_cons,
        List.count_nil] at hkept ⊢
      omega
    have hcopied : join.copied ⊆ (Call.toExpr ⟨m, r, [source, selector]⟩).binders :=
      fun id hid => hcall.subset (by simp [hid])
    refine ⟨group.id, x.id, subperm_of_copied hcopied (fun id hid => ?_) fun id hid => ?_⟩
    · have hdistinct := hcall.count_le id
      have hid' := List.count_pos_iff.mpr hid
      have := List.nodup_iff_count.mp hc id
      have := honce id hid
      simp only [List.count_append, List.count_cons] at hdistinct ⊢
      omega
    · obtain ⟨hbody, hin⟩ := not_or.mp (List.mem_append.not.mp hid)
      have hpeeled : id ∉ (peelDefault join.result.body).1.binders := fun h =>
        hbody ((binders_sublist (peelDefault_mem_nodes _)).subset h)
      have hinner := count_replace x.id (e := body)
        (not_mem_replace group.id hin hpeeled)
      have hkept := hcall.count_le id
      simp only [Flattening.binders, List.count_append, List.count_cons, List.count_nil]
        at hinner hkept ⊢
      omega

end Flattening

/-! ## Grouped joins as projections -/

/-- The call, a grouped join, repeats a declaration as a projection: no id is declared twice in the
call, but one that is declared in its inner source or its key selectors is declared twice in the
projection. -/
def RepeatsGroup (c : Call) : Prop :=
  c.toExpr.binders.Nodup ∧ ∃ select outer selector,
    correlate c.method c.args = .ok (select, outer, selector) ∧
      ∃ id ∈ (c.args.tail.take 3).flatMap Expr.binders, 1 < (outer.binders ++ selector.binders).count id

section Projections

variable {e x : Expr} {id : UInt32}

theorem binders_asQuery (e : Expr) : (asQuery e).binders = e.binders := by
  unfold asQuery
  split
  · split
    · rfl
    · exact binders_asQueryable
  · rfl

theorem binders_groupedSelector (resultType : Ty) (e : Expr) :
    (groupedSelector resultType e).binders = e.binders := by
  unfold groupedSelector
  split
  · simp [Expr.apply]
  · rfl

theorem not_mem_keysMatch (he : id ∉ e.binders) (hx : id ∉ x.binders) :
    id ∉ (keysMatch e x).binders := by
  refine keysMatch_of (Q := fun e => id ∉ e.binders) (by simp) ?_ ?_ he hx
  · intro op x y hx hy
    simp [hx, hy]
  · intro type args names hnew y hy hid
    exact hnew ((binders_sublist (mem_nodes_of_mem_parts hy)).subset hid)

/-- A grouped join that repeats nothing declares no more as a projection. -/
theorem subperm_of_correlate {m select : Method} {r : Option Expr} {args : List Expr}
    {outer selector : Expr} (h : correlate m args = .ok (select, outer, selector))
    (hc : (call m r args).binders.Nodup) (hno : ¬ RepeatsGroup ⟨m, r, args⟩) :
    (outer.binders ++ selector.binders).Subperm (call m r args).binders := by
  have honce : ∀ id ∈ (args.tail.take 3).flatMap Expr.binders,
      (outer.binders ++ selector.binders).count id ≤ 1 := fun id hid =>
    Nat.not_lt.mp fun htwice => hno ⟨hc, _, _, _, h, id, hid, htwice⟩
  cases correlatePieces h with
  | @intro _ innerElement _ _ _ inner _ _ _ outerKey body innerKey key element group _ hok hik
      hresult =>
    refine subperm_of_copied (fun id hid => ?_) honce fun id hid => ?_
    · simp only [List.tail_cons, List.take_succ_cons, List.take_zero, List.flatMap_cons,
        List.flatMap_nil, List.mem_append, List.not_mem_nil, or_false] at hid
      simp only [binders_call, List.flatMap_cons, List.mem_append]
      tauto
    · simp only [List.tail_cons, List.take_succ_cons, List.take_zero, List.flatMap_cons,
        List.flatMap_nil, List.append_nil, List.mem_append, not_or, binders_of_lambda hok,
        binders_of_lambda hik] at hid
      obtain ⟨hinner, ⟨-, houterKey⟩, hparams, hinnerKey⟩ := hid
      have hmatch : id ∉ (matchingInner innerElement inner outerKey key element innerKey).binders := by
        have hpredicate : id ∉ (replace key.id (.param element)
            (keysMatch outerKey innerKey.body)).binders :=
          not_mem_replace key.id (by simp) (not_mem_keysMatch houterKey hinnerKey)
        simpa [matchingInner, Expr.apply, Lambda.quoted, Lambda.toExpr, binders_asQuery, hinner,
          hpredicate] using hparams
      have hbody := count_replace group.id (e := body) hmatch
      simp only [Lambda.quoted, Lambda.toExpr, binders_call, binders_quote, binders_lambda,
        binders_groupedSelector, binders_of_lambda hresult, List.flatMap_cons, List.flatMap_nil,
        List.map_cons, List.map_nil, List.count_append, List.count_cons, List.count_nil]
      omega

end Projections

end QueryNormal
