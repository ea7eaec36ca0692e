import Mathlib.Logic.Function.Basic
import QueryNormal.Proofs.Distinct

/-!
# Weights of parameters

* `Feed`: an argument of an operator that flattening puts in the place of a parameter.
* `Expr.cost`: how many calls of a tree can be flattened or draw an id, where a reference counts for
  the weight of its parameter.
* `Expr.weights`: weights by which a parameter weighs what is put in its place.
* `Expr.demand`: the cost of a tree by its weights.
* `cost_le_weights`: in a closed tree that declares no id twice, the weights are so.
* `demand_lt_budget`: what a tree demands is below its budget.

In a closed tree, what is put in the place of a parameter refers only to parameters that are declared
before it. So the weights are found from left to right.
-/

namespace QueryNormal

open QueryNormal.Expr

/-! ## What flattening puts in the place of parameters -/

/-- Whether the method is the operator of that name, on in-memory sequences or on queries. -/
def Method.isOperator (m : Method) (name : String) : Bool :=
  (m.family = .enumerable ∨ m.family = .queryable) ∧ m.name = name

/-- An argument of an operator that flattening puts in the place of a parameter: the position of the
argument, of the selector that declares the parameter, and of the parameter in the selector. -/
structure Feed where
  operator : String
  source : Nat
  selector : Nat
  param : Nat
deriving DecidableEq, Repr, Inhabited

/-- The inner source of a grouped join is put in the place of the group, and what comes of the source
of a `SelectMany` in the place of the first parameter of a selector. -/
def feeds : List Feed := [⟨"GroupJoin", 1, 4, 1⟩, ⟨"SelectMany", 0, 1, 0⟩, ⟨"SelectMany", 0, 2, 0⟩]

/-- The argument of the call and the parameter in the place of which it is put. -/
def Feed.at? (d : Feed) (c : Call) : Option (Expr × Param) :=
  if c.method.isOperator d.operator then do
    let source ← c.args[d.source]?
    let selector ← c.args[d.selector]?
    let l ← selector.lambda?
    let p ← l.params[d.param]?
    return (source, p)
  else none

/-- The arguments of the call that flattening puts in the place of parameters. -/
def Call.fed (c : Call) : List (Expr × Param) := feeds.filterMap fun d => d.at? c

/-- The arguments of the calls of a tree that flattening puts in the place of parameters. -/
def Expr.fed (e : Expr) : List (Expr × Param) := e.calls.flatMap Call.fed

theorem Feed.at?_eq_some {d : Feed} {c : Call} {source : Expr} {p : Param} :
    d.at? c = some (source, p) ↔ c.method.isOperator d.operator = true ∧
      c.args[d.source]? = some source ∧ ∃ selector l, c.args[d.selector]? = some selector ∧
        selector.lambda? = some l ∧ l.params[d.param]? = some p := by
  unfold Feed.at?
  split
  · rename_i hm
    simp only [bind, Option.bind_eq_some_iff]
    constructor
    · rintro ⟨x, hx, selector, hselector, l, hl, q, hq, h⟩
      cases h
      exact ⟨hm, hx, selector, l, hselector, hl, hq⟩
    · rintro ⟨-, hx, selector, l, hselector, hl, hq⟩
      exact ⟨source, hx, selector, hselector, l, hl, p, hq, rfl⟩
  · rename_i hm
    constructor
    · intro h
      cases h
    · intro h
      exact absurd h.1 hm

theorem source_lt_selector : ∀ d ∈ feeds, d.source < d.selector := by decide

/-! ## Costs -/

/-- The operators that are flattened, or draw an id. -/
def chargedOperators : List String := ["SelectMany", "Order", "OrderDescending"]

namespace Expr

/-- What a node costs by itself. -/
def charge (w : UInt32 → Nat) : Expr → Nat
  | .call m _ _ => if chargedOperators.any m.isOperator then 1 else 0
  | .param p => w p.id
  | _ => 0

/-- What the nodes of a tree cost. -/
def cost (w : UInt32 → Nat) (e : Expr) : Nat := (e.nodes.map (charge w)).sum

section Cost

variable {w w' : UInt32 → Nat} {e x : Expr}

theorem cost_eq (w : UInt32 → Nat) (e : Expr) :
    e.cost w = e.charge w + (e.parts.map (cost w)).sum := by
  have hparts (es : List Expr) :
      ((es.flatMap nodes).map (charge w)).sum = (es.map (cost w)).sum := by
    induction es with
    | nil => rfl
    | cons x es ih => simp [ih, cost]
  rw [cost, nodes_eq, List.map_cons, List.sum_cons, hparts]

theorem cost_le_sum {es : List Expr} (h : x ∈ es) : x.cost w ≤ (es.map (cost w)).sum := by
  induction es with
  | nil => cases h
  | cons y es ih =>
    rw [List.map_cons, List.sum_cons]
    rcases List.mem_cons.mp h with rfl | h
    · omega
    · have := ih h
      omega

theorem cost_le_of_mem (h : x ∈ e.nodes) : x.cost w ≤ e.cost w := by
  induction e using induction_parts with
  | _ e ih =>
    rw [nodes_eq, List.mem_cons, List.mem_flatMap] at h
    rcases h with rfl | ⟨y, hy, hx⟩
    · exact Nat.le_refl _
    · have hsum := cost_le_sum (w := w) hy
      have hcost := cost_eq w e
      have := ih y hy hx
      omega

theorem cost_congr (h : ∀ p ∈ e.references, w p.id = w' p.id) : e.cost w = e.cost w' := by
  refine congrArg List.sum (List.map_congr_left fun n hn => ?_)
  cases n with
  | param p => exact h p (List.mem_filterMap.mpr ⟨_, hn, rfl⟩)
  | _ => rfl

end Cost

end Expr

/-! ## Weights -/

/-- The most that is put in the place of the parameter. -/
def supplied (fed : List (Expr × Param)) (w : UInt32 → Nat) (id : UInt32) : Nat :=
  (fed.map fun f => if f.2.id = id then f.1.cost w else 0).foldr max 0

/-- The weights with the weight of the parameter set to the most that is put in its place. -/
def settleWeight (fed : List (Expr × Param)) (w : UInt32 → Nat) (id : UInt32) : UInt32 → Nat :=
  Function.update w id (supplied fed w id)

/-- The weights of the parameters that the tree declares, found from left to right. -/
def Expr.weights (e : Expr) : UInt32 → Nat := e.binders.foldl (settleWeight e.fed) fun _ => 0

/-- What the tree costs by its weights. -/
def Expr.demand (e : Expr) : Nat := e.cost e.weights

section Weights

variable {e : Expr} {fed : List (Expr × Param)} {w : UInt32 → Nat}

theorem le_supplied {f : Expr × Param} (h : f ∈ fed) : f.1.cost w ≤ supplied fed w f.2.id := by
  unfold supplied
  induction fed with
  | nil => cases h
  | cons g fed ih =>
    rw [List.map_cons, List.foldr_cons]
    rcases List.mem_cons.mp h with rfl | h
    · rw [if_pos rfl]
      exact Nat.le_max_left _ _
    · exact Nat.le_trans (ih h) (Nat.le_max_right _ _)

theorem supplied_le {n : Nat} {id : UInt32} (h : ∀ f ∈ fed, f.1.cost w ≤ n) :
    supplied fed w id ≤ n := by
  unfold supplied
  induction fed with
  | nil => exact Nat.zero_le _
  | cons g fed ih =>
    rw [List.map_cons, List.foldr_cons]
    have hg := h g (by simp)
    have hrest := ih fun f hf => h f (by simp [hf])
    split <;> omega

/-- Weights that are settled elsewhere stay. -/
theorem foldl_settleWeight {id : UInt32} : ∀ {ids : List UInt32} {w : UInt32 → Nat}, id ∉ ids →
    ids.foldl (settleWeight fed) w id = w id
  | [], _, _ => rfl
  | i :: ids, w, h => by
    obtain ⟨hi, hids⟩ := not_or.mp (List.mem_cons.not.mp h)
    rw [List.foldl_cons, foldl_settleWeight hids]
    exact Function.update_of_ne hi _ _

theorem weights_eq_zero {id : UInt32} (h : id ∉ e.binders) : e.weights id = 0 := foldl_settleWeight h

/-! ### What is put in the place of a parameter is declared before it -/

theorem fed_eq (e : Expr) : e.fed = e.call?.toList.flatMap Call.fed ++ e.parts.flatMap Expr.fed := by
  rw [Expr.fed, calls_eq, List.flatMap_append, List.flatMap_assoc]
  rfl

theorem mem_fed {c : Call} {source : Expr} {p : Param} :
    (source, p) ∈ c.fed ↔ ∃ d ∈ feeds, d.at? c = some (source, p) := List.mem_filterMap

/-- A reference is free, or to a parameter that the tree declares. -/
theorem free_or_declared {q : Param} (h : q ∈ e.references) : q.id ∈ e.free ∨ q.id ∈ e.binders := by
  induction e using induction_parts with
  | _ e ih =>
    rw [references_eq, List.mem_append, Option.mem_toList, List.mem_flatMap] at h
    rw [mem_free, binders_eq, List.mem_append, List.mem_flatMap]
    rcases h with h | ⟨x, hx, h⟩
    · exact .inl (.inl ⟨q, h, rfl⟩)
    · by_cases hdeclared : q.id ∈ e.declared.map Param.id
      · exact .inr (.inl hdeclared)
      · rcases ih x hx h with h | h
        · exact .inl (.inr ⟨hdeclared, x, hx, h⟩)
        · exact .inr (.inr ⟨x, hx, h⟩)

theorem fed_after_call {m : Method} {r : Option Expr} {args : List Expr} {before : List UInt32}
    {source : Expr} {p : Param} (hfree : ∀ id ∈ (call m r args).free, id ∈ before)
    (h : (source, p) ∈ Call.fed ⟨m, r, args⟩) :
    ∃ l l', before ++ (call m r args).binders = l ++ p.id :: l' ∧
      ∀ q ∈ source.references, q.id ∈ l := by
  obtain ⟨d, hd, hfed⟩ := mem_fed.mp h
  obtain ⟨-, hsource, selector, l, hselector, hl, hp⟩ := Feed.at?_eq_some.mp hfed
  dsimp only at hsource hselector
  obtain ⟨hlt, rfl⟩ := List.getElem?_eq_some_iff.mp hselector
  obtain ⟨hlt', rfl⟩ := List.getElem?_eq_some_iff.mp hp
  have hearlier : source ∈ args.take d.selector :=
    List.mem_of_getElem? (i := d.source) (by
      rw [List.getElem?_take_of_lt (source_lt_selector d hd)]
      exact hsource)
  have hargs : args.flatMap binders = (args.take d.selector).flatMap binders ++
      (args[d.selector].binders ++ (args.drop (d.selector + 1)).flatMap binders) := by
    rw [← List.flatMap_cons, ← List.drop_eq_getElem_cons hlt, ← List.flatMap_append,
      List.take_append_drop]
  have hparams : l.params.map Param.id = (l.params.take d.param).map Param.id ++
      (l.params[d.param].id :: (l.params.drop (d.param + 1)).map Param.id) := by
    rw [← List.map_cons, ← List.drop_eq_getElem_cons hlt', ← List.map_append, List.take_append_drop]
  refine ⟨before ++ r.toList.flatMap binders ++ (args.take d.selector).flatMap binders ++
    (l.params.take d.param).map Param.id, (l.params.drop (d.param + 1)).map Param.id ++
      l.body.binders ++ (args.drop (d.selector + 1)).flatMap binders, ?_, fun q hq => ?_⟩
  · simp only [binders_call, hargs, binders_of_lambda hl, hparams, List.append_assoc,
      List.cons_append]
  · have hmem : source ∈ args := List.mem_of_mem_take hearlier
    rcases free_or_declared hq with hid | hid
    · have : q.id ∈ before := hfree _ (mem_free.mpr (.inr ⟨by simp [declared], source,
        by simp [parts, hmem], hid⟩))
      simp [this]
    · have : q.id ∈ (args.take d.selector).flatMap binders :=
        List.mem_flatMap.mpr ⟨source, hearlier, hid⟩
      simp only [List.mem_append]
      exact .inl (.inr this)

/-- What is put in the place of a parameter refers to what is declared before the parameter. -/
theorem fed_after {before : List UInt32} {source : Expr} {p : Param}
    (hfree : ∀ id ∈ e.free, id ∈ before) (h : (source, p) ∈ e.fed) :
    ∃ l l', before ++ e.binders = l ++ p.id :: l' ∧ ∀ q ∈ source.references, q.id ∈ l := by
  induction e using induction_parts generalizing before with
  | _ e ih =>
    rw [fed_eq, List.mem_append, List.mem_flatMap, List.mem_flatMap] at h
    rcases h with ⟨c, hc, h⟩ | ⟨x, hx, h⟩
    · cases e with
      | call m r args =>
        obtain rfl : c = ⟨m, r, args⟩ := by simpa [call?] using hc
        exact fed_after_call hfree h
      | _ => cases hc
    · -- what the node declares and the parts before this one come first
      obtain ⟨left, right, hparts⟩ := List.append_of_mem hx
      have hfree' : ∀ id ∈ x.free,
          id ∈ before ++ e.declared.map Param.id ++ left.flatMap binders := by
        intro id hid
        simp only [List.mem_append]
        by_cases hdeclared : id ∈ e.declared.map Param.id
        · exact .inl (.inr hdeclared)
        · exact .inl (.inl (hfree id (mem_free.mpr (.inr ⟨hdeclared, x, hx, hid⟩))))
      obtain ⟨l, l', hsplit, hreferences⟩ := ih x hx hfree' h
      refine ⟨l, l' ++ right.flatMap binders, ?_, hreferences⟩
      rw [binders_eq e, hparts, List.flatMap_append, List.flatMap_cons, ← List.cons_append,
        ← List.append_assoc l, ← hsplit]
      simp only [List.append_assoc]

/-- **A parameter weighs what is put in its place.** -/
theorem cost_le_weights (hclosed : e.Closed) (hdistinct : e.binders.Nodup) {source : Expr}
    {p : Param} (h : (source, p) ∈ e.fed) : source.cost e.weights ≤ e.weights p.id := by
  have hfree : ∀ id ∈ e.free, id ∈ ([] : List UInt32) := by simp [show e.free = [] from hclosed]
  obtain ⟨l, l', hsplit, hreferences⟩ := fed_after hfree h
  rw [List.nil_append] at hsplit
  rw [hsplit] at hdistinct
  obtain ⟨-, hright, hdisjoint⟩ := List.nodup_append.mp hdistinct
  -- the weights when it is the turn of the parameter
  let earlier : UInt32 → Nat := l.foldl (settleWeight e.fed) fun _ => 0
  have hweights : e.weights = l'.foldl (settleWeight e.fed) (settleWeight e.fed earlier p.id) := by
    rw [Expr.weights, hsplit, List.foldl_append, List.foldl_cons]
  have hparam : e.weights p.id = supplied e.fed earlier p.id := by
    rw [hweights, foldl_settleWeight (List.nodup_cons.mp hright).1]
    exact Function.update_self _ _ _
  have hsource : source.cost e.weights = source.cost earlier := by
    refine cost_congr fun q hq => ?_
    rw [hweights, ← List.foldl_cons]
    exact foldl_settleWeight fun hmem => hdisjoint q.id (hreferences q hq) q.id hmem rfl
  rw [hsource, hparam]
  exact le_supplied h

/-! ### What a tree demands -/

theorem nodes_length (e : Expr) : e.nodes.length = e.size := by
  induction e using induction_parts with
  | _ e ih =>
    rw [nodes_eq, List.length_cons, List.length_flatMap, List.map_congr_left ih, size_eq_sum]
    omega

theorem mem_nodes_of_fed {source : Expr} {p : Param} (h : (source, p) ∈ e.fed) : source ∈ e.nodes := by
  obtain ⟨c, hc, h⟩ := List.mem_flatMap.mp h
  obtain ⟨n, hn, hcall⟩ := List.mem_filterMap.mp hc
  obtain ⟨d, -, hfed⟩ := mem_fed.mp h
  obtain ⟨-, hsource, -⟩ := Feed.at?_eq_some.mp hfed
  cases n with
  | call m r args =>
    cases hcall
    exact nodes_trans hn (mem_nodes_of_mem_parts (by simp [parts, List.mem_of_getElem? hsource]))
  | _ => cases hcall

/-- A parameter that is given a weight adds it once for each reference. -/
theorem cost_update (w : UInt32 → Nat) (id : UInt32) (n : Nat) (e : Expr) :
    e.cost (Function.update w id n) ≤ e.cost w + (e.references.map Param.id).count id * n := by
  unfold cost references
  induction e.nodes with
  | nil => simp
  | cons x ns ih =>
    cases x with
    | param p =>
      by_cases hp : p.id = id
      · simp only [List.map_cons, List.sum_cons, charge, List.filterMap_cons, param?, hp,
          Function.update_self, List.count_cons_self, Nat.add_mul]
        omega
      · simp only [List.map_cons, List.sum_cons, charge, List.filterMap_cons, param?,
          Function.update_of_ne hp, List.count_cons_of_ne hp]
        omega
    | _ =>
      simp only [List.map_cons, List.sum_cons, charge, List.filterMap_cons, param?]
      omega

theorem cost_settleWeight (w : UInt32 → Nat) (id : UInt32) (e : Expr) :
    e.cost (settleWeight e.fed w id) ≤ e.cost w * Nat.pow 2 ((e.references.map Param.id).count id) := by
  have hsupplied : supplied e.fed w id ≤ e.cost w :=
    supplied_le fun f hf => cost_le_of_mem (mem_nodes_of_fed hf)
  generalize hn : (e.references.map Param.id).count id = n
  calc e.cost (settleWeight e.fed w id)
      ≤ e.cost w + n * supplied e.fed w id := hn ▸ cost_update w id _ e
    _ ≤ e.cost w + n * e.cost w := Nat.add_le_add_left (Nat.mul_le_mul_left n hsupplied) _
    _ = e.cost w * (n + 1) := by rw [Nat.mul_add, Nat.mul_comm, Nat.mul_one, Nat.add_comm]
    _ ≤ e.cost w * Nat.pow 2 n := Nat.mul_le_mul_left _ Nat.lt_two_pow_self

theorem cost_foldl (e : Expr) : ∀ (ids : List UInt32) (w : UInt32 → Nat),
    e.cost (ids.foldl (settleWeight e.fed) w) ≤
      e.cost w * Nat.pow 2 (ids.map fun id => (e.references.map Param.id).count id).sum
  | [], w => by simp
  | id :: ids, w => by
    have hrest := cost_foldl e ids (settleWeight e.fed w id)
    have hfirst := cost_settleWeight w id e
    rw [List.foldl_cons, List.map_cons, List.sum_cons]
    refine Nat.le_trans hrest (Nat.le_trans (Nat.mul_le_mul_right _ hfirst) ?_)
    rw [Nat.mul_assoc]
    exact Nat.mul_le_mul_left _ (Nat.le_of_eq (Nat.pow_add 2 _ _).symm)

theorem sum_count_le {ids : List UInt32} (hids : ids.Nodup) (refs : List UInt32) :
    (ids.map fun id => refs.count id).sum ≤ refs.length := by
  induction refs with
  | nil => simp
  | cons r refs ih =>
    have hcons (ids : List UInt32) : (ids.map fun id => (r :: refs).count id).sum =
        (ids.map fun id => refs.count id).sum + ids.count r := by
      induction ids with
      | nil => rfl
      | cons id ids ih =>
        rw [List.map_cons, List.sum_cons, ih, List.map_cons, List.sum_cons]
        by_cases hid : id = r
        · subst hid
          rw [List.count_cons_self, List.count_cons_self]
          omega
        · rw [List.count_cons_of_ne (Ne.symm hid), List.count_cons_of_ne hid]
          omega
    have honce := List.nodup_iff_count.mp hids r
    rw [hcons, List.length_cons]
    omega

/-- A node costs by itself at most one, or is a reference. -/
theorem cost_zero_le (e : Expr) : e.cost (fun _ => 0) + e.references.length ≤ e.size := by
  rw [← nodes_length]
  unfold cost references
  induction e.nodes with
  | nil => simp
  | cons x ns ih =>
    cases x with
    | call m r args =>
      simp only [List.map_cons, List.sum_cons, charge, List.filterMap_cons, param?,
        List.length_cons]
      split <;> omega
    | _ =>
      simp only [List.map_cons, List.sum_cons, charge, List.filterMap_cons, param?,
        List.length_cons]
      omega

/-- **What a tree demands is below its budget.** Each reference at most doubles the cost. -/
theorem demand_lt_budget (hdistinct : e.binders.Nodup) : e.demand < e.budget := by
  have hrefs := sum_count_le hdistinct (e.references.map Param.id)
  rw [List.length_map] at hrefs
  have hsize := cost_zero_le e
  calc e.demand
      ≤ e.cost (fun _ => 0) *
          Nat.pow 2 (e.binders.map fun id => (e.references.map Param.id).count id).sum :=
        cost_foldl e e.binders _
    _ < Nat.pow 2 (e.cost fun _ => 0) *
          Nat.pow 2 (e.binders.map fun id => (e.references.map Param.id).count id).sum :=
        Nat.mul_lt_mul_of_pos_right Nat.lt_two_pow_self (Nat.pow_pos (by decide))
    _ = Nat.pow 2 ((e.cost fun _ => 0) +
          (e.binders.map fun id => (e.references.map Param.id).count id).sum) :=
        (Nat.pow_add 2 _ _).symm
    _ ≤ e.budget := Nat.pow_le_pow_right (by decide) (by omega)

end Weights

end QueryNormal
