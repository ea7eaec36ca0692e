import QueryNormal.Proofs.Preservation

/-!
# Placeholders of normal forms

* `Expr.placeholders`: the placeholders of a tree, from left to right.
* `hintedModes`: the mode that each hint asks for.
* `Expr.hinted`: the same placeholders, each with what the outermost hint around it asks for.
* `SamePlaceholders`: a tree has the placeholders of another, in the modes asked for there.
* `ReducesBy.samePlaceholders`, `Runs.samePlaceholders`: what one layer of the operator pass keeps,
  rule by rule, and so the pass.
* `placeholders_normalize`: a normal form has the placeholders of the expression, grouped joins
  apart.

What a hint asks for is passed down the tree, and what a rule makes of the parts of a call is known
for the parts alone. So two trees are compared under every hint that may stand around both.
-/

namespace QueryNormal

/-- The placeholder in the mode asked for, or as it is. -/
def Placeholder.inMode (p : Placeholder) (asked : Option Mode) : Placeholder :=
  { p with mode := asked.getD p.mode }

/-- The mode that each hint asks for. -/
def hintedModes : List (Signature × Mode) :=
  [(Hint.constant, .constant), (Hint.parameter, .parameter),
    (Hint.multipleParameters, .multipleParameters)]

theorem lookup_hintedModes (m : Method) : hintedModes.lookup m.signature = Mode.hinted? m := by
  have his (s : Signature) : (m.signature == s) = m.is s := rfl
  simp only [hintedModes, List.lookup_cons, List.lookup_nil, his, Mode.hinted?]
  cases m.is Hint.constant <;> cases m.is Hint.parameter <;>
    cases m.is Hint.multipleParameters <;> rfl

namespace Expr

/-- The placeholder that the expression is. -/
def placeholder? : Expr → Option Placeholder
  | .placeholder p => some p
  | _ => none

/-- The placeholders of the tree, from left to right. -/
def placeholders (e : Expr) : List Placeholder := e.nodes.filterMap placeholder?

/-- The mode that the expression asks for, if it is a hint. -/
def hint? : Expr → Option Mode
  | .call m _ _ => hintedModes.lookup m.signature
  | _ => none

mutual
/-- The placeholders of the tree, from left to right, each with the mode that the outermost hint
around it asks for. `asked` is what a hint around the tree asks for. -/
def hinted (asked : Option Mode) : Expr → List (Placeholder × Option Mode)
  | .call m receiver args =>
      hintedOption (asked.or (hintedModes.lookup m.signature)) receiver ++
        hintedList (asked.or (hintedModes.lookup m.signature)) args
  | .lambda _ body => body.hinted asked
  | .quote inner => inner.hinted asked
  | .param _ => []
  | .member target _ => hintedOption asked target
  | .binary _ lhs rhs => lhs.hinted asked ++ rhs.hinted asked
  | .unary _ operand => operand.hinted asked
  | .const _ _ => []
  | .new _ args _ => hintedList asked args
  | .newWith _ args _ bindings => hintedList asked args ++ hintedBindings asked bindings
  | .cond test whenTrue whenFalse =>
      test.hinted asked ++ (whenTrue.hinted asked ++ whenFalse.hinted asked)
  | .placeholder p => [(p, asked)]

/-- The placeholders of a receiver or a target. -/
def hintedOption (asked : Option Mode) : Option Expr → List (Placeholder × Option Mode)
  | none => []
  | some e => e.hinted asked

/-- The placeholders of a list of trees. -/
def hintedList (asked : Option Mode) : List Expr → List (Placeholder × Option Mode)
  | [] => []
  | e :: es => e.hinted asked ++ hintedList asked es

/-- The placeholders in bindings. -/
def hintedBindings (asked : Option Mode) : List Binding → List (Placeholder × Option Mode)
  | [] => []
  | .assign _ value :: bs => value.hinted asked ++ hintedBindings asked bs
  | .items _ values :: bs => hintedList asked values ++ hintedBindings asked bs
end

/-- The placeholders of the tree in the modes that hints ask for. -/
def marked (asked : Option Mode) (e : Expr) : List Placeholder :=
  (e.hinted asked).map fun h => h.1.inMode h.2

/-! ## Nodes -/

section Nodes

variable {e x : Expr} {asked : Option Mode}

theorem hintedOption_eq (asked : Option Mode) (r : Option Expr) :
    hintedOption asked r = r.toList.flatMap (hinted asked) := by
  cases r <;> simp [hintedOption]

theorem hintedList_eq (asked : Option Mode) : ∀ es : List Expr,
    hintedList asked es = es.flatMap (hinted asked)
  | [] => rfl
  | e :: es => by rw [hintedList, hintedList_eq asked es, List.flatMap_cons]

theorem hintedBindings_eq (asked : Option Mode) : ∀ bs : List Binding,
    hintedBindings asked bs = (bs.flatMap Binding.values).flatMap (hinted asked)
  | [] => rfl
  | .assign _ value :: bs => by
    simp [hintedBindings, hintedBindings_eq asked bs, Binding.values]
  | .items _ values :: bs => by
    simp [hintedBindings, hintedBindings_eq asked bs, hintedList_eq, Binding.values]

theorem hinted_eq (asked : Option Mode) (e : Expr) :
    e.hinted asked = e.placeholder?.toList.map (·, asked) ++
      e.parts.flatMap (hinted (asked.or e.hint?)) := by
  cases e <;>
    simp [hinted, placeholder?, hint?, parts, hintedOption_eq, hintedList_eq, hintedBindings_eq]

@[simp] theorem hint?_call {m : Method} {r : Option Expr} {args : List Expr} :
    (call m r args).hint? = Mode.hinted? m :=
  lookup_hintedModes m

theorem placeholders_eq (e : Expr) :
    e.placeholders = e.placeholder?.toList ++ e.parts.flatMap placeholders := by
  have hparts : (e.parts.flatMap nodes).filterMap placeholder? = e.parts.flatMap placeholders :=
    List.filterMap_flatMap
  rw [placeholders, nodes_eq, List.filterMap_cons, hparts]
  cases e.placeholder? <;> rfl

/-- Each placeholder is listed once. -/
theorem hinted_fst (asked : Option Mode) (e : Expr) :
    (e.hinted asked).map Prod.fst = e.placeholders := by
  induction e using induction_parts generalizing asked with
  | _ e ih =>
    rw [hinted_eq, placeholders_eq, List.map_append, List.map_flatMap, List.map_map]
    congr 1
    · exact List.map_id _
    · exact List.flatMap_congr fun x hx => ih x hx _

theorem marked_eq (asked : Option Mode) (e : Expr) :
    e.marked asked = e.placeholder?.toList.map (·.inMode asked) ++
      e.parts.flatMap (marked (asked.or e.hint?)) := by
  rw [marked, hinted_eq, List.map_append, List.map_flatMap, List.map_map]
  rfl

@[simp] theorem placeholders_call {m : Method} {r : Option Expr} {args : List Expr} :
    (call m r args).placeholders =
      r.toList.flatMap placeholders ++ args.flatMap placeholders := by
  simp [placeholders_eq (call m r args), placeholder?, parts]

@[simp] theorem placeholders_quote : (quote e).placeholders = e.placeholders := by
  simp [placeholders_eq (quote e), placeholder?, parts]

@[simp] theorem placeholders_lambda {params : List Param} {body : Expr} :
    (lambda params body).placeholders = body.placeholders := by
  simp [placeholders_eq (lambda params body), placeholder?, parts]

@[simp] theorem placeholders_unary {op : UnOp} : (unary op e).placeholders = e.placeholders := by
  simp [placeholders_eq (unary op e), placeholder?, parts]

theorem marked_call {m : Method} {r : Option Expr} {args : List Expr} :
    (call m r args).marked asked =
      r.toList.flatMap (marked (asked.or (Mode.hinted? m))) ++
        args.flatMap (marked (asked.or (Mode.hinted? m))) := by
  simp [marked_eq asked (call m r args), placeholder?, parts]

/-- A node that is neither a placeholder nor a hint has the placeholders of its parts. -/
theorem marked_of_parts (hself : e.placeholder? = none) (hhint : e.hint? = none) :
    e.marked asked = e.parts.flatMap (marked asked) := by
  rw [marked_eq, hself, hhint, Option.or_none]
  rfl

theorem marked_binary {op : BinOp} {lhs rhs : Expr} :
    (binary op lhs rhs).marked asked = lhs.marked asked ++ rhs.marked asked := by
  rw [marked_of_parts rfl rfl]
  simp [parts]

theorem marked_of_lambda {l : Lambda} (h : e.lambda? = some l) :
    e.marked asked = l.body.marked asked := by
  refine induction_lambda (P := fun e => e.marked asked = l.body.marked asked) h ?_ ?_
  · rw [marked_of_parts rfl rfl]
    simp [Lambda.toExpr, parts]
  · intro x hx
    rw [marked_of_parts rfl rfl]
    simpa [parts] using hx

theorem marked_of_counted (h : countedSource? e = some x) : e.marked asked = x.marked asked := by
  rcases counted_iff.mp h with ⟨_, rfl, -⟩ | rfl <;>
    rw [marked_of_parts rfl rfl] <;> simp [parts]

end Nodes

end Expr

open QueryNormal.Expr

/-! ## Rewrites -/

section Rewrites

variable {e x : Expr}

@[simp] theorem placeholders_quoteLambda : (quoteLambda e).placeholders = e.placeholders := by
  unfold quoteLambda
  split
  · exact placeholders_quote
  · rfl

@[simp] theorem placeholders_asQueryable {element : Ty} :
    (asQueryable e element).placeholders = e.placeholders := by
  simp [asQueryable, Expr.apply]

theorem placeholders_underConversions (e : Expr) :
    (underConversions e).placeholders = e.placeholders := by
  fun_induction underConversions e with
  | case1 operand type htype ih | case3 operand type htype ih => rw [ih, placeholders_unary]
  | _ => rfl

theorem placeholders_uncopied (element : Option Ty) (he : e.EveryCall Call.Ungrouped) :
    (uncopied e element).1.placeholders = e.placeholders := by
  rcases uncopied_cases element he with h | ⟨m, source, -, rfl, h⟩ <;> rw [h]
  simp

theorem placeholders_queryArgument (fallback : Option Ty) (he : e.EveryCall Call.Ungrouped) :
    (queryArgument e fallback).placeholders = e.placeholders := by
  have hsource := placeholders_uncopied (e.ty.element?.or fallback) he
  rcases queryArgument_eq e fallback with h | ⟨element, h⟩ <;> rw [h]
  · exact hsource
  · rw [placeholders_asQueryable, placeholders_underConversions, hsource]

theorem placeholders_of_counterpart {m m' : Method} {args args' : List Expr}
    (h : Counterpart m args m' args') (hargs : ∀ a ∈ args, a.EveryCall Call.Ungrouped) :
    args'.flatMap placeholders = args.flatMap placeholders := by
  obtain ⟨passed, hpassed, rfl⟩ := h.args
  clear h
  induction hpassed with
  | nil => rfl
  | cons hx _ ih =>
    rw [List.forall_mem_cons] at hargs
    rw [List.map_cons, List.flatMap_cons, List.flatMap_cons, ih hargs.2, placeholders_quoteLambda]
    congr 1
    cases hx with
    | same => rfl
    | converted => exact placeholders_queryArgument _ hargs.1

theorem placeholders_elementRead {element : Ty} {raw source position : Expr}
    (hsource : source.EveryCall Call.Ungrouped) :
    (elementRead element raw source position).placeholders =
      source.placeholders ++ position.placeholders := by
  unfold elementRead
  split
  · simp [Expr.apply]
  · simp [Expr.apply, placeholders_queryArgument _ hsource]

theorem placeholders_nonEmptyTest {element : Ty} {raw source : Expr}
    (hsource : source.EveryCall Call.Ungrouped) :
    (nonEmptyTest element raw source).placeholders = source.placeholders := by
  unfold nonEmptyTest
  split
  · simp [Expr.apply]
  · simp [Expr.apply, placeholders_queryArgument _ hsource]

theorem placeholders_contains (element : Ty) (raw collection item : Expr) :
    (contains element raw collection item).placeholders =
      collection.placeholders ++ item.placeholders := by
  unfold contains
  split <;> simp [Expr.apply]

theorem placeholders_reselected (selector : Expr) (params : List Param) (body : Expr) :
    (reselected selector ⟨params, body⟩).placeholders = body.placeholders := by
  unfold reselected
  split
  · exact placeholders_quote.trans placeholders_lambda
  · exact placeholders_lambda

end Rewrites

/-! ## What annotations drop -/

section Annotations

variable {m : Method} {a : Option Expr}

theorem const_of_readString {text : String} (h : Note.readString m a = .ok text) :
    ∃ value type, a = some (.const value type) := by
  unfold Note.readString at h
  split at h
  · exact ⟨_, _, rfl⟩
  · cases h
  · cases h

theorem const_of_readInt {number : Int} (h : Note.readInt m a = .ok number) :
    ∃ value type, a = some (.const value type) := by
  unfold Note.readInt at h
  split at h
  · exact ⟨_, _, rfl⟩
  · cases h
  · cases h

theorem const_of_readStrings {texts : List String} (h : Note.readStrings m a = .ok texts) :
    ∃ value type, a = some (.const value type) := by
  unfold Note.readStrings at h
  split at h
  · exact ⟨_, _, rfl⟩
  · exact ⟨_, _, rfl⟩
  · cases h
  · cases h

/-- An annotation with as many arguments as it takes reads all of them but its source, and so they
are constants. -/
theorem const_of_effect {n : Note} {effect : Effect} {rest : List Expr}
    (hlen : rest.length + 1 = n.signature.params.length) (h : n.effect m rest = .ok effect) :
    ∀ x ∈ rest, ∃ value type, x = .const value type := by
  cases n with
  | tagWith =>
    obtain ⟨x, rfl⟩ := List.length_eq_one_iff.mp (Nat.succ.inj hlen)
    obtain ⟨text, htext, -⟩ := bind_eq_ok.mp h
    obtain ⟨value, type, hx⟩ := const_of_readString htext
    simpa using ⟨value, type, Option.some.inj hx⟩
  | tagWithCallSite =>
    obtain ⟨x, y, rfl⟩ := List.length_eq_two.mp (Nat.succ.inj hlen)
    obtain ⟨file, hfile, h⟩ := bind_eq_ok.mp h
    obtain ⟨line, hline, -⟩ := bind_eq_ok.mp h
    obtain ⟨value, type, hx⟩ := const_of_readString hfile
    obtain ⟨value', type', hy⟩ := const_of_readInt hline
    simpa using And.intro ⟨value, type, Option.some.inj hx⟩ ⟨value', type', Option.some.inj hy⟩
  | ignoreNamedQueryFilters =>
    obtain ⟨x, rfl⟩ := List.length_eq_one_iff.mp (Nat.succ.inj hlen)
    obtain ⟨names, hnames, -⟩ := bind_eq_ok.mp h
    obtain ⟨value, type, hx⟩ := const_of_readStrings hnames
    simpa using ⟨value, type, Option.some.inj hx⟩
  | _ =>
    obtain rfl : rest = [] := List.eq_nil_of_length_eq_zero (Nat.succ.inj hlen)
    simp

theorem marked_noted {r : Option Expr} {source : Expr} {rest : List Expr} {n : Note}
    {effect : Effect} {asked : Option Mode} (hnote : Note.of? m = some n)
    (hproper : Call.Proper ⟨m, r, source :: rest⟩) (h : n.effect m rest = .ok effect) :
    (Expr.call m r (source :: rest)).marked asked = source.marked asked := by
  have hfamily := Note.family_of_of? hnote
  obtain rfl : r = none := hproper.receiver_eq_none (by simp [hfamily])
  have hlen : rest.length + 1 = n.signature.params.length := by
    rw [← Note.signature_of_of? hnote]
    exact hproper.args
  have hrest : rest.flatMap (marked asked) = [] := by
    rw [List.flatMap_eq_nil_iff]
    intro x hx
    obtain ⟨value, type, rfl⟩ := const_of_effect hlen h x hx
    rfl
  have hhint : Mode.hinted? m = none := by
    refine hint_eq_none fun s hs => ?_
    rw [hfamily]
    exact ((by decide : ∀ s ∈ Hint.all, Family.metadata ≠ s.family) s hs)
  simp [marked_call, hhint, hrest]

end Annotations

/-! ## One layer -/

/-- The second tree has the placeholders of the first, each in the mode that hints ask for in the
first, whatever a hint around both asks for. -/
def SamePlaceholders (e e' : Expr) : Prop :=
  ∀ asked, e.marked asked = e'.placeholders.map (·.inMode asked)

section Layer

variable {provider : Provider} {e e' x y : Expr} {c : Call} {s t : ReductionState}

theorem SamePlaceholders.of_eq (h : SamePlaceholders e x) (hx : e'.placeholders = x.placeholders) :
    SamePlaceholders e e' := fun asked => by rw [h asked, hx]

theorem flatMap_marked {xs ys : List Expr} (h : List.Forall₂ SamePlaceholders xs ys)
    (asked : Option Mode) :
    xs.flatMap (marked asked) = (ys.flatMap placeholders).map (·.inMode asked) := by
  induction h with
  | nil => rfl
  | cons hxy _ ih => simp only [List.flatMap_cons, List.map_append, hxy asked, ih]

/-- A node that is no hint, with the same placeholders in its parts. -/
theorem samePlaceholders_of_parts (hhint : e.hint? = none)
    (hself : e'.placeholder? = e.placeholder?)
    (hparts : List.Forall₂ SamePlaceholders e.parts e'.parts) : SamePlaceholders e e' := by
  intro asked
  rw [marked_eq, placeholders_eq, hhint, Option.or_none, hself, List.map_append,
    flatMap_marked hparts]

theorem WalksBy.samePlaceholders {σ : Type} {s t : σ}
    (h : WalksBy (fun x _ y _ => SamePlaceholders x y) e s e' t) (hhint : e.hint? = none) :
    SamePlaceholders e e' := by
  refine samePlaceholders_of_parts hhint ?_ (h.forall₂ fun h => h)
  cases h <;> rfl

/-- A run on a part that keeps its placeholders. -/
structure PlaceholdersKept (provider : Provider) (x : Expr) (s : ReductionState) (y : Expr)
    (t : ReductionState) : Prop where
  run : Runs provider x s y t
  same : x.EveryCall Call.Ungrouped → SamePlaceholders x y

theorem PlaceholdersKept.improved (h : PlaceholdersKept provider x s y t) :
    Improved False Call.Ungrouped Call.Ungrouped x y :=
  (h.run.improved established_ungrouped).mono False.elim

theorem samePlaceholders_of_walk (h : WalksBy (PlaceholdersKept provider) e s e' t)
    (hhint : e.hint? = none) (he : e.EveryCall Call.Ungrouped) : SamePlaceholders e e' := by
  have hsame : WalksBy (fun x (_ : ReductionState) y _ => SamePlaceholders x y) e s e' t :=
    h.mono_mem fun x hx _ _ _ hkept => hkept.same (he.part hx)
  exact hsame.samePlaceholders hhint

theorem VisitsBy.samePlaceholders (h : VisitsBy (PlaceholdersKept provider) e s c t)
    (he : e.EveryCall Call.Ungrouped) : SamePlaceholders e c.toExpr := by
  cases h with
  | walked hrule _ hr hargs =>
    cases ruleCase hrule with
    | other _ hhint => exact samePlaceholders_of_walk (.call hr hargs) (hint?_call.trans hhint) he
  | @converted m m' r args args' args'' _ _ hrule _ hargs hfound =>
    cases ruleCase hrule with
    | inMemory _ hhint _ hfamily =>
      have hcalls := everyCall_call.mp he
      obtain rfl : r = none := hcalls.1.proper.receiver_eq_none (by simp [hfamily])
      -- the call with visited arguments, which is not built, stands between the two
      have hwalk : WalksBy (PlaceholdersKept provider) (.call m none args) s (.call m none args') t :=
        .call .none hargs
      have hargs' : ∀ a ∈ args', a.EveryCall Call.Ungrouped := by
        intro a' ha'
        obtain ⟨a, ha, himproved⟩ :=
          exists_of_forall₂ (hargs.forall₂ PlaceholdersKept.improved) ha'
        exact himproved.everyCall (hcalls.2.2 a ha)
      refine (samePlaceholders_of_walk hwalk (hint?_call.trans hhint) he).of_eq ?_
      simp [Call.toExpr, placeholders_of_counterpart (toQueryable_eq_some hfound) hargs']

theorem hint_of_isPlain (h : e.isPlain = true) : e.hint? = none := by
  cases e with
  | call => cases h
  | _ => rfl

/-- A grouped join is not among the visited arguments, so the call is not flattened. -/
theorem SettlesBy.placeholders_eq (h : SettlesBy (PlaceholdersKept provider) c s e' t)
    (hargs : ∀ a ∈ c.args, a.EveryCall Call.Ungrouped)
    (hreceiver : c.method.family = .queryable → c.receiver = none) :
    e'.placeholders = c.toExpr.placeholders := by
  have hnone : Flattening.of? c = none := flattening_eq_none fun a ha =>
    not_isGroupJoin_of_everyCall ((hargs a ha).mono fun _ hc => hc.not_groupJoin)
  cases h with
  | same => rfl
  | @ordered ordering element rest source hord _ hsource =>
    obtain ⟨m, r, args⟩ := c
    obtain rfl : args = [source] := hsource
    have hfamily : m.family = .queryable := by
      rcases keyedOrdering_cases hord with ⟨hm, -⟩ | ⟨hm, -⟩ <;> exact congrArg Signature.family hm
    obtain rfl : r = none := hreceiver hfamily
    have hkey (p : Param) : (Lambda.identity p).quoted.placeholders = [] := rfl
    simp [Call.toExpr, Expr.apply, hkey]
  | pairs hflat | members hflat =>
    rw [hnone] at hflat
    cases hflat

theorem samePlaceholders_of_hint {m : Method} {r : Option Expr} {argument : Expr}
    {rest : List Expr} {mode : Mode} {p : Placeholder} (hhint : Mode.hinted? m = some mode)
    (hproper : Call.Proper ⟨m, r, argument :: rest⟩)
    (h : SamePlaceholders argument (.placeholder p)) :
    SamePlaceholders (.call m r (argument :: rest)) (.placeholder { p with mode }) := by
  obtain ⟨rfl, rfl⟩ := eq_single_of_hinted hhint hproper
  intro asked
  -- a hint around this one wins over it, and it wins over the mode of the placeholder
  have hmode : p.inMode (asked.or (some mode)) = Placeholder.inMode { p with mode } asked := by
    cases asked <;> rfl
  calc
    (Expr.call m none [argument]).marked asked
    _ = argument.marked (asked.or (some mode)) := by simp [marked_call, hhint]
    _ = [p.inMode (asked.or (some mode))] := h _
    _ = [Placeholder.inMode { p with mode } asked] := by rw [hmode]

/-- What one layer of the operator pass keeps. -/
theorem ReducesBy.samePlaceholders
    (h : ReducesBy provider (PlaceholdersKept provider) (PlaceholdersKept provider) e s e' t)
    (he : e.EveryCall Call.Ungrouped) : SamePlaceholders e e' := by
  cases h with
  | node hplain hwalk => exact samePlaceholders_of_walk hwalk (hint_of_isPlain hplain) he
  | binary _ hl hr => exact samePlaceholders_of_walk (.binary hl hr) rfl he
  | elementAt _ hl hr =>
    rw [everyCall_binary] at he
    intro asked
    rw [marked_binary, hl.same he.1, hr.same he.2,
      placeholders_elementRead (hl.improved.everyCall he.1), List.map_append]
  | nonEmpty hsugar hcounted hsource =>
    rw [everyCall_binary] at he
    have hcalls := he.1.part (mem_parts_of_counted hcounted).1
    cases sugarCase hsugar with
    | nonEmpty _ hrhs =>
      -- what is dropped is the zero, a constant
      subst hrhs
      intro asked
      rw [marked_binary, marked_of_counted hcounted, hsource.same hcalls,
        placeholders_nonEmptyTest (hsource.improved.everyCall hcalls)]
      exact List.append_nil _
  | note hrule heffect hsource =>
    cases ruleCase hrule with
    | note hnote =>
      intro asked
      rw [marked_noted hnote (everyCall_call.mp he).1.proper heffect]
      exact hsource.same (he.part (by simp [parts])) asked
  | hint hrule _ hargument =>
    cases ruleCase hrule with
    | hint _ hhint =>
      exact samePlaceholders_of_hint hhint (everyCall_call.mp he).1.proper
        (hargument.same (he.part (by simp [parts])))
  | @index m target target' position position' element _ _ _ hrule htarget hposition =>
    cases ruleCase hrule with
    | index _ hhint =>
      have ht : target.EveryCall Call.Ungrouped := he.part (by simp [parts])
      refine (samePlaceholders_of_walk (.call (.some htarget) (.cons hposition .nil))
        (hint?_call.trans hhint) he).of_eq ?_
      simp [placeholders_elementRead (htarget.improved.everyCall ht)]
  | kept hrule _ hwalk =>
    cases ruleCase hrule with
    | inMemory _ hhint => exact samePlaceholders_of_walk hwalk (hint?_call.trans hhint) he
  | member hrule _ hwalk =>
    cases ruleCase hrule with
    | membership _ hhint => exact samePlaceholders_of_walk hwalk (hint?_call.trans hhint) he
  | unmatched hrule _ hargs _ hr =>
    cases ruleCase hrule with
    | inMemory _ hhint _ hfamily =>
      -- a receiver would be visited after the arguments, but there is none
      obtain rfl := (everyCall_call.mp he).1.proper.receiver_eq_none (by simp [hfamily])
      cases hr
      exact samePlaceholders_of_walk (.call .none hargs) (hint?_call.trans hhint) he
  | @contains m c c' item item' _ _ _ _ hrule _ hcollection hitem =>
    cases ruleCase hrule with
    | membership _ hhint =>
      refine (samePlaceholders_of_walk (.call (.some hcollection) (.cons hitem .nil))
        (hint?_call.trans hhint) he).of_eq ?_
      simp [placeholders_contains]
  | @loading m r source source' selector body body' _ _ _ _ hrule hlambda hsource hbody =>
    cases ruleCase hrule with
    | loading _ hhint _ _ _ hloading =>
      rw [everyCall_call] at he
      obtain rfl : r = none :=
        he.1.proper.receiver_eq_none (by simp [family_of_loadsOrdered hloading])
      have hselector : body.EveryCall Call.Ungrouped :=
        (everyCall_of_lambda hlambda).mp (he.2.2 selector (by simp))
      intro asked
      simp [marked_call, hhint, marked_of_lambda hlambda, placeholders_reselected,
        hsource.same (he.2.2 source (by simp)) asked, hbody.same hselector asked]
  | settle hvisit hsettle =>
    exact (hvisit.samePlaceholders he).of_eq
      (hsettle.placeholders_eq (hvisit.everyCall PlaceholdersKept.improved established_ungrouped he)
        (hvisit.receiver_eq_none he))

/-- **What the operator pass keeps.** -/
theorem Runs.samePlaceholders (h : Runs provider e s e' t) :
    e.EveryCall Call.Ungrouped → SamePlaceholders e e' := by
  refine Runs.induction_run (P := fun x _ y _ => x.EveryCall Call.Ungrouped → SamePlaceholders x y)
    ?_ h
  intro x x' s t hlayer
  have hkept : ReducesBy provider (PlaceholdersKept provider) (PlaceholdersKept provider) x s x' t :=
    hlayer.mono (fun _ _ _ _ _ hrun => ⟨hrun.1, hrun.2⟩) fun _ _ _ _ hrun => ⟨hrun.1, hrun.2⟩
  exact hkept.samePlaceholders

end Layer

/-- **Normalization keeps placeholders.** A tree of proper calls, none of them of an operator named
like the grouped join, and its normal form have the same placeholders from left to right. In the
normal form each is in the mode that the outermost hint around it asks for, or in its own if there is
no hint around it. -/
theorem placeholders_normalize {provider : Provider} {context context' : Context} {e e' : Expr}
    (hproper : ∀ c ∈ e.calls, c.Proper) (hname : ∀ c ∈ e.calls, c.method.name ≠ "GroupJoin")
    (h : normalize provider context e = (.ok e', context')) :
    (e.hinted none).map Prod.fst = e.placeholders ∧
      e'.placeholders = (e.hinted none).map fun hint => hint.1.inMode hint.2 := by
  have he : e.EveryCall Call.Ungrouped := fun c hc => ⟨hproper c hc, hname c hc⟩
  obtain ⟨middle, t, hrun, _, hfinish⟩ := runs_of_normalize h
  have hmiddle : middle.EveryCall Call.Ungrouped :=
    (hrun.improved established_ungrouped).everyCall he
  rw [finish_eq_self (hmiddle.mono fun _ hc => hc.not_groupJoin)] at hfinish
  cases hfinish
  exact ⟨hinted_fst none e, ((hrun.samePlaceholders he none).trans (List.map_id _)).symm⟩

/-! ## Hints inside hints -/

/-- The ids to look for, supplied when the query runs. -/
def wantedIds : Placeholder := .ofName "ids" (.seq .array .int)

/-- The id that is asked for, supplied when the query runs. -/
def askedId : Placeholder := .ofName "id" .int

/-- More ids to look for, supplied when the query runs. -/
def moreIds : Placeholder := .ofName "more" (.seq .array .int)

/-- The id that is asked for among more ids, in a mode of its own. -/
def otherId : Placeholder := ⟨"other", .int, .parameter, true⟩

/-- Whether an id is among the ids and another among more ids. Each of the hints is the outermost one
around a placeholder, and around the ids there is an annotation between two hints. -/
def asksForIds : Expr :=
  let ids : Ty := .seq .array .int
  .both
    (.apply Domain.memory.contains [.int]
      [.apply Enumerable.toList [.int]
        [.apply Hint.parameter [ids]
          [.apply Metadata.tagWith [.int]
            [.apply Hint.multipleParameters [ids] [.placeholder wantedIds],
              .const (.string "ids") .string]]],
        .apply Hint.constant [.int] [.apply Hint.parameter [.int] [.placeholder askedId]]])
    (.apply Domain.memory.contains [.int]
      [.apply Hint.multipleParameters [ids] [.apply Hint.constant [ids] [.placeholder moreIds]],
        .placeholder otherId])

/-- Whether an id is among the ids and another among more ids, by queries. -/
def asksByQueries : Expr :=
  .both
    (.apply Queryable.contains [.int]
      [asQueryable (.placeholder { wantedIds with mode := .parameter }) .int,
        .placeholder { askedId with mode := .constant }])
    (.apply Queryable.contains [.int]
      [asQueryable (.placeholder { moreIds with mode := .multipleParameters }) .int,
        .placeholder otherId])

theorem placeholders_normalize_asksForIds :
    (∀ c ∈ asksForIds.calls, c.Proper) ∧ (∀ c ∈ asksForIds.calls, c.method.name ≠ "GroupJoin") ∧
      normalize ⟨true⟩ default asksForIds =
        (.ok asksByQueries, (default : Context).tagged "ids") ∧
      asksForIds.hinted none = [(wantedIds, some .parameter), (askedId, some .constant),
        (moreIds, some .multipleParameters), (otherId, none)] ∧
      asksForIds.placeholders = [wantedIds, askedId, moreIds, otherId] ∧
      asksByQueries.placeholders = [{ wantedIds with mode := .parameter },
        { askedId with mode := .constant }, { moreIds with mode := .multipleParameters }, otherId] :=
  have hproper : ∀ c ∈ asksForIds.calls, c.Proper := by decide
  have hname : ∀ c ∈ asksForIds.calls, c.method.name ≠ "GroupJoin" := by decide
  have hnormal : normalize ⟨true⟩ default asksForIds =
    (.ok asksByQueries, (default : Context).tagged "ids") := rfl
  have hkept := placeholders_normalize hproper hname hnormal
  ⟨hproper, hname, hnormal, rfl, hkept.1.symm, hkept.2⟩

end QueryNormal
