import QueryNormal.Proofs.InMemory
import QueryNormal.Proofs.Preservation
import QueryNormal.Proofs.Shorthand

/-!
# Static types of normal forms

* `Ty.Agrees`: a type is changed at most in the kind of the sequence or in the type of the function
  that it is.
* `overloads_agree`: operators of the table that can stand for each other have agreeing results.
* `Call.TypedAsDeclared`: a call has the types that its rule takes for granted.
* `ReducesBy.agrees`: what one layer of the operator pass keeps, rule by rule.
* `ty_normalize`: the type of a normal form agrees with the type of the tree, grouped joins apart.
-/

namespace QueryNormal

open QueryNormal.Expr

/-! ## Types that agree -/

namespace Ty

/-- Whether the type is that of a function, plain or passed as data. -/
def isFunction : Ty → Bool
  | .func _ _ | .quoted _ => true
  | _ => false

/-- The second type is a sequence of the same elements, or neither is a sequence. What is neither a
sequence nor a function is the same type. -/
structure Agrees (t t' : Ty) : Prop where
  element : t'.element? = t.element?
  same : t.element? = none → t.isFunction = false → t' = t

theorem Agrees.refl (t : Ty) : t.Agrees t := ⟨rfl, fun _ _ => rfl⟩

theorem Agrees.of_eq {t t' : Ty} (h : t' = t) : t.Agrees t' := h ▸ .refl t

theorem Agrees.trans {t t' t'' : Ty} (h : t.Agrees t') (h' : t'.Agrees t'') : t.Agrees t'' := by
  refine ⟨h'.element.trans h.element, fun hnone hfunction => ?_⟩
  have hsame := h.same hnone hfunction
  subst hsame
  exact h'.same hnone hfunction

theorem Agrees.of_element {t t' a : Ty} (h : t.element? = some a) (h' : t'.element? = some a) :
    t.Agrees t' := by
  refine ⟨h'.trans h.symm, fun hnone => ?_⟩
  rw [h] at hnone
  cases hnone

/-- Functions agree. -/
theorem Agrees.of_function {t t' : Ty} (h : t.isFunction = true) (h' : t'.isFunction = true) :
    t.Agrees t' := by
  have hnone {u : Ty} (hu : u.isFunction = true) : u.element? = none := by
    cases u with
    | func | quoted => rfl
    | _ => cases hu
  refine ⟨(hnone h').trans (hnone h).symm, fun _ hfunction => ?_⟩
  rw [h] at hfunction
  cases hfunction

/-! ## Slot by slot -/

/-- Whether the types are equal or sequences of equal elements, slot by slot. -/
def agreesBySlot : Ty → Ty → Bool
  | .seq _ a, .seq _ b => a = b
  | t, t' => t = t'

theorem Agrees.instantiate {t t' : Ty} (h : t.agreesBySlot t' = true) (as : List Ty) :
    (t.instantiate as).Agrees (t'.instantiate as) := by
  unfold agreesBySlot at h
  split at h
  · rw [of_decide_eq_true h]
    exact .of_element rfl rfl
  · rw [of_decide_eq_true h]
    exact .refl _

/-- Whether the types differ whatever the slots are filled with. -/
def apart : Ty → Ty → Bool
  | .scalar s, .scalar t => s ≠ t
  | .seq k a, .seq l b => k ≠ l || a.apart b
  | .func _ a, .func _ b => a.apart b
  | .func _ _, .quoted _ => true
  | .quoted a, .quoted b => a.apart b
  | _, _ => false

theorem instantiate_ne (as : List Ty) : ∀ {a b : Ty}, a.apart b = true →
    a.instantiate as ≠ b.instantiate as := by
  intro a b
  fun_induction apart a b with
  | case1 s t =>
    intro h
    simpa [instantiate] using h
  | case2 k a l b ih =>
    intro h heq
    simp only [instantiate, seq.injEq] at heq
    simp only [Bool.or_eq_true, decide_eq_true_eq] at h
    rcases h with h | h
    · exact h heq.1
    · exact ih h heq.2
  | case3 _ a _ b ih =>
    intro h heq
    simp only [instantiate, func.injEq] at heq
    exact ih h heq.2
  | case4 =>
    intro _ heq
    simp [instantiate] at heq
  | case5 a b ih =>
    intro h heq
    simp only [instantiate, quoted.injEq] at heq
    exact ih h heq
  | case6 =>
    intro h
    cases h

theorem not_slot_of_apart {a b : Ty} (h : a.apart b = true) :
    (∀ i, a ≠ .slot i) ∧ ∀ i, b ≠ .slot i := by
  unfold apart at h
  split at h
  all_goals simp at h ⊢

theorem element?_instantiate {t : Ty} (h : ∀ i, t ≠ .slot i) (as : List Ty) :
    (t.instantiate as).element? = t.element?.map (instantiate as) := by
  cases t with
  | slot i => exact absurd rfl (h i)
  | _ => rfl

theorem delegate?_instantiate {t : Ty} (h : ∀ i, t ≠ .slot i) (as : List Ty) :
    (t.instantiate as).delegate? = t.delegate?.map (instantiate as) := by
  cases t with
  | slot i => exact absurd rfl (h i)
  | _ => rfl

end Ty

/-! ## Operators of the table -/

theorem element_of_convertible {p q : Ty} (h : convertible p q = true) :
    ∃ a, p.element? = some a ∧ q.element? = some a := by
  unfold convertible at h
  split at h
  · exact ⟨_, rfl, by rw [of_decide_eq_true h]; rfl⟩
  · exact ⟨_, rfl, by rw [of_decide_eq_true h]; rfl⟩
  · cases h

/-- Whether an argument for a parameter of type `p` can be passed for one of type `q` however the
slots are filled: it never can. -/
def neverFits (p q : Ty) : Bool :=
  p.apart q && q.delegate?.all (fun d => p.apart d) &&
    p.element?.all fun a => q.element?.all fun b => a.apart b

theorem not_fits_instantiate {p q : Ty} (h : neverFits p q = true) (as : List Ty) :
    fits (p.instantiate as) (q.instantiate as) = false := by
  simp only [neverFits, Bool.and_eq_true, Option.all_eq_true] at h
  obtain ⟨⟨hapart, hdelegate⟩, helement⟩ := h
  obtain ⟨hp, hq⟩ := Ty.not_slot_of_apart hapart
  refine Bool.eq_false_iff.mpr fun hfits => ?_
  simp only [fits, Bool.or_eq_true, decide_eq_true_eq] at hfits
  rcases hfits with (hsame | hquoted) | hconvertible
  · exact Ty.instantiate_ne as hapart hsame
  · rw [Ty.delegate?_instantiate hq, Option.map_eq_some_iff] at hquoted
    obtain ⟨d, hd, hsame⟩ := hquoted
    exact Ty.instantiate_ne as (hdelegate d hd) hsame.symm
  · obtain ⟨c, hpc, hqc⟩ := element_of_convertible hconvertible
    rw [Ty.element?_instantiate hp, Option.map_eq_some_iff] at hpc
    rw [Ty.element?_instantiate hq, Option.map_eq_some_iff] at hqc
    obtain ⟨a, ha, hac⟩ := hpc
    obtain ⟨b, hb, hbc⟩ := hqc
    exact Ty.instantiate_ne as (helement a ha b hb) (hac.trans hbc.symm)

theorem fits_of_fitArguments : ∀ {ps qs : List Ty} {args args' : List Expr},
    args.length = ps.length → fitArguments ps qs args = .ok (some args') →
      ∀ pq ∈ ps.zip qs, fits pq.1 pq.2 = true
  | [], qs, args, args', _, _ => by simp
  | p :: ps, [], args, args', _, _ => by simp
  | p :: ps, q :: qs, [], args', hlen, _ => by simp at hlen
  | p :: ps, q :: qs, a :: args, args', hlen, h => by
    obtain ⟨x, rest, hx, hrest, rfl⟩ := exists_of_fitArguments_cons h
    have hhead : fits p q = true := by rw [← isSome_passedAs p q a, hx]; rfl
    have htail := fits_of_fitArguments (by simpa using hlen) hrest
    simpa using ⟨hhead, fun a b hab => htail (a, b) hab⟩

/-- If the arguments are passed, each parameter fits, with the slots filled first with what is inferred
from the operator and then with its type arguments. -/
theorem fits_of_passed {m : Method} {s : Signature} {slots : List Ty} {args passed : List Expr}
    (hargs : args.length = m.signature.params.length)
    (hbelow : ∀ q ∈ s.params, q.slotsBelow slots.length = true)
    (h : fitArguments m.params (⟨s, slots.map (Ty.instantiate m.typeArgs)⟩ : Method).params args =
      .ok (some passed)) {pq : Ty × Ty}
    (hpq : pq ∈ m.signature.params.zip (s.params.map (Ty.instantiate slots))) :
    fits (pq.1.instantiate m.typeArgs) (pq.2.instantiate m.typeArgs) = true := by
  have hlen : args.length = m.params.length := by rw [hargs, Method.params, List.length_map]
  refine fits_of_fitArguments hlen h (pq.1.instantiate m.typeArgs, pq.2.instantiate m.typeArgs) ?_
  rw [params_instantiate hbelow, Method.params, List.zip_map]
  exact List.mem_map.mpr ⟨pq, hpq, rfl⟩

/-- **Counterparts have agreeing results.** An operator on queries with the name and the number of
parameters of an in-memory operator has an agreeing result, slot by slot, or one of its parameters
never fits. -/
theorem overloads_agree : ∀ s ∈ Enumerable.all, ∀ s' ∈ Queryable.all, s'.name = s.name →
    s'.params.length = s.params.length →
    s'.typeParams = 0 ∨ s'.typeParams = s.counterpartSlots.length →
      s'.typeParams = s.counterpartSlots.length ∧ s'.result.slotsBelow s'.typeParams = true ∧
        (∀ p ∈ s'.params, p.slotsBelow s'.typeParams = true) ∧
        (s.result.agreesBySlot (s'.result.instantiate s.counterpartSlots) = true ∨
          ∃ pq ∈ s.params.zip (s'.params.map (Ty.instantiate s.counterpartSlots)),
            neverFits pq.1 pq.2 = true) := by
  decide +kernel

theorem mem_queryable_of_mem_table : ∀ s ∈ Table.all, s.family = .queryable → s ∈ Queryable.all := by
  decide +kernel

/-- A signature with type arguments is a method with these, or there are none to give. -/
theorem Signature.at?_cases {s : Signature} {typeArgs : List Ty} {m : Method}
    (h : s.at? typeArgs = some m) :
    s.typeParams = 0 ∧ m = ⟨s, []⟩ ∨ s.typeParams = typeArgs.length ∧ m = ⟨s, typeArgs⟩ := by
  unfold Signature.at? Signature.isGeneric at h
  split at h
  · rename_i hzero
    cases h
    exact .inl ⟨by simpa using hzero, rfl⟩
  · split at h
    · rename_i hlen
      cases h
      exact .inr ⟨hlen, rfl⟩
    · cases h

/-- The result of a counterpart agrees with the result of the operator, for all type arguments. -/
theorem agrees_of_toQueryable {m m' : Method} {args args' : List Expr}
    (hmem : m.signature ∈ Enumerable.all) (htypes : m.typeArgs.length = m.signature.typeParams)
    (hargs : args.length = m.signature.params.length)
    (h : toQueryable m args = .ok (some (m', args'))) : m.result.Agrees m'.result := by
  unfold toQueryable at h
  rw [hargs, counterpartTypeArgs_eq htypes] at h
  obtain ⟨s, hs, hat, passed, hfit, -⟩ := firstFit_eq_some h
  simp only [Table.overloads, List.mem_filter, decide_eq_true_eq] at hs
  obtain ⟨htable, hfamily, hname, hcount⟩ := hs
  rw [Method.params, List.length_map] at hcount
  let slots := m.signature.counterpartSlots
  have hgiven : s.typeParams = 0 ∨ s.typeParams = slots.length := by
    rcases Signature.at?_cases hat with ⟨hzero, -⟩ | ⟨hlen, -⟩
    · exact .inl hzero
    · exact .inr (hlen.trans (List.length_map _))
  obtain ⟨hslots, hresult, hparams, hagree⟩ := overloads_agree _ hmem s
    (mem_queryable_of_mem_table s htable hfamily) hname hcount hgiven
  obtain rfl : m' = ⟨s, slots.map (Ty.instantiate m.typeArgs)⟩ := by
    rcases Signature.at?_cases hat with ⟨hzero, hm'⟩ | ⟨-, hm'⟩
    · have hnil : slots = [] := List.eq_nil_of_length_eq_zero (hslots.symm.trans hzero)
      rw [hm', hnil]
      rfl
    · exact hm'
  rw [hslots] at hresult hparams
  rcases hagree with hagree | ⟨pq, hpq, hnever⟩
  · have hagrees := Ty.Agrees.instantiate hagree m.typeArgs
    rwa [Ty.instantiate_instantiate _ _ _ hresult] at hagrees
  · have hfits := fits_of_passed hargs hparams hfit hpq
    rw [not_fits_instantiate hnever] at hfits
    cases hfits

/-! ## Typed calls -/

/-- The call has the types that its rule takes for granted: the source of an annotation is a sequence
of the type argument, the type argument of a hint is the type of its argument, reading a list gives
an element of it, and asking a collection for an item gives a truth value. -/
structure Call.TypedAsDeclared (c : Call) : Prop where
  note : (Note.of? c.method).isSome →
    (c.args.head?.bind fun source => source.ty.element?) = c.method.typeArgs.head?
  hint : (Mode.hinted? c.method).isSome → c.args.head?.map Expr.ty = c.method.typeArgs.head?
  index : ∀ element ∈ indexedElement? c.method c.receiver c.args, c.method.result = element
  membership : (membershipElement? c.method).isSome → c.method.result = .bool

instance (c : Call) : Decidable c.TypedAsDeclared :=
  decidable_of_iff
    (((Note.of? c.method).isSome →
        (c.args.head?.bind fun source => source.ty.element?) = c.method.typeArgs.head?) ∧
      ((Mode.hinted? c.method).isSome → c.args.head?.map Expr.ty = c.method.typeArgs.head?) ∧
      (∀ element ∈ indexedElement? c.method c.receiver c.args, c.method.result = element) ∧
      ((membershipElement? c.method).isSome → c.method.result = .bool))
    ⟨fun h => ⟨h.1, h.2.1, h.2.2.1, h.2.2.2⟩, fun h => ⟨h.note, h.hint, h.index, h.membership⟩⟩

/-- What static types are kept for: a proper call, not of an operator named like the grouped join,
of an operator of the table if it is in memory, and typed as declared. -/
structure Call.Typed (c : Call) : Prop where
  ungrouped : c.Ungrouped
  tabled : c.Tabled
  declared : c.TypedAsDeclared

section Types

variable {provider : Provider} {e e' : Expr} {c : Call} {s t : ReductionState}

/-- A run on a part that keeps its type, if the calls are typed. -/
structure TypeKept (provider : Provider) (x : Expr) (s : ReductionState) (y : Expr)
    (t : ReductionState) : Prop where
  run : Runs provider x s y t
  agrees : x.EveryCall Call.Typed → x.ty.Agrees y.ty

theorem TypeKept.improved {x y : Expr} (h : TypeKept provider x s y t) :
    Improved False Call.Ungrouped Call.Ungrouped x y :=
  (h.run.improved established_ungrouped).mono False.elim

theorem agrees_of_walk (h : WalksBy (TypeKept provider) e s e' t) (he : e.EveryCall Call.Typed)
    (hplain : ∀ op lhs rhs, e ≠ .binary op lhs rhs) : e.ty.Agrees e'.ty := by
  have hagrees : WalksBy (fun x (_ : ReductionState) y _ => x.ty.Agrees y.ty) e s e' t :=
    h.mono_mem fun x hx _ _ _ hkept => hkept.agrees (he.part hx)
  cases hagrees with
  | lambda | quote => exact .of_function rfl rfl
  | binary => exact absurd rfl (hplain _ _ _)
  | @unary op x x' _ _ hx =>
    cases op with
    | not | negate => exact hx
    | _ => exact .refl _
  | cond _ ha _ => exact ha
  | _ => exact .refl _

theorem agrees_binary {op : BinOp} {lhs lhs' rhs rhs' : Expr} (hsugar : Sugar.of? op lhs rhs = none)
    (hl : lhs.ty.Agrees lhs'.ty) (hr : rhs.ty.Agrees rhs'.ty) :
    (binary op lhs rhs).ty.Agrees (binary op lhs' rhs').ty := by
  cases op with
  | arrayIndex =>
    -- neither is what is indexed a sequence, nor does it become one
    have hnone : lhs.ty.element? = none := by simpa [Sugar.of?] using hsugar
    refine .of_eq ?_
    simp only [Expr.ty, BinOp.yieldsBool, hl.element, hnone]
  | coalesce => exact hr
  | add | subtract | multiply | divide | modulo => exact hl
  | _ => exact .refl _

/-! ## Rule by rule -/

theorem agrees_of_note {m : Method} {r : Option Expr} {source source' : Expr} {rest : List Expr}
    {n : Note} (hnote : Note.of? m = some n) (hc : Call.Typed ⟨m, r, source :: rest⟩)
    (hsource : source.ty.Agrees source'.ty) :
    (call m r (source :: rest)).ty.Agrees source'.ty := by
  have hsignature := Note.signature_of_of? hnote
  have hone : m.typeArgs.length = 1 := by
    have htypes := hc.ungrouped.proper.typeArgs
    rw [hsignature] at htypes
    cases n <;> exact htypes
  obtain ⟨element, htypeArgs⟩ := List.length_eq_one_iff.mp hone
  have hresult : (call m r (source :: rest)).ty = .queryable element := by
    rw [Expr.ty, Method.result, hsignature, htypeArgs]
    cases n <;> rfl
  have hdeclared : source.ty.element? = some element := by
    have hargument := hc.declared.note (by simp [hnote])
    rwa [htypeArgs] at hargument
  rw [hresult]
  exact .of_element rfl (hsource.element.trans hdeclared)

theorem agrees_of_hint {m : Method} {r : Option Expr} {argument : Expr} {rest : List Expr}
    {mode : Mode} {p : Placeholder} (hhint : Mode.hinted? m = some mode)
    (hc : Call.Typed ⟨m, r, argument :: rest⟩) (hargument : argument.ty.Agrees p.ty) :
    (call m r (argument :: rest)).ty.Agrees p.ty := by
  have hshape : ∀ s ∈ Hint.all, s.result = .slot 0 := by decide
  have hdeclared : some argument.ty = m.typeArgs.head? := hc.declared.hint (by simp [hhint])
  obtain ⟨rest', htypeArgs⟩ := List.head?_eq_some_iff.mp hdeclared.symm
  have hresult : (call m r (argument :: rest)).ty = argument.ty := by
    rw [Expr.ty, Method.result, hshape _ (mem_hints_of_hinted hhint), htypeArgs]
    rfl
  rw [hresult]
  exact hargument

theorem agrees_of_loading {m : Method} (hmem : m.signature ∈ Metadata.loading)
    (htypes : m.typeArgs.length = m.signature.typeParams) (navigation : Ty) :
    m.result.Agrees (reloaded m navigation).result := by
  have hshape : ∀ s ∈ Metadata.loading, 2 ≤ s.typeParams ∧
      (∃ p ∈ [Ty.slot 1, .slot 2], s.result = .includable (.slot 0) p) := by decide
  obtain ⟨htwo, p, -, hresult⟩ := hshape _ hmem
  rw [← htypes] at htwo
  have hroot (typeArgs : List Ty) : (m.withTypeArgs typeArgs).result.element? =
      some (typeArgs.getD 0 (.slot 0)) := by
    rw [Method.result, Method.withTypeArgs, hresult]
    rfl
  unfold reloaded
  split
  · -- the last type argument is not the first
    obtain ⟨root, next, rest, htypeArgs⟩ : ∃ root next rest, m.typeArgs = root :: next :: rest := by
      rcases htypeArgs : m.typeArgs with _ | ⟨root, _ | ⟨next, rest⟩⟩
      · simp [htypeArgs] at htwo
      · simp [htypeArgs] at htwo
      · exact ⟨root, next, rest, rfl⟩
    refine .of_element (a := root) ?_ ?_
    · exact (hroot m.typeArgs).trans (by rw [htypeArgs]; rfl)
    · rw [hroot, htypeArgs]
      rfl
  · exact .refl _

theorem VisitsBy.agrees {P : PartRun} (h : VisitsBy P e s c t) (he : e.EveryCall Call.Typed) :
    e.ty.Agrees c.toExpr.ty := by
  cases h with
  | walked => exact .refl _
  | @converted m m' r args args' _ _ _ hrule _ hargs hfound =>
    have hc := (everyCall_call.mp he).1
    cases ruleCase hrule with
    | inMemory _ _ _ hfamily =>
      exact agrees_of_toQueryable (mem_enumerable_of_mem_table _ (hc.tabled hfamily) hfamily)
        hc.ungrouped.proper.typeArgs (hargs.length_eq.trans hc.ungrouped.proper.args) hfound

theorem SettlesBy.agrees {A : PartRun} (h : SettlesBy A c s e' t) (hnone : Flattening.of? c = none) :
    c.toExpr.ty.Agrees e'.ty := by
  cases h with
  | same => exact .refl _
  | ordered hord htypes _ =>
    refine .of_eq ?_
    rw [Call.toExpr, Expr.ty, Method.result, htypes]
    rcases keyedOrdering_cases hord with ⟨hm, rfl⟩ | ⟨hm, rfl⟩ <;> rw [hm] <;> rfl
  | pairs hflat | members hflat =>
    rw [hnone] at hflat
    cases hflat

/-- **One layer of the operator pass** keeps static types. -/
theorem ReducesBy.agrees (h : ReducesBy provider (TypeKept provider) (TypeKept provider) e s e' t)
    (he : e.EveryCall Call.Typed) : e.ty.Agrees e'.ty := by
  have hpart {x y : Expr} {s t : ReductionState} (hx : x ∈ e.parts)
      (hkept : TypeKept provider x s y t) : x.ty.Agrees y.ty := hkept.agrees (he.part hx)
  cases h with
  | node hplain hwalk =>
    refine agrees_of_walk hwalk he ?_
    rintro op lhs rhs rfl
    cases hplain
  | binary hsugar hl hr =>
    exact agrees_binary hsugar (hpart (by simp [parts]) hl) (hpart (by simp [parts]) hr)
  | elementAt hsugar =>
    cases sugarCase hsugar with
    | elementAt helement =>
      refine .of_eq ?_
      simp [elementRead_ty, Expr.ty, BinOp.yieldsBool, helement]
  | nonEmpty hsugar =>
    refine .of_eq ?_
    have hbool (element : Ty) (raw source : Expr) : (nonEmptyTest element raw source).ty = .bool := by
      unfold nonEmptyTest
      split <;> rfl
    rw [hbool]
    cases sugarCase hsugar with
    | nonEmpty hop => rcases hop with rfl | rfl <;> rfl
  | note hrule _ hsource =>
    cases ruleCase hrule with
    | note hnote =>
      exact agrees_of_note hnote (everyCall_call.mp he).1 (hpart (by simp [parts]) hsource)
  | hint hrule _ hargument =>
    cases ruleCase hrule with
    | hint _ hhint =>
      exact agrees_of_hint hhint (everyCall_call.mp he).1 (hpart (by simp [parts]) hargument)
  | index hrule =>
    cases ruleCase hrule with
    | index _ _ hindex =>
      refine .of_eq ?_
      rw [elementRead_ty]
      exact ((everyCall_call.mp he).1.declared.index _ hindex).symm
  | kept _ _ hwalk | member _ _ hwalk =>
    refine agrees_of_walk hwalk he ?_
    rintro op lhs rhs ⟨⟩
  | unmatched => exact .refl _
  | contains hrule =>
    cases ruleCase hrule with
    | membership _ _ _ _ hmembership =>
      exact .of_eq ((everyCall_call.mp he).1.declared.membership (by simp [hmembership])).symm
  | loading hrule =>
    cases ruleCase hrule with
    | loading _ _ _ _ _ hloads =>
      exact agrees_of_loading (mem_loading_of_loadsOrdered hloads)
        (everyCall_call.mp he).1.ungrouped.proper.typeArgs _
  | settle hvisit hsettle =>
    -- a grouped join is not among the visited arguments, so that the call is not flattened
    have hargs := hvisit.everyCall TypeKept.improved established_ungrouped
      (he.mono fun _ hc => hc.ungrouped)
    have hnone := flattening_eq_none fun a ha =>
      not_isGroupJoin_of_everyCall ((hargs a ha).mono fun _ hc => hc.not_groupJoin)
    exact (hvisit.agrees he).trans (hsettle.agrees hnone)

/-- **The operator pass** keeps static types. -/
theorem Runs.agrees (h : Runs provider e s e' t) : e.EveryCall Call.Typed → e.ty.Agrees e'.ty := by
  refine Runs.induction_run (P := fun x _ y _ => x.EveryCall Call.Typed → x.ty.Agrees y.ty) ?_ h
  intro x x' s t hlayer
  have hkept : ReducesBy provider (TypeKept provider) (TypeKept provider) x s x' t :=
    hlayer.mono (fun _ _ _ _ _ hrun => ⟨hrun.1, hrun.2⟩) fun _ _ _ _ hrun => ⟨hrun.1, hrun.2⟩
  exact hkept.agrees

end Types

/-! ## Normal forms -/

/-- **Static types are kept.** A tree of proper calls that are typed as declared, none of them of an
operator named like the grouped join and the in-memory ones of operators of the table, and its normal
form are sequences of the same elements, or neither is a sequence; and what is neither a sequence nor
a function has a normal form of the same type. -/
theorem ty_normalize {provider : Provider} {context context' : Context} {e e' : Expr}
    (hproper : ∀ c ∈ e.calls, c.Proper) (hname : ∀ c ∈ e.calls, c.method.name ≠ "GroupJoin")
    (htabled : ∀ c ∈ e.calls, c.Tabled) (htyped : ∀ c ∈ e.calls, c.TypedAsDeclared)
    (h : normalize provider context e = (.ok e', context')) :
    e'.ty.element? = e.ty.element? ∧
      (e.ty.element? = none → e.ty.isFunction = false → e'.ty = e.ty) := by
  have he : e.EveryCall Call.Typed := fun c hc =>
    ⟨⟨hproper c hc, hname c hc⟩, htabled c hc, htyped c hc⟩
  have hungrouped : e.EveryCall Call.Ungrouped := he.mono fun _ hc => hc.ungrouped
  obtain ⟨middle, t, hrun, _, hfinish⟩ := runs_of_normalize h
  have hmiddle : middle.EveryCall Call.Ungrouped :=
    (hrun.improved established_ungrouped).everyCall hungrouped
  rw [finish_eq_self (hmiddle.mono fun _ hc => hc.not_groupJoin)] at hfinish
  cases hfinish
  have hagrees := hrun.agrees he
  exact ⟨hagrees.element, hagrees.same⟩

/-! ## A largest number -/

/-- The condition on a number `x` that makes use of a list of numbers `xs`. -/
def chosenFrom (condition : Expr → Expr → Expr) : Expr :=
  .lambda [⟨0, "x", .int⟩]
    (condition (.const (.reference "xs") (.seq .list .int)) (.param ⟨0, "x", .int⟩))

/-- The numbers of the database. -/
def storedNumbers : Expr := .const (.reference "DbSet<Number>()") (.queryable .int)

/-- The largest of the stored numbers that are in a list and less than the item at a position of it,
in memory: the query is annotated, and the position is hinted at. -/
def largestChosen : Expr :=
  let numbers : Ty := .seq .list .int
  let has (xs x : Expr) : Expr :=
    .call ⟨.onType numbers "Contains" [.int] .bool, []⟩ (some xs) [x]
  let item (xs : Expr) : Expr :=
    .call ⟨.onType numbers "get_Item" [.int] .int, []⟩ (some xs)
      [.apply Hint.parameter [.int] [.placeholder (.ofName "i" .int)]]
  .apply (Domain.memory.operator "Max" 0 [.enumerable .int] .int) []
    [.apply Domain.memory.filter [.int]
      [.apply Metadata.tagWith [.int] [storedNumbers, .const (.string "chosen") .string],
        chosenFrom fun xs x => .binary .and (has xs x) (.binary .less x (item xs))]]

/-- The largest of the stored numbers that are in a list and less than the item at a position of it,
by a query. -/
def largestChosenByQuery : Expr :=
  let has (xs x : Expr) : Expr := .apply Queryable.contains [.int] [asQueryable xs .int, x]
  let item (xs : Expr) : Expr :=
    .apply Domain.queries.elementAt [.int]
      [asQueryable xs .int, .placeholder ⟨"i", .int, .parameter, false⟩]
  .apply (Domain.queries.operator "Max" 1 [.queryable (.slot 0)] (.slot 0)) [.int]
    [.apply Queryable.filter [.int]
      [storedNumbers,
        .quote (chosenFrom fun xs x => .binary .and (has xs x) (.binary .less x (item xs)))]]

theorem ty_largestChosenByQuery :
    (∀ c ∈ largestChosen.calls, c.Proper) ∧ (∀ c ∈ largestChosen.calls, c.method.name ≠ "GroupJoin") ∧
      (∀ c ∈ largestChosen.calls, c.Tabled) ∧ (∀ c ∈ largestChosen.calls, c.TypedAsDeclared) ∧
      normalize ⟨false⟩ default largestChosen =
        (.ok largestChosenByQuery, (Effect.tag "chosen").apply default) ∧
      largestChosenByQuery.ty = largestChosen.ty :=
  have hproper : ∀ c ∈ largestChosen.calls, c.Proper := by decide
  have hname : ∀ c ∈ largestChosen.calls, c.method.name ≠ "GroupJoin" := by decide
  have htabled : ∀ c ∈ largestChosen.calls, c.Tabled := by decide +kernel
  have htyped : ∀ c ∈ largestChosen.calls, c.TypedAsDeclared := by decide +kernel
  have hnormal : normalize ⟨false⟩ default largestChosen =
      (.ok largestChosenByQuery, (Effect.tag "chosen").apply default) := rfl
  ⟨hproper, hname, htabled, htyped, hnormal,
    (ty_normalize hproper hname htabled htyped hnormal).2 rfl rfl⟩

end QueryNormal
