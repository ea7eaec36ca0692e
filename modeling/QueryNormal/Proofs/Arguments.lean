import QueryNormal.Proofs.Overloads

/-!
# Arguments of counterparts

* `Ty.Admits`: a type is that of a sequence that a declared parameter asks for.
* `Fitted`: how an argument of an operator on queries fits its parameter, given the argument of the
  in-memory operator.
* `elementAs_queryArgument`, `elementAs_of_ordered`: what a sequence passed as a query can be used as.
* `fitted_of_toQueryable`: a sequence is passed as a query of its elements. Its order is lost unless
  it was an ordered query already, and a copy into a list that is given no type argument is passed as
  what it copies.

The conversion looks at element types only, and the parameter may ask for more.
-/

namespace QueryNormal

/-! ## What parameters ask for -/

/-- The type is that of a sequence that the declared parameter asks for, with its slots filled. A
parameter that is no sequence asks for nothing. -/
def Ty.Admits (as : List Ty) (declared type : Ty) : Prop :=
  match declared with
  | .seq .enumerable t => type.elementAs? .enumerable = some (t.instantiate as)
  | .seq .orderedEnumerable t =>
      type.elementAs? .orderedEnumerable = some (t.instantiate as) ∨
        type.elementAs? .orderedQueryable = some (t.instantiate as)
  | .seq .queryable t => type.elementAs? .queryable = some (t.instantiate as)
  | .seq .orderedQueryable t => type.elementAs? .orderedQueryable = some (t.instantiate as)
  | _ => True

/-- What is copied by a copy into a list that is given no type argument. -/
def bareCopy? : Expr → Option Expr
  | .call m _ (source :: _) =>
      if m.is Enumerable.toList ∧ m.typeArgs = [] then some source else none
  | _ => none

/-- How the argument `a'` fits the parameter that an operator on queries declares, if it is passed in
place of the argument `a` of the in-memory operator. -/
structure Fitted (as : List Ty) (declared : Ty) (a a' : Expr) : Prop where
  source : ∀ t, declared = .queryable t →
    (declared.Admits as a'.ty ↔ ∀ copied ∈ bareCopy? a, declared.Admits as copied.ty)
  copied : ∀ t, declared = .queryable t → ∀ copied ∈ bareCopy? a, a' = quoteLambda copied
  ordered : ∀ t, declared = .orderedQueryable t → (Ty.queryable t).Admits as a'.ty ∧
    (declared.Admits as a'.ty ↔ declared.Admits as a.ty)
  other : (∀ t, declared ≠ .queryable t) → (∀ t, declared ≠ .orderedQueryable t) →
    a' = quoteLambda a

/-! ## Passing a sequence as a query -/

section Passing

variable {a x : Expr} {element : Ty} {c : Capability} {fallback : Option Ty}

@[simp] theorem elementAs_quoteLambda : (quoteLambda a).ty.elementAs? c = a.ty.elementAs? c := by
  unfold quoteLambda
  split <;> rfl

/-- A sequence whose element type is known is passed as a query of its elements. -/
theorem elementAs_of_uncopied (h : uncopied a (a.ty.element?.or fallback) = (x, some element)) :
    (queryArgument a fallback).ty.elementAs? .queryable = some element := by
  unfold queryArgument
  rw [h]
  dsimp only
  split
  · assumption
  · rfl

/-- A copy into a list that is given a type argument has elements of that type. -/
theorem element_of_toList {m : Method} {r : Option Expr} {args : List Expr} {rest : List Ty}
    {first : Ty} (hm : m.is Enumerable.toList = true) (htypes : m.typeArgs = first :: rest) :
    (Expr.call m r args).ty.element? = some first := by
  obtain ⟨s, typeArgs⟩ := m
  obtain rfl : s = Enumerable.toList := of_decide_eq_true hm
  obtain rfl : typeArgs = first :: rest := htypes
  rfl

/-- No element type is known for a copy that is given none, and what was copied is passed. -/
theorem queryArgument_of_bareCopy (fallback : Option Ty) (h : bareCopy? a = some x) :
    queryArgument a fallback = x := by
  have hx : uncopied a (a.ty.element?.or fallback) = (x, none) := by
    unfold bareCopy? at h
    split at h
    · split at h
      · rename_i hm
        cases h
        simp [uncopied, hm.1, hm.2]
      · cases h
    · cases h
  unfold queryArgument
  rw [hx]

theorem elementAs_queryArgument (fallback : Option Ty) (h : a.ty.element? = some element) :
    (queryArgument a fallback).ty.elementAs? .queryable = some element ↔
      ∀ copied ∈ bareCopy? a, copied.ty.elementAs? .queryable = some element := by
  rcases hcopy : bareCopy? a with _ | copied
  · -- the element type that is looked for is that of the argument
    obtain ⟨x, hx⟩ : ∃ x, uncopied a (a.ty.element?.or fallback) = (x, some element) := by
      rw [h, Option.some_or]
      unfold uncopied
      split
      · rename_i m r source rest
        split
        · rename_i hm
          rcases htypes : m.typeArgs with _ | ⟨first, others⟩
          · simp [bareCopy?, hm, htypes] at hcopy
          · rw [element_of_toList hm htypes] at h
            exact ⟨source, by rw [List.head?_cons, h]⟩
        · exact ⟨_, rfl⟩
      · exact ⟨_, rfl⟩
    simp [elementAs_of_uncopied hx]
  · simp [queryArgument_of_bareCopy fallback hcopy]

theorem eq_orderedEnumerable {t : Ty} (h : t.elementAs? .orderedEnumerable = some element) :
    t = .orderedEnumerable element := by
  cases t with
  | seq kind e => cases kind <;> simp_all [Ty.elementAs?, SeqKind.has]
  | _ => simp [Ty.elementAs?] at h

theorem eq_orderedQueryable {t : Ty} (h : t.elementAs? .orderedQueryable = some element) :
    t = .orderedQueryable element := by
  cases t with
  | seq kind e => cases kind <;> simp_all [Ty.elementAs?, SeqKind.has]
  | _ => simp [Ty.elementAs?] at h

/-- An ordered sequence is no copy into a list. -/
theorem uncopied_of_ordered {known : Option Ty}
    (h : a.ty = .orderedEnumerable element ∨ a.ty = .orderedQueryable element) :
    uncopied a known = (a, known) := by
  unfold uncopied
  split
  · rename_i m r source rest
    split
    · rename_i hm
      obtain ⟨s, typeArgs⟩ := m
      obtain rfl : s = Enumerable.toList := of_decide_eq_true hm
      rcases h with h | h <;> cases h
    · rfl
  · rfl

/-- An ordered sequence is passed as a query of its elements, and as an ordered one exactly if it is an
ordered query. -/
theorem elementAs_of_ordered (fallback : Option Ty)
    (h : a.ty.elementAs? .orderedEnumerable = some element ∨
      a.ty.elementAs? .orderedQueryable = some element) :
    (queryArgument a fallback).ty.elementAs? .queryable = some element ∧
      ((queryArgument a fallback).ty.elementAs? .orderedQueryable = some element ↔
        a.ty.elementAs? .orderedQueryable = some element) := by
  have hty : a.ty = .orderedEnumerable element ∨ a.ty = .orderedQueryable element :=
    h.imp eq_orderedEnumerable eq_orderedQueryable
  have helement : a.ty.element? = some element := by
    rcases hty with hty | hty <;> rw [hty] <;> rfl
  have hx : uncopied a (a.ty.element?.or fallback) = (a, some element) := by
    rw [uncopied_of_ordered hty, helement, Option.some_or]
  refine ⟨elementAs_of_uncopied hx, ?_⟩
  unfold queryArgument
  rw [hx]
  -- an ordered sequence in memory is wrapped, and an ordered query is kept
  rcases hty with hty | hty
  · have hplain : a.ty.elementAs? .queryable ≠ some element := by
      rw [hty]
      exact (Option.some_ne_none _).symm
    dsimp only
    rw [if_neg hplain, hty]
    exact iff_of_false (Option.some_ne_none _).symm (Option.some_ne_none _).symm
  · have hquery : a.ty.elementAs? .queryable = some element := by
      rw [hty]
      rfl
    dsimp only
    rw [if_pos hquery]

end Passing

/-! ## Parameters of counterparts -/

/-- No in-memory operator of the table declares a query as a parameter, and none is inferred from it as
a type argument. -/
theorem queries_not_declared : ∀ s ∈ Enumerable.all,
    ∀ t ∈ s.params ++ s.counterpartSlots,
      t.isSeqOf .queryable = false ∧ t.isSeqOf .orderedQueryable = false := by
  decide +kernel

/-- An operator that only in-memory sequences have has no candidate, and the comparison of two
sequences has one that stands for it. -/
theorem inMemoryOnly_decided : ∀ s ∈ Enumerable.all, s.name ∈ inMemoryOnly →
    ∀ candidate ∈ s.candidates, s.standsForBySlot candidate = true := by
  decide +kernel

section Parameters

variable {as slots : List Ty} {p q : Ty} {a x : Expr}

/-- A parameter that is a sequence with the slots filled declares one, unless a slot is filled with
one. -/
theorem seq_of_instantiate {kind : SeqKind} {element : Ty}
    (hslots : ∀ t ∈ slots, t.isSeqOf kind = false) (h : q.instantiate slots = .seq kind element) :
    ∃ t, q = .seq kind t ∧ t.instantiate slots = element := by
  cases q with
  | seq k t =>
    cases h
    exact ⟨t, rfl, rfl⟩
  | slot i =>
    rw [Ty.instantiate, List.getD_eq_getElem?_getD] at h
    rcases hi : slots[i]? with _ | t <;> rw [hi] at h <;> cases h
    have hnot := hslots _ (List.mem_of_getElem? hi)
    simp [Ty.isSeqOf] at hnot
  | _ => cases h

/-- An argument that is passed as it is. -/
theorem fitted_same (hquery : ∀ t, q ≠ .queryable t) (hordered : ∀ t, q ≠ .orderedQueryable t) :
    Fitted as q a (quoteLambda a) where
  source t ht := absurd ht (hquery t)
  copied t ht := absurd ht (hquery t)
  ordered t ht := absurd ht (hordered t)
  other _ _ := rfl

/-- What is passed for a query in place of a sequence. -/
theorem fitted_source {element t : Ty} {fallback : Option Ty} (ht : t.instantiate as = element)
    (hadmits : a.ty.element? = some element) :
    Fitted as (.queryable t) a (quoteLambda (queryArgument a fallback)) where
  source u _ := by
    change (quoteLambda _).ty.elementAs? .queryable = some (t.instantiate as) ↔ _
    rw [elementAs_quoteLambda, ht, elementAs_queryArgument fallback hadmits]
    simp only [Ty.Admits, ht]
  copied _ _ x hx := by rw [queryArgument_of_bareCopy fallback hx]
  ordered u hu := by cases hu
  other hquery _ := absurd rfl (hquery t)

/-- What is passed for an ordered query in place of an ordered sequence. -/
theorem fitted_ordered {element t : Ty} {fallback : Option Ty} (ht : t.instantiate as = element)
    (hadmits : a.ty.elementAs? .orderedEnumerable = some element ∨
      a.ty.elementAs? .orderedQueryable = some element) :
    Fitted as (.orderedQueryable t) a (quoteLambda (queryArgument a fallback)) where
  source u hu := by cases hu
  copied u hu := by cases hu
  ordered u hu := by
    cases hu
    simp only [Ty.Admits, elementAs_quoteLambda, ht]
    exact elementAs_of_ordered fallback hadmits
  other _ hordered := absurd rfl (hordered t)

/-- A parameter that stands for another is the same, quotes it or asks for a query in its place. -/
theorem standsForBySlot_cases (h : p.standsForBySlot q = true) :
    q = p ∨ q = .quoted p ∨ p.QueryOf q := by
  unfold Ty.standsForBySlot at h
  split at h
  · exact .inr (.inl (of_decide_eq_true h))
  · rw [Bool.or_eq_true, decide_eq_true_eq] at h
    exact h.imp_right fun hconvertible => .inr (convertible_iff.mp hconvertible)

theorem passedAs_query (h : p.QueryOf q) : passedAs? p q a = some (queryArgument a p.element?) := by
  have hdiffer : ¬ (p = q ∨ q.delegate? = some p) := by
    cases h <;> simp [Ty.delegate?]
  rw [passedAs?, if_neg hdiffer, if_pos (convertible_iff.mpr h)]

/-- What is passed for a parameter that stands for another, slot by slot. -/
theorem fitted_of_passedAs (hp : p.isSeqOf .queryable = false ∧ p.isSeqOf .orderedQueryable = false)
    (hslots : ∀ t ∈ slots, t.isSeqOf .queryable = false ∧ t.isSeqOf .orderedQueryable = false)
    (hbelow : q.slotsBelow slots.length = true)
    (hstands : p.standsForBySlot (q.instantiate slots) = true) (hadmits : p.Admits as a.ty)
    (hx : passedAs? (p.instantiate as) ((q.instantiate slots).instantiate as) a = some x) :
    Fitted (slots.map (Ty.instantiate as)) q a (quoteLambda x) := by
  have hfilled (t : Ty) (ht : t.slotsBelow slots.length = true) :
      t.instantiate (slots.map (Ty.instantiate as)) = (t.instantiate slots).instantiate as :=
    (Ty.instantiate_instantiate slots as t ht).symm
  rcases standsForBySlot_cases hstands with hq | hq | hquery
  · rw [hq, passedAs?, if_pos (.inl rfl)] at hx
    cases hx
    refine fitted_same ?_ ?_ <;> rintro t rfl <;> rw [← hq] at hp
    · cases hp.1
    · cases hp.2
  · rw [hq, passedAs?, if_pos (.inr rfl)] at hx
    cases hx
    refine fitted_same ?_ ?_ <;> rintro t rfl <;> cases hq
  · rw [passedAs_query (hquery.instantiate as)] at hx
    cases hx
    -- only a declared query becomes one here, since no slot is filled with a query
    generalize hq : q.instantiate slots = q' at hquery
    cases hquery with
    | source =>
      obtain ⟨t, rfl, rfl⟩ := seq_of_instantiate (fun t h => (hslots t h).1) hq
      exact fitted_source (hfilled t hbelow) hadmits
    | ordered =>
      obtain ⟨t, rfl, rfl⟩ := seq_of_instantiate (fun t h => (hslots t h).2) hq
      exact fitted_ordered (hfilled t hbelow) hadmits

/-- What is passed for the parameters of a candidate that stand for those of the operator. -/
theorem fitted_of_fitArguments
    (hslots : ∀ t ∈ slots, t.isSeqOf .queryable = false ∧ t.isSeqOf .orderedQueryable = false) :
    ∀ {ps qs : List Ty} {args passed : List Expr},
      (∀ p ∈ ps, p.isSeqOf .queryable = false ∧ p.isSeqOf .orderedQueryable = false) →
      List.Forall₂ (fun p q => q.slotsBelow slots.length = true ∧
        p.standsForBySlot (q.instantiate slots) = true) ps qs →
      List.Forall₂ (fun p a => p.Admits as (Expr.ty a)) ps args →
      fitArguments (ps.map (Ty.instantiate as))
        ((qs.map (Ty.instantiate slots)).map (Ty.instantiate as)) args = .ok (some passed) →
      List.Forall₂ (fun qa x => Fitted (slots.map (Ty.instantiate as)) qa.1 qa.2 (quoteLambda x))
        (qs.zip args) passed
  | _, _, _, passed, _, .nil, .nil, h => by
    obtain rfl : [] = passed := by simpa [fitArguments] using h
    exact .nil
  | _, _, _, passed, hps, .cons hq hqs, .cons ha hargs, h => by
    rw [List.forall_mem_cons] at hps
    obtain ⟨x, rest, hx, hrest, rfl⟩ := exists_of_fitArguments_cons h
    exact .cons (fitted_of_passedAs hps.1 hslots hq.1 hq.2 ha hx)
      (fitted_of_fitArguments hslots hps.2 hqs hargs hrest)

end Parameters

/-! ## Counterparts -/

section Counterparts

variable {m m' : Method} {args args' : List Expr}

/-- A candidate that is accepted stands for the operator, slot by slot. -/
theorem standsForBySlot_of_accepts {candidate : Signature} (hmem : m.signature ∈ Enumerable.all)
    (htypes : m.typeArgs.length = m.signature.typeParams)
    (hargs : args.length = m.signature.params.length) (hcandidate : candidate ∈ m.signature.candidates)
    (haccepts : Accepts m args candidate m') : m.signature.standsForBySlot candidate = true := by
  rcases overloads_decided m.signature hmem with hname | ⟨-, hothers⟩
  · exact inMemoryOnly_decided m.signature hmem hname candidate hcandidate
  · by_contra hnot
    have hruledOut := hothers candidate hcandidate (by simpa using hnot)
    exact not_accepts_of_ruledOut htypes hargs hruledOut m' haccepts

/-- **Arguments of counterparts.** For a call of an in-memory operator of the table that has as many
type arguments and arguments as declared, and in which the argument for each sequence is one that the
parameter asks for, let an operator on queries stand for it. An argument for a query is a query of the
elements, unless it was a copy into a list that is given no type argument: then it is what was copied.
An argument for an ordered query is a query of the elements too, and an ordered one exactly if it was
one before. Every other argument is passed as it is. -/
theorem fitted_of_toQueryable (hmem : m.signature ∈ Enumerable.all)
    (htypes : m.typeArgs.length = m.signature.typeParams)
    (hadmits : List.Forall₂ (fun p a => p.Admits m.typeArgs (Expr.ty a)) m.signature.params args)
    (h : toQueryable m args = .ok (some (m', args'))) :
    m'.signature.params.length = args.length ∧
      List.Forall₂ (fun qa a' => Fitted m'.typeArgs qa.1 qa.2 a') (m'.signature.params.zip args)
        args' := by
  have hargs : args.length = m.signature.params.length := hadmits.length_eq.symm
  have hcount := (toQueryable_eq_some h).params.trans hargs.symm
  unfold toQueryable at h
  rw [hargs, counterpartTypeArgs_eq htypes] at h
  obtain ⟨candidate, hcandidate, hat, passed, hfit, rfl⟩ := firstFit_eq_some h
  have hstands : m.signature.standsForBySlot candidate = true := by
    refine standsForBySlot_of_accepts hmem htypes hargs ?_ ⟨_, passed, ?_, hat, hfit⟩
    · simpa [Signature.candidates, Method.params, Method.name] using hcandidate
    · rw [hargs, counterpartTypeArgs_eq htypes]
  simp only [Signature.standsForBySlot, Bool.and_eq_true, decide_eq_true_eq, List.all_eq_true] at hstands
  obtain ⟨⟨⟨⟨hlen, hbelow⟩, -⟩, hparams⟩, -⟩ := hstands
  rw [hlen] at hbelow
  rw [Signature.at?_of_length (by simpa using hlen)] at hat
  cases hat
  rw [params_instantiate hbelow] at hfit
  have hdeclared := queries_not_declared m.signature hmem
  refine ⟨hcount, List.forall₂_map_right_iff.mpr (fitted_of_fitArguments ?_ ?_ ?_ hadmits hfit)⟩
  · exact fun t ht => hdeclared t (List.mem_append_right _ ht)
  · exact fun p hp => hdeclared p (List.mem_append_left _ hp)
  · rw [List.forall₂_iff_zip]
    refine ⟨(hcount.trans hargs).symm, fun {p q} hpq => ⟨hbelow q (List.of_mem_zip hpq).2, ?_⟩⟩
    refine hparams (p, q.instantiate m.signature.counterpartSlots) ?_
    rw [List.zip_map_right]
    exact List.mem_map.mpr ⟨(p, q), hpq, rfl⟩

end Counterparts

/-! ## Refining an order -/

/-- The operator of the domain that refines the order of orders by a number. -/
def refining (d : Domain) : Method :=
  ⟨d.operator "ThenBy" 2 [d.ordered (.slot 0), d.delegate [.slot 0] (.slot 1)] (d.ordered (.slot 0)),
    [.entity "Order", .int]⟩

/-- The number of an order. -/
def orderNumber : Expr :=
  .lambda [⟨0, "x", .entity "Order"⟩] (.access (.param ⟨0, "x", .entity "Order"⟩) "Number" .int)

/-- The orders by their number, by a query. -/
def sortedByQuery : Expr :=
  .apply Queryable.orderBy [.entity "Order", .int]
    [.const (.reference "orders") (.queryable (.entity "Order")), .quote orderNumber]

theorem fitted_of_toQueryable_sortedByQuery :
    (refining .memory).signature ∈ Enumerable.all ∧
      (refining .memory).typeArgs.length = (refining .memory).signature.typeParams ∧
      List.Forall₂ (fun p a => p.Admits (refining .memory).typeArgs (Expr.ty a))
        (refining .memory).signature.params [sortedByQuery, orderNumber] ∧
      toQueryable (refining .memory) [sortedByQuery, orderNumber] =
        .ok (some (refining .queries, [sortedByQuery, .quote orderNumber])) ∧
      List.Forall₂ (fun qa a' => Fitted (refining .queries).typeArgs qa.1 qa.2 a')
        ((refining .queries).signature.params.zip [sortedByQuery, orderNumber])
        [sortedByQuery, .quote orderNumber] :=
  have hmem : (refining .memory).signature ∈ Enumerable.all := by decide +kernel
  have hadmits : List.Forall₂ (fun p a => p.Admits (refining .memory).typeArgs (Expr.ty a))
      (refining .memory).signature.params [sortedByQuery, orderNumber] :=
    .cons (.inr rfl) (.cons trivial .nil)
  have hfound : toQueryable (refining .memory) [sortedByQuery, orderNumber] =
      .ok (some (refining .queries, [sortedByQuery, .quote orderNumber])) := rfl
  ⟨hmem, rfl, hadmits, hfound, (fitted_of_toQueryable hmem rfl hadmits hfound).2⟩

/-- Orders that are sorted in memory. -/
def sortedInMemory : Expr := .const (.reference "sorted") (.orderedEnumerable (.entity "Order"))

/-- The operator of the domain that counts elements of a type that is not given. -/
def counting (d : Domain) : Method := ⟨d.operator "Count" 1 [d.source (.slot 0)] .int, [.slot 0]⟩

/-- Orders in memory. -/
def ordersInMemory : Expr := .const (.reference "orders") (.enumerable (.entity "Order"))

/-- A copy of the orders into a list that is given no type argument. -/
def barelyCopied : Expr := .apply Enumerable.toList [] [ordersInMemory]

/-- An argument for an ordered query that is no ordered query, and an argument for a query that is no
query, though each argument was a sequence that the parameter of the in-memory operator asks for. -/
theorem normalize_misfits_arguments :
    (refining .memory).signature ∈ Enumerable.all ∧
      List.Forall₂ (fun p a => p.Admits (refining .memory).typeArgs (Expr.ty a))
        (refining .memory).signature.params [sortedInMemory, orderNumber] ∧
      normalize ⟨false⟩ default (.call (refining .memory) none [sortedInMemory, orderNumber]) =
        (.ok (.call (refining .queries) none
          [asQueryable sortedInMemory (.entity "Order"), .quote orderNumber]), default) ∧
      ¬ (Ty.orderedQueryable (.slot 0)).Admits (refining .queries).typeArgs
        (asQueryable sortedInMemory (.entity "Order")).ty ∧
    (counting .memory).signature ∈ Enumerable.all ∧
      List.Forall₂ (fun p a => p.Admits (counting .memory).typeArgs (Expr.ty a))
        (counting .memory).signature.params [barelyCopied] ∧
      normalize ⟨false⟩ default (.call (counting .memory) none [barelyCopied]) =
        (.ok (.call (counting .queries) none [ordersInMemory]), default) ∧
      ¬ (Ty.queryable (.slot 0)).Admits (counting .queries).typeArgs ordersInMemory.ty := by
  refine ⟨by decide +kernel, .cons (.inl rfl) (.cons trivial .nil), rfl, ?_,
    by decide +kernel, .cons rfl .nil, rfl, ?_⟩
  · intro h
    cases h
  · intro h
    cases h

end QueryNormal
