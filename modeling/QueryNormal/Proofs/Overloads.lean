import QueryNormal.Proofs.StaticTypes

/-!
# Overloads of counterparts

* `Ty.QueryOf`: the type of a query in place of an in-memory sequence of the same elements.
* `StandsFor`: a parameter of an operator on queries stands for one of an in-memory operator.
* `Accepts`: an operator on queries is accepted for a call of an in-memory operator.
* `overloads_decided`: for each operator of the table, slot by slot, the parameters of one overload
  stand for its own, and every other overload is ruled out.
* `exists_soleCounterpart`: so whatever the type arguments are, one overload is accepted, and the
  order of the table does not matter.
-/

namespace QueryNormal

/-! ## Parameters -/

/-- The second is the type of a query in place of an in-memory sequence of the same elements. -/
inductive Ty.QueryOf : Ty → Ty → Prop
  | source {element : Ty} : QueryOf (.enumerable element) (.queryable element)
  | ordered {element : Ty} : QueryOf (.orderedEnumerable element) (.orderedQueryable element)

/-- With the slots filled, a parameter of an operator on queries stands for a parameter that an
in-memory operator declares: a delegate is quoted, a sequence may become a query, and anything else is
the same. -/
inductive StandsFor (as : List Ty) : Ty → Ty → Prop
  | delegate {params : List Ty} {result : Ty} :
      StandsFor as (.func params result) (.quoted ((Ty.func params result).instantiate as))
  | query {p q : Ty} : p.QueryOf q → StandsFor as p (q.instantiate as)
  | same {p : Ty} : (∀ params result, p ≠ .func params result) → StandsFor as p (p.instantiate as)

section Parameters

variable {p q : Ty} {as : List Ty}

theorem convertible_iff : convertible p q = true ↔ p.QueryOf q := by
  constructor
  · intro h
    unfold convertible at h
    split at h
    · rw [of_decide_eq_true h]
      exact .source
    · rw [of_decide_eq_true h]
      exact .ordered
    · cases h
  · rintro ⟨⟩ <;> simp [convertible]

theorem Ty.QueryOf.instantiate (h : p.QueryOf q) (as : List Ty) :
    (p.instantiate as).QueryOf (q.instantiate as) := by
  cases h with
  | source => exact .source
  | ordered => exact .ordered

/-- An argument for the parameter can be passed for the one that stands for it. -/
theorem StandsFor.fits (h : StandsFor as p q) : fits (p.instantiate as) q = true := by
  unfold QueryNormal.fits
  cases h with
  | delegate => simp [Ty.delegate?]
  | query h => simp [convertible_iff.mpr (h.instantiate as)]
  | same => simp

/-- Whether the second parameter stands for the first, slot by slot. -/
def Ty.standsForBySlot : Ty → Ty → Bool
  | .func params result, q => q = .quoted (.func params result)
  | p, q => q = p || convertible p q

theorem StandsFor.of_slots (h : p.standsForBySlot q = true) (as : List Ty) :
    StandsFor as p (q.instantiate as) := by
  unfold Ty.standsForBySlot at h
  split at h
  · rw [of_decide_eq_true h]
    exact .delegate
  · rename_i hnot
    rw [Bool.or_eq_true, decide_eq_true_eq] at h
    rcases h with rfl | h
    · exact .same hnot
    · exact .query (convertible_iff.mp h)

/-- Whether the second parameter quotes a delegate of another number of parameters than the first. -/
def Ty.quotesOther : Ty → Ty → Bool
  | .func params _, .quoted (.func params' _) => params.length ≠ params'.length
  | _, _ => false

theorem not_fits_of_quotesOther (h : p.quotesOther q = true) (as : List Ty) :
    fits (p.instantiate as) (q.instantiate as) = false := by
  unfold Ty.quotesOther at h
  split at h
  · rename_i params result params' result'
    have hlen : params.length ≠ params'.length := of_decide_eq_true h
    have hne : params'.map (Ty.instantiate as) ≠ params.map (Ty.instantiate as) := fun heq =>
      hlen (by simpa using (congrArg List.length heq).symm)
    simp [fits, Ty.instantiate, Ty.instantiateList_eq_map, Ty.delegate?, convertible, hne]
  · cases h

end Parameters

/-! ## Candidates -/

/-- The operators on queries with the name and the number of parameters of the signature. -/
def Signature.candidates (s : Signature) : List Signature :=
  Table.overloads .queryable s.name s.params.length

/-- Whether the candidate takes the type arguments, with parameters that stand for those of the
signature and a result that is the same or the type of a query in its place, slot by slot. -/
def Signature.standsForBySlot (s candidate : Signature) : Bool :=
  candidate.typeParams = s.counterpartSlots.length &&
    (candidate.params.all fun q => q.slotsBelow candidate.typeParams) &&
    candidate.result.slotsBelow candidate.typeParams &&
    (s.params.zip (candidate.params.map (Ty.instantiate s.counterpartSlots))).all
      (fun pq => pq.1.standsForBySlot pq.2) &&
    (candidate.result.instantiate s.counterpartSlots = s.result ||
      convertible s.result (candidate.result.instantiate s.counterpartSlots))

/-- Whether the candidate takes the type arguments, but an argument for one of its parameters can
never be passed. -/
def Signature.ruledOutBySlot (s candidate : Signature) : Bool :=
  candidate.typeParams = s.counterpartSlots.length &&
    (candidate.params.all fun q => q.slotsBelow candidate.typeParams) &&
    (s.params.zip (candidate.params.map (Ty.instantiate s.counterpartSlots))).any
      fun pq => neverFits pq.1 pq.2 || pq.1.quotesOther pq.2

/-- Of the candidates for an operator of the table, four apart, one stands for it, and the others are
ruled out, slot by slot. -/
theorem overloads_decided : ∀ s ∈ Enumerable.all, s.name ∈ inMemoryOnly ∨
    (s.candidates.filter s.standsForBySlot).length = 1 ∧
      ∀ candidate ∈ s.candidates, s.standsForBySlot candidate = false →
        s.ruledOutBySlot candidate = true := by
  decide +kernel

/-- There is one candidate that stands for the operator, and the others are ruled out. -/
theorem exists_candidate {s : Signature} (hmem : s ∈ Enumerable.all) (hname : s.name ∉ inMemoryOnly) :
    ∃ before candidate after, s.candidates = before ++ candidate :: after ∧
      s.standsForBySlot candidate = true ∧
      ∀ other ∈ before ++ after, s.ruledOutBySlot other = true := by
  obtain ⟨hone, hothers⟩ := (overloads_decided s hmem).resolve_left hname
  obtain ⟨candidate, hfilter⟩ := List.length_eq_one_iff.mp hone
  obtain ⟨before, after, hsplit, hbefore, hstands, hafter⟩ := List.filter_eq_cons_iff.mp hfilter
  refine ⟨before, candidate, after, hsplit, hstands, fun other hother => hothers other ?_ ?_⟩
  · rw [hsplit]
    rcases List.mem_append.mp hother with h | h <;> simp [h]
  · rcases List.mem_append.mp hother with h | h
    · simpa using hbefore other h
    · simpa using List.filter_eq_nil_iff.mp hafter other h

theorem fitsAll_of_standsFor {as ps qs : List Ty} (h : List.Forall₂ (StandsFor as) ps qs) :
    fitsAll (ps.map (Ty.instantiate as)) qs = true := by
  simp only [fitsAll, Bool.and_eq_true, decide_eq_true_eq, List.length_map, List.all_eq_true,
    h.length_eq, true_and]
  rintro ⟨p', q⟩ hpq
  rw [List.zip_map_left] at hpq
  obtain ⟨⟨p, q'⟩, hmem, heq⟩ := List.mem_map.mp hpq
  cases heq
  exact ((List.forall₂_iff_zip.mp h).2 hmem).fits

/-! ## The accepted candidate -/

/-- The candidate takes the type arguments for a call of the method, as the method `m'`, and the
arguments can be passed. -/
def Accepts (m : Method) (args : List Expr) (candidate : Signature) (m' : Method) : Prop :=
  ∃ typeArgs passed, counterpartTypeArgs m args.length = .ok typeArgs ∧
    candidate.at? typeArgs = some m' ∧ fitArguments m.params m'.params args = .ok (some passed)

/-- The parameters of `m'` stand for those that the method declares, and its result is that of the
method or the type of a query in its place. -/
structure Method.MirroredBy (m m' : Method) : Prop where
  params : List.Forall₂ (StandsFor m.typeArgs) m.signature.params m'.params
  result : m'.result = m.result ∨ m.result.QueryOf m'.result

/-- Of the operators on queries with the name and the number of parameters of the method, one is
accepted, as the method `m'`, which mirrors the method. It is found in whatever order they are
tried. -/
structure SoleCounterpart (m : Method) (args : List Expr) (m' : Method) : Prop where
  sole : ∃ before candidate after,
    Table.overloads .queryable m.name m.params.length = before ++ candidate :: after ∧
      Accepts m args candidate m' ∧ ∀ other ∈ before ++ after, ∀ m'', ¬ Accepts m args other m''
  found : ∃ args', toQueryable m args = .ok (some (m', args'))
  anyOrder : ∀ typeArgs candidates, counterpartTypeArgs m args.length = .ok typeArgs →
    candidates.Perm (Table.overloads .queryable m.name m.params.length) →
      firstFit typeArgs m.params args candidates = toQueryable m args
  mirrored : m.MirroredBy m'

section Accepted

variable {m m' : Method} {args : List Expr} {candidate : Signature}

theorem accepts_of_standsFor (htypes : m.typeArgs.length = m.signature.typeParams)
    (hargs : args.length = m.signature.params.length)
    (hcount : candidate.params.length = m.signature.params.length)
    (h : m.signature.standsForBySlot candidate = true) :
    ∃ m', Accepts m args candidate m' ∧ m.MirroredBy m' := by
  simp only [Signature.standsForBySlot, Bool.and_eq_true, decide_eq_true_eq, List.all_eq_true,
    Bool.or_eq_true] at h
  obtain ⟨⟨⟨⟨hlen, hbelow⟩, hresultBelow⟩, hparams⟩, hresult⟩ := h
  rw [hlen] at hbelow hresultBelow
  let m' : Method := ⟨candidate, m.signature.counterpartSlots.map (Ty.instantiate m.typeArgs)⟩
  have hmirrored : m.MirroredBy m' := by
    constructor
    · rw [params_instantiate hbelow, List.forall₂_map_right_iff, List.forall₂_iff_zip]
      exact ⟨by simp [hcount], fun hpq => .of_slots (hparams _ hpq) m.typeArgs⟩
    · rw [Method.result, Method.result, ← Ty.instantiate_instantiate _ _ _ hresultBelow]
      rcases hresult with hsame | hquery
      · exact .inl (by rw [hsame])
      · exact .inr ((convertible_iff.mp hquery).instantiate m.typeArgs)
  obtain ⟨passed, hpassed⟩ : ∃ passed, fitArguments m.params m'.params args = .ok (some passed) :=
    fitArguments_of_fits (fitsAll_of_standsFor hmirrored.params) (by simpa [Method.params] using hargs)
  refine ⟨m', ⟨_, passed, ?_, Signature.at?_of_length (by simpa using hlen), hpassed⟩, hmirrored⟩
  rw [hargs, counterpartTypeArgs_eq htypes]

theorem not_accepts_of_ruledOut (htypes : m.typeArgs.length = m.signature.typeParams)
    (hargs : args.length = m.signature.params.length)
    (h : m.signature.ruledOutBySlot candidate = true) (m' : Method) :
    ¬ Accepts m args candidate m' := by
  rintro ⟨typeArgs, passed, htypeArgs, hat, hpassed⟩
  simp only [Signature.ruledOutBySlot, Bool.and_eq_true, decide_eq_true_eq, List.all_eq_true,
    List.any_eq_true, Bool.or_eq_true] at h
  obtain ⟨⟨hlen, hbelow⟩, pq, hpq, hnever⟩ := h
  rw [hlen] at hbelow
  rw [hargs, counterpartTypeArgs_eq htypes] at htypeArgs
  cases htypeArgs
  rw [Signature.at?_of_length (by simpa using hlen)] at hat
  cases hat
  have hfits := fits_of_passed hargs hbelow hpassed hpq
  have hnot : fits (pq.1.instantiate m.typeArgs) (pq.2.instantiate m.typeArgs) = false :=
    hnever.elim (not_fits_instantiate · m.typeArgs) (not_fits_of_quotesOther · m.typeArgs)
  rw [hnot] at hfits
  cases hfits

/-! ## Any order -/

/-- A candidate that is not accepted takes other type arguments, or the arguments cannot be passed. -/
theorem fitArguments_of_not_accepts {typeArgs : List Ty} {other : Signature}
    (hlen : args.length = m.params.length)
    (htypeArgs : counterpartTypeArgs m args.length = .ok typeArgs)
    (h : ∀ m'', ¬ Accepts m args other m'') {m'' : Method} (hat : other.at? typeArgs = some m'') :
    fitArguments m.params m''.params args = .ok none := by
  obtain ⟨r, hr⟩ : ∃ r, fitArguments m.params m''.params args = .ok r := fitArguments_isOk hlen
  cases r with
  | none => exact hr
  | some passed => exact absurd ⟨typeArgs, passed, htypeArgs, hat, hr⟩ (h m'')

theorem firstFit_append {typeArgs params : List Ty} : ∀ {before : List Signature},
    (∀ other ∈ before, ∀ m'', other.at? typeArgs = some m'' →
      fitArguments params m''.params args = .ok none) →
    ∀ after, firstFit typeArgs params args (before ++ after) = firstFit typeArgs params args after
  | [], _, _ => rfl
  | other :: before, h, after => by
    rw [List.forall_mem_cons] at h
    have hrest := firstFit_append h.2 after
    rw [List.cons_append, firstFit]
    cases hat : other.at? typeArgs with
    | none => exact hrest
    | some m'' =>
      simp only [h.1 m'' hat]
      exact hrest

/-- The only candidate that is accepted is found in whatever order they are tried. -/
theorem firstFit_of_sole {typeArgs : List Ty} {passed : List Expr}
    {before after candidates : List Signature} (hlen : args.length = m.params.length)
    (htypeArgs : counterpartTypeArgs m args.length = .ok typeArgs)
    (hat : candidate.at? typeArgs = some m')
    (hpassed : fitArguments m.params m'.params args = .ok (some passed))
    (hothers : ∀ other ∈ before ++ after, ∀ m'', ¬ Accepts m args other m'')
    (hperm : candidates.Perm (before ++ candidate :: after)) :
    firstFit typeArgs m.params args candidates = .ok (some (m', passed.map quoteLambda)) := by
  have hmem : candidate ∈ candidates := hperm.mem_iff.mpr (by simp)
  obtain ⟨left, right, rfl⟩ := List.append_of_mem hmem
  have hrest : (left ++ right).Perm (before ++ after) :=
    (List.perm_middle.symm.trans (hperm.trans List.perm_middle)).cons_inv
  rw [firstFit_append (fun other hother m'' => fitArguments_of_not_accepts hlen htypeArgs
    (hothers other (hrest.mem_iff.mp (List.mem_append_left _ hother)))), firstFit, hat]
  simp only [hpassed]
  rfl

end Accepted

/-- **Operators in memory and on queries are paired.** Whatever the type arguments are, for a call of
an in-memory operator of the table, four apart, that has as many type arguments and arguments as
declared, exactly one operator on queries is accepted, and it mirrors the in-memory operator. -/
theorem exists_soleCounterpart {m : Method} {args : List Expr}
    (hmem : m.signature ∈ Enumerable.all) (hname : m.name ∉ inMemoryOnly)
    (htypes : m.typeArgs.length = m.signature.typeParams)
    (hargs : args.length = m.signature.params.length) : ∃ m', SoleCounterpart m args m' := by
  obtain ⟨before, candidate, after, hsplit, hstands, hothers⟩ := exists_candidate hmem hname
  have hlen : args.length = m.params.length := by simpa [Method.params] using hargs
  have hcandidates : Table.overloads .queryable m.name m.params.length =
      before ++ candidate :: after := by
    rw [← hsplit, Method.params, List.length_map]
    rfl
  have hcount : candidate.params.length = m.params.length := by
    have hcandidate : candidate ∈ Table.overloads .queryable m.name m.params.length := by
      simp [hcandidates]
    simp only [Table.overloads, List.mem_filter, decide_eq_true_eq] at hcandidate
    exact hcandidate.2.2.2
  obtain ⟨m', haccepts, hmirrored⟩ :=
    accepts_of_standsFor htypes hargs (by simpa [Method.params] using hcount) hstands
  have hruled : ∀ other ∈ before ++ after, ∀ m'', ¬ Accepts m args other m'' := fun other hother =>
    not_accepts_of_ruledOut htypes hargs (hothers other hother)
  obtain ⟨typeArgs, passed, htypeArgs, hat, hpassed⟩ := haccepts
  have hany (candidates : List Signature)
      (hperm : candidates.Perm (Table.overloads .queryable m.name m.params.length)) :
      firstFit typeArgs m.params args candidates = .ok (some (m', passed.map quoteLambda)) := by
    rw [hcandidates] at hperm
    exact firstFit_of_sole hlen htypeArgs hat hpassed hruled hperm
  have hfound : toQueryable m args = .ok (some (m', passed.map quoteLambda)) := by
    unfold toQueryable
    rw [htypeArgs]
    exact hany _ (.refl _)
  refine ⟨m', ⟨before, candidate, after, hcandidates, ?_, hruled⟩, ⟨_, hfound⟩, ?_, hmirrored⟩
  · exact ⟨typeArgs, passed, htypeArgs, hat, hpassed⟩
  · intro typeArgs' candidates htypeArgs' hperm
    cases htypeArgs.symm.trans htypeArgs'
    rw [hany candidates hperm, hfound]

/-- The greatest of the numbers that are read off the orders, in memory. -/
def greatestOfOrders : Method :=
  ⟨Domain.memory.operator "Max" 1 [.enumerable (.slot 0), .func [.slot 0] .int] .int,
    [.entity "Order"]⟩

/-- Orders in memory, and the number of each. -/
def ordersWithNumbers : List Expr :=
  let x : Param := ⟨0, "x", .entity "Order"⟩
  [.const (.reference "orders") (.enumerable (.entity "Order")),
    .lambda [x] (.access (.param x) "Number" .int)]

theorem exists_soleCounterpart_greatestOfOrders :
    greatestOfOrders.signature ∈ Enumerable.all ∧ greatestOfOrders.name ∉ inMemoryOnly ∧
      greatestOfOrders.typeArgs.length = greatestOfOrders.signature.typeParams ∧
      ordersWithNumbers.length = greatestOfOrders.signature.params.length ∧
      ∃ m', SoleCounterpart greatestOfOrders ordersWithNumbers m' :=
  have hmem : greatestOfOrders.signature ∈ Enumerable.all := by decide
  have hname : greatestOfOrders.name ∉ inMemoryOnly := by decide
  ⟨hmem, hname, rfl, rfl, exists_soleCounterpart hmem hname rfl rfl⟩

end QueryNormal
