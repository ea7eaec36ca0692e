import Mathlib.Data.List.Forall2
import QueryNormal.Proofs.Instantiation
import QueryNormal.Rule.InMemory

/-!
# Counterparts of in-memory operators

* `fits`: an argument for one parameter can be passed for another, possibly converted.
* `Passes`: an argument and what it is passed as.
* `toQueryable_eq_some`: what the counterpart of a method is, whenever there is one.
* `toQueryable_isOk`: with as many type arguments and arguments as declared, nothing is out of range.
* `toQueryable_isSome`: every operator of the table but four has one, for all type arguments.

Whether there is a counterpart depends on the number of arguments only
(`toQueryable_eq_none_congr`).
-/

namespace QueryNormal

/-! ## Passing arguments -/

/-- Whether an argument for a parameter of type `p` can be passed for one of type `q`. -/
def fits (p q : Ty) : Bool := p = q || q.delegate? = some p || convertible p q

/-- Whether the arguments for the parameters `ps` can be passed for the parameters `qs`. -/
def fitsAll (ps qs : List Ty) : Bool :=
  ps.length = qs.length && (ps.zip qs).all fun pq => fits pq.1 pq.2

/-- An argument, and what it is passed as before lambdas are quoted. -/
inductive Passes : Expr → Expr → Prop
  | same {a : Expr} : Passes a a
  | converted {a : Expr} {fallback : Option Ty} : Passes a (queryArgument a fallback)

theorem fits_instantiate {p q : Ty} (as : List Ty) (h : fits p q = true) :
    fits (p.instantiate as) (q.instantiate as) = true := by
  simp only [fits, Bool.or_eq_true, decide_eq_true_eq] at h ⊢
  rcases h with (rfl | h) | h
  · exact .inl (.inl rfl)
  · cases q <;> simp only [Ty.delegate?, Option.some.injEq, reduceCtorEq] at h
    subst h
    exact .inl (.inr (by simp [Ty.instantiate, Ty.delegate?]))
  · right
    unfold convertible at h
    split at h <;> simp_all [Ty.instantiate, convertible]

/-- What an argument for a parameter of type `p` is passed as for one of type `q`. -/
def passedAs? (p q : Ty) (a : Expr) : Option Expr :=
  if p = q ∨ q.delegate? = some p then some a
  else if convertible p q then some (queryArgument a p.element?)
  else none

theorem isSome_passedAs (p q : Ty) (a : Expr) : (passedAs? p q a).isSome = fits p q := by
  unfold passedAs? fits
  by_cases hsame : p = q ∨ q.delegate? = some p
  · rcases hsame with hsame | hsame <;> simp [hsame]
  · rw [not_or] at hsame
    cases convertible p q <;> simp [hsame]

theorem passes_of_passedAs {p q : Ty} {a x : Expr} (h : passedAs? p q a = some x) :
    Passes a x := by
  unfold passedAs? at h
  split at h
  · cases h
    exact .same
  · split at h <;> cases h
    exact .converted

/-- The first argument is passed, and then the rest. -/
theorem fitArguments_cons (p q : Ty) (ps qs : List Ty) (a : Expr) (args : List Expr) :
    fitArguments (p :: ps) (q :: qs) (a :: args) =
      (passedAs? p q a).elim (.ok none) fun x =>
        (fitArguments ps qs args).map fun rest => rest.map (x :: ·) := by
  rw [fitArguments]
  unfold passedAs?
  split
  · cases fitArguments ps qs args <;> rfl
  · split
    · cases fitArguments ps qs args <;> rfl
    · rfl

theorem exists_of_fitArguments_cons {p q : Ty} {ps qs : List Ty} {a : Expr} {args passed : List Expr}
    (h : fitArguments (p :: ps) (q :: qs) (a :: args) = .ok (some passed)) :
    ∃ x rest, passedAs? p q a = some x ∧ fitArguments ps qs args = .ok (some rest) ∧
      passed = x :: rest := by
  rw [fitArguments_cons] at h
  rcases hx : passedAs? p q a with _ | x
  · rw [hx] at h
    cases h
  · rcases hrest : fitArguments ps qs args with f | _ | rest <;> rw [hx, hrest] at h <;> cases h
    exact ⟨x, rest, rfl, rfl, rfl⟩

theorem fitArguments_of_fits : ∀ {ps qs : List Ty} {args : List Expr},
    fitsAll ps qs = true → args.length = ps.length →
      ∃ args', fitArguments ps qs args = .ok (some args')
  | [], qs, args, _, _ => ⟨args, by simp [fitArguments]⟩
  | p :: ps, [], args, h, _ => by simp [fitsAll] at h
  | p :: ps, q :: qs, [], _, hlen => by simp at hlen
  | p :: ps, q :: qs, a :: args, h, hlen => by
    simp only [fitsAll, List.length_cons, List.zip_cons_cons, List.all_cons, Bool.and_eq_true,
      decide_eq_true_eq, Nat.add_right_cancel_iff] at h hlen
    have hrest : fitsAll ps qs = true := by simp [fitsAll, h.1, h.2.2]
    obtain ⟨args', hargs⟩ := fitArguments_of_fits hrest hlen
    obtain ⟨x, hx⟩ := Option.isSome_iff_exists.mp ((isSome_passedAs p q a).trans h.2.1)
    refine ⟨x :: args', ?_⟩
    rw [fitArguments_cons, hx, hargs]
    rfl

/-- With an argument for every parameter, none is out of range. -/
theorem fitArguments_isOk : ∀ {ps qs : List Ty} {args : List Expr},
    args.length = ps.length → ∃ r, fitArguments ps qs args = .ok r
  | [], qs, args, _ => ⟨some args, by simp [fitArguments]⟩
  | p :: ps, [], args, _ => ⟨some args, by simp [fitArguments]⟩
  | p :: ps, q :: qs, [], hlen => by simp at hlen
  | p :: ps, q :: qs, a :: args, hlen => by
    obtain ⟨r, hr⟩ : ∃ r, fitArguments ps qs args = .ok r :=
      fitArguments_isOk (by simpa using hlen)
    rw [fitArguments_cons, hr]
    cases passedAs? p q a <;> exact ⟨_, rfl⟩

theorem passes_of_fitArguments : ∀ {ps qs : List Ty} {args args' : List Expr},
    fitArguments ps qs args = .ok (some args') → List.Forall₂ Passes args args'
  | [], qs, args, args', h => by
    obtain rfl : args = args' := by simpa [fitArguments] using h
    exact List.forall₂_same.mpr fun a _ => .same
  | p :: ps, [], args, args', h => by
    obtain rfl : args = args' := by simpa [fitArguments] using h
    exact List.forall₂_same.mpr fun a _ => .same
  | p :: ps, q :: qs, [], args', h => by
    rw [fitArguments] at h
    split at h
    · exact passes_of_fitArguments h
    · split at h <;> cases h
  | p :: ps, q :: qs, a :: args, args', h => by
    obtain ⟨x, rest, hx, hrest, rfl⟩ := exists_of_fitArguments_cons h
    exact .cons (passes_of_passedAs hx) (passes_of_fitArguments hrest)

theorem fitArguments_eq_none_congr : ∀ {ps qs : List Ty} {args args' : List Expr},
    args.length = args'.length → fitArguments ps qs args = .ok none →
      fitArguments ps qs args' = .ok none
  | [], qs, args, args', _, h => by simp [fitArguments] at h
  | p :: ps, [], args, args', _, h => by simp [fitArguments] at h
  | p :: ps, q :: qs, [], args', hlen, h => by
    obtain rfl : args' = [] := by simpa using hlen.symm
    exact h
  | p :: ps, q :: qs, a :: args, [], hlen, h => by simp at hlen
  | p :: ps, q :: qs, a :: args, a' :: args', hlen, h => by
    rw [fitArguments_cons] at h ⊢
    have hsame : (passedAs? p q a').isSome = (passedAs? p q a).isSome := by
      rw [isSome_passedAs, isSome_passedAs]
    rcases hx : passedAs? p q a with _ | x
    · have hx' : passedAs? p q a' = none := by simpa [hx] using hsame
      rw [hx']
      rfl
    · obtain ⟨x', hx'⟩ : ∃ x', passedAs? p q a' = some x' :=
        Option.isSome_iff_exists.mp (by simp [hsame, hx])
      rcases hr : fitArguments ps qs args with f | _ | rest <;> rw [hx, hr] at h <;> cases h
      have hrest : fitArguments ps qs args' = .ok none :=
        fitArguments_eq_none_congr (by simpa using hlen) hr
      rw [hx', hrest]
      rfl

/-! ## The counterpart -/

/-- The call of `m'` with `args'` stands for the call of `m` with `args`. -/
structure Counterpart (m : Method) (args : List Expr) (m' : Method) (args' : List Expr) :
    Prop where
  family : m'.family = .queryable
  name : m'.name = m.name
  typeArgs : m'.typeArgs.length = m'.signature.typeParams
  params : m'.signature.params.length = m.signature.params.length
  args : ∃ passed, List.Forall₂ Passes args passed ∧ args' = passed.map quoteLambda

theorem Signature.at?_eq_some {s : Signature} {typeArgs : List Ty} {m : Method}
    (h : s.at? typeArgs = some m) : m.signature = s ∧ m.typeArgs.length = s.typeParams := by
  unfold Signature.at? at h
  split at h
  · rename_i hgen
    cases h
    have : s.typeParams = 0 := by simpa [Signature.isGeneric] using hgen
    exact ⟨rfl, by simp [this]⟩
  · split at h
    · rename_i hlen
      cases h
      exact ⟨rfl, hlen.symm⟩
    · cases h

theorem firstFit_eq_some {typeArgs params : List Ty} {args args' : List Expr} {m : Method} :
    ∀ {ss : List Signature}, firstFit typeArgs params args ss = .ok (some (m, args')) →
      ∃ s ∈ ss, s.at? typeArgs = some m ∧
        ∃ passed, fitArguments params m.params args = .ok (some passed) ∧
          args' = passed.map quoteLambda
  | [], h => by simp [firstFit] at h
  | s :: ss, h => by
    have hlater (h : firstFit typeArgs params args ss = .ok (some (m, args'))) :
        ∃ s' ∈ s :: ss, s'.at? typeArgs = some m ∧
          ∃ passed, fitArguments params m.params args = .ok (some passed) ∧
            args' = passed.map quoteLambda := by
      obtain ⟨s', hs', hrest⟩ := firstFit_eq_some h
      exact ⟨s', by simp [hs'], hrest⟩
    rw [firstFit] at h
    split at h
    · exact hlater h
    · rename_i m' hat
      rcases hfit : fitArguments params m'.params args with f | r
      · rw [hfit] at h
        cases h
      · rw [hfit] at h
        cases r with
        | none => exact hlater h
        | some passed =>
          cases h
          exact ⟨s, by simp, hat, passed, hfit, rfl⟩

theorem toQueryable_eq_some {m m' : Method} {args args' : List Expr}
    (h : toQueryable m args = .ok (some (m', args'))) : Counterpart m args m' args' := by
  unfold toQueryable at h
  rcases hta : counterpartTypeArgs m args.length with f | typeArgs
  · rw [hta] at h
    cases h
  · rw [hta] at h
    obtain ⟨s, hs, hat, passed, hfit, rfl⟩ := firstFit_eq_some h
    obtain ⟨rfl, hlen⟩ := Signature.at?_eq_some hat
    simp only [Table.overloads, List.mem_filter, decide_eq_true_eq] at hs
    obtain ⟨-, hfamily, hname, hparams⟩ := hs
    exact ⟨hfamily, hname, hlen, by simpa [Method.params] using hparams, passed,
      passes_of_fitArguments hfit, rfl⟩

theorem firstFit_eq_none_congr {typeArgs params : List Ty} {args args' : List Expr}
    (hlen : args.length = args'.length) :
    ∀ {ss : List Signature}, firstFit typeArgs params args ss = .ok none →
      firstFit typeArgs params args' ss = .ok none
  | [], _ => rfl
  | s :: ss, h => by
    rw [firstFit] at h ⊢
    split at h
    · exact firstFit_eq_none_congr hlen h
    · rename_i m hat
      rcases hfit : fitArguments params m.params args with f | r
      · rw [hfit] at h
        cases h
      · rw [hfit] at h
        cases r with
        | none =>
          rw [fitArguments_eq_none_congr hlen hfit]
          exact firstFit_eq_none_congr hlen h
        | some passed => cases h

/-- Whether there is a counterpart depends on the number of arguments only. -/
theorem toQueryable_eq_none_congr {m : Method} {args args' : List Expr}
    (hlen : args.length = args'.length) (h : toQueryable m args = .ok none) :
    toQueryable m args' = .ok none := by
  unfold toQueryable at h ⊢
  rw [← hlen]
  rcases hta : counterpartTypeArgs m args.length with f | typeArgs
  · rw [hta] at h
    cases h
  · rw [hta] at h
    exact firstFit_eq_none_congr hlen h

theorem outOfRange_of_fitArguments {f : Failure} : ∀ {ps qs : List Ty} {args : List Expr},
    fitArguments ps qs args = .error f → f = .outOfRange
  | [], qs, args, h => by simp [fitArguments] at h
  | p :: ps, [], args, h => by simp [fitArguments] at h
  | p :: ps, q :: qs, [], h => by
    rw [fitArguments] at h
    split at h
    · exact outOfRange_of_fitArguments h
    · split at h <;> cases h
      rfl
  | p :: ps, q :: qs, a :: args, h => by
    rw [fitArguments_cons] at h
    rcases hx : passedAs? p q a with _ | x <;> rw [hx] at h
    · cases h
    · rcases hr : fitArguments ps qs args with g | r <;> rw [hr] at h <;> cases h
      exact outOfRange_of_fitArguments hr

theorem outOfRange_of_firstFit {typeArgs params : List Ty} {args : List Expr} {f : Failure} :
    ∀ {ss : List Signature}, firstFit typeArgs params args ss = .error f → f = .outOfRange
  | [], h => by simp [firstFit] at h
  | s :: ss, h => by
    rw [firstFit] at h
    split at h
    · exact outOfRange_of_firstFit h
    · rename_i m hat
      rcases hfit : fitArguments params m.params args with g | r <;> rw [hfit] at h
      · cases h
        exact outOfRange_of_fitArguments hfit
      · cases r with
        | none => exact outOfRange_of_firstFit h
        | some passed => cases h

/-- There is no other failure in finding the counterpart than to read past the end of a list. -/
theorem outOfRange_of_toQueryable {m : Method} {args : List Expr} {f : Failure}
    (h : toQueryable m args = .error f) : f = .outOfRange := by
  unfold toQueryable at h
  rcases hta : counterpartTypeArgs m args.length with g | typeArgs <;> rw [hta] at h
  · cases h
    unfold counterpartTypeArgs at hta
    repeat' split at hta
    all_goals cases hta
    rfl
  · exact outOfRange_of_firstFit h

/-! ## The operators of the table -/

/-- The operators that only in-memory sequences have, and the comparison of two sequences, which
stays in memory. -/
def inMemoryOnly : List String := ["AsEnumerable", "ToList", "ToArray", "SequenceEqual"]

/-- The type arguments of the counterpart, given the slots of the signature. -/
def Signature.counterpartSlots (s : Signature) : List Ty :=
  if s.name ≠ "Min" ∧ s.name ≠ "Max" then (List.range s.typeParams).map .slot
  else if s.typeParams = 0 then [s.result]
  else if s.typeParams = s.params.length then (List.range s.typeParams).map .slot
  else [.slot 0, s.result]

theorem map_instantiate_slots {n : Nat} {typeArgs : List Ty} (h : typeArgs.length = n) :
    ((List.range n).map Ty.slot).map (Ty.instantiate typeArgs) = typeArgs := by
  subst h
  apply List.ext_getElem
  · simp
  · intro i _ hi
    simp [Ty.instantiate, hi]

theorem counterpartTypeArgs_eq {m : Method} (h : m.typeArgs.length = m.signature.typeParams) :
    counterpartTypeArgs m m.signature.params.length =
      .ok (m.signature.counterpartSlots.map (Ty.instantiate m.typeArgs)) := by
  unfold counterpartTypeArgs Signature.counterpartSlots Method.name Method.isGeneric
    Signature.isGeneric
  split
  · rw [map_instantiate_slots h]
  · by_cases hzero : m.signature.typeParams = 0
    · simp [hzero, Method.result]
    · rw [if_neg (by simpa using hzero), if_neg hzero, ← h]
      split
      · rw [map_instantiate_slots rfl]
      · obtain ⟨element, rest, hargs⟩ :=
          List.exists_cons_of_ne_nil (List.ne_nil_of_length_pos (by omega : 0 < m.typeArgs.length))
        simp [hargs, Ty.instantiate, Method.result]

theorem firstFit_isOk {typeArgs params : List Ty} {args : List Expr}
    (hlen : args.length = params.length) :
    ∀ ss : List Signature, ∃ r, firstFit typeArgs params args ss = .ok r
  | [] => ⟨none, rfl⟩
  | s :: ss => by
    obtain ⟨r, hr⟩ := firstFit_isOk hlen ss
    rw [firstFit]
    split
    · exact ⟨r, hr⟩
    · rename_i m _
      obtain ⟨fit, hfit⟩ : ∃ fit, fitArguments params m.params args = .ok fit :=
        fitArguments_isOk hlen
      rw [hfit]
      cases fit with
      | none => exact ⟨r, hr⟩
      | some passed => exact ⟨_, rfl⟩

/-- With as many type arguments and arguments as declared, neither a type argument nor an argument
is out of range. -/
theorem toQueryable_isOk {m : Method} {args : List Expr}
    (htypes : m.typeArgs.length = m.signature.typeParams)
    (hargs : args.length = m.signature.params.length) : ∃ r, toQueryable m args = .ok r := by
  have hlen : args.length = m.params.length := by simp [Method.params, hargs]
  unfold toQueryable
  rw [hargs, counterpartTypeArgs_eq htypes]
  exact firstFit_isOk hlen _

theorem fitsAll_map_instantiate {ps qs : List Ty} (as : List Ty) (h : fitsAll ps qs = true) :
    fitsAll (ps.map (Ty.instantiate as)) (qs.map (Ty.instantiate as)) = true := by
  simp only [fitsAll, Bool.and_eq_true, decide_eq_true_eq, List.length_map, List.all_eq_true,
    List.zip_map, List.mem_map] at h ⊢
  refine ⟨h.1, ?_⟩
  rintro _ ⟨pq, hpq, rfl⟩
  exact fits_instantiate as (h.2 pq hpq)

theorem exists_firstFit {typeArgs params : List Ty} {args : List Expr} {m : Method}
    (hlen : args.length = params.length) (hfit : fitsAll params m.params = true) :
    ∀ {ss : List Signature} {s : Signature}, s ∈ ss → s.at? typeArgs = some m →
      ∃ r, firstFit typeArgs params args ss = .ok (some r)
  | [], s, hs, _ => by simp at hs
  | x :: ss, s, hs, hat => by
    rw [firstFit]
    rcases List.mem_cons.mp hs with rfl | hs
    · rw [hat]
      obtain ⟨args', hargs⟩ := fitArguments_of_fits hfit hlen
      simp only [hargs]
      exact ⟨_, rfl⟩
    · obtain ⟨r, hr⟩ := exists_firstFit hlen hfit hs hat
      split
      · exact ⟨r, hr⟩
      · rename_i m' _
        obtain ⟨r', hr'⟩ : ∃ r', fitArguments params m'.params args = .ok r' :=
          fitArguments_isOk hlen
        cases r' with
        | none => exact ⟨r, by rw [hr']; exact hr⟩
        | some args' => exact ⟨_, by rw [hr']; rfl⟩

/-- Every operator on in-memory sequences, four apart, has an operator on queries of the same name
whose parameters fit, slot by slot. -/
theorem exists_fitting_signature : ∀ s ∈ Enumerable.all, s.name ∈ inMemoryOnly ∨
    ∃ s' ∈ Queryable.all, s'.name = s.name ∧ s'.typeParams = s.counterpartSlots.length ∧
      (s'.params.all fun p => p.slotsBelow s'.typeParams) = true ∧
      fitsAll s.params (s'.params.map (Ty.instantiate s.counterpartSlots)) = true := by
  decide +kernel

theorem family_of_mem_queryable : ∀ s ∈ Queryable.all, s.family = .queryable := by
  decide +kernel

theorem Signature.at?_of_length {s : Signature} {typeArgs : List Ty}
    (h : s.typeParams = typeArgs.length) : s.at? typeArgs = some ⟨s, typeArgs⟩ := by
  unfold Signature.at? Signature.isGeneric
  split
  · rename_i hzero
    have hnil : typeArgs = [] := List.eq_nil_of_length_eq_zero (by rw [← h]; simpa using hzero)
    rw [hnil]
  · rfl

/-- The slots are filled first with what is inferred from the in-memory operator, and then with its
type arguments. -/
theorem params_instantiate {s : Signature} {slots as : List Ty}
    (h : ∀ q ∈ s.params, q.slotsBelow slots.length = true) :
    (⟨s, slots.map (Ty.instantiate as)⟩ : Method).params =
      (s.params.map (Ty.instantiate slots)).map (Ty.instantiate as) := by
  rw [Method.params, List.map_map]
  exact List.map_congr_left fun q hq => (Ty.instantiate_instantiate _ _ q (h q hq)).symm

/-- **Counterparts exist.** Whatever the type arguments are, a call of an operator of the table
that has as many type arguments and arguments as declared has a counterpart, unless the operator
is one of the four. -/
theorem toQueryable_isSome {m : Method} {args : List Expr} (hmem : m.signature ∈ Enumerable.all)
    (hname : m.name ∉ inMemoryOnly) (htypes : m.typeArgs.length = m.signature.typeParams)
    (hargs : args.length = m.signature.params.length) :
    ∃ m' args', toQueryable m args = .ok (some (m', args')) := by
  obtain h | ⟨s, hs, hsame, hparams, hslots, hfit⟩ := exists_fitting_signature _ hmem
  · exact absurd h hname
  have hlen : args.length = m.params.length := by simp [Method.params, hargs]
  -- the counterpart is given the slots' types, and is generic exactly if there are any
  let typeArgs := m.signature.counterpartSlots.map (Ty.instantiate m.typeArgs)
  have hat : s.at? typeArgs = some ⟨s, typeArgs⟩ :=
    Signature.at?_of_length (by simp [typeArgs, hparams])
  have hfits : fitsAll m.params (⟨s, typeArgs⟩ : Method).params = true := by
    rw [hparams, List.all_eq_true] at hslots
    rw [params_instantiate hslots]
    exact fitsAll_map_instantiate m.typeArgs hfit
  have hoverload : s ∈ Table.overloads .queryable m.name m.params.length := by
    have hcount : s.params.length = m.params.length := by
      simp only [fitsAll, Bool.and_eq_true, decide_eq_true_eq, List.length_map] at hfit
      simp [Method.params, hfit.1]
    simp only [Table.overloads, List.mem_filter, decide_eq_true_eq]
    refine ⟨?_, family_of_mem_queryable s hs, hsame, hcount⟩
    simp [Table.all, hs]
  obtain ⟨r, hr⟩ := exists_firstFit hlen hfits hoverload hat
  refine ⟨r.1, r.2, ?_⟩
  unfold toQueryable
  rw [hargs, counterpartTypeArgs_eq htypes]
  exact hr

/-- A method has no counterpart if no operator on queries has its name. -/
theorem toQueryable_eq_none {m : Method} (args : List Expr)
    (hname : Table.hasName .queryable m.name = false) : toQueryable m args = .ok none := by
  have hplain : m.name ≠ "Min" ∧ m.name ≠ "Max" := by
    constructor <;> intro h <;> rw [h] at hname <;> exact absurd hname (by decide +kernel)
  have hno : Table.overloads .queryable m.name m.params.length = [] := by
    simp only [Table.hasName, List.any_eq_false, decide_eq_true_eq] at hname
    simp only [Table.overloads, List.filter_eq_nil_iff, decide_eq_true_eq]
    exact fun s hs h => hname s hs ⟨h.1, h.2.1⟩
  unfold toQueryable counterpartTypeArgs
  rw [if_pos hplain, hno]
  rfl

/-! ## Reading a position and asking for an element -/

/-- The counterpart of an operator with one type parameter and one overload on queries. -/
theorem toQueryable_of_single (s s' : Signature) (element : Ty) {args passed : List Expr}
    (hname : s.name ≠ "Min" ∧ s.name ≠ "Max")
    (hone : Table.overloads .queryable s.name s.params.length = [s']) (htypes : s'.typeParams = 1)
    (hfit : fitArguments (⟨s, [element]⟩ : Method).params (⟨s', [element]⟩ : Method).params args =
      .ok (some passed)) :
    toQueryable ⟨s, [element]⟩ args = .ok (some (⟨s', [element]⟩, passed.map quoteLambda)) := by
  have hat : s'.at? [element] = some ⟨s', [element]⟩ := by
    simp [Signature.at?, Signature.isGeneric, htypes]
  have htypeArgs : counterpartTypeArgs ⟨s, [element]⟩ args.length = .ok [element] := if_pos hname
  have hcount : (⟨s, [element]⟩ : Method).params.length = s.params.length := by
    simp [Method.params]
  unfold toQueryable
  rw [htypeArgs, hcount]
  show firstFit [element] _ args (Table.overloads .queryable s.name s.params.length) = _
  rw [hone, firstFit, hat]
  simp only [hfit]
  rfl

theorem toQueryable_elementAt (element : Ty) (source position : Expr) :
    toQueryable ⟨Enumerable.elementAt, [element]⟩ [source, position] =
      .ok (some (⟨Domain.queries.elementAt, [element]⟩,
        [quoteLambda (queryArgument source (some element)), quoteLambda position])) := by
  have hfit : fitArguments [.enumerable element, .int] [.queryable element, .int]
      [source, position] = .ok (some [queryArgument source (some element), position]) := by
    simp [fitArguments, Ty.delegate?, convertible, Ty.element?, Ty.elementAs?, SeqKind.has]
  exact toQueryable_of_single Enumerable.elementAt Domain.queries.elementAt element (by decide)
    (by decide +kernel) rfl hfit

theorem toQueryable_any (element : Ty) (source : Expr) :
    toQueryable ⟨Enumerable.any, [element]⟩ [source] =
      .ok (some (⟨Domain.queries.any, [element]⟩,
        [quoteLambda (queryArgument source (some element))])) := by
  have hfit : fitArguments [.enumerable element] [.queryable element] [source] =
      .ok (some [queryArgument source (some element)]) := by
    simp [fitArguments, Ty.delegate?, convertible, Ty.element?, Ty.elementAs?, SeqKind.has]
  exact toQueryable_of_single Enumerable.any Domain.queries.any element (by decide)
    (by decide +kernel) rfl hfit

end QueryNormal
