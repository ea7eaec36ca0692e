import QueryNormal.Join.Flat
import QueryNormal.Join.Grouped

/-!
# The pieces of grouped joins

* `JoinPieces`: a grouped join and its pieces.
* `PairsPieces`, `MembersPieces`: a `SelectMany` over a grouped join and the flat join it becomes.
* `CorrelatePieces`: a grouped join and the projection it becomes.

Each has one constructor that names everything the rewrite reads. A rewrite that applies has its
pieces (`GroupJoin.pieces`, `Flattening.pairsPieces`, `Flattening.membersPieces`,
`correlatePieces`).
-/

namespace QueryNormal

/-- The expression is a grouped join of queries with these pieces. -/
inductive JoinPieces : Expr → GroupJoin → Prop
  | intro {m : Method} {r : Option Expr} {outer inner outerKey innerKey result : Expr}
      {outerKeySelector innerKeySelector resultSelector : Lambda} :
      m.signature = Queryable.groupJoin → outerKey.lambda? = some outerKeySelector →
      innerKey.lambda? = some innerKeySelector → result.lambda? = some resultSelector →
      JoinPieces (.call m r [outer, inner, outerKey, innerKey, result])
        ⟨m.typeArgs, outer, inner, outerKey, innerKey, innerKeySelector, resultSelector⟩

/-- The group, with the result selector's body for the parameter `x`, that is joined instead. -/
def GroupJoin.collected (join : GroupJoin) (x : Param) (body : Expr) : Expr :=
  Expr.replace x.id join.result.body (peelDefault body).1

/-- The call, which makes a result of each pair, becomes a flat join of these pieces. The third is
the expression over the group that is joined in its place. -/
inductive PairsPieces : Call → GroupJoin → Expr → Bool → Expr → Lambda → Prop
  | intro {m : Method} {r : Option Expr} {source collection result : Expr} {join : GroupJoin}
      {x y element outer group : Param} {more : List Param} {body pairBody : Expr} :
      m.signature = Queryable.selectManyPairs → JoinPieces source join →
      collection.lambda? = some ⟨[x], body⟩ → result.lambda? = some ⟨[y, element], pairBody⟩ →
      join.result.params = outer :: group :: more →
      (join.collected x body).correlated group.id = false →
      PairsPieces ⟨m, r, [source, collection, result]⟩ join (join.collected x body)
        (peelDefault body).2 (Expr.replace group.id join.inner (join.collected x body))
        ⟨[outer, element], Expr.replace y.id join.result.body pairBody⟩

/-- The call, whose results are the members of the groups, becomes a flat join of these pieces. The
third is the expression over the group that is joined in its place. -/
inductive MembersPieces : Call → GroupJoin → Expr → Bool → Expr → Param → Param → Prop
  | intro {m : Method} {r : Option Expr} {source selector : Expr} {join : GroupJoin}
      {x element outer group : Param} {more : List Param} {body : Expr} :
      m.signature = Queryable.selectMany → JoinPieces source join →
      selector.lambda? = some ⟨[x], body⟩ → join.innerKeySelector.params = [element] →
      join.result.params = outer :: group :: more →
      (peelDefault join.result.body).1.correlated group.id = false →
      MembersPieces ⟨m, r, [source, selector]⟩ join (peelDefault join.result.body).1
        (peelDefault join.result.body).2
        (Expr.replace x.id (Expr.replace group.id join.inner (peelDefault join.result.body).1) body)
        outer element

theorem GroupJoin.pieces {e : Expr} {join : GroupJoin} (h : GroupJoin.of? e = some join) :
    JoinPieces e join := by
  unfold GroupJoin.of? at h
  split at h
  · rename_i m r outer inner outerKey innerKey result
    split at h
    · rename_i hm
      simp only [bind, Option.bind_eq_some_iff] at h
      obtain ⟨o, ho, i, hi, res, hres, h⟩ := h
      cases h
      exact .intro (of_decide_eq_true hm) ho hi hres
    · cases h
  · cases h

theorem Flattening.pairsPieces {c : Call} {join : GroupJoin} {left : Bool} {inner : Expr}
    {result : Lambda} (h : Flattening.of? c = some (.pairs join left inner result)) :
    ∃ body, PairsPieces c join body left inner result := by
  obtain ⟨m, r, args⟩ := c
  unfold Flattening.of? at h
  split at h
  · rename_i hm
    split at h
    · rename_i source collection resultArg hargs
      obtain rfl : args = [source, collection, resultArg] := hargs
      unfold Flattening.ofPairs? at h
      simp only [bind, Option.bind_eq_some_iff] at h
      obtain ⟨join', hjoin, ⟨cps, body⟩, hcollection, ⟨rps, pairBody⟩, hresult, h⟩ := h
      split at h
      · rename_i outer group more x y element hparams hcps hrps
        dsimp only at hcps hrps
        subst hcps hrps
        split at h
        · cases h
        · rename_i hcor
          cases h
          exact ⟨_, .intro (of_decide_eq_true hm) (GroupJoin.pieces hjoin) hcollection hresult
            hparams (Bool.eq_false_iff.2 hcor)⟩
      · cases h
    · cases h
  · split at h
    · split at h
      · unfold Flattening.ofMembers? at h
        simp only [bind, Option.bind_eq_some_iff] at h
        obtain ⟨_, _, _, _, h⟩ := h
        split at h
        · split at h <;> cases h
        · cases h
      · cases h
    · cases h

theorem Flattening.membersPieces {c : Call} {join : GroupJoin} {left : Bool} {inner : Expr}
    {outer element : Param} (h : Flattening.of? c = some (.members join left inner outer element)) :
    ∃ body, MembersPieces c join body left inner outer element := by
  obtain ⟨m, r, args⟩ := c
  unfold Flattening.of? at h
  split at h
  · split at h
    · unfold Flattening.ofPairs? at h
      simp only [bind, Option.bind_eq_some_iff] at h
      obtain ⟨_, _, _, _, _, _, h⟩ := h
      split at h
      · split at h <;> cases h
      · cases h
    · cases h
  · split at h
    · rename_i hm
      split at h
      · rename_i source selector hargs
        obtain rfl : args = [source, selector] := hargs
        unfold Flattening.ofMembers? at h
        simp only [bind, Option.bind_eq_some_iff] at h
        obtain ⟨join', hjoin, ⟨sps, body⟩, hselector, h⟩ := h
        split at h
        · rename_i outer group more x element hparams hsps hkey
          dsimp only at hsps
          subst hsps
          split at h
          · cases h
          · rename_i hcor
            cases h
            exact ⟨_, .intro (of_decide_eq_true hm) (GroupJoin.pieces hjoin) hselector hkey hparams
              (Bool.eq_false_iff.2 hcor)⟩
        · cases h
      · cases h
    · cases h

theorem JoinPieces.of? {e : Expr} {join : GroupJoin} (h : JoinPieces e join) :
    GroupJoin.of? e = some join := by
  cases h with
  | intro hm ho hi hr => simp [GroupJoin.of?, Method.is, hm, ho, hi, hr]

/-- A call that has the pieces is flattened. -/
theorem PairsPieces.flattening {c : Call} {join : GroupJoin} {body inner : Expr} {left : Bool}
    {result : Lambda} (h : PairsPieces c join body left inner result) :
    Flattening.of? c = some (.pairs join left inner result) := by
  cases h with
  | intro hm hjoin hcollection hresult hparams hcorrelated =>
    unfold GroupJoin.collected at hcorrelated ⊢
    simp [Flattening.of?, Call.is, Method.is, hm, Flattening.ofPairs?, hjoin.of?, hcollection,
      hresult, hparams, hcorrelated]

theorem MembersPieces.flattening {c : Call} {join : GroupJoin} {body inner : Expr} {left : Bool}
    {outer element : Param} (h : MembersPieces c join body left inner outer element) :
    Flattening.of? c = some (.members join left inner outer element) := by
  cases h with
  | intro hm hjoin hselector helement hparams hcorrelated =>
    have hpairs : Queryable.selectMany ≠ Queryable.selectManyPairs := by decide
    simp [Flattening.of?, Call.is, Method.is, hm, hpairs, Flattening.ofMembers?, hjoin.of?,
      hselector, helement, hparams, hcorrelated]

/-! ## Grouped joins as projections -/

/-- The filter of the inner source that stands for the group of an outer element. -/
def matchingInner (innerElement : Ty) (inner : Expr) (outerKey : Expr) (key element : Param)
    (innerKey : Lambda) : Expr :=
  .apply Queryable.filter [innerElement]
    [asQuery inner, Lambda.quoted ⟨innerKey.params,
      Expr.replace key.id (.param element) (keysMatch outerKey innerKey.body)⟩]

/-- The grouped join becomes a projection of these pieces. -/
inductive CorrelatePieces : Method → List Expr → Method → Expr → Expr → Prop
  | intro {m : Method} {outerElement innerElement keyType resultType : Ty}
      {outer inner outerKeyArg innerKeyArg resultArg outerKey body : Expr} {innerKey : Lambda}
      {key element group : Param} :
      m.typeArgs = [outerElement, innerElement, keyType, resultType] →
      outerKeyArg.lambda? = some ⟨[key], outerKey⟩ → innerKeyArg.lambda? = some innerKey →
      resultArg.lambda? = some ⟨[element, group], body⟩ →
      CorrelatePieces m [outer, inner, outerKeyArg, innerKeyArg, resultArg]
        ⟨Queryable.select, [outerElement, resultType]⟩ outer
        (Lambda.quoted ⟨[element], groupedSelector resultType
          (Expr.replace group.id (matchingInner innerElement inner outerKey key element innerKey)
            body)⟩)

theorem requireLambda_eq_ok {e : Expr} {l : Lambda} (h : requireLambda e = .ok l) :
    e.lambda? = some l := by
  unfold requireLambda at h
  split at h
  · cases h
    assumption
  · cases h

theorem correlatePieces {m select : Method} {args : List Expr} {outer selector : Expr}
    (h : correlate m args = .ok (select, outer, selector)) :
    CorrelatePieces m args select outer selector := by
  unfold correlate at h
  split at h
  · rename_i outerElement innerElement keyType resultType outer' inner outerKeyArg innerKeyArg
      resultArg htypes
    rcases hok : requireLambda outerKeyArg with cause | ⟨oparams, outerKey⟩
    · rw [hok] at h
      cases h
    rcases hik : requireLambda innerKeyArg with cause | innerKey
    · rw [hok, hik] at h
      cases h
    rcases hres : requireLambda resultArg with cause | ⟨rparams, body⟩
    · rw [hok, hik, hres] at h
      cases h
    rw [hok, hik, hres] at h
    dsimp only [bind, Except.bind] at h
    split at h
    · split at h
      · cases h
        exact .intro htypes (requireLambda_eq_ok hok) (requireLambda_eq_ok hik)
          (requireLambda_eq_ok hres)
      · cases h
    · cases h
  · cases h

end QueryNormal
