import QueryNormal.Normalize

/-!
# Why a rule applies

* `RuleCase`: why a rule applies to a call; every rule that is tried before it does not.
* `SugarCase`: why a binary operation is shorthand.
* `indexed_iff`, `membership_iff`, `counted_iff`: when a call reads a list at a position, when it asks
  for an item, and when an expression counts.

A rule that applies to a method tells its family, and so a method of another family is out of its
reach (`note_eq_none`, `hint_eq_none`, `membership_eq_none`, `ordering_eq_none`).
-/

namespace QueryNormal

/-! ## Calls -/

/-- Why a rule applies to a call: every rule that is tried before it does not. -/
inductive RuleCase (m : Method) (r : Option Expr) (args : List Expr) : Rule → Prop
  | note {n : Note} (note : Note.of? m = some n) : RuleCase m r args (.note n)
  | hint {mode : Mode} (note : Note.of? m = none) (hint : Mode.hinted? m = some mode) :
      RuleCase m r args (.hint mode)
  | index {element : Ty} (note : Note.of? m = none) (hint : Mode.hinted? m = none)
      (index : indexedElement? m r args = some element) : RuleCase m r args (.index element)
  | inMemory (note : Note.of? m = none) (hint : Mode.hinted? m = none)
      (index : indexedElement? m r args = none) (family : m.family = .enumerable) :
      RuleCase m r args .inMemory
  | membership {element : Ty} (note : Note.of? m = none) (hint : Mode.hinted? m = none)
      (index : indexedElement? m r args = none) (family : m.family ≠ .enumerable)
      (membership : membershipElement? m = some element) : RuleCase m r args (.membership element)
  | loading (note : Note.of? m = none) (hint : Mode.hinted? m = none)
      (index : indexedElement? m r args = none) (family : m.family ≠ .enumerable)
      (membership : membershipElement? m = none) (loading : loadsOrdered m args = true) :
      RuleCase m r args .loading
  | other (note : Note.of? m = none) (hint : Mode.hinted? m = none)
      (index : indexedElement? m r args = none) (family : m.family ≠ .enumerable)
      (membership : membershipElement? m = none) (loading : loadsOrdered m args = false) :
      RuleCase m r args .other

theorem ruleCase {m : Method} {r : Option Expr} {args : List Expr} {rule : Rule}
    (h : Rule.of m r args = rule) : RuleCase m r args rule := by
  subst h
  unfold Rule.of
  split
  · exact .note ‹_›
  · rename_i hnote
    rw [← Option.eq_none_iff_forall_ne_some] at hnote
    split
    · exact .hint hnote ‹_›
    · rename_i hhint
      rw [← Option.eq_none_iff_forall_ne_some] at hhint
      split
      · exact .index hnote hhint ‹_›
      · rename_i hindex
        rw [← Option.eq_none_iff_forall_ne_some] at hindex
        split
        · exact .inMemory hnote hhint hindex ‹_›
        · rename_i hfamily
          split
          · exact .membership hnote hhint hindex hfamily ‹_›
          · rename_i hmembership
            rw [← Option.eq_none_iff_forall_ne_some] at hmembership
            split
            · exact .loading hnote hhint hindex hfamily hmembership ‹_›
            · rename_i hloading
              exact .other hnote hhint hindex hfamily hmembership (Bool.eq_false_iff.mpr hloading)

section Methods

variable {m : Method} {r : Option Expr} {args : List Expr} {c : Call}

theorem Note.signature_of_of? {n : Note} (h : Note.of? m = some n) :
    m.signature = n.signature := by
  have hfound := List.find?_some h
  exact of_decide_eq_true hfound

theorem Note.family_of_of? {n : Note} (h : Note.of? m = some n) : m.family = .metadata := by
  rw [Method.family, Note.signature_of_of? h]
  cases n <;> rfl

theorem note_eq_none (h : m.family ≠ .metadata) : Note.of? m = none :=
  Option.eq_none_iff_forall_ne_some.mpr fun _ hn => h (Note.family_of_of? hn)

theorem mem_hints_of_hinted {mode : Mode} (h : Mode.hinted? m = some mode) :
    m.signature ∈ Hint.all := by
  unfold Mode.hinted? Method.is at h
  split at h
  · simp_all [Hint.all]
  · split at h
    · simp_all [Hint.all]
    · split at h
      · simp_all [Hint.all]
      · cases h

theorem hint_eq_none (h : ∀ s ∈ Hint.all, m.family ≠ s.family) : Mode.hinted? m = none :=
  Option.eq_none_iff_forall_ne_some.mpr fun _ hmode => h _ (mem_hints_of_hinted hmode) rfl

theorem family_of_owner {owner : Ty} (h : m.owner? = some owner) : m.family = .ofType owner := by
  unfold Method.owner? Signature.owner? at h
  split at h
  · cases h
    assumption
  · cases h

/-- When a call reads a list at a position. -/
theorem indexed_iff {element : Ty} : indexedElement? m r args = some element ↔
    (m.name = "get_Item" ∧ ¬ m.isStatic ∧ args.length = 1) ∧
      ∃ owner, m.owner? = some owner ∧ (owner.elementAs? .readOnlyList).isSome ∧
        ∃ target, r = some target ∧ target.ty.element? = some element := by
  unfold indexedElement?
  split
  · rename_i hm
    simp [hm, bind, Option.bind_eq_some_iff, Option.isSome_iff_exists]
  · rename_i hm
    exact ⟨nofun, fun h => absurd h.1 hm⟩

theorem exists_of_index {element : Ty} (h : Rule.of m r args = .index element) :
    ∃ target position, r = some target ∧ args = [position] := by
  cases ruleCase h with
  | index _ _ hindex =>
    obtain ⟨⟨-, -, hone⟩, _, -, -, target, htarget, -⟩ := indexed_iff.mp hindex
    obtain ⟨position, hposition⟩ := List.length_eq_one_iff.mp hone
    exact ⟨target, position, htarget, hposition⟩

theorem owner_of_indexed {element : Ty} (h : indexedElement? m r args = some element) :
    m.name = "get_Item" ∧
      ∃ owner, m.family = .ofType owner ∧ (owner.elementAs? .readOnlyList).isSome := by
  obtain ⟨hm, owner, howner, hlist, -⟩ := indexed_iff.mp h
  exact ⟨hm.1, owner, family_of_owner howner, hlist⟩

/-- When a call asks its receiver for an item. -/
theorem membership_iff {element : Ty} : membershipElement? m = some element ↔
    (m.name = "Contains" ∧ ¬ m.isStatic) ∧
      ∃ owner, m.owner? = some owner ∧ owner.elementAs? .collection = some element := by
  unfold membershipElement?
  split
  · rename_i hm
    simp [hm, bind, Option.bind_eq_some_iff]
  · rename_i hm
    exact ⟨nofun, fun h => absurd h.1 hm⟩

theorem owner_of_membership {element : Ty} (h : membershipElement? m = some element) :
    m.name = "Contains" ∧
      ∃ owner, m.family = .ofType owner ∧ (owner.elementAs? .collection).isSome := by
  obtain ⟨hm, owner, howner, hcollection⟩ := membership_iff.mp h
  exact ⟨hm.1, owner, family_of_owner howner, by simp [hcollection]⟩

theorem membership_eq_none (h : ∀ owner, m.family ≠ .ofType owner) :
    membershipElement? m = none := by
  refine Option.eq_none_iff_forall_ne_some.mpr fun _ hmember => ?_
  obtain ⟨-, owner, hfamily, -⟩ := owner_of_membership hmember
  exact h owner hfamily

theorem mem_loading_of_loadsOrdered (h : loadsOrdered m args = true) :
    m.signature ∈ Metadata.loading := by
  simp only [loadsOrdered, Bool.and_eq_true, List.any_eq_true] at h
  obtain ⟨⟨-, s, hs, hm⟩, -⟩ := h
  rw [show m.signature = s from of_decide_eq_true hm]
  exact hs

theorem family_of_mem_loading (h : m.signature ∈ Metadata.loading) : m.family = .metadata :=
  (by decide : ∀ s ∈ Metadata.loading, s.family = .metadata) _ h

theorem family_of_loadsOrdered (h : loadsOrdered m args = true) : m.family = .metadata :=
  family_of_mem_loading (mem_loading_of_loadsOrdered h)

theorem keyedOrdering_cases {ordering : Signature} (h : keyedOrdering? m = some ordering) :
    (m.signature = Queryable.order ∧ ordering = Queryable.orderBy) ∨
      (m.signature = Queryable.orderDescending ∧ ordering = Queryable.orderByDescending) := by
  unfold keyedOrdering? at h
  split at h
  · rename_i hm
    exact .inl ⟨of_decide_eq_true hm, (Option.some.inj h).symm⟩
  · split at h
    · rename_i hm
      exact .inr ⟨of_decide_eq_true hm, (Option.some.inj h).symm⟩
    · cases h

theorem ordering_eq_none (h : m.family ≠ .queryable) : keyedOrdering? m = none := by
  refine Option.eq_none_iff_forall_ne_some.mpr fun _ hord => h ?_
  rw [Method.family]
  rcases keyedOrdering_cases hord with ⟨hm, -⟩ | ⟨hm, -⟩ <;> rw [hm] <;> rfl

theorem isGenericQuery_of_keyedOrdering {ordering : Signature}
    (h : keyedOrdering? c.method = some ordering) :
    c.isGenericQuery = true ∧
      (ordering = Queryable.orderBy ∨ ordering = Queryable.orderByDescending) := by
  unfold Call.isGenericQuery Method.family Method.isGeneric
  rcases keyedOrdering_cases h with ⟨hm, rfl⟩ | ⟨hm, rfl⟩ <;> rw [hm]
  · exact ⟨by decide, .inl rfl⟩
  · exact ⟨by decide, .inr rfl⟩

theorem is_selectMany_of_flattening {f : Flattening} (h : Flattening.of? c = some f) :
    c.method.signature = Queryable.selectManyPairs ∨ c.method.signature = Queryable.selectMany := by
  unfold Flattening.of? Call.is Method.is at h
  split at h
  · rename_i hm
    exact .inl (of_decide_eq_true hm)
  · split at h
    · rename_i hm
      exact .inr (of_decide_eq_true hm)
    · cases h

theorem isGenericQuery_of_flattening {f : Flattening} (h : Flattening.of? c = some f) :
    c.isGenericQuery = true := by
  unfold Call.isGenericQuery Method.family Method.isGeneric
  rcases is_selectMany_of_flattening h with hm | hm <;> rw [hm] <;> decide

end Methods

/-! ## Binary operations -/

/-- When an expression counts: a count of a collection, or the length of an array. -/
theorem counted_iff {e source : Expr} : countedSource? e = some source ↔
    (∃ m, e = .member (some source) m ∧ m.name = "Count" ∧ m.owner.has .collection = true) ∨
      e = .unary .arrayLength source := by
  constructor
  · intro h
    unfold countedSource? at h
    split at h
    · split at h <;> cases h
      exact .inl ⟨_, rfl, ‹_›⟩
    · cases h
      exact .inr rfl
    · cases h
  · rintro (⟨m, rfl, hm⟩ | rfl)
    · exact if_pos hm
    · rfl

/-- Why a binary operation is shorthand. -/
inductive SugarCase (lhs rhs : Expr) : BinOp → Sugar → Prop
  | elementAt {element : Ty} : lhs.ty.element? = some element →
      SugarCase lhs rhs .arrayIndex (.elementAt element)
  | nonEmpty {op : BinOp} {source : Expr} {type element : Ty} : op = .greater ∨ op = .notEqual →
      rhs = .const (.int 0) type → countedSource? lhs = some source →
      source.ty.element? = some element → SugarCase lhs rhs op (.nonEmpty element)

theorem sugarCase {op : BinOp} {lhs rhs : Expr} {sugar : Sugar}
    (h : Sugar.of? op lhs rhs = some sugar) : SugarCase lhs rhs op sugar := by
  have hzero (hrhs : isZero rhs = true) : ∃ type, rhs = .const (.int 0) type := by
    unfold isZero Literal.isZero at hrhs
    repeat' split at hrhs
    all_goals simp_all
  have hcompared (hop : op = .greater ∨ op = .notEqual)
      (h : (if isZero rhs then do
        let source ← countedSource? lhs
        let element ← source.ty.element?
        return .nonEmpty element
      else none) = some sugar) : SugarCase lhs rhs op sugar := by
    split at h
    · rename_i hrhs
      obtain ⟨type, hrhs⟩ := hzero hrhs
      simp only [bind, Option.bind_eq_some_iff] at h
      obtain ⟨source, hsource, element, helement, h⟩ := h
      cases h
      exact .nonEmpty hop hrhs hsource helement
    · cases h
  unfold Sugar.of? at h
  split at h
  · obtain ⟨element, helement, rfl⟩ := Option.map_eq_some_iff.mp h
    exact .elementAt helement
  · exact hcompared (.inl rfl) h
  · exact hcompared (.inr rfl) h
  · cases h

end QueryNormal
