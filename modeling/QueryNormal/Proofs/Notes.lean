import Mathlib.Data.List.Sort
import QueryNormal.Proofs.Rules
import QueryNormal.Proofs.Ungroup

/-!
# What annotations say

* `Says`: what each annotation does to the fields of the context, operator by operator.
* `says_iff`: this is the effect that is read off its arguments and carried out.
* `Recorded`: the contexts before and after calls of annotations that are carried out first to last.
* `recorded_iff`: there is one such context after the calls, if each of them says something.

A set of names is known by its members (`NameSet.ext`), so that the names of ignored filters are
given by what they are.
-/

namespace QueryNormal

/-! ## Sets of names -/

namespace NameSet

variable {s t : NameSet} {names : List String} {x : String}

theorem mem_insertAll : x ∈ (s.insertAll names).names ↔ x ∈ names ∨ x ∈ s.names := by
  induction names generalizing s with
  | nil => simp [insertAll]
  | cons name names ih =>
    have hstep : s.insertAll (name :: names) = (s.insert name).insertAll names := rfl
    rw [hstep, ih, insert, mem_insertName, List.mem_cons]
    tauto

theorem mem_getD {o : Option NameSet} :
    x ∈ (o.getD .empty).names ↔ ∃ old ∈ o, x ∈ old.names := by
  cases o <;> simp [empty]

theorem ext (h : ∀ x, x ∈ s.names ↔ x ∈ t.names) : s = t := by
  have hnames : s.names = t.names := s.sorted.eq_of_mem_iff t.sorted h
  cases s
  cases t
  cases hnames
  rfl

end NameSet

/-! ## Operators -/

/-- The operators that only say something about a query. -/
def annotatingOperators : List Signature :=
  [Metadata.asTracking, Metadata.asNoTracking, Metadata.asNoTrackingWithIdentityResolution,
    Metadata.tagWith, Metadata.tagWithCallSite, Metadata.ignoreQueryFilters,
    Metadata.ignoreNamedQueryFilters, Metadata.ignoreAutoIncludes]

/-- The operators that only say how a placeholder is sent. -/
def hintingOperators : List Signature := [Hint.constant, Hint.parameter, Hint.multipleParameters]

/-- `Says s args before after`: the operator `s`, called with `args`, the query first, turns the
context `before` into `after`. -/
inductive Says : Signature → List Expr → Context → Context → Prop
  | asTracking {source : Expr} {rest : List Expr} {context : Context} :
      Says Metadata.asTracking (source :: rest) context { context with tracking := .trackAll }
  | asNoTracking {source : Expr} {rest : List Expr} {context : Context} :
      Says Metadata.asNoTracking (source :: rest) context { context with tracking := .noTracking }
  | asNoTrackingWithIdentityResolution {source : Expr} {rest : List Expr} {context : Context} :
      Says Metadata.asNoTrackingWithIdentityResolution (source :: rest) context
        { context with tracking := .noTrackingWithIdentityResolution }
  | tagWith {source : Expr} {rest : List Expr} {context : Context} {text : String} {type : Ty} :
      Says Metadata.tagWith (source :: .const (.string text) type :: rest) context
        { context with tags := context.tags ++ [text] }
  | tagWithCallSite {source : Expr} {rest : List Expr} {context : Context} {file : String}
      {line : Int} {type type' : Ty} :
      Says Metadata.tagWithCallSite
        (source :: .const (.string file) type :: .const (.int line) type' :: rest) context
        { context with tags := context.tags ++ ["File: " ++ file ++ ":" ++ toString line] }
  | ignoreQueryFilters {source : Expr} {rest : List Expr} {context : Context} :
      Says Metadata.ignoreQueryFilters (source :: rest) context
        { context with ignoreFilters := true, ignoredFilters := none }
  /-- Null and the empty collection name no filter. -/
  | ignoreNoQueryFilters {source : Expr} {rest : List Expr} {context : Context} {names : Literal}
      {type : Ty} (empty : names = .null ∨ names = .list []) :
      Says Metadata.ignoreNamedQueryFilters (source :: .const names type :: rest) context context
  /-- The filters of the given names are ignored along with those that were. -/
  | ignoreNamedQueryFilters {source : Expr} {rest : List Expr} {context : Context}
      {names : List String} {type : Ty} {ignored : NameSet} (nonempty : names ≠ [])
      (union : ∀ x, x ∈ ignored.names ↔ x ∈ names ∨ ∃ old ∈ context.ignoredFilters, x ∈ old.names) :
      Says Metadata.ignoreNamedQueryFilters
        (source :: .const (.list (names.map .string)) type :: rest) context
        { context with ignoredFilters := some ignored }
  | ignoreAutoIncludes {source : Expr} {rest : List Expr} {context : Context} :
      Says Metadata.ignoreAutoIncludes (source :: rest) context
        { context with ignoreAutoIncludes := true }

section Operators

variable {m : Method}

theorem isSome_note_iff : (Note.of? m).isSome ↔ m.signature ∈ annotatingOperators := by
  have hall : annotatingOperators = Note.all.map Note.signature := rfl
  rw [hall, Note.of?, List.find?_isSome, List.mem_map]
  exact exists_congr fun n => and_congr_right fun _ => decide_eq_true_iff.trans eq_comm

theorem isSome_hinted_iff : (Mode.hinted? m).isSome ↔ m.signature ∈ hintingOperators := by
  unfold Mode.hinted? Method.is
  split_ifs <;> simp_all [hintingOperators]

theorem not_mem_annotating (h : Note.of? m = none) : m.signature ∉ annotatingOperators := by
  simp [← isSome_note_iff, h]

theorem not_mem_hinting (h : Mode.hinted? m = none) : m.signature ∉ hintingOperators := by
  simp [← isSome_hinted_iff, h]

end Operators

/-! ## Constant arguments -/

namespace Note

variable {m : Method} {a : Option Expr}

theorem readString_iff {text : String} :
    readString m a = .ok text ↔ ∃ type, a = some (.const (.string text) type) := by
  unfold readString
  split <;> simp_all

theorem readInt_iff {value : Int} :
    readInt m a = .ok value ↔ ∃ type, a = some (.const (.int value) type) := by
  unfold readInt
  split <;> simp_all

theorem readItems_iff {items : List Literal} {names : List String} :
    readItems m items = .ok names ↔ items = names.map .string := by
  induction items generalizing names with
  | nil => cases names <;> simp [readItems]
  | cons item items ih =>
    cases item with
    | string value =>
      rw [readItems, bind_eq_ok]
      simp only [ih, pure, Except.pure, Except.ok.injEq]
      constructor
      · rintro ⟨values, rfl, rfl⟩
        rfl
      · intro h
        cases names with
        | nil => cases h
        | cons name names =>
          cases h
          exact ⟨names, rfl, rfl⟩
    | _ => cases names <;> simp [readItems]

theorem readStrings_iff {names : List String} :
    readStrings m a = .ok names ↔
      (∃ type, a = some (.const .null type) ∧ names = []) ∨
        ∃ type, a = some (.const (.list (names.map .string)) type) := by
  unfold readStrings
  split <;> simp_all [readItems_iff]

end Note

/-! ## Effects -/

/-- What the annotation that the call makes says, unless it has no source or its constants cannot be
read. -/
def Call.effect? (c : Call) : Option Effect := do
  let n ← Note.of? c.method
  let _ ← c.args.head?
  (n.effect c.method c.args.tail).toOption

section Effects

variable {m : Method} {n : Note} {source : Expr} {rest : List Expr} {effect : Effect}
  {context : Context} {names : List String}

theorem effect?_eq_some {c : Call} : c.effect? = some effect ↔
    ∃ n source rest, Note.of? c.method = some n ∧ c.args = source :: rest ∧
      n.effect c.method rest = .ok effect := by
  obtain ⟨m, r, args⟩ := c
  cases args with
  | nil => simp [Call.effect?]
  | cons source rest =>
    have hread (n : Note) :
        (n.effect m rest).toOption = some effect ↔ n.effect m rest = .ok effect := by
      cases n.effect m rest <;> simp [Except.toOption]
    simp [Call.effect?, Option.bind_eq_some_iff, hread]

/-- No names change nothing, and others are added to those that there are. -/
theorem says_ignoreNamedFilters {x : Expr} (h : Note.readStrings m (some x) = .ok names) :
    Says Metadata.ignoreNamedQueryFilters (source :: x :: rest) context
      (context.ignoreNamedFilters names) := by
  rcases Note.readStrings_iff.mp h with ⟨type, ⟨⟩, rfl⟩ | ⟨type, ⟨⟩⟩
  · exact .ignoreNoQueryFilters (.inl rfl)
  cases names with
  | nil => exact .ignoreNoQueryFilters (.inr rfl)
  | cons name names =>
    refine .ignoreNamedQueryFilters (by simp) fun x => ?_
    rw [NameSet.mem_insertAll, NameSet.mem_getD]

theorem says_of_effect (hnote : Note.of? m = some n) (h : n.effect m rest = .ok effect) :
    Says m.signature (source :: rest) context (effect.apply context) := by
  rw [Note.signature_of_of? hnote]
  cases n with
  | asTracking => cases h; exact .asTracking
  | asNoTracking => cases h; exact .asNoTracking
  | asNoTrackingWithIdentityResolution => cases h; exact .asNoTrackingWithIdentityResolution
  | tagWith =>
    obtain ⟨text, htext, ⟨⟩⟩ := bind_eq_ok.mp h
    obtain ⟨type, htext⟩ := Note.readString_iff.mp htext
    match rest, htext with
    | _ :: _, rfl => exact .tagWith
  | tagWithCallSite =>
    obtain ⟨file, hfile, h⟩ := bind_eq_ok.mp h
    obtain ⟨line, hline, ⟨⟩⟩ := bind_eq_ok.mp h
    obtain ⟨type, hfile⟩ := Note.readString_iff.mp hfile
    obtain ⟨type', hline⟩ := Note.readInt_iff.mp hline
    match rest, hfile, hline with
    | _ :: _ :: _, rfl, rfl => exact .tagWithCallSite
  | ignoreQueryFilters => cases h; exact .ignoreQueryFilters
  | ignoreNamedQueryFilters =>
    obtain ⟨names, hnames, ⟨⟩⟩ := bind_eq_ok.mp h
    cases rest with
    | nil => cases hnames
    | cons x rest => exact says_ignoreNamedFilters hnames
  | ignoreAutoIncludes => cases h; exact .ignoreAutoIncludes

theorem effect_of_says {s : Signature} {args : List Expr} {before after : Context}
    (h : Says s args before after) (typeArgs : List Ty) :
    ∃ n source rest effect, Note.of? ⟨s, typeArgs⟩ = some n ∧ args = source :: rest ∧
      n.effect ⟨s, typeArgs⟩ rest = .ok effect ∧ after = effect.apply before := by
  cases h with
  | asTracking => exact ⟨.asTracking, _, _, _, rfl, rfl, rfl, rfl⟩
  | asNoTracking => exact ⟨.asNoTracking, _, _, _, rfl, rfl, rfl, rfl⟩
  | asNoTrackingWithIdentityResolution =>
    exact ⟨.asNoTrackingWithIdentityResolution, _, _, _, rfl, rfl, rfl, rfl⟩
  | tagWith => exact ⟨.tagWith, _, _, _, rfl, rfl, rfl, rfl⟩
  | tagWithCallSite => exact ⟨.tagWithCallSite, _, _, _, rfl, rfl, rfl, rfl⟩
  | ignoreQueryFilters => exact ⟨.ignoreQueryFilters, _, _, _, rfl, rfl, rfl, rfl⟩
  | ignoreNoQueryFilters hempty =>
    rcases hempty with rfl | rfl <;>
      exact ⟨.ignoreNamedQueryFilters, _, _, .ignoreNamedFilters [], rfl, rfl, rfl, rfl⟩
  | @ignoreNamedQueryFilters _ _ _ names _ ignored hnonempty hunion =>
    refine ⟨.ignoreNamedQueryFilters, _, _, .ignoreNamedFilters names, rfl, rfl, ?_, ?_⟩
    · exact bind_eq_ok.mpr ⟨names, Note.readStrings_iff.mpr (.inr ⟨_, rfl⟩), rfl⟩
    · have hignored : ignored = (before.ignoredFilters.getD .empty).insertAll names :=
        NameSet.ext fun x => by rw [hunion, NameSet.mem_insertAll, NameSet.mem_getD]
      rw [Effect.apply, Context.ignoreNamedFilters, if_neg (by simpa using hnonempty), hignored]
  | ignoreAutoIncludes => exact ⟨.ignoreAutoIncludes, _, _, _, rfl, rfl, rfl, rfl⟩

end Effects

/-- **What an annotation says** is what is read off its arguments and carried out. -/
theorem says_iff {c : Call} {before after : Context} :
    Says c.method.signature c.args before after ↔
      ∃ effect, c.effect? = some effect ∧ after = effect.apply before := by
  constructor
  · intro h
    obtain ⟨n, source, rest, effect, hnote, hargs, heffect, hafter⟩ :=
      effect_of_says h c.method.typeArgs
    exact ⟨effect, effect?_eq_some.mpr ⟨n, source, rest, hnote, hargs, heffect⟩, hafter⟩
  · rintro ⟨effect, h, rfl⟩
    obtain ⟨n, source, rest, hnote, hargs, heffect⟩ := effect?_eq_some.mp h
    rw [hargs]
    exact says_of_effect hnote heffect

/-! ## One after the other -/

/-- The context after the effects, first to last. -/
def Context.after (context : Context) (effects : List Effect) : Context :=
  effects.foldl (fun c effect => effect.apply c) context

theorem Context.after_append (context : Context) (first second : List Effect) :
    context.after (first ++ second) = (context.after first).after second :=
  List.foldl_append

/-- The calls of annotations are carried out first to last, each once. -/
inductive Recorded : List Call → Context → Context → Prop
  | nil {context : Context} : Recorded [] context context
  | cons {c : Call} {cs : List Call} {before between after : Context}
      (head : Says c.method.signature c.args before between) (tail : Recorded cs between after) :
      Recorded (c :: cs) before after

/-- If each of the calls says something, there is one context after them. -/
theorem recorded_iff {cs : List Call} {effects : List Effect} {before after : Context}
    (h : cs.map Call.effect? = effects.map some) :
    Recorded cs before after ↔ after = before.after effects := by
  induction cs generalizing effects before with
  | nil =>
    obtain rfl : effects = [] := by simpa using h.symm
    exact ⟨fun h => by cases h; rfl, fun h => h ▸ .nil⟩
  | cons c cs ih =>
    cases effects with
    | nil => cases h
    | cons effect effects =>
      obtain ⟨hhead, htail⟩ := List.cons.inj h
      constructor
      · intro hrecorded
        cases hrecorded with
        | cons hsays hrest =>
          obtain ⟨effect', heffect, rfl⟩ := says_iff.mp hsays
          cases hhead.symm.trans heffect
          exact (ih htail).mp hrest
      · intro hafter
        exact .cons (says_iff.mpr ⟨effect, hhead, rfl⟩) ((ih htail).mpr hafter)

end QueryNormal
