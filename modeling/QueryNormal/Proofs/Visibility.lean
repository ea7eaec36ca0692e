import Mathlib.Data.Set.Card
import QueryNormal.Proofs.Verdict

/-!
# What the verdict of correlation looks at

* `Expr.Sees`: a node stands at a visible position of a tree.
* `Expr.ChainEnds`: where the chain of member targets and sources ends.
* `scan_correlated_iff`: a scan finds a correlation if there is one at any visible position.
* `roots_scan`: if it finds none, it has counted the visible references to the root.
* `correlated_iff`: the verdict, without a scan.

A position is a path of indices of parts, from the root of the tree to the node. Two references to
one parameter are equal expressions, so that they are counted by their positions.
-/

namespace QueryNormal

open QueryNormal.Expr

/-! ## Positions -/

/-- The receiver and the arguments of the call are out of sight: it is an operator on queries other
than `Where` and `AsQueryable`. -/
def Call.Hides (c : Call) : Prop :=
  c.method.family = .queryable ∧ c.method.name ≠ "Where" ∧ c.method.name ≠ "AsQueryable"

/-- The call is a `Select` by a lambda whose body is its first parameter. -/
inductive Call.IsIdentity : Call → Prop
  | intro {c : Call} {selector : Expr} {p q : Param} {params : List Param} :
      c.method.signature = Queryable.select → c.args[1]? = some selector →
      selector.lambda? = some ⟨p :: params, .param q⟩ → q.id = p.id → IsIdentity c

/-- From the root of the tree, a node is seen at the path, through lambdas that declare the ids. -/
inductive Expr.Sees : Expr → List Nat → List UInt32 → Expr → Prop
  | here {e : Expr} : Sees e [] [] e
  | part {e x y : Expr} {i : Nat} {path : List Nat} {inner : List UInt32} :
      (∀ c, e.call? = some c → ¬ c.Hides) → e.parts[i]? = some x → Sees x path inner y →
      Sees e (i :: path) (e.declared.map Param.id ++ inner) y

section Positions

variable {root : UInt32} {bound : List UInt32} {e : Expr} {s : Scan}

theorem hides_iff {c : Call} :
    c.Hides ↔ c.method.family = .queryable ∧ ¬ passesThrough c.method.name := by
  simp [Call.Hides, passesThrough]

theorem selectsItself_iff_isIdentity {c : Call} : c.selectsItself = true ↔ c.IsIdentity := by
  constructor
  · intro h
    simp only [Call.selectsItself, selectsItself, Bool.and_eq_true] at h
    obtain ⟨hm, h⟩ := h
    split at h
    · rename_i p params q hlambda
      obtain ⟨selector, hselector, hlambda⟩ := Option.bind_eq_some_iff.mp hlambda
      exact .intro (of_decide_eq_true hm) hselector hlambda (of_decide_eq_true h)
    · cases h
  · rintro ⟨hm, hselector, hlambda, hid⟩
    simp [Call.selectsItself, selectsItself, Method.is, hm, hselector, hlambda, hid]

theorem eq_toExpr {c : Call} (h : e.call? = some c) : e = c.toExpr := by
  cases e with
  | call => cases h; rfl
  | _ => cases h

theorem eq_param {p : Param} (h : e.param? = some p) : e = .param p := by
  cases e with
  | param => cases h; rfl
  | _ => cases h

/-- A node is a reference, a call that hides its parts, or a node whose parts are visible. -/
theorem sight_cases (e : Expr) : (∃ p, e = .param p) ∨ (∃ c : Call, e = c.toExpr ∧ c.Hides) ∨
    e.param? = none ∧ ∀ c, e.call? = some c → ¬ c.Hides := by
  cases e with
  | param p => exact .inl ⟨p, rfl⟩
  | call m r args =>
    by_cases hhides : Call.Hides ⟨m, r, args⟩
    · exact .inr (.inl ⟨_, rfl, hhides⟩)
    · refine .inr (.inr ⟨rfl, fun c hc => ?_⟩)
      cases hc
      exact hhides
  | _ => exact .inr (.inr ⟨rfl, fun c hc => by cases hc⟩)

theorem scan_of_hides {c : Call} (hs : s.correlated = false) (h : c.Hides) :
    c.toExpr.scan root bound s = if c.selectsItself then s else s.correlate := by
  rw [Call.toExpr, scan_call, if_neg (by simp [hs]), if_pos (hides_iff.mp h)]
  rfl

theorem scan_of_sight (hs : s.correlated = false) (hparam : e.param? = none)
    (h : ∀ c, e.call? = some c → ¬ c.Hides) :
    e.scan root bound s = scanParts root bound e s := by
  cases e with
  | call m r args =>
    rw [scan_call, if_neg (by simp [hs]), if_neg (hides_iff.not.mp (h _ rfl))]
  | _ => exact scan_eq_scanParts rfl hparam

/-! ## Correlations -/

/-- Under the ids `bound`, a visible call makes the tree correlated, or a visible reference that is
neither bound nor to the root. -/
def Expr.Strays (root : UInt32) (bound : List UInt32) (e : Expr) : Prop :=
  (∃ path inner, ∃ c : Call, e.Sees path inner c.toExpr ∧ c.Hides ∧ ¬ c.IsIdentity) ∨
    ∃ path inner p, e.Sees path inner (.param p) ∧ p.id ≠ root ∧ p.id ∉ bound ++ inner

theorem not_mem_boundIn {inner : List UInt32} {id : UInt32} :
    id ∉ boundIn bound e ++ inner ↔ id ∉ bound ++ (e.declared.map Param.id ++ inner) := by
  simp only [List.mem_append, mem_boundIn, or_assoc]

theorem strays_iff : e.Strays root bound ↔
    (∃ c, e.call? = some c ∧ c.Hides ∧ ¬ c.IsIdentity) ∨
      (∃ p, e.param? = some p ∧ p.id ≠ root ∧ p.id ∉ bound) ∨
      (∀ c, e.call? = some c → ¬ c.Hides) ∧ ∃ x ∈ e.parts, x.Strays root (boundIn bound e) := by
  constructor
  · rintro (⟨path, inner, c, hsees, hc⟩ | ⟨path, inner, p, hsees, hroot, hbound⟩)
    · cases hsees with
      | here => exact .inl ⟨c, rfl, hc⟩
      | part hsight hx hsees =>
        exact .inr (.inr ⟨hsight, _, List.mem_of_getElem? hx, Or.inl ⟨_, _, c, hsees, hc⟩⟩)
    · cases hsees with
      | here => exact .inr (.inl ⟨p, rfl, hroot, by simpa using hbound⟩)
      | part hsight hx hsees =>
        exact .inr (.inr ⟨hsight, _, List.mem_of_getElem? hx,
          Or.inr ⟨_, _, p, hsees, hroot, not_mem_boundIn.mpr hbound⟩⟩)
  · rintro (⟨c, hcall, hc⟩ | ⟨p, hparam, hroot, hbound⟩ | ⟨hsight, x, hx, hstrays⟩)
    · obtain rfl := eq_toExpr hcall
      exact Or.inl ⟨[], [], c, .here, hc⟩
    · obtain rfl := eq_param hparam
      exact Or.inr ⟨[], [], p, .here, hroot, by simpa using hbound⟩
    · obtain ⟨i, hi⟩ := List.getElem?_of_mem hx
      rcases hstrays with ⟨path, inner, c, hsees, hc⟩ | ⟨path, inner, p, hsees, hroot, hbound⟩
      · exact Or.inl ⟨_, _, c, .part hsight hi hsees, hc⟩
      · exact Or.inr ⟨_, _, p, .part hsight hi hsees, hroot, not_mem_boundIn.mp hbound⟩

theorem foldl_correlated_iff {f : Scan → Expr → Scan} {P : Expr → Prop} {xs : List Expr}
    (h : ∀ x ∈ xs, ∀ s, (f s x).correlated = true ↔ s.correlated = true ∨ P x) (s : Scan) :
    (xs.foldl f s).correlated = true ↔ s.correlated = true ∨ ∃ x ∈ xs, P x := by
  induction xs generalizing s with
  | nil => simp
  | cons x xs ih =>
    rw [List.forall_mem_cons] at h
    rw [List.foldl_cons, ih h.2, h.1, or_assoc]
    simp

/-- **A scan finds what there is to find**, whatever it has seen before. -/
theorem scan_correlated_iff :
    (e.scan root bound s).correlated = true ↔ s.correlated = true ∨ e.Strays root bound := by
  induction e using induction_parts generalizing bound s with
  | _ e ih =>
    cases hs : s.correlated with
    | true =>
      have hend : (e.scan root bound s).correlated ≠ false := fun h => by simp [scan_began h] at hs
      simpa using hend
    | false =>
      rw [strays_iff]
      rcases sight_cases e with ⟨p, rfl⟩ | ⟨c, rfl, hhides⟩ | ⟨hparam, hsight⟩
      · change (s.reference root bound p.id).correlated = true ↔ _
        unfold Scan.reference
        by_cases hbound : p.id ∈ bound
        · simp [hbound, hs, call?, param?, parts]
        · by_cases hroot : p.id = root
          · simp [hroot ▸ hbound, hroot, hs, call?, param?, parts]
          · simp [hbound, hroot, Scan.correlate, param?]
      · rw [scan_of_hides hs hhides]
        by_cases hself : c.selectsItself = true
        · have hidentity := selectsItself_iff_isIdentity.mp hself
          simp [hself, hs, Call.toExpr, call?, param?, hhides, hidentity]
        · have hother := selectsItself_iff_isIdentity.not.mp hself
          simp [hself, Scan.correlate, Call.toExpr, call?, hhides, hother]
      · have hparts : (scanParts root bound e s).correlated = true ↔
            s.correlated = true ∨ ∃ x ∈ e.parts, x.Strays root (boundIn bound e) :=
          foldl_correlated_iff (fun x hx s => ih x hx) s
        have hcall : ¬ ∃ c, e.call? = some c ∧ c.Hides ∧ ¬ c.IsIdentity := by
          rintro ⟨c, hc, hhides, -⟩
          exact hsight c hc hhides
        rw [scan_of_sight hs hparam hsight, hparts, and_iff_right hsight]
        simp [hs, hcall, hparam]

/-! ## References to the root -/

/-- Under the ids `bound`, there is a visible reference to the root at the path, which nothing
around it binds. -/
def Expr.RefersAt (root : UInt32) (bound : List UInt32) (e : Expr) (path : List Nat) : Prop :=
  ∃ inner p, e.Sees path inner (.param p) ∧ p.id = root ∧ p.id ∉ bound ++ inner

/-- The paths into a list of trees, numbered from `k`, at which there is such a reference. -/
def pathsInto (root : UInt32) (bound : List UInt32) (k : Nat) (es : List Expr) : Set (List Nat) :=
  {path | ∃ i x rest, path = (k + i) :: rest ∧ es[i]? = some x ∧ x.RefersAt root bound rest}

@[simp] theorem pathsInto_nil (k : Nat) : pathsInto root bound k [] = ∅ := by
  simp [pathsInto]

theorem pathsInto_cons (k : Nat) (es : List Expr) : pathsInto root bound k (e :: es) =
    Set.image (List.cons k) {rest | e.RefersAt root bound rest} ∪ pathsInto root bound (k + 1) es := by
  ext path
  constructor
  · rintro ⟨i, x, rest, rfl, hx, href⟩
    cases i with
    | zero =>
      obtain rfl : e = x := by simpa using hx
      exact .inl ⟨rest, href, rfl⟩
    | succ i => exact .inr ⟨i, x, rest, by rw [Nat.add_right_comm k 1 i]; rfl, hx, href⟩
  · rintro (⟨rest, href, rfl⟩ | ⟨i, x, rest, rfl, hx, href⟩)
    · exact ⟨0, e, rest, rfl, rfl, href⟩
    · exact ⟨i + 1, x, rest, by rw [Nat.add_right_comm k 1 i]; rfl, hx, href⟩

theorem encard_pathsInto_cons (k : Nat) (es : List Expr) :
    (pathsInto root bound k (e :: es)).encard =
      {rest | e.RefersAt root bound rest}.encard + (pathsInto root bound (k + 1) es).encard := by
  have hdisjoint : Disjoint (Set.image (List.cons k) {rest | e.RefersAt root bound rest})
      (pathsInto root bound (k + 1) es) := by
    rw [Set.disjoint_left]
    rintro _ ⟨rest, _, rfl⟩ ⟨i, _, _, heq, _⟩
    have hk : k = k + 1 + i := (List.cons.inj heq).1
    omega
  rw [pathsInto_cons, Set.encard_union_eq hdisjoint, List.cons_injective.encard_image]

theorem refersAt_iff {path : List Nat} : e.RefersAt root bound path ↔
    (path = [] ∧ ∃ p, e.param? = some p ∧ p.id = root ∧ p.id ∉ bound) ∨
      (∀ c, e.call? = some c → ¬ c.Hides) ∧ path ∈ pathsInto root (boundIn bound e) 0 e.parts := by
  constructor
  · rintro ⟨inner, p, hsees, hroot, hbound⟩
    cases hsees with
    | here => exact .inl ⟨rfl, p, rfl, hroot, by simpa using hbound⟩
    | @part _ x _ i rest _ hsight hx hsees =>
      exact .inr ⟨hsight, i, x, rest, by rw [Nat.zero_add], hx, _, p, hsees, hroot,
        not_mem_boundIn.mpr hbound⟩
  · rintro (⟨rfl, p, hparam, hroot, hbound⟩ | ⟨hsight, i, x, rest, rfl, hx, inner, p, hsees, hroot,
      hbound⟩)
    · obtain rfl := eq_param hparam
      exact ⟨[], p, .here, hroot, by simpa using hbound⟩
    · rw [Nat.zero_add]
      exact ⟨_, p, .part hsight hx hsees, hroot, not_mem_boundIn.mp hbound⟩

theorem roots_foldl {es : List Expr}
    (h : ∀ x ∈ es, ∀ s, (x.scan root bound s).correlated = false →
      ((x.scan root bound s).roots : ENat) = s.roots + {path | x.RefersAt root bound path}.encard)
    (k : Nat) (s : Scan) (hend : (es.foldl (fun s x => x.scan root bound s) s).correlated = false) :
    ((es.foldl (fun s x => x.scan root bound s) s).roots : ENat) =
      s.roots + (pathsInto root bound k es).encard := by
  induction es generalizing k s with
  | nil => simp
  | cons x es ih =>
    rw [List.forall_mem_cons] at h
    rw [List.foldl_cons] at hend ⊢
    have hx : (x.scan root bound s).correlated = false :=
      (foldl_correlated (fun _ _ _ => scan_began) hend).1
    rw [ih h.2 (k + 1) _ hend, h.1 s hx, encard_pathsInto_cons, add_assoc]

/-- **A scan without a correlation counts the visible references to the root.** -/
theorem roots_scan (h : (e.scan root bound s).correlated = false) :
    ((e.scan root bound s).roots : ENat) =
      s.roots + {path | e.RefersAt root bound path}.encard := by
  induction e using induction_parts generalizing bound s with
  | _ e ih =>
    have hs := scan_began h
    simp only [refersAt_iff]
    rcases sight_cases e with ⟨p, rfl⟩ | ⟨c, rfl, hhides⟩ | ⟨hparam, hsight⟩
    · change (s.reference root bound p.id).correlated = false at h
      change ((s.reference root bound p.id).roots : ENat) = _
      unfold Scan.reference at h ⊢
      by_cases hbound : p.id ∈ bound
      · simp [hbound, param?, parts]
      · by_cases hroot : p.id = root
        -- the one path is that of the reference itself
        · simp [hroot ▸ hbound, hroot, param?, parts]
        · simp [hbound, hroot, Scan.correlate] at h
    · rw [scan_of_hides hs hhides] at h ⊢
      split at h
      · rename_i hself
        simp [hself, Call.toExpr, call?, param?, hhides]
      · cases h
    · rw [scan_of_sight hs hparam hsight] at h ⊢
      have hroots : ((scanParts root bound e s).roots : ENat) =
          s.roots + (pathsInto root (boundIn bound e) 0 e.parts).encard :=
        roots_foldl (fun x hx s => ih x hx) 0 s h
      simp only [hroots, and_iff_right hsight]
      simp [hparam]

end Positions

/-! ## The chain of sources -/

/-- The chain of sources goes on from a member to its target, and from an operator on queries to its
first argument. -/
inductive Expr.LeadsTo : Expr → Expr → Prop
  | target {target : Expr} {m : Member} : LeadsTo (.member (some target) m) target
  | source {m : Method} {r : Option Expr} {source : Expr} {rest : List Expr} :
      m.family = .queryable → LeadsTo (.call m r (source :: rest)) source

/-- The chain of sources that begins with the expression ends with `last`. -/
def Expr.ChainEnds (e last : Expr) : Prop :=
  Relation.ReflTransGen LeadsTo e last ∧ ∀ x, ¬ last.LeadsTo x

section Chain

variable {root : UInt32} {e x last : Expr}

theorem Expr.LeadsTo.unique {y : Expr} (h : e.LeadsTo x) (h' : e.LeadsTo y) : x = y := by
  cases h <;> cases h' <;> rfl

theorem chainEnds_of_leadsTo (h : e.LeadsTo x) : e.ChainEnds last ↔ x.ChainEnds last := by
  constructor
  · rintro ⟨hchain, hstop⟩
    rcases hchain.cases_head with rfl | ⟨y, hlink, hchain⟩
    · exact absurd h (hstop x)
    · exact ⟨h.unique hlink ▸ hchain, hstop⟩
  · rintro ⟨hchain, hstop⟩
    exact ⟨hchain.head h, hstop⟩

theorem chainEnds_of_stop (h : ∀ x, ¬ e.LeadsTo x) : e.ChainEnds last ↔ last = e := by
  constructor
  · rintro ⟨hchain, -⟩
    rcases hchain.cases_head with rfl | ⟨y, hlink, -⟩
    · rfl
    · exact absurd hlink (h y)
  · rintro rfl
    exact ⟨.refl, h⟩

theorem exists_chainEnds_of_leadsTo {P : Expr → Prop} (h : e.LeadsTo x) :
    (∃ last, e.ChainEnds last ∧ P last) ↔ ∃ last, x.ChainEnds last ∧ P last := by
  simp only [chainEnds_of_leadsTo h]

theorem exists_chainEnds_of_stop {P : Expr → Prop} (h : ∀ x, ¬ e.LeadsTo x) :
    (∃ last, e.ChainEnds last ∧ P last) ↔ P e := by
  simp only [chainEnds_of_stop h, exists_eq_left]

/-- The chain does not start at the root or at a static member if it ends elsewhere. -/
theorem startsAt_eq_false : e.startsAt root = false ↔
    ∃ last, e.ChainEnds last ∧ (∀ p, last = .param p → p.id ≠ root) ∧ ∀ m, last ≠ .member none m := by
  induction e using induction_parts with
  | _ e ih =>
    cases e with
    | member target m =>
      cases target with
      | none =>
        rw [exists_chainEnds_of_stop (by rintro _ ⟨⟩)]
        simp [startsAt]
      | some target => rw [startsAt, ih target (by simp [parts]), exists_chainEnds_of_leadsTo .target]
    | call m r args =>
      cases args with
      | nil =>
        rw [exists_chainEnds_of_stop (by rintro _ ⟨⟩)]
        simp [startsAt]
      | cons source rest =>
        rw [startsAt]
        by_cases hm : m.family = .queryable
        · rw [if_pos hm, ih source (by simp [parts]), exists_chainEnds_of_leadsTo (.source hm)]
        · have hstop : ∀ x, ¬ (call m r (source :: rest)).LeadsTo x := by
            intro x hlink
            cases hlink with
            | source hm' => exact hm hm'
          rw [if_neg hm, exists_chainEnds_of_stop hstop]
          simp
    | param p =>
      rw [exists_chainEnds_of_stop (by rintro _ ⟨⟩)]
      simp [startsAt]
    | _ =>
      rw [exists_chainEnds_of_stop (by rintro _ ⟨⟩)]
      simp [startsAt]

end Chain

/-- **The verdict of correlation.** An expression is correlated with its surroundings if, at a visible
position, there is an operator on queries that is neither `Where`, nor `AsQueryable`, nor a `Select`
of each element itself; or there is a reference that is neither to the root nor declared around it; or
there is exactly one reference to the root that is not declared around it, and the chain of sources
ends neither in a reference to the root nor in a static member. -/
theorem correlated_iff {root : UInt32} {body : Expr} : body.correlated root = true ↔
    (∃ path inner, ∃ c : Call, body.Sees path inner c.toExpr ∧ c.Hides ∧ ¬ c.IsIdentity) ∨
      (∃ path inner p, body.Sees path inner (.param p) ∧ p.id ≠ root ∧ p.id ∉ inner) ∨
      (∃! path, ∃ inner p, body.Sees path inner (.param p) ∧ p.id = root ∧ p.id ∉ inner) ∧
        ∃ last, body.ChainEnds last ∧ (∀ p, last = .param p → p.id ≠ root) ∧
          ∀ m, last ≠ .member none m := by
  have hstrays : (body.scan root [] ⟨0, false⟩).correlated = true ↔ body.Strays root [] := by
    rw [scan_correlated_iff]
    simp
  rw [← startsAt_eq_false, ← or_assoc]
  change _ ↔ body.Strays root [] ∨ (∃! path, body.RefersAt root [] path) ∧ _
  -- a scan that finds a correlation need not count to the end, but then the count does not matter
  by_cases h : body.Strays root []
  · simp [correlated, hstrays.mpr h, h]
  · have hscan : (body.scan root [] ⟨0, false⟩).correlated = false :=
      Bool.eq_false_iff.mpr (hstrays.not.mpr h)
    have hroots : (body.scan root [] ⟨0, false⟩).roots = 1 ↔ ∃! path, body.RefersAt root [] path := by
      rw [← Nat.cast_inj (R := ENat), roots_scan hscan, Nat.cast_zero, zero_add, Nat.cast_one,
        Set.encard_eq_one]
      simp only [Set.eq_singleton_iff_unique_mem]
      rfl
    simp [correlated, hscan, hroots, h]

end QueryNormal
