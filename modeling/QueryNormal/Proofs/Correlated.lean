import QueryNormal.Proofs.Calls

/-!
# What a verdict of no correlation says

* `Call.selectsItself`: a call projects each element to itself.
* `Expr.hidden`: what is free in such calls.
* `free_of_not_correlated`: an expression that is not correlated, and in which no call projects each
  element to itself, refers to the group only.

A scan does not look at the arguments of a projection of each element to itself, so that the verdict
says nothing about what is free in them (`root_or_hidden`).
-/

namespace QueryNormal

open QueryNormal.Expr

/-- Whether the call projects each element to itself. -/
def Call.selectsItself (c : Call) : Bool := QueryNormal.selectsItself c.method c.args

/-- The ids that are free in calls that project each element to itself, where a scan does not see
them. -/
def Expr.hidden (e : Expr) : List UInt32 :=
  (e.calls.filter Call.selectsItself).flatMap fun c => c.toExpr.free

theorem mem_hidden {e : Expr} {id : UInt32} :
    id ∈ e.hidden ↔ ∃ c ∈ e.calls, c.selectsItself = true ∧ id ∈ c.toExpr.free := by
  simp [Expr.hidden, and_assoc]

theorem hidden_part {e x : Expr} (hx : x ∈ e.parts) : x.hidden ⊆ e.hidden := by
  intro id hid
  obtain ⟨c, hc, hself, hfree⟩ := mem_hidden.mp hid
  refine mem_hidden.mpr ⟨c, ?_, hself, hfree⟩
  rw [calls_eq]
  exact List.mem_append_right _ (List.mem_flatMap.mpr ⟨x, hx, hc⟩)

section Scan

variable {root : UInt32} {bound : List UInt32}

/-- The ids that are bound inside a node. -/
def boundIn (bound : List UInt32) : Expr → List UInt32
  | .lambda params _ => bound ++ params.map Param.id
  | _ => bound

/-- The scan of the parts of a node, from left to right. -/
def scanParts (root : UInt32) (bound : List UInt32) (e : Expr) (s : Scan) : Scan :=
  e.parts.foldl (fun s x => x.scan root (boundIn bound e) s) s

theorem scanList_eq_foldl : ∀ (es : List Expr) (s : Scan),
    scanList root bound es s = es.foldl (fun s x => x.scan root bound s) s
  | [], _ => rfl
  | e :: es, s => scanList_eq_foldl es (e.scan root bound s)

theorem scanBindings_eq_foldl : ∀ (bs : List Binding) (s : Scan),
    scanBindings root bound bs s =
      (bs.flatMap Binding.values).foldl (fun s x => x.scan root bound s) s
  | [], _ => rfl
  | .assign _ value :: bs, s => scanBindings_eq_foldl bs (value.scan root bound s)
  | .items _ values :: bs, s => by
    rw [scanBindings, scanBindings_eq_foldl, scanList_eq_foldl, List.flatMap_cons,
      List.foldl_append, Binding.values]

theorem scan_eq_scanParts {e : Expr} {s : Scan} (hcall : e.call? = none) (hparam : e.param? = none) :
    e.scan root bound s = scanParts root bound e s := by
  cases e with
  | call m r args => cases hcall
  | param p => cases hparam
  | member target m => cases target <;> rfl
  | newWith type args names bindings =>
    change scanBindings root bound bindings (scanList root bound args s) = List.foldl _ _ (_ ++ _)
    rw [scanList_eq_foldl, scanBindings_eq_foldl, List.foldl_append]
    rfl
  | new type args names => exact scanList_eq_foldl args s
  | _ => rfl

theorem scan_call (m : Method) (r : Option Expr) (args : List Expr) (s : Scan) :
    (call m r args).scan root bound s =
      if s.correlated then s
      else if m.family = .queryable ∧ ¬ passesThrough m.name then
        if selectsItself m args then s else s.correlate
      else scanParts root bound (call m r args) s := by
  have hparts : scanParts root bound (call m r args) s =
      scanList root bound args (r.elim s fun r => r.scan root bound s) := by
    rw [scanList_eq_foldl]
    cases r <;> rfl
  rw [hparts]
  cases r <;> rfl

/-- A scan that ends without a correlation began without one, and has seen a reference that is bound
or to the root, passed over a projection of each element to itself, or scanned the parts. -/
theorem scan_cases {e : Expr} {s : Scan} (h : (e.scan root bound s).correlated = false) :
    (∃ p, e.param? = some p ∧ s.correlated = false ∧ (p.id ∈ bound ∨ p.id = root)) ∨
      (∃ c, e.call? = some c ∧ c.selectsItself = true ∧ s.correlated = false) ∨
      e.param? = none ∧ (scanParts root bound e s).correlated = false := by
  cases e with
  | call m r args =>
    rw [scan_call] at h
    split at h
    · rename_i hs
      rw [hs] at h
      cases h
    · split at h
      · split at h
        · exact .inr (.inl ⟨_, rfl, ‹_›, h⟩)
        · cases h
      · exact .inr (.inr ⟨rfl, h⟩)
  | param p =>
    change (s.reference root bound p.id).correlated = false at h
    unfold Scan.reference at h
    split at h
    · rename_i hbound
      exact .inl ⟨p, rfl, h, .inl (by simpa using hbound)⟩
    · split at h
      · exact .inl ⟨p, rfl, h, .inr ‹_›⟩
      · cases h
  | _ => exact .inr (.inr ⟨rfl, by rwa [scan_eq_scanParts rfl rfl] at h⟩)

theorem foldl_correlated {f : Scan → Expr → Scan} : ∀ {xs : List Expr} {s : Scan},
    (∀ x ∈ xs, ∀ s, (f s x).correlated = false → s.correlated = false) →
    (xs.foldl f s).correlated = false →
      s.correlated = false ∧ ∀ x ∈ xs, ∃ s, (f s x).correlated = false
  | [], s, _, h => ⟨h, by simp⟩
  | x :: xs, s, hf, h => by
    rw [List.forall_mem_cons] at hf
    obtain ⟨hx, hxs⟩ := foldl_correlated hf.2 h
    exact ⟨hf.1 s hx, List.forall_mem_cons.mpr ⟨⟨s, hx⟩, hxs⟩⟩

/-- Once a scan has seen a correlation, it ends with one. -/
theorem scan_began {e : Expr} {bound : List UInt32} {s : Scan}
    (h : (e.scan root bound s).correlated = false) : s.correlated = false := by
  induction e using induction_parts generalizing bound s with
  | _ e ih =>
    rcases scan_cases h with ⟨_, _, hs, _⟩ | ⟨_, _, _, hs⟩ | ⟨_, hparts⟩
    · exact hs
    · exact hs
    · exact (foldl_correlated (fun x hx s hs => ih x hx hs) hparts).1

/-- A scan without a correlation has seen all references but hidden ones. -/
theorem free_of_scan {e : Expr} {bound : List UInt32} {s : Scan}
    (h : (e.scan root bound s).correlated = false) :
    ∀ id ∈ e.free, id ∈ bound ∨ id = root ∨ id ∈ e.hidden := by
  induction e using induction_parts generalizing bound s with
  | _ e ih =>
    intro id hid
    rcases scan_cases h with ⟨p, hp, _, hbound⟩ | ⟨c, hc, hself, _⟩ | ⟨hnone, hparts⟩
    · rcases mem_free.mp hid with ⟨p', hp', rfl⟩ | ⟨_, x, hx, _⟩
      · rw [hp] at hp'
        cases hp'
        exact hbound.imp_right .inl
      · cases e <;> cases hp
        cases hx
    · have hmem : c ∈ e.calls := by
        rw [calls_eq, hc]
        exact List.mem_cons_self
      cases e <;> cases hc
      exact .inr (.inr (mem_hidden.mpr ⟨_, hmem, hself, hid⟩))
    · obtain ⟨_, hseen⟩ := foldl_correlated (fun x _ s => scan_began) hparts
      rcases mem_free.mp hid with ⟨p, hp, _⟩ | ⟨hdeclared, x, hx, hid⟩
      · rw [hnone] at hp
        cases hp
      · obtain ⟨s', hx'⟩ := hseen x hx
        rcases ih x hx hx' id hid with hbound | hroot | hhidden
        · left
          cases e with
          | lambda => exact (List.mem_append.mp hbound).resolve_right hdeclared
          | _ => exact hbound
        · exact .inr (.inl hroot)
        · exact .inr (.inr (hidden_part hx hhidden))

theorem scan_of_not_correlated {e : Expr} (h : e.correlated root = false) :
    (e.scan root [] ⟨0, false⟩).correlated = false := by
  simp only [correlated, Bool.or_eq_false_iff] at h
  exact h.1

/-- What is not correlated refers to the group, and to what is hidden. -/
theorem root_or_hidden {e : Expr} (h : e.correlated root = false) :
    ∀ id ∈ e.free, id = root ∨ id ∈ e.hidden := by
  intro id hid
  exact (free_of_scan (scan_of_not_correlated h) id hid).resolve_left (by simp)

/-- **No correlation.** -/
theorem free_of_not_correlated {e : Expr} (he : e.EveryCall fun c => c.selectsItself = false)
    (h : e.correlated root = false) : ∀ id ∈ e.free, id = root := by
  intro id hid
  refine (root_or_hidden h id hid).resolve_right fun hhidden => ?_
  obtain ⟨c, hc, hself, _⟩ := mem_hidden.mp hhidden
  exact absurd hself (by simp [he c hc])

end Scan

end QueryNormal
