import QueryNormal.Reduction

/-!
# How a reducing computation ends

* `Reduction.Yields`: a computation ends with a value, and how it leaves the state.
* `Reduction.Fails`: a computation ends with a failure, and how it leaves the state.

One lemma for each way to build a computation takes a run apart. Proofs about the passes cite these
and do not unfold the monad.
-/

namespace QueryNormal

namespace Reduction

variable {α β : Type} {s t : ReductionState} {a c : α} {b : β}

/-- Begun in the state `s`, the computation ends with the value `a` in the state `t`. -/
def Yields (x : Reduction α) (s : ReductionState) (a : α) (t : ReductionState) : Prop :=
  (x.run.run s).run = (.ok a, t)

/-- Begun in the state `s`, the computation ends with the failure `f` in the state `t`. -/
def Fails (x : Reduction α) (s : ReductionState) (f : Failure) (t : ReductionState) : Prop :=
  (x.run.run s).run = (.error f, t)

/-- A computation yields a value or fails. -/
theorem yields_or_fails (x : Reduction α) (s : ReductionState) :
    (∃ a t, Yields x s a t) ∨ ∃ f t, Fails x s f t := by
  rcases h : (x.run.run s).run with ⟨r, t⟩
  cases r with
  | ok a => exact .inl ⟨a, t, h⟩
  | error f => exact .inr ⟨f, t, h⟩

/-! ## Values -/

@[simp] theorem yields_pure : Yields (pure a) s c t ↔ a = c ∧ s = t := by
  constructor
  · intro h
    cases h
    exact ⟨rfl, rfl⟩
  · rintro ⟨rfl, rfl⟩
    rfl

/-- A computation goes on from the value of the first step. -/
theorem Yields.run_bind {x : Reduction α} {f : α → Reduction β} {u : ReductionState}
    (h : Yields x s a u) : ((x >>= f).run.run s).run = ((f a).run.run u).run := by
  unfold Yields at h
  simp only [ExceptT.run_bind, StateT.run_bind, Id.run_bind, h]

/-- A computation ends with a failure of the first step. -/
theorem Fails.bind {x : Reduction α} {f : α → Reduction β} {failure : Failure}
    (h : Fails x s failure t) : Fails (x >>= f) s failure t := by
  unfold Fails at h ⊢
  simp only [ExceptT.run_bind, StateT.run_bind, Id.run_bind, h]
  rfl

theorem Yields.not_fails {x : Reduction α} {f : Failure} {u : ReductionState} (h : Yields x s a t) :
    ¬ Fails x s f u := by
  intro hf
  cases h.symm.trans hf

theorem yields_bind {x : Reduction α} {f : α → Reduction β} :
    Yields (x >>= f) s b t ↔ ∃ a u, Yields x s a u ∧ Yields (f a) u b t := by
  constructor
  · intro h
    rcases yields_or_fails x s with ⟨a, u, hx⟩ | ⟨e, u, hx⟩
    · exact ⟨a, u, hx, hx.run_bind.symm.trans h⟩
    · exact absurd hx.bind h.not_fails
  · rintro ⟨a, u, hx, hf⟩
    exact hx.run_bind.trans hf

@[simp] theorem not_yields_fail {f : Failure} : ¬ Yields (fail f : Reduction α) s a t := by
  intro h
  cases h

@[simp] theorem not_yields_misuse {cause : Misuse} :
    ¬ Yields (misuse cause : Reduction α) s a t := by
  intro h
  cases h

@[simp] theorem yields_ofExcept {x : Except Failure α} :
    Yields (ofExcept x) s a t ↔ x = .ok a ∧ s = t := by
  cases x with
  | ok c => simp [ofExcept]
  | error f => simp [ofExcept]

@[simp] theorem yields_perform {effect : Effect} {u : Unit} :
    Yields (perform effect) s u t ↔ { s with context := effect.apply s.context } = t := by
  constructor
  · intro h
    cases h
    rfl
  · rintro rfl
    rfl

@[simp] theorem yields_fresh {name : String} {ty : Ty} {p : Param} :
    Yields (fresh name ty) s p t ↔
      ⟨s.supply.next, name, ty⟩ = p ∧ { s with supply := ⟨s.supply.next + 1⟩ } = t := by
  constructor
  · intro h
    cases h
    exact ⟨rfl, rfl⟩
  · rintro ⟨rfl, rfl⟩
    rfl

/-! ## Failures -/

section Failures

variable {f g : Failure}

@[simp] theorem not_fails_pure : ¬ Fails (pure a : Reduction α) s f t := by
  intro h
  cases h

theorem fails_bind {x : Reduction α} {k : α → Reduction β} :
    Fails (x >>= k) s f t ↔ Fails x s f t ∨ ∃ a u, Yields x s a u ∧ Fails (k a) u f t := by
  constructor
  · intro h
    rcases yields_or_fails x s with ⟨a, u, hx⟩ | ⟨e, u, hx⟩
    · exact .inr ⟨a, u, hx, hx.run_bind.symm.trans h⟩
    · cases hx.bind.symm.trans h
      exact .inl hx
  · rintro (h | ⟨a, u, hx, hk⟩)
    · exact h.bind
    · exact hx.run_bind.trans hk

@[simp] theorem fails_fail : Fails (fail g : Reduction α) s f t ↔ g = f ∧ s = t := by
  constructor
  · intro h
    cases h
    exact ⟨rfl, rfl⟩
  · rintro ⟨rfl, rfl⟩
    rfl

@[simp] theorem fails_misuse {cause : Misuse} :
    Fails (misuse cause : Reduction α) s f t ↔ .problem (.misuse cause) = f ∧ s = t :=
  fails_fail

@[simp] theorem fails_ofExcept {x : Except Failure α} :
    Fails (ofExcept x) s f t ↔ x = .error f ∧ s = t := by
  cases x with
  | ok c => simp [ofExcept]
  | error g => simp [ofExcept]

@[simp] theorem not_fails_perform {effect : Effect} : ¬ Fails (perform effect) s f t := by
  intro h
  cases h

@[simp] theorem not_fails_fresh {name : String} {ty : Ty} : ¬ Fails (fresh name ty) s f t := by
  intro h
  cases h

end Failures

end Reduction

end QueryNormal
