import QueryNormal.Context
import QueryNormal.Error
import QueryNormal.Expr.Nodes

/-!
# Reduction steps

* `Reduction`: a computation that reads and extends a context, takes fresh parameters and may fail.
* `Provider`: what the query provider can do.

A failure keeps the context as it was left.
-/

namespace QueryNormal

/-- What the query provider can do. -/
structure Provider where
  /-- Values can be inlined as constants. -/
  constants : Bool
deriving DecidableEq, Repr, Inhabited

/-- What reduction changes on the way. -/
structure ReductionState where
  context : Context
  supply : ParamSupply

/-- A reducing computation. -/
abbrev Reduction (α : Type) : Type := ExceptT Failure (StateM ReductionState) α

namespace Reduction

/-- Ends with a failure. -/
def fail {α : Type} (f : Failure) : Reduction α := throw f

/-- Ends because a call is not what its operator requires. -/
def misuse {α : Type} (cause : Misuse) : Reduction α := fail (.problem (.misuse cause))

/-- The value, or the failure. -/
def ofExcept {α : Type} : Except Failure α → Reduction α
  | .ok a => pure a
  | .error f => fail f

/-- Carries out an effect on the context. -/
def perform (effect : Effect) : Reduction Unit :=
  modify fun s => { s with context := effect.apply s.context }

/-- Takes a fresh parameter. -/
def fresh (name : String) (ty : Ty) : Reduction Param :=
  modifyGet fun s =>
    let (p, supply) := s.supply.fresh name ty
    (p, { s with supply })

end Reduction

end QueryNormal
