import QueryNormal.Normalize

/-!
# Sessions

* `Session`: a context and a current query that live through steps.
* `Step`, `Session.step`: what can be done, and what comes of it.
-/

namespace QueryNormal

/-- A context and a current query. -/
structure Session where
  context : Context
  query : Option Expr

namespace Session

/-- The session in which nothing has been said. -/
def start : Session := ⟨default, none⟩

end Session

/-- What can be done in a session. -/
inductive Step where
  /-- Normalizes an expression, or else the current query. -/
  | normalize (expr : Option Expr) (provider : Provider)
  /-- Sets the current query. -/
  | set (expr : Expr)
  /-- Applies a static method to the current query and more arguments. -/
  | apply (method : Method) (args : List Expr)
  /-- Carries out an effect on the context. -/
  | perform (effect : Effect)
  /-- Starts over with a context. -/
  | reset (tracking : Tracking)

/-- What comes of a step. -/
inductive StepResult where
  /-- There is no current query. -/
  | noQuery
  | normalized (expr : Expr)
  | failed (f : Failure)
  | done

/-- Carries out a step. A failure leaves the current query, and keeps the context as it was
left. -/
def Session.step (s : Session) : Step → StepResult × Session
  | .normalize expr provider =>
      match expr.or s.query with
      | none => (.noQuery, s)
      | some e =>
          match QueryNormal.normalize provider s.context e with
          | (.ok e, context) => (.normalized e, ⟨context, some e⟩)
          | (.error f, context) => (.failed f, { s with context })
  | .set expr => (.done, { s with query := some expr })
  | .apply method args =>
      match s.query with
      | none => (.noQuery, s)
      | some e => (.done, { s with query := some (.callStatic method (e :: args)) })
  | .perform effect => (.done, { s with context := effect.apply s.context })
  | .reset tracking => (.done, { s with context := .ofTracking tracking })

end QueryNormal
