import QueryNormal.Expr.Text

/-!
# Errors

* `Problem`: why a query has no normal form.
* `Report`: a problem as it is told, with `Report.text` for its wording.
* `Failure`: a problem, or one of the two ways to end without an answer.
-/

namespace QueryNormal

/-- Lambdas whose number of parameters is fixed. -/
inductive Selector where
  | navigation
  | outerKey
  | groupResult
deriving DecidableEq, Repr, Inhabited

namespace Selector

/-- The number of parameters that the lambda must have. -/
def arity : Selector → Nat
  | .navigation => 1
  | .outerKey => 1
  | .groupResult => 2

/-- The quantity that is compared with the arity, as reports name it. -/
def quantity : Selector → String
  | .navigation => "parameters.len()"
  | .outerKey => "outer_key_selector.parameters.len()"
  | .groupResult => "result_parameters.len()"

/-- The lambda, as reports name it. -/
def text : Selector → String
  | .navigation => "navigation selector"
  | .outerKey => "outer key selector"
  | .groupResult => "result selector"

end Selector

/-- A call that is not what its operator requires. -/
inductive Misuse where
  /-- The number of arguments or type arguments is wrong. -/
  | malformed (method : Method)
  | noSource (method : Method)
  | noArgument (method : Method)
  | missingArgument (method : Method)
  | notAString (method : Method) (found : Expr)
  | notAnInteger (method : Method) (found : Expr)
  | notACollection (method : Method) (found : Expr)
  | notAStringItem (method : Method) (found : Literal)
  | notAPlaceholder (method : Method) (found : Expr)
  | notALambda (found : Expr)
  | selectorArity (selector : Selector) (method : Method) (found : Nat)

/-- What is wrong with the call. -/
def Misuse.text : Misuse → String
  | .malformed method => "Malformed call to " ++ method.text
  | .noSource method => method.text ++ " called without a source"
  | .noArgument method => method.text ++ " called without an argument"
  | .missingArgument method => "Missing argument to " ++ method.text
  | .notAString method found =>
      "Expected a string constant as argument to " ++ method.text ++ ", got " ++ found.text
  | .notAnInteger method found =>
      "Expected an integer constant as argument to " ++ method.text ++ ", got " ++ found.text
  | .notACollection method found =>
      "Expected a constant collection as argument to " ++ method.text ++ ", got " ++ found.text
  | .notAStringItem method found =>
      "Expected a string in argument to " ++ method.text ++ ", got " ++ found.text
  | .notAPlaceholder method found =>
      "Expected a query parameter as argument to " ++ method.text ++ ", got " ++ found.text
  | .notALambda found => "Expected a lambda, got " ++ found.text
  | .selectorArity selector method found =>
      "assertion failed: " ++ selector.quantity ++ " == " ++ toString selector.arity ++
        " (" ++ selector.text ++ " of " ++ method.text ++ ");\nleft = " ++ toString found ++
        ";\nright = " ++ toString selector.arity

/-- Why a query has no normal form. -/
inductive Problem where
  /-- A constant hint, which the provider does not support. -/
  | constantsUnsupported
  /-- A projection yields a sequence that is not materialized. -/
  | deferredProjection (parameter : Param) (leaf : Expr)
  | misuse (cause : Misuse)

/-- A problem as it is told. -/
inductive Report where
  | constantsUnsupported
  | deferredProjection (projection type : String)
  | internal (detail : String)
deriving DecidableEq, Repr, Inhabited

/-- How a problem is told. -/
def Problem.report : Problem → Report
  | .constantsUnsupported => .constantsUnsupported
  | .deferredProjection parameter leaf =>
      .deferredProjection (parameter.text ++ " => " ++ leaf.text) leaf.ty.text
  | .misuse cause => .internal cause.text

namespace Report

/-- The wording of a report. -/
def text : Report → String
  | .constantsUnsupported =>
      "Constant parameter hints are not supported by the current query provider"
  | .deferredProjection projection type =>
      "The query contains a projection '" ++ projection ++ "' of type '" ++ type ++
        "'. Collections in the final projection must be an 'IEnumerable<T>' type such as " ++
        "'List<T>'. Consider using 'ToList' or some other mechanism to convert the " ++
        "'IQueryable<T>' or 'IOrderedEnumerable<T>' into a collection."
  | .internal detail => "Internal invariant violated: " ++ detail

/-- Whether the report is about a broken invariant. -/
def isInternal : Report → Bool
  | .internal _ => true
  | _ => false

/-- Whether the report is about a projection. -/
def isDeferredProjection : Report → Bool
  | .deferredProjection .. => true
  | _ => false

end Report

/-- How normalization can end without a normal form. -/
inductive Failure where
  | problem (p : Problem)
  /-- A position past the end of a list was read. -/
  | outOfRange
  /-- The budget of repeated visits was used up. -/
  | exhausted

end QueryNormal
