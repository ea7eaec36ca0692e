import QueryNormal.Operator.Table
import QueryNormal.Reduction

/-!
# Operators on in-memory sequences

* `toQueryable`: the operator on queries that stands for an operator on in-memory sequences, with
  its arguments converted.
* `queryArgument`: a sequence as a query.

The counterpart has the same name and number of parameters, and each parameter is the same, or the
query of the same elements, or the quoted form of the same delegate.
-/

namespace QueryNormal

/-- The sequence as a query of the given elements. -/
def asQueryable (source : Expr) (element : Ty) : Expr :=
  .apply Queryable.asQueryable [element] [source]

/-! ## Type arguments -/

/-- The type arguments that the counterpart of a method is given. The extrema of numbers are
overloads in memory and generic on queries, so theirs come from the result type. -/
def counterpartTypeArgs (m : Method) (args : Nat) : Except Failure (List Ty) :=
  if m.name ≠ "Min" ∧ m.name ≠ "Max" then .ok m.typeArgs
  else if ¬ m.isGeneric then .ok [m.result]
  else if m.typeArgs.length = args then .ok m.typeArgs
  else match m.typeArgs with
    | element :: _ => .ok [element, m.result]
    | [] => .error .outOfRange

/-- The candidate with the type arguments, if it takes as many. A candidate that is not generic
takes none. -/
def Signature.at? (s : Signature) (typeArgs : List Ty) : Option Method :=
  if ¬ s.isGeneric then some ⟨s, []⟩
  else if s.typeParams = typeArgs.length then some ⟨s, typeArgs⟩
  else none

/-! ## Arguments -/

/-- Whether a sequence of type `memory` becomes one of type `query` when it is treated as a
query. -/
def convertible : Ty → Ty → Bool
  | .seq .enumerable a, .seq .queryable b => a = b
  | .seq .orderedEnumerable a, .seq .orderedQueryable b => a = b
  | _, _ => false

/-- The operand of conversions to sequence types. -/
def underConversions : Expr → Expr
  | .unary op operand =>
      match op with
      | .convert type | .typeAs type =>
          if type.element?.isSome then underConversions operand else .unary op operand
      | _ => .unary op operand
  | e => e

/-- A trailing copy into a list is dropped, and its type argument is the element type. -/
def uncopied (e : Expr) (element : Option Ty) : Expr × Option Ty :=
  match e with
  | .call m _ (source :: _) =>
      if m.is Enumerable.toList then (source, m.typeArgs.head?) else (e, element)
  | _ => (e, element)

/-- A sequence as a query. A query of the right elements is kept. Anything else loses its
conversions to sequence types and is treated as a query. -/
def queryArgument (argument : Expr) (fallback : Option Ty) : Expr :=
  match uncopied argument (argument.ty.element?.or fallback) with
  | (e, none) => e
  | (e, some element) =>
      if e.ty.elementAs? .queryable = some element then e
      else asQueryable (underConversions e) element

/-- The arguments for the parameters of a candidate, or nothing if one cannot be passed. A sequence
parameter without an argument is out of range. -/
def fitArguments : List Ty → List Ty → List Expr → Except Failure (Option (List Expr))
  | p :: ps, q :: qs, args =>
      if p = q ∨ q.delegate? = some p then
        match args with
        | [] => fitArguments ps qs []
        | a :: as => do
            let rest ← fitArguments ps qs as
            return rest.map (a :: ·)
      else if convertible p q then
        match args with
        | [] => .error .outOfRange
        | a :: as => do
            let rest ← fitArguments ps qs as
            return rest.map (queryArgument a p.element? :: ·)
      else .ok none
  | _, _, args => .ok (some args)

/-! ## Counterparts -/

/-- A bare lambda is quoted. -/
def quoteLambda : Expr → Expr
  | .lambda params body => .quote (.lambda params body)
  | e => e

/-- The first candidate that fits, with its arguments. -/
def firstFit (typeArgs params : List Ty) (args : List Expr) :
    List Signature → Except Failure (Option (Method × List Expr))
  | [] => .ok none
  | s :: ss =>
      match s.at? typeArgs with
      | none => firstFit typeArgs params args ss
      | some m => do
          match ← fitArguments params m.params args with
          | some args => return some (m, args.map quoteLambda)
          | none => firstFit typeArgs params args ss

/-- The operator on queries that stands for the method, with the normal arguments converted. -/
def toQueryable (m : Method) (args : List Expr) : Except Failure (Option (Method × List Expr)) := do
  let typeArgs ← counterpartTypeArgs m args.length
  firstFit typeArgs m.params args (Table.overloads .queryable m.name m.params.length)

/-- Whether a call of an in-memory operator stays in memory: its source is constructed on the
spot, or it compares sequences, which may be binary data. -/
def staysInMemory (m : Method) (args : List Expr) : Bool :=
  m.name = "SequenceEqual" || (args.head?.map Expr.isConstruction).getD false

end QueryNormal
