import Mathlib.Logic.Function.Basic
import QueryNormal.Proofs.Parts
import QueryNormal.Rule.Note

/-!
# What expressions mean

* `Interpretation`: what operators, members, constants and constructions mean.
* `Expr.eval`: the value of an expression, given the values of parameters.
* `Interpretation.Lawful`: the laws that rewrites rely on.
* `arithmetic`: a lawful interpretation by numbers and sequences.

Methods are interpreted by family, name and the values of their arguments. Types of calls have no
part in what they mean.
-/

universe u

namespace QueryNormal

/-- What the parts of expressions mean, as values of a type. -/
structure Interpretation (V : Type u) where
  /-- A method of the family and name, called on a receiver if there is one. -/
  call : Family → String → Option V → List V → V
  /-- A function of so many arguments. -/
  lambda : (n : Nat) → ((Fin n → V) → V) → V
  quote : V → V
  member : Member → Option V → V
  binary : BinOp → V → V → V
  unary : UnOp → V → V
  const : Literal → Ty → V
  new : Ty → Option (List String) → List V → V
  /-- A construction followed by bindings: one value for an assignment, or the items. -/
  newWith : Ty → Option (List String) → List V → List (String × (V ⊕ List V)) → V
  cond : V → V → V → V
  /-- The value that is supplied for a placeholder of the name. -/
  placeholder : String → V

/-- The values of parameters, by id. -/
abbrev Env (V : Type u) : Type u := UInt32 → V

/-- The values of parameters inside a lambda. A later parameter hides an earlier one. -/
def Env.bind {V : Type u} : (params : List Param) → (Fin params.length → V) → Env V → Env V
  | [], _, env => env
  | p :: params, values, env =>
      Env.bind params (fun i => values i.succ) (Function.update env p.id (values 0))

namespace Expr

variable {V : Type u}

mutual
/-- The value of an expression. -/
def eval (I : Interpretation V) : Expr → Env V → V
  | .call m receiver args, env =>
      I.call m.family m.name
        (match receiver with | none => none | some r => some (r.eval I env)) (evalList I args env)
  | .lambda params body, env =>
      I.lambda params.length fun values => body.eval I (env.bind params values)
  | .quote inner, env => I.quote (inner.eval I env)
  | .param p, env => env p.id
  | .member target m, env =>
      I.member m (match target with | none => none | some t => some (t.eval I env))
  | .binary op lhs rhs, env => I.binary op (lhs.eval I env) (rhs.eval I env)
  | .unary op operand, env => I.unary op (operand.eval I env)
  | .const value type, _ => I.const value type
  | .new type args names, env => I.new type names (evalList I args env)
  | .newWith type args names bindings, env =>
      I.newWith type names (evalList I args env) (evalBindings I bindings env)
  | .cond test whenTrue whenFalse, env =>
      I.cond (test.eval I env) (whenTrue.eval I env) (whenFalse.eval I env)
  | .placeholder p, _ => I.placeholder p.name

/-- The values of a list of expressions. -/
def evalList (I : Interpretation V) : List Expr → Env V → List V
  | [], _ => []
  | e :: es, env => e.eval I env :: evalList I es env

/-- The values of bindings. -/
def evalBindings (I : Interpretation V) : List Binding → Env V → List (String × (V ⊕ List V))
  | [], _ => []
  | .assign name value :: bs, env => (name, .inl (value.eval I env)) :: evalBindings I bs env
  | .items name values :: bs, env => (name, .inr (evalList I values env)) :: evalBindings I bs env
end

end Expr

/-- The laws that rewrites rely on. -/
structure Interpretation.Lawful {V : Type u} (I : Interpretation V) : Prop where
  /-- Operators on in-memory sequences and on queries of one name mean the same. -/
  domain (name : String) (vs : List V) :
    I.call .enumerable name none vs = I.call .queryable name none vs
  asQueryable (v : V) : I.call .queryable "AsQueryable" none [v] = v
  toList (v : V) : I.call .queryable "ToList" none [v] = v
  quote (v : V) : I.quote v = v
  convert (type : Ty) (v : V) : type.element?.isSome → I.unary (.convert type) v = v
  typeAs (type : Ty) (v : V) : type.element?.isSome → I.unary (.typeAs type) v = v
  /-- Annotations return what they annotate. -/
  note (n : Note) (v : V) (vs : List V) : I.call .metadata n.signature.name none (v :: vs) = v
  /-- Hints return what they apply to. -/
  hint (s : Signature) (v : V) : s ∈ Hint.all → I.call s.family s.name none [v] = v
  order (v : V) : I.call .queryable "Order" none [v] =
    I.call .queryable "OrderBy" none [v, I.lambda 1 fun values => values 0]
  orderDescending (v : V) : I.call .queryable "OrderDescending" none [v] =
    I.call .queryable "OrderByDescending" none [v, I.lambda 1 fun values => values 0]
  arrayIndex (v i : V) : I.binary .arrayIndex v i = I.call .queryable "ElementAt" none [v, i]
  /-- The indexer of a read-only list reads the element at the position. -/
  indexer (owner : Ty) (v i : V) : (owner.elementAs? .readOnlyList).isSome →
    I.call (.ofType owner) "get_Item" (some v) [i] = I.call .queryable "ElementAt" none [v, i]
  /-- A collection contains what the sequence contains. -/
  contains (owner : Ty) (v item : V) : (owner.elementAs? .collection).isSome →
    I.call (.ofType owner) "Contains" (some v) [item] =
      I.call .queryable "Contains" none [v, item]
  /-- A collection counts more than nothing if it has an element. -/
  count (op : BinOp) (m : Member) (type : Ty) (v : V) : op = .greater ∨ op = .notEqual →
    m.name = "Count" → m.owner.has .collection →
    I.binary op (I.member m (some v)) (I.const (.int 0) type) = I.call .queryable "Any" none [v]
  /-- An array is longer than nothing if it has an element. -/
  length (op : BinOp) (type : Ty) (v : V) : op = .greater ∨ op = .notEqual →
    I.binary op (I.unary .arrayLength v) (I.const (.int 0) type) =
      I.call .queryable "Any" none [v]

/-! ## Walks -/

section Eval

variable {V : Type u} {I : Interpretation V} {e e' : Expr}

/-- The expressions have one value, whatever the values of parameters are. -/
def SameValue (I : Interpretation V) (e e' : Expr) : Prop := ∀ env, e'.eval I env = e.eval I env

theorem SameValue.trans {e'' : Expr} (h : SameValue I e e') (h' : SameValue I e' e'') :
    SameValue I e e'' := fun env => (h' env).trans (h env)

theorem eval_call (m : Method) (r : Option Expr) (args : List Expr) (env : Env V) :
    (Expr.call m r args).eval I env =
      I.call m.family m.name (r.map fun x => x.eval I env) (Expr.evalList I args env) := by
  cases r <;> rfl

theorem evalList_congr {args args' : List Expr} (h : List.Forall₂ (SameValue I) args args')
    (env : Env V) : Expr.evalList I args' env = Expr.evalList I args env := by
  induction h with
  | nil => rfl
  | cons hx _ ih => rw [Expr.evalList, Expr.evalList, hx env, ih]

theorem map_eval_congr {r r' : Option Expr} (h : Option.Rel (SameValue I) r r') (env : Env V) :
    r'.map (fun x => x.eval I env) = r.map fun x => x.eval I env := by
  cases h with
  | none => rfl
  | some hx => exact congrArg some (hx env)

/-- The value of a call depends on the method's family and name and on the values of the parts. -/
theorem sameValue_call {m m' : Method} {r r' : Option Expr} {args args' : List Expr}
    (hfamily : m'.family = m.family) (hname : m'.name = m.name)
    (hr : Option.Rel (SameValue I) r r') (hargs : List.Forall₂ (SameValue I) args args') :
    SameValue I (.call m r args) (.call m' r' args') := by
  intro env
  rw [eval_call, eval_call, hfamily, hname, map_eval_congr hr, evalList_congr hargs]

theorem evalBindings_congr {σ : Type} {bs bs' : List Binding} {s t : σ}
    (h : Threads (ThreadsBinding fun x (_ : σ) y _ => SameValue I x y) bs s bs' t) (env : Env V) :
    Expr.evalBindings I bs' env = Expr.evalBindings I bs env := by
  induction h with
  | nil => rfl
  | cons hb _ ih =>
    cases hb with
    | assign hx => rw [Expr.evalBindings, Expr.evalBindings, hx env, ih]
    | items hxs =>
      rw [Expr.evalBindings, Expr.evalBindings, evalList_congr (hxs.forall₂ fun h => h), ih]

/-- A node around parts of the same values has the same value. -/
theorem WalksBy.sameValue {σ : Type} {s t : σ}
    (h : WalksBy (fun x (_ : σ) y _ => SameValue I x y) e s e' t) : SameValue I e e' := by
  intro env
  cases h with
  | call hr hargs => exact sameValue_call rfl rfl (hr.rel fun h => h) (hargs.forall₂ fun h => h) env
  | lambda hb => exact congrArg (I.lambda _) (funext fun values => hb _)
  | quote hx | unary hx => simp only [Expr.eval, hx env]
  | member hr =>
    cases hr with
    | none => rfl
    | some hx => simp only [Expr.eval, hx env]
  | binary hl hr => simp only [Expr.eval, hl env, hr env]
  | new hargs => simp only [Expr.eval, evalList_congr (hargs.forall₂ fun h => h) env]
  | newWith hargs hbs =>
    simp only [Expr.eval, evalList_congr (hargs.forall₂ fun h => h) env, evalBindings_congr hbs env]
  | cond ht ha hb => simp only [Expr.eval, ht env, ha env, hb env]
  | param | const | placeholder => rfl

end Eval

/-! ## An interpretation -/

/-- Numbers, truth values and sequences. -/
inductive Datum where
  | nothing
  | bool (value : Bool)
  | number (value : Int)
  | items (values : List Datum)

/-- Data, and functions on data. -/
inductive Value where
  | datum (d : Datum)
  | function (f : List Datum → Datum)

namespace Value

/-- The data of a value. -/
def data : Value → Datum
  | .datum d => d
  | .function _ => .nothing

/-- The number that a value is, or zero. -/
def number : Value → Int
  | .datum (.number n) => n
  | _ => 0

/-- The elements of a sequence. -/
def elements : Value → List Datum
  | .datum (.items ds) => ds
  | _ => []

/-- The value of a function at a datum. -/
def at1 : Value → Datum → Datum
  | .function f, d => f [d]
  | .datum d, _ => d

/-- Whether a value is true. -/
def isTrue : Datum → Bool
  | .bool b => b
  | _ => false

/-- Inserts into a sequence that is ordered by a key. -/
def insertBy (key : Datum → Datum) (d : Datum) : List Datum → List Datum
  | [] => [d]
  | x :: xs =>
      if (Value.datum (key d)).number ≤ (Value.datum (key x)).number then d :: x :: xs
      else x :: insertBy key d xs

/-- The sequence, ordered by a key. -/
def sortBy (key : Datum → Datum) (v : Value) : Value :=
  .datum (.items (v.elements.foldr (insertBy key) []))

/-- What operators answer. An operator that is not listed returns its first argument. -/
def answer (name : String) : List Value → Value
  | [] => .datum .nothing
  | [v] =>
      if name = "Any" then .datum (.bool !v.elements.isEmpty)
      else if name = "Order" then sortBy (fun d => d) v
      else v
  | [v, w] =>
      if name = "Where" then .datum (.items (v.elements.filter fun d => isTrue (w.at1 d)))
      else if name = "OrderBy" then sortBy w.at1 v
      else if name = "ElementAt" ∨ name = "get_Item" then
        .datum (v.elements.getD w.number.toNat .nothing)
      else v
  | v :: _ => v

end Value

mutual
/-- The datum that a literal stands for. -/
def Literal.datum : Literal → Datum
  | .int n => .number n
  | .bool b => .bool b
  | .list values => .items (data values)
  | _ => .nothing

/-- The data that literals stand for. -/
def Literal.data : List Literal → List Datum
  | [] => []
  | l :: ls => l.datum :: data ls
end

/-- Operators on numbers and sequences. -/
def arithmetic : Interpretation Value where
  call _ name receiver args := Value.answer name (receiver.toList ++ args)
  lambda _ f := .function fun ds => (f fun i => .datum (ds.getD i .nothing)).data
  quote v := v
  member m target :=
    if m.name = "Count" then .datum (.number ((target.map Value.elements).getD []).length)
    else .datum .nothing
  binary op v w :=
    match op with
    | .greater => .datum (.bool (decide (w.number < v.number)))
    | .notEqual => .datum (.bool (decide (v.number ≠ w.number)))
    | .arrayIndex => Value.answer "ElementAt" [v, w]
    | _ => .datum .nothing
  unary op v :=
    match op with
    | .arrayLength => .datum (.number v.elements.length)
    | _ => v
  const value _ := .datum value.datum
  new _ _ _ := .datum .nothing
  newWith _ _ _ _ := .datum .nothing
  cond test v w := if Value.isTrue test.data then v else w
  placeholder _ := .datum .nothing

theorem compare_length (ds : List Datum) :
    decide ((0 : Int) < ds.length) = !ds.isEmpty ∧ decide ((ds.length : Int) ≠ 0) = !ds.isEmpty := by
  cases ds with
  | nil => exact ⟨rfl, rfl⟩
  | cons d ds =>
    have hlength : (0 : Int) < (d :: ds).length := by simp only [List.length_cons]; omega
    exact ⟨decide_eq_true hlength, decide_eq_true (Int.ne_of_gt hlength)⟩

theorem arithmetic_lawful : arithmetic.Lawful where
  domain _ _ := rfl
  asQueryable _ := rfl
  toList _ := rfl
  quote _ := rfl
  convert _ _ _ := rfl
  typeAs _ _ _ := rfl
  note n v vs := by
    rcases vs with _ | ⟨_, _ | _⟩ <;> cases n <;> rfl
  hint s v hs := by
    simp only [Hint.all, List.mem_cons, List.not_mem_nil, or_false] at hs
    rcases hs with rfl | rfl | rfl <;> rfl
  order _ := rfl
  orderDescending _ := rfl
  arrayIndex _ _ := rfl
  indexer _ _ _ _ := rfl
  contains _ _ _ _ := rfl
  count op m type v hop hname _ := by
    have hcount : arithmetic.member m (some v) = .datum (.number v.elements.length) := if_pos hname
    rw [hcount]
    rcases hop with rfl | rfl
    · exact congrArg (Value.datum ∘ Datum.bool) (compare_length v.elements).1
    · exact congrArg (Value.datum ∘ Datum.bool) (compare_length v.elements).2
  length op type v hop := by
    rcases hop with rfl | rfl
    · exact congrArg (Value.datum ∘ Datum.bool) (compare_length v.elements).1
    · exact congrArg (Value.datum ∘ Datum.bool) (compare_length v.elements).2

end QueryNormal
