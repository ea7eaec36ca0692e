import QueryNormal.Expr.Text

/-!
# Reading texts back

* `Expr.Formula`: expressions of named parameters, members, operators and conditionals.
* `Expr.hoisted`: a formula with the signs of every target moved in front of the access.
* `Reader`: reads the text of a formula, one character at a time.
* `readBack_text`: reading gives back the formula, without ids and types, if no target has a sign.
* `text_eq_text_iff`: formulas have the same text exactly if they are equal after moving signs, but
  for ids and types.

A target with a sign in front gets no parentheses: `(!a).b` is shown like `!(a.b)`
(`text_ambiguous`). Nothing else in a text can be read in two ways.
-/

namespace QueryNormal

/-! ## Formulas -/

/-- Characters that cannot be in a name, because they end an operand or begin another. -/
def marks : List Char := [' ', '.', '(', ')', '[', ']', '!', '-']

/-- A name that can be told from what stands around it. -/
def IsWord (s : String) : Prop := s ≠ "" ∧ ∀ c ∈ s.toList, c ∉ marks

theorem isWord_of_letters {s : String} (hs : s ≠ "") (hletters : s.toList.all Char.isAlpha) :
    IsWord s := by
  refine ⟨hs, fun c hc hmark => ?_⟩
  have hnone : marks.all (fun c => !c.isAlpha) := rfl
  have hletter := List.all_eq_true.mp hletters c hc
  have hother := List.all_eq_true.mp hnone c hmark
  rw [hletter] at hother
  cases hother

/-- The operators that are written in front of their operand as one character. -/
def UnOp.isSign : UnOp → Bool
  | .not | .negate => true
  | _ => false

namespace Expr

/-- An expression of parameters, members of targets, binary operators, signs and conditionals, in
which parameters and members are named by words. -/
inductive Formula : Expr → Prop
  | param {p : Param} : IsWord p.name → Formula (.param p)
  | member {target : Expr} {m : Member} :
      Formula target → IsWord m.name → Formula (.member (some target) m)
  | binary {op : BinOp} {lhs rhs : Expr} :
      Formula lhs → Formula rhs → Formula (.binary op lhs rhs)
  | unary {op : UnOp} {operand : Expr} : op.isSign → Formula operand → Formula (.unary op operand)
  | cond {test whenTrue whenFalse : Expr} :
      Formula test → Formula whenTrue → Formula whenFalse → Formula (.cond test whenTrue whenFalse)

/-- The formula without the ids of parameters and without static types. -/
def bare : Expr → Expr
  | .param p => .param ⟨0, p.name, .object⟩
  | .member (some target) m => .member (some target.bare) ⟨m.name, .object, .object⟩
  | .binary op lhs rhs => .binary op lhs.bare rhs.bare
  | .unary op operand => .unary op operand.bare
  | .cond test whenTrue whenFalse => .cond test.bare whenTrue.bare whenFalse.bare
  | e => e

/-! ## Signs -/

/-- The signs at the root of the formula, the innermost first. -/
def signs : Expr → List UnOp
  | .unary op operand => operand.signs ++ [op]
  | _ => []

/-- What the signs at the root are in front of. -/
def unsigned : Expr → Expr
  | .unary _ operand => operand.unsigned
  | e => e

/-- The formula behind signs, the innermost of which comes first. -/
def signed (signs : List UnOp) (e : Expr) : Expr := signs.foldl (fun x op => .unary op x) e

/-- The formula with the signs of every target moved in front of the access. -/
def hoisted : Expr → Expr
  | .member (some target) m =>
      signed target.hoisted.signs (.member (some target.hoisted.unsigned) m)
  | .binary op lhs rhs =>
      if op = .arrayIndex then
        signed lhs.hoisted.signs (.binary op lhs.hoisted.unsigned rhs.hoisted)
      else .binary op lhs.hoisted rhs.hoisted
  | .unary op operand => .unary op operand.hoisted
  | .cond test whenTrue whenFalse => .cond test.hoisted whenTrue.hoisted whenFalse.hoisted
  | e => e

/-- No sign stands in front of the target of a member access or of an index. -/
def PlainTargets : Expr → Prop
  | .member (some target) _ => target.signs = [] ∧ target.PlainTargets
  | .binary op lhs rhs => (op = .arrayIndex → lhs.signs = []) ∧ lhs.PlainTargets ∧ rhs.PlainTargets
  | .unary _ operand => operand.PlainTargets
  | .cond test whenTrue whenFalse =>
      test.PlainTargets ∧ whenTrue.PlainTargets ∧ whenFalse.PlainTargets
  | _ => True

end Expr

section Signs

open QueryNormal.Expr

variable {e x : Expr} {ss : List UnOp}

theorem signed_append (ss ts : List UnOp) (x : Expr) :
    signed (ss ++ ts) x = signed ts (signed ss x) := List.foldl_append

theorem signed_signs (he : e.Formula) : signed e.signs e.unsigned = e := by
  induction he with
  | unary _ _ ih =>
    rw [signs, unsigned, signed_append, ih]
    rfl
  | _ => rfl

theorem unsigned_eq_self (he : e.Formula) (h : e.signs = []) : e.unsigned = e := by
  have hself := signed_signs he
  rw [h] at hself
  exact hself

theorem bare_signed (ss : List UnOp) (x : Expr) : (signed ss x).bare = signed ss x.bare := by
  induction ss generalizing x with
  | nil => rfl
  | cons op ss ih => exact ih (.unary op x)

theorem signs_unsigned (he : e.Formula) : e.unsigned.signs = [] := by
  induction he with
  | unary _ _ ih => exact ih
  | _ => rfl

theorem isSign_of_mem_signs (he : e.Formula) : ∀ op ∈ e.signs, op.isSign := by
  induction he with
  | unary hop _ ih =>
    intro op hmem
    rcases List.mem_append.mp hmem with hmem | hmem
    · exact ih op hmem
    · rw [List.mem_singleton.mp hmem]
      exact hop
  | _ =>
    intro op hmem
    cases hmem

theorem Expr.Formula.unsigned (he : e.Formula) : e.unsigned.Formula := by
  induction he with
  | param hp => exact .param hp
  | member ht hm _ => exact .member ht hm
  | binary hl hr _ _ => exact .binary hl hr
  | unary _ _ ih => exact ih
  | cond ht ha hb _ _ _ => exact .cond ht ha hb

theorem Expr.Formula.signed (hx : x.Formula) (hss : ∀ op ∈ ss, op.isSign) :
    (x.signed ss).Formula := by
  induction ss generalizing x with
  | nil => exact hx
  | cons op ss ih =>
    rw [List.forall_mem_cons] at hss
    exact ih (.unary hss.1 hx) hss.2

theorem plainTargets_signed : (signed ss x).PlainTargets ↔ x.PlainTargets := by
  induction ss generalizing x with
  | nil => exact .rfl
  | cons op ss ih => exact ih

theorem isCompound_signed (hx : x.isCompound = false) : (signed ss x).isCompound = false := by
  induction ss generalizing x with
  | nil => exact hx
  | cons op ss ih => exact ih rfl

/-! ### Moving signs -/

theorem hoisted_member (target : Expr) (m : Member) :
    (member (some target) m).hoisted =
      signed target.hoisted.signs (.member (some target.hoisted.unsigned) m) := rfl

theorem hoisted_index (array position : Expr) :
    (binary .arrayIndex array position).hoisted =
      signed array.hoisted.signs
        (.binary .arrayIndex array.hoisted.unsigned position.hoisted) := rfl

theorem hoisted_binary {op : BinOp} (hop : op ≠ .arrayIndex) (lhs rhs : Expr) :
    (binary op lhs rhs).hoisted = .binary op lhs.hoisted rhs.hoisted := if_neg hop

theorem hoisted_unary (op : UnOp) (operand : Expr) :
    (unary op operand).hoisted = .unary op operand.hoisted := rfl

theorem hoisted_cond (test whenTrue whenFalse : Expr) :
    (cond test whenTrue whenFalse).hoisted =
      .cond test.hoisted whenTrue.hoisted whenFalse.hoisted := rfl

theorem Expr.Formula.hoisted (he : e.Formula) : e.hoisted.Formula := by
  induction he with
  | param hp => exact .param hp
  | member _ hm ih => exact (Formula.member ih.unsigned hm).signed (isSign_of_mem_signs ih)
  | @binary op lhs rhs _ _ ihl ihr =>
    by_cases hop : op = .arrayIndex
    · rw [hop, hoisted_index]
      exact (Formula.binary ihl.unsigned ihr).signed (isSign_of_mem_signs ihl)
    · rw [hoisted_binary hop]
      exact .binary ihl ihr
  | unary hop _ ih => exact .unary hop ih
  | cond _ _ _ iht iha ihb => exact .cond iht iha ihb

theorem plainTargets_unsigned (he : e.Formula) (h : e.PlainTargets) : e.unsigned.PlainTargets := by
  rw [← signed_signs he, plainTargets_signed] at h
  exact h

theorem plainTargets_hoisted (he : e.Formula) : e.hoisted.PlainTargets := by
  induction he with
  | param => trivial
  | @member target _ ht _ ih =>
    exact plainTargets_signed.mpr ⟨signs_unsigned ht.hoisted, plainTargets_unsigned ht.hoisted ih⟩
  | @binary op lhs rhs hl hr ihl ihr =>
    by_cases hop : op = .arrayIndex
    · rw [hop, hoisted_index, plainTargets_signed]
      exact ⟨fun _ => signs_unsigned hl.hoisted, plainTargets_unsigned hl.hoisted ihl, ihr⟩
    · rw [hoisted_binary hop]
      exact ⟨fun h => absurd h hop, ihl, ihr⟩
  | unary _ _ ih => exact ih
  | cond _ _ _ iht iha ihb => exact ⟨iht, iha, ihb⟩

/-- Nothing is moved if every sign stands where its text says. -/
theorem hoisted_eq_self (he : e.Formula) (h : e.PlainTargets) : e.hoisted = e := by
  induction he with
  | param => rfl
  | @member target m ht _ ih =>
    rw [hoisted_member, ih h.2, unsigned_eq_self ht h.1, h.1]
    rfl
  | @binary op lhs rhs hl _ ihl ihr =>
    by_cases hop : op = .arrayIndex
    · rw [hop, hoisted_index, ihl h.2.1, ihr h.2.2, unsigned_eq_self hl (h.1 hop), h.1 hop]
      rfl
    · rw [hoisted_binary hop, ihl h.2.1, ihr h.2.2]
  | unary _ _ ih => rw [hoisted_unary, ih h]
  | cond _ _ _ iht iha ihb => rw [hoisted_cond, iht h.1, iha h.2.1, ihb h.2.2]

end Signs

/-! ## Texts -/

section Texts

open QueryNormal.Expr

variable {e x y : Expr} {ss : List UnOp}

/-- The text of an expression as an operand. -/
def Expr.operandText (e : Expr) : String := parens e.isCompound e.text

theorem text_param {p : Param} (hp : p.name ≠ "") : (param p).text = p.name :=
  if_neg (mt String.isEmpty_iff.mp hp)

theorem text_member (target : Expr) (m : Member) :
    (member (some target) m).text = target.operandText ++ ("." ++ m.name) :=
  String.append_assoc ..

theorem text_index (array position : Expr) :
    (binary .arrayIndex array position).text =
      array.operandText ++ ("[" ++ (position.text ++ "]")) := by
  rw [← String.append_assoc, ← String.append_assoc]
  rfl

theorem text_binary {op : BinOp} (hop : op ≠ .arrayIndex) (lhs rhs : Expr) :
    (binary op lhs rhs).text =
      lhs.operandText ++ " " ++ op.symbol ++ " " ++ rhs.operandText := by
  cases op with
  | arrayIndex => exact absurd rfl hop
  | _ => rfl

theorem text_cond (test whenTrue whenFalse : Expr) :
    (cond test whenTrue whenFalse).text = test.operandText ++ " ? " ++ whenTrue.operandText ++
      " : " ++ whenFalse.operandText := rfl

/-- The character of a sign. -/
def UnOp.sign : UnOp → String
  | .not => "!"
  | _ => "-"

theorem text_unary {op : UnOp} (hop : op.isSign) (x : Expr) :
    (unary op x).text = op.sign ++ x.operandText := by
  cases op with
  | not | negate => rfl
  | _ => cases hop

theorem operandText_of_not_compound (hx : x.isCompound = false) : x.operandText = x.text := by
  rw [operandText, hx]
  rfl

theorem operandText_congr (hcompound : x.isCompound = y.isCompound) (htext : x.text = y.text) :
    x.operandText = y.operandText := by
  rw [operandText, operandText, hcompound, htext]

/-- What is written behind an operand is written behind its signs. -/
theorem operandText_signed {t : String} (hss : ∀ op ∈ ss, op.isSign)
    (h : y.operandText = x.operandText ++ t) :
    (signed ss y).operandText = (signed ss x).operandText ++ t := by
  induction ss generalizing x y with
  | nil => exact h
  | cons op ss ih =>
    rw [List.forall_mem_cons] at hss
    refine ih hss.2 ?_
    rw [operandText_of_not_compound rfl, operandText_of_not_compound rfl, text_unary hss.1,
      text_unary hss.1, h, String.append_assoc]

/-- An access to a target is shown behind the signs of the target. -/
theorem text_signed_access (access : Expr → Expr) {t : String} (hx : x.Formula)
    (hcompound : ∀ y, (access y).isCompound = false)
    (htext : ∀ y, (access y).text = y.operandText ++ t) :
    (signed x.signs (access x.unsigned)).text = (access x).text := by
  have haccess : (access x.unsigned).operandText = x.unsigned.operandText ++ t :=
    (operandText_of_not_compound (hcompound _)).trans (htext _)
  rw [← operandText_of_not_compound (isCompound_signed (hcompound _)),
    operandText_signed (isSign_of_mem_signs hx) haccess, signed_signs hx, htext]

theorem isCompound_hoisted (he : e.Formula) : e.hoisted.isCompound = e.isCompound := by
  cases he with
  | @binary op lhs rhs _ _ =>
    by_cases hop : op = .arrayIndex
    · rw [hop]
      exact isCompound_signed rfl
    · rw [hoisted_binary hop]
      rfl
  | member _ _ => exact isCompound_signed rfl
  | _ => rfl

/-- Moving signs does not change the text. -/
theorem text_hoisted (he : e.Formula) : e.hoisted.text = e.text := by
  have hoperand {x : Expr} (hx : x.Formula) (h : x.hoisted.text = x.text) :
      x.hoisted.operandText = x.operandText := operandText_congr (isCompound_hoisted hx) h
  induction he with
  | param => rfl
  | @member target m ht _ ih =>
    have hsigned := text_signed_access (fun x => .member (some x) m) ht.hoisted (fun _ => rfl)
      fun y => text_member y m
    rw [hoisted_member, hsigned, text_member, text_member, hoperand ht ih]
  | @binary op lhs rhs hl hr ihl ihr =>
    by_cases hop : op = .arrayIndex
    · subst hop
      have hsigned := text_signed_access (fun x => .binary .arrayIndex x rhs.hoisted) hl.hoisted
        (fun _ => rfl) fun y => text_index y rhs.hoisted
      rw [hoisted_index, hsigned, text_index, text_index, hoperand hl ihl, ihr]
    · rw [hoisted_binary hop, text_binary hop, text_binary hop, hoperand hl ihl, hoperand hr ihr]
  | @unary op operand hop hx ih =>
    rw [hoisted_unary, text_unary hop, text_unary hop, hoperand hx ih]
  | cond ht ha hb iht iha ihb =>
    rw [hoisted_cond, text_cond, text_cond, hoperand ht iht, hoperand ha iha, hoperand hb ihb]

theorem isCompound_bare (he : e.Formula) : e.bare.isCompound = e.isCompound := by
  cases he <;> rfl

/-- The text does not show ids and types. -/
theorem text_bare (he : e.Formula) : e.bare.text = e.text := by
  have hoperand {x : Expr} (hx : x.Formula) (h : x.bare.text = x.text) :
      x.bare.operandText = x.operandText := operandText_congr (isCompound_bare hx) h
  induction he with
  | @param p hp =>
    rw [text_param hp.1]
    exact text_param (p := ⟨0, p.name, .object⟩) hp.1
  | member ht _ ih => rw [Expr.bare, text_member, text_member, hoperand ht ih]
  | @binary op lhs rhs hl hr ihl ihr =>
    by_cases hop : op = .arrayIndex
    · rw [Expr.bare, hop, text_index, text_index, hoperand hl ihl, ihr]
    · rw [Expr.bare, text_binary hop, text_binary hop, hoperand hl ihl, hoperand hr ihr]
  | unary hop hx ih => rw [Expr.bare, text_unary hop, text_unary hop, hoperand hx ih]
  | cond ht ha hb iht iha ihb =>
    rw [Expr.bare, text_cond, text_cond, hoperand ht iht, hoperand ha iha, hoperand hb ihb]

end Texts

/-! ## The reader

It refuses nothing. What it makes of a text that no formula has is of no interest.
-/

/-- What stands before an operand, inside of the same brackets. -/
inductive Before where
  | nothing
  | lhs (op : BinOp) (value : Expr)
  | test (value : Expr)
  | branch (condition value : Expr)

/-- What is made of the operand. -/
def Before.fill : Before → Expr → Expr
  | .nothing, x => x
  | .lhs op value, x => .binary op value x
  | .test _, x => x
  | .branch condition value, x => .cond condition value x

/-- The operator of a symbol between two operands. -/
def BinOp.ofSymbol? (symbol : List Char) : Option BinOp :=
  [equal, notEqual, greater, greaterOrEqual, less, lessOrEqual, and, or, add, subtract, multiply,
    divide, modulo, coalesce].find? (·.symbol.toList = symbol)

/-- What stands before the operand after the operand `x` and a symbol. -/
def Before.next (b : Before) (x : Expr) (symbol : List Char) : Before :=
  if symbol = ['?'] then .test x
  else if symbol = [':'] then
    match b with
    | .test condition => .branch condition x
    | b => b
  else ((BinOp.ofSymbol? symbol).map (Before.lhs · x)).getD b

/-- What a bracket has been opened for. -/
inductive Opening where
  | group
  | index (array : Expr)

/-- What is made of the contents of the brackets. -/
def Opening.fill : Opening → Expr → Expr
  | .group, x => x
  | .index array, x => .binary .arrayIndex array x

/-- What is being read. -/
inductive Focus where
  /-- An operand is expected. -/
  | awaited
  /-- An operand has been read, which may go on. -/
  | operand (x : Expr)
  /-- The symbol after an operand is being read. -/
  | symbol (x : Expr) (chars : List Char)

/-- The state of reading a text. -/
structure Reader where
  focus : Focus
  before : Before
  /-- The signs in front of the operand, the innermost first. -/
  signs : List UnOp
  /-- The open brackets, the innermost first, with what stands before each. -/
  outer : List (Opening × Before × List UnOp)

namespace Reader

/-- The parameter or member whose name goes on. -/
def spell : Expr → String → Expr
  | .param p, s => .param { p with name := p.name ++ s }
  | .member target m, s => .member target { m with name := m.name ++ s }
  | e, _ => e

/-- Opens a bracket. -/
def enter (r : Reader) (o : Opening) : Reader :=
  ⟨.awaited, .nothing, [], (o, r.before, r.signs) :: r.outer⟩

/-- What has been read inside of the innermost brackets, which end with the operand `x`. -/
def value (r : Reader) (x : Expr) : Expr := r.before.fill (x.signed r.signs)

/-- Closes the innermost bracket after the operand `x`. -/
def leave (r : Reader) (x : Expr) : Reader :=
  match r.outer with
  | [] => r
  | (o, before, signs) :: outer => ⟨.operand (o.fill (r.value x)), before, signs, outer⟩

/-- Reads a character. -/
def step (r : Reader) (c : Char) : Reader :=
  match r.focus with
  | .awaited =>
      -- Signs are kept apart from the operand, which may go on with an access that they stand
      -- in front of.
      if c = '!' then { r with signs := .not :: r.signs }
      else if c = '-' then { r with signs := .negate :: r.signs }
      else if c = '(' then r.enter .group
      else { r with focus := .operand (spell (.param ⟨0, "", .object⟩) (.singleton c)) }
  | .operand x =>
      if c = '.' then { r with focus := .operand (.member (some x) ⟨"", .object, .object⟩) }
      else if c = '[' then r.enter (.index x)
      else if c = ']' ∨ c = ')' then r.leave x
      else if c = ' ' then { r with focus := .symbol (x.signed r.signs) [] }
      else { r with focus := .operand (spell x (.singleton c)) }
  | .symbol x chars =>
      if c = ' ' then ⟨.awaited, r.before.next x chars, [], r.outer⟩
      else { r with focus := .symbol x (chars ++ [c]) }

/-- Reads a text. -/
def run (text : String) (r : Reader) : Reader := text.toList.foldl step r

/-- The state before anything has been read. -/
def start : Reader := ⟨.awaited, .nothing, [], []⟩

end Reader

/-- The formula that a text is of, without ids and types. -/
def readBack (text : String) : Expr :=
  let r := Reader.run text Reader.start
  match r.focus with
  | .operand x => r.value x
  | _ => default

/-! ## Reading -/

section Reading

open QueryNormal.Expr

variable {e x : Expr} {ss : List UnOp}

namespace Reader

variable {b : Before} {outer : List (Opening × Before × List UnOp)}

theorem run_append (s t : String) (r : Reader) : run (s ++ t) r = run t (run s r) := by
  rw [run, String.toList_append, List.foldl_append]
  rfl

/-- A sign goes in front of the operand that is awaited. -/
theorem run_sign {op : UnOp} (hop : op.isSign) :
    run op.sign ⟨.awaited, b, ss, outer⟩ = ⟨.awaited, b, op :: ss, outer⟩ := by
  cases op with
  | not | negate => rfl
  | _ => cases hop

/-- A symbol between operands ends the operand before it. -/
theorem run_symbol {op : BinOp} (hop : op ≠ .arrayIndex) :
    run " " (run op.symbol (run " " ⟨.operand x, b, ss, outer⟩)) =
      ⟨.awaited, .lhs op (x.signed ss), [], outer⟩ := by
  cases op with
  | arrayIndex => exact absurd rfl hop
  | _ => rfl

theorem spell_empty (x : Expr) : spell x "" = x := by
  cases x <;> simp [spell]

theorem spell_append (x : Expr) (s t : String) : spell x (s ++ t) = spell (spell x s) t := by
  cases x <;> simp [spell, String.append_assoc]

theorem foldl_letters {cs : List Char} (hcs : ∀ c ∈ cs, c ∉ marks) :
    cs.foldl step ⟨.operand x, b, ss, outer⟩ = ⟨.operand (spell x (.ofList cs)), b, ss, outer⟩ := by
  induction cs generalizing x with
  | nil => rw [List.foldl_nil, String.ofList_nil, spell_empty]
  | cons c cs ih =>
    rw [List.forall_mem_cons] at hcs
    have hstep : step ⟨.operand x, b, ss, outer⟩ c =
        ⟨.operand (spell x (.singleton c)), b, ss, outer⟩ := by
      have hc := hcs.1
      simp only [marks, List.mem_cons, List.not_mem_nil, or_false, not_or] at hc
      simp [step, hc]
    rw [List.foldl_cons, hstep, ih hcs.2, String.ofList_cons, spell_append]

/-- A name goes on up to a mark. -/
theorem run_letters {s : String} (hs : ∀ c ∈ s.toList, c ∉ marks) :
    run s ⟨.operand x, b, ss, outer⟩ = ⟨.operand (spell x s), b, ss, outer⟩ := by
  rw [run, foldl_letters hs, String.ofList_toList]

theorem run_word {s : String} (hs : IsWord s) :
    run s ⟨.awaited, b, ss, outer⟩ = ⟨.operand (.param ⟨0, s, .object⟩), b, ss, outer⟩ := by
  obtain ⟨hne, hs⟩ := hs
  obtain ⟨c, cs, rfl⟩ : ∃ c cs, s = .singleton c ++ .ofList cs := by
    cases h : s.toList with
    | nil => exact absurd (String.toList_eq_nil_iff.mp h) hne
    | cons c cs => exact ⟨c, cs, by rw [← String.ofList_cons, ← h, String.ofList_toList]⟩
  simp only [String.toList_append, String.toList_singleton, String.toList_ofList,
    List.forall_mem_append, List.forall_mem_singleton] at hs
  have hstep : run (.singleton c) ⟨.awaited, b, ss, outer⟩ =
      ⟨.operand (spell (.param ⟨0, "", .object⟩) (.singleton c)), b, ss, outer⟩ := by
    have hc := hs.1
    simp only [marks, List.mem_cons, List.not_mem_nil, or_false, not_or] at hc
    simp [run, step, hc]
  rw [run_append, hstep, run_letters (by simpa using hs.2), ← spell_append]
  simp [spell]

/-- The text, read where an operand is awaited, puts the expression there. -/
def ReadsOperand (e : Expr) : Prop :=
  ∀ b ss outer, run e.operandText ⟨.awaited, b, ss, outer⟩ =
    ⟨.operand e.unsigned.bare, b, e.signs ++ ss, outer⟩

/-- The text, read between brackets, is the expression. -/
def ReadsAlone (e : Expr) : Prop :=
  ∀ outer, ∃ x b ss, run e.text ⟨.awaited, .nothing, [], outer⟩ = ⟨.operand x, b, ss, outer⟩ ∧
    b.fill (x.signed ss) = e.bare

theorem signed_unsigned_bare (he : e.Formula) : signed e.signs e.unsigned.bare = e.bare := by
  rw [← bare_signed, signed_signs he]

theorem ReadsOperand.alone (h : ReadsOperand e) (he : e.Formula)
    (hcompound : e.isCompound = false) : ReadsAlone e := by
  intro outer
  refine ⟨e.unsigned.bare, .nothing, e.signs, ?_, signed_unsigned_bare he⟩
  rw [← operandText_of_not_compound hcompound, h, List.append_nil]

/-- The brackets around a compound operand are those that its text is read between. -/
theorem ReadsAlone.operand (h : ReadsAlone e) (hcompound : e.isCompound = true) :
    ReadsOperand e := by
  intro b ss outer
  obtain ⟨x, b', ss', hrun, hvalue⟩ := h ((.group, b, ss) :: outer)
  have hplain : e.signs = [] ∧ e.unsigned = e := by
    cases e with
    | unary => cases hcompound
    | _ => exact ⟨rfl, rfl⟩
  have hopen : run "(" ⟨.awaited, b, ss, outer⟩ =
      ⟨.awaited, .nothing, [], (.group, b, ss) :: outer⟩ := rfl
  have hclose : run ")" ⟨.operand x, b', ss', (.group, b, ss) :: outer⟩ =
      ⟨.operand (b'.fill (x.signed ss')), b, ss, outer⟩ := rfl
  rw [operandText, hcompound, parens, if_pos rfl, run_append, run_append, hopen, hrun, hclose,
    hvalue, hplain.1, hplain.2]
  rfl

/-! ### Nodes -/

theorem readsOperand_param {p : Param} (hp : IsWord p.name) : ReadsOperand (.param p) := by
  intro b ss outer
  rw [operandText_of_not_compound rfl, text_param hp.1, run_word hp]
  rfl

theorem readsOperand_member {target : Expr} {m : Member} (ht : ReadsOperand target)
    (hplain : target.signs = [] ∧ target.unsigned = target) (hm : IsWord m.name) :
    ReadsOperand (.member (some target) m) := by
  intro b ss outer
  have hdot : run "." ⟨.operand target.bare, b, ss, outer⟩ =
      ⟨.operand (.member (some target.bare) ⟨"", .object, .object⟩), b, ss, outer⟩ := rfl
  rw [operandText_of_not_compound rfl, text_member, run_append, run_append, ht, hplain.1, hplain.2,
    List.nil_append, hdot, run_letters hm.2, spell, String.empty_append]
  rfl

theorem readsOperand_index {array position : Expr} (ha : ReadsOperand array)
    (hplain : array.signs = [] ∧ array.unsigned = array) (hp : ReadsAlone position) :
    ReadsOperand (.binary .arrayIndex array position) := by
  intro b ss outer
  obtain ⟨x, b', ss', hrun, hvalue⟩ := hp ((.index array.bare, b, ss) :: outer)
  have hopen : run "[" ⟨.operand array.bare, b, ss, outer⟩ =
      ⟨.awaited, .nothing, [], (.index array.bare, b, ss) :: outer⟩ := rfl
  have hclose : run "]" ⟨.operand x, b', ss', (.index array.bare, b, ss) :: outer⟩ =
      ⟨.operand (.binary .arrayIndex array.bare (b'.fill (x.signed ss'))), b, ss, outer⟩ := rfl
  rw [operandText_of_not_compound rfl, text_index, run_append, run_append, run_append, ha, hplain.1,
    hplain.2, List.nil_append, hopen, hrun, hclose, hvalue]
  rfl

theorem readsOperand_unary {op : UnOp} (hop : op.isSign) (hx : ReadsOperand x) :
    ReadsOperand (.unary op x) := by
  intro b ss outer
  rw [operandText_of_not_compound rfl, text_unary hop, run_append, run_sign hop, hx, Expr.signs,
    List.append_assoc]
  rfl

theorem readsAlone_binary {op : BinOp} (hop : op ≠ .arrayIndex) {lhs rhs : Expr}
    (hlhs : lhs.Formula) (hrhs : rhs.Formula) (hl : ReadsOperand lhs) (hr : ReadsOperand rhs) :
    ReadsAlone (.binary op lhs rhs) := by
  intro outer
  refine ⟨rhs.unsigned.bare, .lhs op lhs.bare, rhs.signs, ?_, ?_⟩
  · rw [text_binary hop, run_append, run_append, run_append, run_append, hl, List.append_nil,
      run_symbol hop, signed_unsigned_bare hlhs, hr, List.append_nil]
  · rw [Before.fill, signed_unsigned_bare hrhs, bare]

theorem readsAlone_cond {test whenTrue whenFalse : Expr} (htest : test.Formula)
    (htrue : whenTrue.Formula) (hfalse : whenFalse.Formula) (ht : ReadsOperand test)
    (ha : ReadsOperand whenTrue) (hb : ReadsOperand whenFalse) :
    ReadsAlone (.cond test whenTrue whenFalse) := by
  intro outer
  have hthen : run " ? " ⟨.operand test.unsigned.bare, .nothing, test.signs, outer⟩ =
      ⟨.awaited, .test (signed test.signs test.unsigned.bare), [], outer⟩ := rfl
  have helse : run " : " ⟨.operand whenTrue.unsigned.bare, .test test.bare, whenTrue.signs, outer⟩ =
      ⟨.awaited, .branch test.bare (signed whenTrue.signs whenTrue.unsigned.bare), [], outer⟩ := rfl
  refine ⟨whenFalse.unsigned.bare, .branch test.bare whenTrue.bare, whenFalse.signs, ?_, ?_⟩
  · rw [text_cond, run_append, run_append, run_append, run_append, ht, List.append_nil, hthen,
      signed_unsigned_bare htest, ha, List.append_nil, helse, signed_unsigned_bare htrue, hb,
      List.append_nil]
  · rw [Before.fill, signed_unsigned_bare hfalse, bare]

/-- **Reading.** A formula is read back from its text, as an operand and alone, if no target has a
sign. -/
theorem reads (he : e.Formula) (hs : e.PlainTargets) : ReadsOperand e ∧ ReadsAlone e := by
  -- What is shown without parentheses is read as an operand, and therefore alone. For the others it
  -- is the other way round.
  induction he with
  | param hp =>
    have hoperand := readsOperand_param hp
    exact ⟨hoperand, hoperand.alone (.param hp) rfl⟩
  | member ht hm ih =>
    have hoperand := readsOperand_member (ih hs.2).1 ⟨hs.1, unsigned_eq_self ht hs.1⟩ hm
    exact ⟨hoperand, hoperand.alone (.member ht hm) rfl⟩
  | @binary op lhs rhs hl hr ihl ihr =>
    obtain ⟨hplain, hsl, hsr⟩ := hs
    by_cases hop : op = .arrayIndex
    · subst hop
      have hoperand := readsOperand_index (ihl hsl).1 ⟨hplain rfl, unsigned_eq_self hl (hplain rfl)⟩
        (ihr hsr).2
      exact ⟨hoperand, hoperand.alone (.binary hl hr) rfl⟩
    · have halone := readsAlone_binary hop hl hr (ihl hsl).1 (ihr hsr).1
      exact ⟨halone.operand (by simp [isCompound, hop]), halone⟩
  | unary hop hx ih =>
    have hoperand := readsOperand_unary hop (ih hs).1
    exact ⟨hoperand, hoperand.alone (.unary hop hx) rfl⟩
  | cond ht ha hb iht iha ihb =>
    have halone := readsAlone_cond ht ha hb (iht hs.1).1 (iha hs.2.1).1 (ihb hs.2.2).1
    exact ⟨halone.operand rfl, halone⟩

end Reader

theorem readBack_text (he : e.Formula) (hs : e.PlainTargets) : readBack e.text = e.bare := by
  obtain ⟨x, b, ss, hrun, hvalue⟩ := (Reader.reads he hs).2 []
  rw [readBack, Reader.start, hrun]
  exact hvalue

end Reading

/-- **Texts of formulas.** Two formulas have the same text exactly if they are equal up to ids and
types after the signs of targets have been moved in front of the accesses. So the text determines a
formula in which no target has a sign. -/
theorem text_eq_text_iff {e e' : Expr} (he : e.Formula) (he' : e'.Formula) :
    (e.text = e'.text ↔ e.hoisted.bare = e'.hoisted.bare) ∧
      (e.PlainTargets → e'.PlainTargets → e.text = e'.text → e.bare = e'.bare) := by
  have hread {x : Expr} (hx : x.Formula) : readBack x.text = x.hoisted.bare := by
    rw [← text_hoisted hx, readBack_text hx.hoisted (plainTargets_hoisted hx)]
  have hshown {x : Expr} (hx : x.Formula) : x.hoisted.bare.text = x.text := by
    rw [text_bare hx.hoisted, text_hoisted hx]
  have hiff : e.text = e'.text ↔ e.hoisted.bare = e'.hoisted.bare := by
    constructor <;> intro h
    · rw [← hread he, ← hread he', h]
    · rw [← hshown he, ← hshown he', h]
  refine ⟨hiff, fun hs hs' h => ?_⟩
  have hbare := hiff.mp h
  rwa [hoisted_eq_self he hs, hoisted_eq_self he' hs'] at hbare

/-! ## Signs and targets -/

section Ambiguity

open QueryNormal.Expr

/-- The formula `!a ? b.c[-i - j] : d`, with ids from a number on and all of one type. -/
def chosenItem (id : UInt32) (type : Ty) : Expr :=
  .cond (.unary .not (.param ⟨id, "a", type⟩))
    (.binary .arrayIndex (.member (some (.param ⟨id + 1, "b", type⟩)) ⟨"c", type, type⟩)
      (.binary .subtract (.unary .negate (.param ⟨id + 2, "i", type⟩))
        (.param ⟨id + 3, "j", type⟩)))
    (.param ⟨id + 4, "d", type⟩)

theorem isWord_letters :
    IsWord "a" ∧ IsWord "b" ∧ IsWord "c" ∧ IsWord "d" ∧ IsWord "i" ∧ IsWord "j" := by
  refine ⟨?_, ?_, ?_, ?_, ?_, ?_⟩ <;> exact isWord_of_letters (by decide) rfl

theorem formula_chosenItem (id : UInt32) (type : Ty) : (chosenItem id type).Formula := by
  obtain ⟨ha, hb, hc, hd, hi, hj⟩ := isWord_letters
  exact .cond (.unary rfl (.param ha))
    (.binary (.member (.param hb) hc) (.binary (.unary rfl (.param hi)) (.param hj))) (.param hd)

theorem plainTargets_chosenItem (id : UInt32) (type : Ty) : (chosenItem id type).PlainTargets :=
  ⟨trivial, ⟨fun _ => rfl, ⟨rfl, trivial⟩, fun h => absurd h (by decide), trivial, trivial⟩,
    trivial⟩

theorem text_eq_text_iff_chosenItem :
    ((chosenItem 0 .int).Formula ∧ (chosenItem 7 .bool).Formula) ∧
      ((chosenItem 0 .int).PlainTargets ∧ (chosenItem 7 .bool).PlainTargets) ∧
      (chosenItem 0 .int).text = "!a ? b.c[-i - j] : d" ∧
      (chosenItem 7 .bool).text = "!a ? b.c[-i - j] : d" ∧
      (chosenItem 0 .int).bare = (chosenItem 7 .bool).bare := by
  have hformula := formula_chosenItem 0 .int
  have hformula' := formula_chosenItem 7 .bool
  have hplain := plainTargets_chosenItem 0 .int
  have hplain' := plainTargets_chosenItem 7 .bool
  exact ⟨⟨hformula, hformula'⟩, ⟨hplain, hplain'⟩, rfl, rfl,
    (text_eq_text_iff hformula hformula').2 hplain hplain' rfl⟩

/-- The formulas have the same text, but differ in more than ids and types. -/
def Confused (e e' : Expr) : Prop := e.Formula ∧ e'.Formula ∧ e.text = e'.text ∧ e.bare ≠ e'.bare

/-- The member `b` of a truth value. -/
def memberB (target : Expr) : Expr := .member (some target) ⟨"b", .bool, .bool⟩

/-- The element at `i` of an array. -/
def elementI (array : Expr) : Expr := .binary .arrayIndex array (.param ⟨1, "i", .int⟩)

/-- The text of a formula does not determine it: a member of a negation is shown like the negation
of a member, and an element like an element. -/
theorem text_ambiguous :
    Confused (memberB (.unary .not (.param ⟨0, "a", .bool⟩)))
        (.unary .not (memberB (.param ⟨0, "a", .bool⟩))) ∧
      Confused (elementI (.unary .negate (.param ⟨0, "a", .int⟩)))
        (.unary .negate (elementI (.param ⟨0, "a", .int⟩))) := by
  obtain ⟨ha, hb, -, -, hi, -⟩ := isWord_letters
  constructor
  · refine ⟨.member (.unary rfl (.param ha)) hb, .unary rfl (.member (.param ha) hb), rfl, ?_⟩
    intro h
    cases h
  · refine ⟨.binary (.unary rfl (.param ha)) (.param hi),
      .unary rfl (.binary (.param ha) (.param hi)), rfl, ?_⟩
    intro h
    cases h

end Ambiguity

end QueryNormal
