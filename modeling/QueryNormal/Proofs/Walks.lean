import QueryNormal.Expr.Walk
import QueryNormal.Proofs.Visitors

/-!
# What walks enter

* `Expr.events`: the events of a complete walk.
* `accept_announcer`: they are what a visitor enters.
* `Expr.editedWhere`: a tree with the leaves edited whose event is recorded.
* `Trace.upTo`: what a walk with a limit has recorded when it has come by some events.
* `trace_upTo`, `edit_upTo`: coming by a tree is coming by its events, for both walks.
* `trace_eq_accept`: the recording walk is that of a visitor that throws at the limit.
* `walks_record_prefix`: a walk with a limit records the first events of the complete walk, whether
  it edits or not, and edits the leaves whose event it records.

The events that come before a subtree fix the position of each of its own. So what is said of a walk
is said from any position on.
-/

namespace QueryNormal

/-! ## Equality of events -/

mutual
/-- The order tells any two literals apart. -/
theorem Literal.compare_eq_iff : ∀ x y : Literal, x.compare y = .eq ↔ x = y
  | .null, y => by cases y <;> simp [Literal.compare, Literal.rank]
  | .bool value, y => by cases y <;> simp [Literal.compare, Literal.rank]
  | .int value, y => by cases y <;> simp [Literal.compare, Literal.rank]
  | .string value, y => by cases y <;> simp [Literal.compare, Literal.rank]
  | .list values, y => by
    cases y <;> simp [Literal.compare, Literal.rank, Literal.compareList_eq_iff values]
  | .reference name, y => by cases y <;> simp [Literal.compare, Literal.rank]

theorem Literal.compareList_eq_iff : ∀ xs ys : List Literal,
    Literal.compareList xs ys = .eq ↔ xs = ys
  | [], ys => by cases ys <;> simp [Literal.compareList]
  | x :: xs, ys => by
    cases ys <;>
      simp [Literal.compareList, Literal.compare_eq_iff x, Literal.compareList_eq_iff xs]
end

instance : DecidableEq Literal := fun x y =>
  decidable_of_iff (x.compare y = .eq) (Literal.compare_eq_iff x y)

deriving instance DecidableEq for Event

namespace Expr

/-! ## Events and positions -/

mutual
/-- The events of a complete walk: what a node is, before what it holds, from left to right. -/
def events : Expr → List Event
  | .call method receiver args =>
      [.node .call, .call method.name] ++ eventsOption receiver ++ eventsList args
  | .lambda params body => [.node .lambda, .lambda params.length] ++ body.events
  | .quote inner => [.node .quote] ++ inner.events
  | .param p => [.node .param, .param p.id]
  | .member target _ => [.node .member] ++ eventsOption target
  | .binary _ lhs rhs => [.node .binary] ++ lhs.events ++ rhs.events
  | .unary _ operand => [.node .unary] ++ operand.events
  | .const value _ => [.node .const, .literal value]
  | .new _ args _ => [.node .new, .new args.length] ++ eventsList args
  | .newWith _ args _ bindings =>
      [.node .newWith, .new args.length] ++ eventsList args ++ eventsBindings bindings
  | .cond test whenTrue whenFalse =>
      [.node .cond] ++ test.events ++ whenTrue.events ++ whenFalse.events
  | .placeholder p => [.node .placeholder, .placeholder p.name]

/-- The events of a receiver or a target. -/
def eventsOption : Option Expr → List Event
  | none => []
  | some e => e.events

/-- The events of a list of trees. -/
def eventsList : List Expr → List Event
  | [] => []
  | e :: es => e.events ++ eventsList es

/-- The events of bindings. -/
def eventsBindings : List Binding → List Event
  | [] => []
  | .assign name value :: bs => [.binding name] ++ value.events ++ eventsBindings bs
  | .items name values :: bs => [.binding name] ++ eventsList values ++ eventsBindings bs
end

mutual
/-- The tree, whose first event has the position `i`, with each leaf edited whose own event is
recorded at its position, which is the one after that of the node. -/
def editedWhere (edits : Edits) (recorded : List Event) : Nat → Expr → Expr
  | i, .call method receiver args =>
      .call method (editedOptionWhere edits recorded (i + 2) receiver)
        (editedListWhere edits recorded (i + ((eventsOption receiver).length + 2)) args)
  | i, .lambda params body => .lambda params (editedWhere edits recorded (i + 2) body)
  | i, .quote inner => .quote (editedWhere edits recorded (i + 1) inner)
  | i, .param p =>
      .param (if recorded[i + 1]? = some (.param p.id) then edits.param p else p)
  | i, .member target m => .member (editedOptionWhere edits recorded (i + 1) target) m
  | i, .binary op lhs rhs =>
      .binary op (editedWhere edits recorded (i + 1) lhs)
        (editedWhere edits recorded (i + (lhs.events.length + 1)) rhs)
  | i, .unary op operand => .unary op (editedWhere edits recorded (i + 1) operand)
  | i, .const value type =>
      .const (if recorded[i + 1]? = some (.literal value) then edits.literal value else value) type
  | i, .new type args names => .new type (editedListWhere edits recorded (i + 2) args) names
  | i, .newWith type args names bindings =>
      .newWith type (editedListWhere edits recorded (i + 2) args) names
        (editedBindingsWhere edits recorded (i + ((eventsList args).length + 2)) bindings)
  | i, .cond test whenTrue whenFalse =>
      .cond (editedWhere edits recorded (i + 1) test)
        (editedWhere edits recorded (i + (test.events.length + 1)) whenTrue)
        (editedWhere edits recorded (i + (test.events.length + whenTrue.events.length + 1)) whenFalse)
  | i, .placeholder p =>
      .placeholder
        (if recorded[i + 1]? = some (.placeholder p.name) then edits.placeholder p else p)

/-- Edits a receiver or a target. -/
def editedOptionWhere (edits : Edits) (recorded : List Event) : Nat → Option Expr → Option Expr
  | _, none => none
  | i, some e => some (editedWhere edits recorded i e)

/-- Edits a list of trees. -/
def editedListWhere (edits : Edits) (recorded : List Event) : Nat → List Expr → List Expr
  | _, [] => []
  | i, e :: es =>
      editedWhere edits recorded i e :: editedListWhere edits recorded (i + e.events.length) es

/-- Edits the values in bindings. -/
def editedBindingsWhere (edits : Edits) (recorded : List Event) :
    Nat → List Binding → List Binding
  | _, [] => []
  | i, .assign name value :: bs =>
      .assign name (editedWhere edits recorded (i + 1) value) ::
        editedBindingsWhere edits recorded (i + (value.events.length + 1)) bs
  | i, .items name values :: bs =>
      .items name (editedListWhere edits recorded (i + 1) values) ::
        editedBindingsWhere edits recorded (i + ((eventsList values).length + 1)) bs
end

end Expr

/-! ## Limits -/

/-- What a walk with the limit has recorded when it has come by the events. -/
def Trace.upTo (limit : Option Nat) (events : List Event) : Trace :=
  limit.elim ⟨events, false⟩ fun n => ⟨events.take n, n < events.length⟩

@[simp] theorem enter_upTo (limit : Option Nat) (before : List Event) (event : Event) :
    (Trace.upTo limit before).enter limit event = .upTo limit (before ++ [event]) := by
  cases limit with
  | none => rfl
  | some n =>
    simp only [Trace.upTo, Option.elim_some, Trace.enter, Trace.isFull, List.length_append,
      List.length_singleton, List.length_take]
    rcases Nat.lt_trichotomy n before.length with h | rfl | h
    · simp [h, List.take_append_of_le_length (Nat.le_of_lt h), Nat.lt_succ_of_lt h]
    · simp
    · have hgoes : ¬ n < before.length := Nat.not_lt_of_lt h
      have hroom : ¬ n ≤ min n before.length := by omega
      have hlast : ¬ n < before.length + 1 := by omega
      have hbefore : before.take n = before := List.take_of_length_le (Nat.le_of_lt h)
      have hall : (before ++ [event]).take n = before ++ [event] :=
        List.take_of_length_le (by simpa using Nat.succ_le_of_lt h)
      simp only [hgoes, hroom, hlast, hbefore, hall, decide_false, Bool.false_eq_true, if_false]

/-! ## Visitors -/

namespace Expr

/-- The events of the node itself. -/
def ownEvents : Expr → List Event
  | .call method _ _ => [.node .call, .call method.name]
  | .lambda params _ => [.node .lambda, .lambda params.length]
  | .param p => [.node .param, .param p.id]
  | .const value _ => [.node .const, .literal value]
  | .new _ args _ => [.node .new, .new args.length]
  | .newWith _ args _ _ => [.node .newWith, .new args.length]
  | .placeholder p => [.node .placeholder, .placeholder p.name]
  | e => [.node e.kind]

/-- Acts at every event. -/
def announcer {M : Type → Type} [Monad M] (act : Event → M Unit) : Visitor M where
  node e := forM e.ownEvents act
  binding b := act (.binding b.name)

section Announcer

variable {M : Type → Type} [Monad M] (act : Event → M Unit)

@[simp] theorem announcer_node (e : Expr) : (announcer act).node e = forM e.ownEvents act := rfl

@[simp] theorem announcer_binding (b : Binding) :
    (announcer act).binding b = act (.binding b.name) := rfl

variable [LawfulMonad M] {act}

theorem acceptList_announcer {es : List Expr}
    (h : ∀ x ∈ es, x.accept (announcer act) = forM x.events act) :
    acceptList (announcer act) es = forM (eventsList es) act := by
  induction es with
  | nil => simp [acceptList, eventsList]
  | cons x es ih =>
    rw [acceptList, eventsList, List.forM_append, h x List.mem_cons_self,
      ih fun y hy => h y (List.mem_cons_of_mem x hy)]

theorem acceptBindings_announcer {bs : List Binding}
    (h : ∀ x ∈ bs.flatMap Binding.values, x.accept (announcer act) = forM x.events act) :
    acceptBindings (announcer act) bs = forM (eventsBindings bs) act := by
  induction bs with
  | nil => simp [acceptBindings, eventsBindings]
  | cons b bs ih =>
    have hrest := ih fun x hx => h x (List.mem_append_right _ hx)
    cases b with
    | assign name value =>
      have hvalue := h value (List.mem_append_left _ List.mem_cons_self)
      simp [acceptBindings, eventsBindings, Binding.name, hvalue, hrest]
    | items name values =>
      have hvalues : acceptList (announcer act) values = _ :=
        acceptList_announcer fun x hx => h x (List.mem_append_left _ hx)
      simp [acceptBindings, eventsBindings, Binding.name, hvalues, hrest]

/-- What a visitor enters are the events, in order. -/
theorem accept_announcer (e : Expr) : e.accept (announcer act) = forM e.events act := by
  induction e using induction_parts with
  | _ e ih =>
    cases e with
    | call method r args =>
      have hargs := acceptList_announcer fun x hx => ih x (List.mem_append_right _ hx)
      cases r with
      | none => simp [accept, ownEvents, events, acceptOption, eventsOption, hargs]
      | some r =>
        have hr := ih r (by simp [parts])
        simp [accept, ownEvents, events, acceptOption, eventsOption, hr, hargs]
    | member target m =>
      cases target with
      | none => simp [accept, ownEvents, kind, events, acceptOption, eventsOption]
      | some target =>
        have htarget := ih target (by simp [parts])
        simp [accept, ownEvents, kind, events, acceptOption, eventsOption, htarget]
    | binary op lhs rhs =>
      have hl := ih lhs (by simp [parts])
      have hr := ih rhs (by simp [parts])
      simp [accept, ownEvents, kind, events, hl, hr]
    | lambda params body | quote body | unary op body =>
      have hbody := ih body (by simp [parts])
      simp [accept, ownEvents, kind, events, hbody]
    | new type args names =>
      have hargs : acceptList (announcer act) args = _ := acceptList_announcer ih
      simp [accept, ownEvents, events, hargs]
    | newWith type args names bindings =>
      have hargs := acceptList_announcer fun x hx => ih x (List.mem_append_left _ hx)
      have hbindings := acceptBindings_announcer fun x hx => ih x (List.mem_append_right _ hx)
      simp [accept, ownEvents, events, hargs, hbindings]
    | cond test a b =>
      have htest := ih test (by simp [parts])
      have ha := ih a (by simp [parts])
      have hb := ih b (by simp [parts])
      simp [accept, ownEvents, kind, events, htest, ha, hb]
    | param | const | placeholder => simp [accept, ownEvents, events]

end Announcer

end Expr

/-! ## Walks -/

section Walks

variable {limit : Option Nat}

mutual
/-- Coming by a tree is coming by its events. -/
theorem trace_upTo : ∀ (e : Expr) (before : List Event),
    e.trace limit (.upTo limit before) = .upTo limit (before ++ e.events)
  | .call m r args, before => by
    simp [Expr.trace, Expr.events, traceOption_upTo r, traceList_upTo args]
  | .lambda params body, before => by simp [Expr.trace, Expr.events, trace_upTo body]
  | .quote inner, before => by simp [Expr.trace, Expr.events, trace_upTo inner]
  | .param p, before => by simp [Expr.trace, Expr.events]
  | .member target m, before => by simp [Expr.trace, Expr.events, traceOption_upTo target]
  | .binary op lhs rhs, before => by
    simp [Expr.trace, Expr.events, trace_upTo lhs, trace_upTo rhs]
  | .unary op operand, before => by simp [Expr.trace, Expr.events, trace_upTo operand]
  | .const value type, before => by simp [Expr.trace, Expr.events]
  | .new type args names, before => by simp [Expr.trace, Expr.events, traceList_upTo args]
  | .newWith type args names bindings, before => by
    simp [Expr.trace, Expr.events, traceList_upTo args, traceBindings_upTo bindings]
  | .cond test a b, before => by
    simp [Expr.trace, Expr.events, trace_upTo test, trace_upTo a, trace_upTo b]
  | .placeholder p, before => by simp [Expr.trace, Expr.events]

theorem traceOption_upTo : ∀ (r : Option Expr) (before : List Event),
    Expr.traceOption limit r (.upTo limit before) = .upTo limit (before ++ Expr.eventsOption r)
  | none, before => by simp [Expr.traceOption, Expr.eventsOption]
  | some e, before => by simp [Expr.traceOption, Expr.eventsOption, trace_upTo e]

theorem traceList_upTo : ∀ (es : List Expr) (before : List Event),
    Expr.traceList limit es (.upTo limit before) = .upTo limit (before ++ Expr.eventsList es)
  | [], before => by simp [Expr.traceList, Expr.eventsList]
  | e :: es, before => by simp [Expr.traceList, Expr.eventsList, trace_upTo e, traceList_upTo es]

theorem traceBindings_upTo : ∀ (bs : List Binding) (before : List Event),
    Expr.traceBindings limit bs (.upTo limit before) =
      .upTo limit (before ++ Expr.eventsBindings bs)
  | [], before => by simp [Expr.traceBindings, Expr.eventsBindings]
  | .assign name value :: bs, before => by
    simp [Expr.traceBindings, Expr.eventsBindings, trace_upTo value, traceBindings_upTo bs]
  | .items name values :: bs, before => by
    simp [Expr.traceBindings, Expr.eventsBindings, traceList_upTo values, traceBindings_upTo bs]
end

/-- Records an event, or throws at the limit. -/
def record (limit : Option Nat) (event : Event) : ExceptT Unit (StateM (List Event)) Unit :=
  ExceptT.mk fun events =>
    if Trace.isFull limit ⟨events, false⟩ then (.error (), events)
    else (.ok (), events ++ [event])

/-- What a computation that records has recorded, and whether it has thrown. -/
def Trace.of (x : ExceptT Unit (StateM (List Event)) Unit) (before : List Event) : Trace :=
  ⟨(x.run.run before).2, !(x.run.run before).1.isOk⟩

theorem foldl_enter_of_stopped {t : Trace} (h : t.stopped = true) (events : List Event) :
    events.foldl (fun t event => t.enter limit event) t = t := by
  induction events with
  | nil => rfl
  | cons event events ih => rw [List.foldl_cons, Trace.enter, if_pos h, ih]

theorem run_record_bind (event : Event) (before : List Event)
    (k : Unit → ExceptT Unit (StateM (List Event)) Unit) :
    (record limit event >>= k).run.run before =
      if Trace.isFull limit ⟨before, false⟩ then (.error (), before)
      else (k ()).run.run (before ++ [event]) := by
  have hrun : (record limit event).run.run before =
    if Trace.isFull limit ⟨before, false⟩ then (.error (), before)
    else (.ok (), before ++ [event]) := rfl
  rw [ExceptT.run_bind, StateT.run_bind, hrun]
  split <;> rfl

/-- Recording events stops where entering them one after the other does. -/
theorem of_forM_record (events before : List Event) :
    Trace.of (forM events (record limit)) before =
      events.foldl (fun t event => t.enter limit event) ⟨before, false⟩ := by
  induction events generalizing before with
  | nil => rfl
  | cons event events ih =>
    rw [List.forM_cons, List.foldl_cons, Trace.of, run_record_bind]
    cases hfull : Trace.isFull limit ⟨before, false⟩ with
    | true =>
      have henter : Trace.enter limit event ⟨before, false⟩ = ⟨before, true⟩ := by
        simp [Trace.enter, hfull]
      rw [henter, foldl_enter_of_stopped rfl]
      rfl
    | false =>
      have henter : Trace.enter limit event ⟨before, false⟩ = ⟨before ++ [event], false⟩ := by
        simp [Trace.enter, hfull]
      rw [henter, ← ih]
      rfl

theorem foldl_enter_upTo (events before : List Event) :
    events.foldl (fun t event => Trace.enter limit event t) (.upTo limit before) =
      .upTo limit (before ++ events) := by
  induction events generalizing before with
  | nil => simp
  | cons event events ih =>
    rw [List.foldl_cons, enter_upTo, ih, List.append_assoc, List.singleton_append]

/-- **The recording walk is that of a visitor** that records every event and throws at the limit. -/
theorem trace_eq_accept (limit : Option Nat) (e : Expr) :
    e.trace limit .empty = Trace.of (e.accept (Expr.announcer (record limit))) [] := by
  have hstart : Trace.empty = .upTo limit [] := by cases limit <;> simp [Trace.upTo, Trace.empty]
  have hempty : (⟨[], false⟩ : Trace) = .upTo limit [] := hstart
  rw [Expr.accept_announcer, of_forM_record, hempty, foldl_enter_upTo, hstart, trace_upTo]

variable {edits : Edits} {all : List Event}

/-- The leaf is edited if its event, which follows that of its node, is among those of the whole
tree that are recorded. -/
theorem edited_upTo {α : Type} {before after : List Event} {node event : Event}
    (h : all = before ++ [node, event] ++ after) (f : α → α) (x : α) :
    (Trace.upTo limit (before ++ [node, event])).edited f x =
      if (Trace.upTo limit all).events[before.length + 1]? = some event then f x else x := by
  have hat : all[before.length + 1]? = some event := by simp [h]
  cases limit with
  | none => simp [Trace.upTo, Trace.edited, hat]
  | some n =>
    by_cases hn : before.length + 1 < n
    · have hrecorded : ¬ n < before.length + 2 := by omega
      simp [Trace.upTo, Trace.edited, hn, hat, hrecorded]
    · have hstopped : n < before.length + 2 := by omega
      have hcut : (all.take n)[before.length + 1]? = none :=
        List.getElem?_take_eq_none (Nat.le_of_not_lt hn)
      simp [Trace.upTo, Trace.edited, hcut, hstopped]

mutual
/-- Coming by a tree edits the leaves whose event is recorded, and nothing else. -/
theorem edit_upTo : ∀ (e : Expr) (before after : List Event), all = before ++ e.events ++ after →
    e.edit edits limit (.upTo limit before) =
      (e.editedWhere edits (Trace.upTo limit all).events before.length,
        .upTo limit (before ++ e.events))
  | .call m none args, before, after, h => by
    have hargs := editList_upTo args (before ++ [.node .call, .call m.name]) after
      (by simp [h, Expr.events, Expr.eventsOption])
    simp [Expr.edit, Expr.editedWhere, Expr.editedOptionWhere, Expr.events, Expr.eventsOption,
      hargs]
  | .call m (some r) args, before, after, h => by
    have hr := edit_upTo r (before ++ [.node .call, .call m.name]) (Expr.eventsList args ++ after)
      (by simp [h, Expr.events, Expr.eventsOption])
    have hargs := editList_upTo args (before ++ .node .call :: .call m.name :: r.events) after
      (by simp [h, Expr.events, Expr.eventsOption])
    simp [Expr.edit, Expr.editedWhere, Expr.editedOptionWhere, Expr.events, Expr.eventsOption, hr,
      hargs]
  | .lambda params body, before, after, h => by
    have hbody := edit_upTo body (before ++ [.node .lambda, .lambda params.length]) after
      (by simp [h, Expr.events])
    simp [Expr.edit, Expr.editedWhere, Expr.events, hbody]
  | .quote inner, before, after, h => by
    have hinner := edit_upTo inner (before ++ [.node .quote]) after (by simp [h, Expr.events])
    simp [Expr.edit, Expr.editedWhere, Expr.events, hinner]
  | .param p, before, after, h => by
    simp [Expr.edit, Expr.editedWhere, Expr.events, edited_upTo h]
  | .member none m, before, after, h => by
    simp [Expr.edit, Expr.editedWhere, Expr.editedOptionWhere, Expr.events, Expr.eventsOption]
  | .member (some target) m, before, after, h => by
    have htarget := edit_upTo target (before ++ [.node .member]) after
      (by simp [h, Expr.events, Expr.eventsOption])
    simp [Expr.edit, Expr.editedWhere, Expr.editedOptionWhere, Expr.events, Expr.eventsOption,
      htarget]
  | .binary op lhs rhs, before, after, h => by
    have hl := edit_upTo lhs (before ++ [.node .binary]) (rhs.events ++ after)
      (by simp [h, Expr.events])
    have hr := edit_upTo rhs (before ++ .node .binary :: lhs.events) after
      (by simp [h, Expr.events])
    simp [Expr.edit, Expr.editedWhere, Expr.events, hl, hr]
  | .unary op operand, before, after, h => by
    have hoperand := edit_upTo operand (before ++ [.node .unary]) after (by simp [h, Expr.events])
    simp [Expr.edit, Expr.editedWhere, Expr.events, hoperand]
  | .const value type, before, after, h => by
    simp [Expr.edit, Expr.editedWhere, Expr.events, edited_upTo h]
  | .new type args names, before, after, h => by
    have hargs := editList_upTo args (before ++ [.node .new, .new args.length]) after
      (by simp [h, Expr.events])
    simp [Expr.edit, Expr.editedWhere, Expr.events, hargs]
  | .newWith type args names bindings, before, after, h => by
    have hargs := editList_upTo args (before ++ [.node .newWith, .new args.length])
      (Expr.eventsBindings bindings ++ after) (by simp [h, Expr.events])
    have hbindings := editBindings_upTo bindings
      (before ++ .node .newWith :: .new args.length :: Expr.eventsList args) after
      (by simp [h, Expr.events])
    simp [Expr.edit, Expr.editedWhere, Expr.events, hargs, hbindings]
  | .cond test a b, before, after, h => by
    have htest := edit_upTo test (before ++ [.node .cond]) (a.events ++ b.events ++ after)
      (by simp [h, Expr.events])
    have ha := edit_upTo a (before ++ .node .cond :: test.events) (b.events ++ after)
      (by simp [h, Expr.events])
    have hb := edit_upTo b (before ++ .node .cond :: (test.events ++ a.events)) after
      (by simp [h, Expr.events])
    simp [Expr.edit, Expr.editedWhere, Expr.events, htest, ha, hb]
  | .placeholder p, before, after, h => by
    simp [Expr.edit, Expr.editedWhere, Expr.events, edited_upTo h]

theorem editList_upTo : ∀ (es : List Expr) (before after : List Event),
    all = before ++ Expr.eventsList es ++ after →
    Expr.editList edits limit es (.upTo limit before) =
      (Expr.editedListWhere edits (Trace.upTo limit all).events before.length es,
        .upTo limit (before ++ Expr.eventsList es))
  | [], before, after, h => by simp [Expr.editList, Expr.eventsList, Expr.editedListWhere]
  | e :: es, before, after, h => by
    have he := edit_upTo e before (Expr.eventsList es ++ after) (by simp [h, Expr.eventsList])
    have hes := editList_upTo es (before ++ e.events) after (by simp [h, Expr.eventsList])
    simp [Expr.editList, Expr.eventsList, Expr.editedListWhere, he, hes]

theorem editBindings_upTo : ∀ (bs : List Binding) (before after : List Event),
    all = before ++ Expr.eventsBindings bs ++ after →
    Expr.editBindings edits limit bs (.upTo limit before) =
      (Expr.editedBindingsWhere edits (Trace.upTo limit all).events before.length bs,
        .upTo limit (before ++ Expr.eventsBindings bs))
  | [], before, after, h => by
    simp [Expr.editBindings, Expr.eventsBindings, Expr.editedBindingsWhere]
  | .assign name value :: bs, before, after, h => by
    have hvalue := edit_upTo value (before ++ [.binding name]) (Expr.eventsBindings bs ++ after)
      (by simp [h, Expr.eventsBindings])
    have hbs := editBindings_upTo bs (before ++ .binding name :: value.events) after
      (by simp [h, Expr.eventsBindings])
    simp [Expr.editBindings, Expr.eventsBindings, Expr.editedBindingsWhere, hvalue, hbs]
  | .items name values :: bs, before, after, h => by
    have hvalues := editList_upTo values (before ++ [.binding name])
      (Expr.eventsBindings bs ++ after) (by simp [h, Expr.eventsBindings])
    have hbs := editBindings_upTo bs (before ++ .binding name :: Expr.eventsList values) after
      (by simp [h, Expr.eventsBindings])
    simp [Expr.editBindings, Expr.eventsBindings, Expr.editedBindingsWhere, hvalues, hbs]
end

/-- **Both walks record the same and stop alike.** With a limit, a walk records the first events of
the complete walk of the tree, and is stopped if there are more. This is so if it edits the tree on
the way, and then the leaves whose event is recorded are edited, and nothing else is changed. -/
theorem walks_record_prefix (edits : Edits) (e : Expr) (n : Nat) :
    e.trace none .empty = ⟨e.events, false⟩ ∧
      e.trace (some n) .empty = ⟨e.events.take n, n < e.events.length⟩ ∧
      e.edit edits (some n) .empty =
        (e.editedWhere edits (e.events.take n) 0, ⟨e.events.take n, n < e.events.length⟩) := by
  have hstart : Trace.empty = .upTo (some n) [] := by simp [Trace.upTo, Trace.empty]
  refine ⟨trace_upTo e [], ?_, ?_⟩
  · rw [hstart, trace_upTo]
    rfl
  · rw [hstart, edit_upTo e [] [] (List.append_nil e.events).symm]
    rfl

end Walks

/-- Of `x == 1`, the first three events are recorded. The reference is edited, and the literal is
not. -/
example :
    (Expr.binary .equal (.param ⟨0, "x", .int⟩) (.const (.int 1) .int)).edit (.shift 7) (some 3)
        .empty =
      (.binary .equal (.param ⟨7, "x", .int⟩) (.const (.int 1) .int),
        ⟨[.node .binary, .node .param, .param 0], true⟩) := rfl

end QueryNormal
