import QueryNormal.Proofs.Invariants

/-!
# In-memory operators of a normal form

* `Call.Tabled`: an in-memory call is to an operator of the table.
* `Call.Justified`: an in-memory call has no counterpart on queries, compares sequences, or has a
  constructed source.
* `established_justified`: every rule leaves in-memory calls justified.
* `inMemory_justified_of_normalize`: so the in-memory calls of a normal form are justified.
-/

namespace QueryNormal

/-- The call, if it is of an in-memory operator, is of one that the table has. -/
def Call.Tabled (c : Call) : Prop :=
  c.method.family = .enumerable → c.method.signature ∈ Table.all

/-- The call, if it is of an in-memory operator, has a reason to stay in memory. -/
def Call.Justified (c : Call) : Prop :=
  c.method.family = .enumerable →
    c.method.name ∈ inMemoryOnly ∨ ∃ source, c.args.head? = some source ∧ source.isConstruction

instance (c : Call) : Decidable c.Tabled :=
  inferInstanceAs (Decidable (c.method.family = .enumerable → c.method.signature ∈ Table.all))

theorem mem_enumerable_of_mem_table : ∀ s ∈ Table.all, s.family = .enumerable →
    s ∈ Enumerable.all := by
  decide +kernel

theorem reading_mem_table : Enumerable.elementAt ∈ Table.all ∧ Enumerable.any ∈ Table.all := by
  decide +kernel

/-! ## Every rule -/

/-- What every rule leaves: proper calls of which the in-memory ones are tabled and justified. -/
structure Call.Settled (c : Call) : Prop where
  proper : c.Proper
  tabled : c.Tabled
  justified : c.Justified

theorem Call.Settled.of_family {c : Call} (hproper : c.Proper)
    (hfamily : c.method.family ≠ .enumerable) : c.Settled :=
  ⟨hproper, fun h => absurd h hfamily, fun h => absurd h hfamily⟩

theorem Reshaped.justified {c c' : Call} (h : Reshaped c c') (hc : c.Justified) : c'.Justified := by
  obtain ⟨m, r, args⟩ := c
  obtain ⟨m', r', args'⟩ := c'
  obtain ⟨rfl : m' = m, _, hargs⟩ := h
  intro hfamily
  rcases hc hfamily with hname | ⟨source, hsource, hconstruction⟩
  · exact .inl hname
  · cases hargs with
    | nil => cases hsource
    | cons hkeeps _ =>
      cases hsource
      exact .inr ⟨_, rfl, hkeeps.construction hconstruction⟩

theorem settled_of_built {c : Call} (h : c.Built) : c.Settled := by
  have honly : ∀ s ∈ builtOperators, s.family = .enumerable → s = Enumerable.asEnumerable := by
    decide
  refine ⟨h.isProper, fun hfamily => ?_, fun hfamily => .inl ?_⟩
  · rw [honly _ h.mem hfamily]
    decide +kernel
  · rw [Method.name, honly _ h.mem hfamily]
    decide

/-- **In-memory calls are justified.** Every rule leaves a call on queries, or a call that has a
reason to stay in memory. -/
theorem established_justified : Established (fun c => c.Proper ∧ c.Tabled) Call.Settled where
  reshaped {c c'} h hc := by
    refine ⟨h.proper hc.proper, ?_, h.justified hc.justified⟩
    rw [Call.Tabled, h.method]
    exact hc.tabled
  built h := settled_of_built h
  flat {joined typeArgs typeArgs' r args args'} hc hjoined hlen hargs := by
    have hshape : joined.typeParams = 4 ∧ joined.params.length = 5 ∧ joined.family = .queryable := by
      rcases hjoined with rfl | rfl <;> exact ⟨rfl, rfl, rfl⟩
    have htypes : typeArgs.length = 4 := hc.proper.typeArgs
    have hcount : args.length = 5 := hc.proper.args
    refine .of_family ⟨?_, ?_, fun hr => by cases hr⟩ ?_
    · exact hlen.trans (htypes.trans hshape.1.symm)
    · exact hargs.trans (hcount.trans hshape.2.1.symm)
    · simp [Method.family, hshape.2.2]
  weaken h := ⟨h.proper, h.tabled⟩
  walked hq hrule _ := by
    cases ruleCase hrule with
    | other _ _ _ hfamily => exact .of_family hq.1 hfamily
  converted hq _ _ hlen hfound _ _ := by
    have hcounterpart := toQueryable_eq_some hfound
    exact .of_family (hcounterpart.proper (hlen.symm.trans hq.1.args)) (by simp [hcounterpart.family])
  kept hq _ hstays := by
    refine ⟨hq.1, hq.2, fun _ => ?_⟩
    simp only [staysInMemory, Bool.or_eq_true, decide_eq_true_eq] at hstays
    rcases hstays with hname | hsource
    · exact .inl (by simp [inMemoryOnly, hname])
    · cases hhead : List.head? _ with
      | none => simp [hhead] at hsource
      | some source => exact .inr ⟨source, rfl, by simpa [hhead] using hsource⟩
  unmatched {m r args} hq _ hnone := by
    refine ⟨hq.1, hq.2, fun hfamily => .inl ?_⟩
    by_contra hname
    have hmem : m.signature ∈ Enumerable.all :=
      mem_enumerable_of_mem_table _ (hq.2 hfamily) hfamily
    obtain ⟨m', args', hsome⟩ := toQueryable_isSome hmem hname hq.1.typeArgs hq.1.args
    rw [hnone] at hsome
    cases hsome
  member hq hrule _ := by
    cases ruleCase hrule with
    | membership _ _ _ hfamily => exact .of_family hq.1 hfamily
  loading {m r args typeArgs} hq hrule hlen := by
    cases ruleCase hrule with
    | loading _ _ _ _ _ hloads =>
      have hfamily : m.family = .metadata := family_of_loadsOrdered hloads
      obtain rfl : r = none := hq.1.receiver_eq_none (by simp [hfamily])
      refine ⟨by simp, .of_family ⟨hlen.trans hq.1.typeArgs, hq.1.args, hq.1.receiver⟩ ?_⟩
      change m.family ≠ _
      simp [hfamily]
  elementAt hsource :=
    ⟨⟨rfl, rfl, fun hr => by cases hr⟩, fun _ => reading_mem_table.1,
      fun _ => .inr ⟨_, rfl, hsource⟩⟩
  any hsource :=
    ⟨⟨rfl, rfl, fun hr => by cases hr⟩, fun _ => reading_mem_table.2,
      fun _ => .inr ⟨_, rfl, hsource⟩⟩

/-! ## Normal forms -/

/-- **No in-memory operator survives without a reason.** In the normal form of a tree of proper
calls, whose in-memory operators are those of the table, an in-memory call at any depth has no
counterpart on queries, compares sequences, or has a constructed source. -/
theorem inMemory_justified_of_normalize {provider : Provider} {context context' : Context}
    {e e' : Expr} (hproper : ∀ c ∈ e.calls, c.Proper) (htabled : ∀ c ∈ e.calls, c.Tabled)
    (h : normalize provider context e = (.ok e', context')) :
    ∀ c ∈ e'.calls, c.method.family = .enumerable →
      c.method.name ∈ ["AsEnumerable", "ToList", "ToArray", "SequenceEqual"] ∨
        ∃ source, c.args.head? = some source ∧ source.isConstruction := by
  intro c hc
  have hsettled : c.Settled :=
    everyCall_of_normalize established_justified h (fun c hc => ⟨hproper c hc, htabled c hc⟩) c hc
  exact hsettled.justified

/-- The paid orders of each customer, given the paid ones among their orders, as a list. -/
def paidOrders (filtered : Expr → Expr → Expr) : Expr :=
  let customer : Ty := .entity "Customer"
  let order : Ty := .entity "Order"
  let orders : Expr := .access (.param ⟨0, "c", customer⟩) "Orders" (.seq .list order)
  let paid : Expr := .lambda [⟨1, "o", order⟩] (.access (.param ⟨1, "o", order⟩) "Paid" .bool)
  .apply Queryable.select [customer, .seq .list order]
    [.const (.reference "DbSet<Customer>()") (.queryable customer),
      .quote (.lambda [⟨0, "c", customer⟩]
        (.apply Enumerable.toList [order] [filtered orders paid]))]

/-- The paid orders, filtered in memory. -/
def paidInMemory : Expr :=
  paidOrders fun orders paid => .apply Domain.memory.filter [.entity "Order"] [orders, paid]

/-- The paid orders, filtered by a query. -/
def paidByQuery : Expr :=
  paidOrders fun orders paid =>
    .apply Queryable.filter [.entity "Order"] [asQueryable orders (.entity "Order"), .quote paid]

theorem inMemory_justified_of_paidInMemory :
    (∀ c ∈ paidInMemory.calls, c.Proper) ∧ (∀ c ∈ paidInMemory.calls, c.Tabled) ∧
      normalize ⟨false⟩ default paidInMemory = (.ok paidByQuery, default) ∧
        (∃ c ∈ paidByQuery.calls, c.method.family = .enumerable) ∧
        ∀ c ∈ paidByQuery.calls, c.method.family = .enumerable →
          c.method.name ∈ ["AsEnumerable", "ToList", "ToArray", "SequenceEqual"] ∨
            ∃ source, c.args.head? = some source ∧ source.isConstruction :=
  have hproper : ∀ c ∈ paidInMemory.calls, c.Proper := by decide
  have htabled : ∀ c ∈ paidInMemory.calls, c.Tabled := by decide +kernel
  have hnormal : normalize ⟨false⟩ default paidInMemory = (.ok paidByQuery, default) := rfl
  ⟨hproper, htabled, hnormal, by decide,
    inMemory_justified_of_normalize hproper htabled hnormal⟩

end QueryNormal
