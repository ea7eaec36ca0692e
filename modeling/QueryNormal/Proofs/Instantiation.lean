import QueryNormal.Operator.Table

/-!
# Filling the slots of types

* `Ty.HasSlot`: a slot stands in a type, at any depth.
* `Ty.instantiate_instantiate_eq_iff`: whether two lists of arguments, one after the other, do what a
  third does is decided slot by slot.
* `Ty.instantiate_composes_iff`: when one list of arguments stands for two.
* `table_slotsBelow`: the operators of the table have no slot beyond their type parameters.
* `instantiate_composes`: instantiation composes, for types and for methods.

A slot without an argument stays, and the second list may then have an argument for it. This is the
only way for composition to fail.
-/

namespace QueryNormal

namespace Ty

/-! ## Parts of types -/

/-- The types that a type is directly made of. -/
def parts : Ty → List Ty
  | .object | .scalar _ | .entity _ | .slot _ => []
  | .record _ fields _ => fields.map Prod.snd
  | .seq _ element => [element]
  | .grouping key element => [key, element]
  | .includable root property => [root, property]
  | .func params result => params ++ [result]
  | .quoted delegate => [delegate]

theorem sizeOf_lt_of_mem_parts {t part : Ty} (h : part ∈ t.parts) : sizeOf part < sizeOf t := by
  cases t with
  | record name fields byValue =>
    obtain ⟨⟨field, part⟩, hfield, rfl⟩ := List.mem_map.mp h
    have := List.sizeOf_lt_of_mem hfield
    simp only [record.sizeOf_spec, Prod.mk.sizeOf_spec] at this ⊢
    omega
  | func params result =>
    rcases List.mem_append.mp h with h | h
    · have := List.sizeOf_lt_of_mem h
      simp only [func.sizeOf_spec]
      omega
    · obtain rfl := List.mem_singleton.mp h
      simp only [func.sizeOf_spec]
      omega
  | seq kind element =>
    obtain rfl := List.mem_singleton.mp h
    simp only [seq.sizeOf_spec]
    omega
  | quoted delegate =>
    obtain rfl := List.mem_singleton.mp h
    simp only [quoted.sizeOf_spec]
    omega
  | grouping a b | includable a b =>
    simp only [parts, List.mem_cons, List.not_mem_nil, or_false] at h
    rcases h with rfl | rfl <;> simp only [grouping.sizeOf_spec, includable.sizeOf_spec] <;> omega
  | object | scalar | entity | slot => cases h

/-- **Induction over types.** -/
theorem induction_parts {P : Ty → Prop} (h : ∀ t, (∀ part ∈ t.parts, P part) → P t) (t : Ty) : P t := by
  induction hn : sizeOf t using Nat.strongRecOn generalizing t with
  | _ n ih =>
    subst hn
    exact h t fun part hpart => ih _ (sizeOf_lt_of_mem_parts hpart) part rfl

/-! ## Slots of types -/

/-- The slot is the type, or stands in a part of it. -/
inductive HasSlot (i : Nat) : Ty → Prop
  | here : HasSlot i (.slot i)
  | inside {t part : Ty} : part ∈ t.parts → HasSlot i part → HasSlot i t

theorem hasSlot_slot {i j : Nat} : (slot j).HasSlot i ↔ i = j := by
  constructor
  · rintro (_ | ⟨⟨⟩, -⟩)
    rfl
  · rintro rfl
    exact .here

/-- **What is decided part by part is decided slot by slot.** -/
theorem iff_forall_slots {P : Ty → Prop}
    (h : ∀ t : Ty, (∀ i, t ≠ .slot i) → (P t ↔ ∀ part ∈ t.parts, P part)) (t : Ty) :
    P t ↔ ∀ i, t.HasSlot i → P (.slot i) := by
  induction t using induction_parts with
  | _ t ih =>
    by_cases hslot : ∃ i, t = .slot i
    · obtain ⟨i, rfl⟩ := hslot
      simp only [hasSlot_slot, forall_eq]
    · rw [h t fun i hi => hslot ⟨i, hi⟩]
      constructor
      · rintro hparts i (_ | ⟨hpart, hi⟩)
        · exact absurd ⟨i, rfl⟩ hslot
        · exact (ih _ hpart).mp (hparts _ hpart) i hi
      · intro hslots part hpart
        exact (ih part hpart).mpr fun i hi => hslots i (.inside hpart hi)

mutual
/-- Whether every slot of the type is less than `n`. -/
def slotsBelow (n : Nat) : Ty → Bool
  | .slot i => i < n
  | .object | .scalar _ | .entity _ => true
  | .record _ fields _ => slotsBelowFields n fields
  | .seq _ element => element.slotsBelow n
  | .grouping key element => key.slotsBelow n && element.slotsBelow n
  | .includable root property => root.slotsBelow n && property.slotsBelow n
  | .func params result => slotsBelowList n params && result.slotsBelow n
  | .quoted delegate => delegate.slotsBelow n

/-- Whether every slot in the list is less than `n`. -/
def slotsBelowList (n : Nat) : List Ty → Bool
  | [] => true
  | t :: ts => t.slotsBelow n && slotsBelowList n ts

/-- Whether every slot in the fields is less than `n`. -/
def slotsBelowFields (n : Nat) : List (String × Ty) → Bool
  | [] => true
  | (_, t) :: fields => t.slotsBelow n && slotsBelowFields n fields
end

theorem slotsBelowList_eq_all (n : Nat) (ts : List Ty) :
    slotsBelowList n ts = ts.all (slotsBelow n) := by
  induction ts with
  | nil => rfl
  | cons t ts ih => rw [slotsBelowList, ih, List.all_cons]

theorem slotsBelowFields_eq_all (n : Nat) (fields : List (String × Ty)) :
    slotsBelowFields n fields = fields.all fun field => field.2.slotsBelow n := by
  induction fields with
  | nil => rfl
  | cons field fields ih => rw [slotsBelowFields, ih, List.all_cons]

theorem slotsBelow_iff {t : Ty} {n : Nat} : t.slotsBelow n = true ↔ ∀ i, t.HasSlot i → i < n := by
  rw [iff_forall_slots (P := fun t => t.slotsBelow n = true)]
  · simp [slotsBelow]
  · intro t hslot
    cases t with
    | slot i => exact absurd rfl (hslot i)
    | record name fields byValue =>
      simp only [slotsBelow, parts, slotsBelowFields_eq_all, List.all_eq_true, List.forall_mem_map]
    | func params result => simp [slotsBelow, parts, slotsBelowList_eq_all, or_imp, forall_and]
    | _ => simp [slotsBelow, parts]

/-! ## One list of arguments after another -/

@[simp] theorem instantiate_slot (as : List Ty) (i : Nat) :
    (slot i).instantiate as = as.getD i (.slot i) := by
  rw [instantiate]

/-- A type stays as it is exactly if its slots do. -/
theorem instantiate_eq_self_iff (as : List Ty) (t : Ty) :
    t.instantiate as = t ↔ ∀ i, t.HasSlot i → (slot i).instantiate as = .slot i := by
  refine iff_forall_slots (P := fun t => t.instantiate as = t) (fun t hslot => ?_) t
  cases t with
  | slot i => exact absurd rfl (hslot i)
  | record name fields byValue =>
    -- the fields keep their names, so that only their types are compared
    have hfields := List.map_inj_left (l := fields) (f := fun field => (field.1, field.2.instantiate as))
      (g := id)
    rw [List.map_id] at hfields
    simp only [instantiate, parts, instantiateFields_eq_map, hfields, List.forall_mem_map,
      record.injEq, true_and, and_true, id_eq, Prod.ext_iff]
  | func params result =>
    have hparams := List.map_inj_left (l := params) (f := instantiate as) (g := id)
    rw [List.map_id] at hparams
    simp [instantiate, parts, instantiateList_eq_map, hparams, or_imp, forall_and]
  | _ => simp [instantiate, parts]

/-- Two lists of arguments, one after the other, do to a type what a third list does exactly if they
do so to its slots. -/
theorem instantiate_instantiate_eq_iff (as bs cs : List Ty) (t : Ty) :
    (t.instantiate as).instantiate bs = t.instantiate cs ↔
      ∀ i, t.HasSlot i → ((slot i).instantiate as).instantiate bs = (slot i).instantiate cs := by
  refine iff_forall_slots (P := fun t => (t.instantiate as).instantiate bs = t.instantiate cs)
    (fun t hslot => ?_) t
  cases t with
  | slot i => exact absurd rfl (hslot i)
  | record name fields byValue =>
    simp only [instantiate, parts, instantiateFields_eq_map, List.map_map, List.map_inj_left,
      List.forall_mem_map, record.injEq, true_and, and_true, Function.comp_apply, Prod.mk.injEq]
  | func params result =>
    simp [instantiate, parts, instantiateList_eq_map, or_imp, forall_and]
  | _ => simp [instantiate, parts]

/-- One list of arguments stands for two exactly if what the first leaves open stays open. -/
theorem instantiate_composes_iff (as bs : List Ty) (t : Ty) :
    (t.instantiate as).instantiate bs = t.instantiate (as.map (instantiate bs)) ↔
      ∀ i, t.HasSlot i → i < as.length ∨ (slot i).instantiate bs = .slot i := by
  rw [instantiate_instantiate_eq_iff]
  refine forall₂_congr fun i _ => ?_
  by_cases hi : i < as.length
  · simp [hi]
  · simp [hi, List.getD_eq_getElem?_getD]

theorem instantiate_instantiate (as bs : List Ty) (t : Ty) (h : t.slotsBelow as.length = true) :
    (t.instantiate as).instantiate bs = t.instantiate (as.map (instantiate bs)) :=
  (instantiate_composes_iff as bs t).mpr fun i hi => .inl (slotsBelow_iff.mp h i hi)

/-! ## All lists of arguments -/

/-- Every slot is filled by some list of arguments. -/
theorem exists_instantiate_ne (i : Nat) : ∃ as, (slot i).instantiate as ≠ .slot i :=
  ⟨.replicate (i + 1) .object, by simp⟩

theorem forall_instantiate_composes_iff (as : List Ty) (t : Ty) :
    (∀ bs, (t.instantiate as).instantiate bs = t.instantiate (as.map (instantiate bs))) ↔
      ∀ i, t.HasSlot i → i < as.length := by
  constructor
  · intro h i hi
    obtain ⟨bs, hbs⟩ := exists_instantiate_ne i
    exact ((instantiate_composes_iff as bs t).mp (h bs) i hi).resolve_right hbs
  · exact fun h bs => (instantiate_composes_iff as bs t).mpr fun i hi => .inl (h i hi)

theorem forall_instantiate_eq_self_iff (t : Ty) :
    (∀ as, t.instantiate as = t) ↔ ∀ i, ¬ t.HasSlot i := by
  constructor
  · intro h i hi
    obtain ⟨as, has⟩ := exists_instantiate_ne i
    exact has ((instantiate_eq_self_iff as t).mp (h as) i hi)
  · exact fun h as => (instantiate_eq_self_iff as t).mpr fun i hi => absurd hi (h i)

end Ty

/-! ## Methods -/

theorem Method.params_withTypeArgs (m : Method) (as : List Ty) :
    (m.withTypeArgs as).params = m.signature.params.map (Ty.instantiate as) := rfl

theorem Method.result_withTypeArgs (m : Method) (as : List Ty) :
    (m.withTypeArgs as).result = m.signature.result.instantiate as := rfl

/-- Every slot of the signature has a type argument. -/
def Method.Filled (m : Method) : Prop :=
  ∀ t ∈ m.signature.result :: m.signature.params, ∀ i, t.HasSlot i → i < m.typeArgs.length

/-- The types of a method can be instantiated in its type arguments exactly if every slot has one. -/
theorem Method.filled_iff (m : Method) :
    m.Filled ↔ ∀ bs, (m.withTypeArgs (m.typeArgs.map (Ty.instantiate bs))).params =
        m.params.map (Ty.instantiate bs) ∧
      (m.withTypeArgs (m.typeArgs.map (Ty.instantiate bs))).result = m.result.instantiate bs := by
  simp only [Method.params_withTypeArgs, Method.result_withTypeArgs]
  rw [Method.params, Method.result]
  constructor
  · intro h bs
    have hcomposes (t : Ty) (ht : t ∈ m.signature.result :: m.signature.params) :=
      (Ty.forall_instantiate_composes_iff m.typeArgs t).mpr (h t ht) bs
    refine ⟨?_, (hcomposes _ (by simp)).symm⟩
    rw [List.map_map]
    exact List.map_congr_left fun t ht => (hcomposes t (by simp [ht])).symm
  · intro h t ht
    refine (Ty.forall_instantiate_composes_iff m.typeArgs t).mp fun bs => ?_
    obtain ⟨hparams, hresult⟩ := h bs
    rcases List.mem_cons.mp ht with rfl | ht
    · exact hresult.symm
    · rw [List.map_map, List.map_inj_left] at hparams
      exact (hparams t ht).symm

/-- No operator of the table has a slot beyond its type parameters. -/
theorem table_slotsBelow : ∀ s ∈ Table.all, ∀ t ∈ s.result :: s.params,
    t.slotsBelow s.typeParams = true := by
  decide +kernel

theorem filled_of_mem_table {m : Method} (hmem : m.signature ∈ Table.all)
    (htypes : m.typeArgs.length = m.signature.typeParams) : m.Filled := by
  intro t ht
  rw [htypes]
  exact Ty.slotsBelow_iff.mp (table_slotsBelow m.signature hmem t ht)

/-- **Instantiation composes.** To fill the slots of a type and then those of the result is to fill
them with instantiated arguments, whatever the second arguments are, exactly if the first ones reach
every slot. A type stays as it is for all arguments exactly if it has no slot. So the types of a
method can be instantiated in its type arguments exactly if every slot of the signature has one, as in
an operator of the table that is given as many as it declares. -/
theorem instantiate_composes :
    (∀ (t : Ty) (as : List Ty), (∀ i, t.HasSlot i → i < as.length) ↔
      ∀ bs, (t.instantiate as).instantiate bs = t.instantiate (as.map (Ty.instantiate bs))) ∧
    (∀ t : Ty, (∀ i, ¬ t.HasSlot i) ↔ ∀ as, t.instantiate as = t) ∧
    (∀ m : Method, m.Filled ↔
      ∀ bs, (m.withTypeArgs (m.typeArgs.map (Ty.instantiate bs))).params =
          m.params.map (Ty.instantiate bs) ∧
        (m.withTypeArgs (m.typeArgs.map (Ty.instantiate bs))).result = m.result.instantiate bs) ∧
    ∀ m : Method, m.signature ∈ Table.all → m.typeArgs.length = m.signature.typeParams → m.Filled :=
  ⟨fun t as => (Ty.forall_instantiate_composes_iff as t).symm,
    fun t => (Ty.forall_instantiate_eq_self_iff t).symm, Method.filled_iff,
    fun _ => filled_of_mem_table⟩

/-! ## A join of which little is known -/

/-- The groups of a join, with slots for the customers and the orders in its result and for another
type, which is never given. -/
def openGroups : Method :=
  ⟨Queryable.groupJoin, [.slot 0, .slot 1, .int,
    .anonymous [("c", .slot 0), ("f", .func [.slot 2, .grouping .int (.slot 1)] (.enumerable (.slot 1)))]]⟩

/-- The groups of the join of customers with orders. -/
def groupsOfOrders : Method :=
  let customer : Ty := .entity "Customer"
  let order : Ty := .entity "Order"
  ⟨Queryable.groupJoin, [customer, order, .int,
    .anonymous [("c", customer), ("f", .func [.slot 2, .grouping .int order] (.enumerable order))]]⟩

theorem instantiate_composes_openGroups :
    (openGroups.signature ∈ Table.all ∧
      openGroups.typeArgs.length = openGroups.signature.typeParams) ∧
    groupsOfOrders.params =
      openGroups.params.map (Ty.instantiate [.entity "Customer", .entity "Order"]) ∧
    groupsOfOrders.result = openGroups.result.instantiate [.entity "Customer", .entity "Order"] := by
  have hmem : openGroups.signature ∈ Table.all := by decide +kernel
  have hgiven : openGroups.withTypeArgs (openGroups.typeArgs.map
      (Ty.instantiate [.entity "Customer", .entity "Order"])) = groupsOfOrders := rfl
  obtain ⟨-, -, hmethods, htable⟩ := instantiate_composes
  have htypes := (hmethods openGroups).mp (htable openGroups hmem rfl)
    [.entity "Customer", .entity "Order"]
  rw [hgiven] at htypes
  exact ⟨⟨hmem, rfl⟩, htypes⟩

end QueryNormal
