import QueryNormal.Proofs.Distinct
import QueryNormal.Proofs.Gate

/-!
# Fresh parameters

* `Expr.Mentions`: a parameter is referred to or declared in a tree, at any depth.
* `ParamSupply.allot`: the parameters that a supply hands out, one after the other.
* `ids_allot_after`: their ids count up from the first one after those of the tree, and begin again
  at zero after the largest.
* `hasRoom_iff_ascends`: when the ids ascend from those of the tree.
* `allot_after_fresh`: if there is room, no two are the same and the tree has none of them.
-/

namespace QueryNormal

namespace Expr

/-! ## Parameters of a tree -/

/-- The parameter is referred to or declared somewhere in the tree. -/
def Mentions (e : Expr) (p : Param) : Prop :=
  (param p).Occurs e ∨ ∃ params body, (lambda params body).Occurs e ∧ p ∈ params

/-- After every id of the tree there are `k` more. A tree without parameters leaves all of them. -/
def HasRoom (e : Expr) (k : Nat) : Prop :=
  k ≤ UInt32.size ∧ ∀ p, e.Mentions p → p.id.toNat + k < UInt32.size

variable {e : Expr}

theorem mem_ownParams_iff {n : Expr} {p : Param} :
    p ∈ n.ownParams ↔ n = param p ∨ ∃ params body, n = lambda params body ∧ p ∈ params := by
  cases n <;> simp [ownParams, eq_comm]

theorem mem_ids_iff {id : UInt32} : id ∈ e.ids ↔ ∃ p, e.Mentions p ∧ p.id = id := by
  simp only [ids, List.mem_flatMap, List.mem_map, mem_nodes_iff_occurs, mem_ownParams_iff, Mentions]
  constructor
  · rintro ⟨n, hn, p, rfl | ⟨params, body, rfl, hp⟩, hid⟩
    · exact ⟨p, .inl hn, hid⟩
    · exact ⟨p, .inr ⟨params, body, hn, hp⟩, hid⟩
  · rintro ⟨p, hn | ⟨params, body, hn, hp⟩, hid⟩
    · exact ⟨_, hn, p, .inl rfl, hid⟩
    · exact ⟨_, hn, p, .inr ⟨params, body, rfl, hp⟩, hid⟩

theorem Mentions.lt_firstFree {p : Param} (h : e.Mentions p) : p.id.toNat < e.firstFree :=
  QueryNormal.lt_firstFree (mem_ids_iff.mpr ⟨p, h, rfl⟩)

theorem firstFree_le_of_mentions {n : Nat} (h : ∀ p, e.Mentions p → p.id.toNat < n) :
    e.firstFree ≤ n := by
  rw [firstFree_le_iff]
  intro id hid
  obtain ⟨p, hp, rfl⟩ := mem_ids_iff.mp hid
  exact h p hp

theorem hasRoom_iff {k : Nat} : e.HasRoom k ↔ e.firstFree + k ≤ UInt32.size := by
  constructor
  · rintro ⟨hk, hroom⟩
    have hfree : e.firstFree ≤ UInt32.size - k :=
      firstFree_le_of_mentions fun p hp => Nat.lt_sub_of_add_lt (hroom p hp)
    omega
  · intro h
    refine ⟨by omega, fun p hp => ?_⟩
    have := hp.lt_firstFree
    omega

instance {k : Nat} : Decidable (e.HasRoom k) := decidable_of_iff _ hasRoom_iff.symm

end Expr

/-! ## Handing out parameters -/

namespace ParamSupply

/-- The parameters of the names and types that are asked for, handed out one after the other. -/
def allot (s : ParamSupply) : List (String × Ty) → List Param
  | [] => []
  | (name, ty) :: requests => (s.fresh name ty).1 :: (s.fresh name ty).2.allot requests

theorem allot_answers (s : ParamSupply) (requests : List (String × Ty)) :
    ((s.allot requests).map fun p => (p.name, p.ty)) = requests := by
  induction requests generalizing s with
  | nil => rfl
  | cons request requests ih => rw [allot, List.map_cons, ih]; rfl

/-- The ids count up, and begin again at zero after the largest. -/
theorem ids_allot {s : ParamSupply} {first : Nat} (h : s.next.toNat = first % UInt32.size)
    (requests : List (String × Ty)) :
    ((s.allot requests).map fun p => p.id.toNat) =
      (List.range' first requests.length).map (· % UInt32.size) := by
  induction requests generalizing s first with
  | nil => rfl
  | cons request requests ih =>
    have hnext : (s.fresh request.1 request.2).2.next.toNat = (first + 1) % UInt32.size := by
      change (s.next + 1).toNat = _
      rw [UInt32.toNat_add, h]
      exact Nat.mod_add_mod first UInt32.size 1
    rw [allot, List.map_cons, ih hnext, List.length_cons, List.range'_succ, List.map_cons]
    exact congrArg (· :: _) h

end ParamSupply

section Supply

variable {e : Expr} {requests : List (String × Ty)}

theorem ids_allot_after : (((ParamSupply.after e).allot requests).map fun p => p.id.toNat) =
    (List.range' e.firstFree requests.length).map (· % UInt32.size) :=
  ParamSupply.ids_allot toNat_next_after requests

theorem ids_allot_of_hasRoom (h : e.HasRoom requests.length) :
    (((ParamSupply.after e).allot requests).map fun p => p.id.toNat) =
      List.range' e.firstFree requests.length := by
  rw [Expr.hasRoom_iff] at h
  rw [ids_allot_after]
  conv_rhs => rw [← List.map_id (List.range' e.firstFree requests.length)]
  refine List.map_congr_left fun n hn => Nat.mod_eq_of_lt ?_
  have := List.mem_range'_1.mp hn
  omega

/-- The ids ascend from those of the tree. -/
def Ascends (e : Expr) (ps : List Param) : Prop :=
  (ps.map Param.id).Pairwise (· < ·) ∧ ∀ p, e.Mentions p → ∀ q ∈ ps, p.id < q.id

theorem ascends_iff {ps : List Param} :
    Ascends e ps ↔ (ps.map fun p => p.id.toNat).Pairwise (· < ·) ∧
      ∀ p, e.Mentions p → ∀ n ∈ ps.map fun p => p.id.toNat, p.id.toNat < n := by
  simp only [Ascends, List.pairwise_map, List.forall_mem_map, UInt32.lt_iff_toNat_lt]

/-- There is room exactly if the ids ascend from those of the tree. -/
theorem hasRoom_iff_ascends :
    e.HasRoom requests.length ↔ Ascends e ((ParamSupply.after e).allot requests) := by
  rw [ascends_iff]
  constructor
  · intro hroom
    rw [ids_allot_of_hasRoom hroom]
    refine ⟨List.pairwise_lt_range', fun p hp n hn => ?_⟩
    exact Nat.lt_of_lt_of_le hp.lt_firstFree (List.mem_range'_1.mp hn).1
  · rw [ids_allot_after, Expr.hasRoom_iff]
    rintro ⟨hpairwise, habove⟩
    by_contra hover
    have hfree : e.firstFree ≤ UInt32.size := Expr.firstFree_le_of_mentions fun p _ => p.id.toNat_lt
    -- the ids have begun again at zero, which is above no id
    have hzero : 0 ∈ (List.range' e.firstFree requests.length).map (· % UInt32.size) :=
      List.mem_map.mpr ⟨UInt32.size, List.mem_range'_1.mpr ⟨hfree, by omega⟩, Nat.mod_self _⟩
    have hnone : e.firstFree ≤ 0 := Expr.firstFree_le_of_mentions fun p hp => habove p hp 0 hzero
    -- so the tree has no id, and zero has been handed out twice
    rw [Nat.le_zero.mp hnone, List.pairwise_map, List.pairwise_iff_getElem] at hpairwise
    have htwice := hpairwise 0 UInt32.size (by simp; omega) (by simp; omega) (by decide)
    simp at htwice

end Supply

/-- **Fresh parameters are fresh.** The parameters that are handed out after a tree have the names and
types that are asked for, and their ids count up from the first one after those of the tree, modulo
the number of ids. If there is room for them, no two have the same id, each has a larger one than the
one before, and none has the id of a parameter that is referred to or declared anywhere in the tree.
Only then do the ids ascend from those of the tree. -/
theorem allot_after_fresh (e : Expr) (requests : List (String × Ty)) :
    let ps := (ParamSupply.after e).allot requests
    (ps.map fun p => (p.name, p.ty)) = requests ∧
      (ps.map fun p => p.id.toNat) =
        (List.range' e.firstFree requests.length).map (· % UInt32.size) ∧
      (e.HasRoom requests.length → (ps.map Param.id).Nodup ∧ (ps.map Param.id).Pairwise (· < ·) ∧
        ∀ p, e.Mentions p → p.id ∉ ps.map Param.id) ∧
      (e.HasRoom requests.length ↔ Ascends e ps) := by
  intro ps
  refine ⟨ParamSupply.allot_answers _ requests, ids_allot_after, fun hroom => ?_,
    hasRoom_iff_ascends⟩
  obtain ⟨hpairwise, habove⟩ := hasRoom_iff_ascends.mp hroom
  refine ⟨hpairwise.imp UInt32.ne_of_lt, hpairwise, fun p hp hmem => ?_⟩
  obtain ⟨q, hq, hid⟩ := List.mem_map.mp hmem
  exact UInt32.ne_of_lt (habove p hp q hq) hid.symm

/-! ## The last ids -/

/-- A report of which one row is what a function says about another, where the largest id is declared
and nothing refers to it. -/
def reportOfRows : Expr :=
  let row : Ty := .entity "Row"
  let describe : Method := ⟨.onType (.func [row] .int) "Describe" [row] row, []⟩
  let unused : Param := ⟨4294967292, "u", row⟩
  .newWith (.entity "Report") [.lambda [] (.param ⟨7, "x", .int⟩)] none
    [.assign "First" (.param ⟨0, "r", row⟩),
      .items "Rows" [.call describe (some (.lambda [unused] (.null .int))) [.param ⟨1, "s", row⟩]]]

theorem allot_after_reportOfRows :
    let requests : List (String × Ty) := [("a", .int), ("b", .string), ("c", .entity "Row")]
    let more : List (String × Ty) := requests ++ [("d", .int)]
    let ids : List UInt32 := [4294967293, 4294967294, 4294967295]
    reportOfRows.HasRoom requests.length ∧
      ((ParamSupply.after reportOfRows).allot requests).map Param.id = ids ∧
      (ids.Nodup ∧ ids.Pairwise (· < ·) ∧ ∀ p, reportOfRows.Mentions p → p.id ∉ ids) ∧
      -- one more parameter gets an id that the tree refers to
      ((ParamSupply.after reportOfRows).allot more).map Param.id = ids ++ [0] ∧
      ¬ Ascends reportOfRows ((ParamSupply.after reportOfRows).allot more) := by
  intro requests more ids
  have hroom : reportOfRows.HasRoom requests.length := by decide
  have hfull : ¬ reportOfRows.HasRoom more.length := by decide
  exact ⟨hroom, rfl, (allot_after_fresh reportOfRows requests).2.2.1 hroom, rfl,
    mt (allot_after_fresh reportOfRows more).2.2.2.mpr hfull⟩

end QueryNormal
