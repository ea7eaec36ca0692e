import QueryNormal.Proofs.Lists

/-!
# Queries over tables

* `Cell`: what tables hold, `Content`: the values of expressions.
* `tables`: an interpretation of expressions over the tables of a database.
* `tablesJoins`: operators on queries mean operations on lists there.
* `shop`: a database of customers and orders.

A construction of cells is a cell. Any other is an object, which no table holds.
-/

namespace QueryNormal

/-- What a table holds. -/
inductive Cell where
  | null
  | bool (value : Bool)
  | number (value : Int)
  | record (fields : List (String × Cell))
  | items (values : List Cell)

/-- Cells, functions on cells, and objects that are no cells. -/
inductive Content where
  | cell (c : Cell)
  | function (f : List Cell → Cell)
  | object (fields : List (String × Content))

/-! ## Cells -/

namespace Cell

def isTrue : Cell → Bool
  | .bool b => b
  | _ => false

def isNull : Cell → Bool
  | .null => true
  | _ => false

/-- The number in a cell, or zero. -/
def toInt : Cell → Int
  | .number n => n
  | _ => 0

/-- The elements of a sequence. -/
def elements : Cell → List Cell
  | .items cs => cs
  | _ => []

/-- Whether two cells hold the same truth value or number, or nothing. -/
def same : Cell → Cell → Bool
  | .null, .null => true
  | .bool a, .bool b => a == b
  | .number a, .number b => a == b
  | _, _ => false

theorem same_null (c : Cell) : c.same .null = c.isNull := by
  cases c <;> rfl

end Cell

/-! ## Values -/

namespace Content

/-- The cell that a table keeps of a value. -/
def data : Content → Cell
  | .cell c => c
  | _ => .null

/-- The elements of a sequence. -/
def elements (v : Content) : List Cell := v.data.elements

/-- The value of a function at some cells. -/
def run : Content → List Cell → Cell
  | .function f, cs => f cs
  | v, _ => v.data

/-- A function of so many arguments. -/
def lambda (n : Nat) (f : (Fin n → Content) → Content) : Content :=
  .function fun cs => (f fun i => .cell (cs.getD i .null)).data

theorem run_lambda₁ (f : (Fin 1 → Content) → Content) (c : Cell) (cs : List Cell) :
    (lambda 1 f).run (c :: cs) = (f ![.cell c]).data :=
  congrArg (fun values => (f values).data) (funext (Fin.forall_fin_one.mpr rfl))

theorem run_lambda₂ (f : (Fin 2 → Content) → Content) (c d : Cell) :
    (lambda 2 f).run [c, d] = (f ![.cell c, .cell d]).data :=
  congrArg (fun values => (f values).data) (funext (Fin.forall_fin_two.mpr ⟨rfl, rfl⟩))

/-! ## Constructions -/

/-- The fields, if they are cells. -/
def cells? : List (String × Content) → Option (List (String × Cell))
  | [] => some []
  | (name, .cell c) :: fields => (cells? fields).map ((name, c) :: ·)
  | _ :: _ => none

/-- A record of cells, or an object. -/
def construct (fields : List (String × Content)) : Content :=
  match cells? fields with
  | some cells => .cell (.record cells)
  | none => .object fields

/-- The first field of that name. -/
def field? : Content → String → Option Content
  | .cell (.record fields), name => (fields.lookup name).map .cell
  | .object fields, name => fields.lookup name
  | _, _ => none

theorem lookup_cells {fields : List (String × Content)} {cells : List (String × Cell)}
    (h : cells? fields = some cells) (name : String) :
    (cells.lookup name).map .cell = fields.lookup name := by
  induction fields generalizing cells with
  | nil =>
    cases h
    rfl
  | cons field fields ih =>
    obtain ⟨n, v⟩ := field
    cases v with
    | cell c =>
      obtain ⟨rest, hrest, rfl⟩ := Option.map_eq_some_iff.mp h
      rw [List.lookup_cons, List.lookup_cons, ← ih hrest]
      split <;> rfl
    | _ => cases h

theorem field?_cell {c : Cell} {name : String} {v : Content}
    (h : (Content.cell c).field? name = some v) : ∃ d, v = .cell d := by
  cases c with
  | record fields =>
    obtain ⟨d, -, rfl⟩ := Option.map_eq_some_iff.mp h
    exact ⟨d, rfl⟩
  | _ => cases h

/-- A construction of cells is a cell. -/
theorem construct_cells {fields : List (String × Content)}
    (h : ∀ field ∈ fields, ∃ c, field.2 = .cell c) : ∃ c, construct fields = .cell c := by
  obtain ⟨cells, hcells⟩ : ∃ cells, cells? fields = some cells := by
    induction fields with
    | nil => exact ⟨[], rfl⟩
    | cons field fields ih =>
      obtain ⟨name, v⟩ := field
      obtain ⟨c, rfl⟩ := h _ List.mem_cons_self
      obtain ⟨cells, hcells⟩ := ih fun field hfield => h field (List.mem_cons_of_mem _ hfield)
      exact ⟨(name, c) :: cells, by rw [cells?, hcells, Option.map_some]⟩
  exact ⟨.record cells, by rw [construct, hcells]⟩

theorem field?_construct (fields : List (String × Content)) (name : String) :
    (construct fields).field? name = fields.lookup name := by
  unfold construct
  split
  · rename_i cells h
    exact lookup_cells h name
  · rfl

/-- The fields that bindings assign. -/
def assigned (bindings : List (String × (Content ⊕ List Content))) : List (String × Content) :=
  bindings.filterMap fun b => b.2.getLeft?.map (b.1, ·)

theorem lookup_zip {names : List String} {args : List Content} {name : String} {i : Nat}
    {v : Content} (hi : names.idxOf? name = some i) (hv : args[i]? = some v) :
    (names.zip args).lookup name = some v := by
  induction names generalizing args i with
  | nil => cases hi
  | cons n names ih =>
    rw [List.idxOf?_cons] at hi
    cases args with
    | nil => cases hv
    | cons a args =>
      rw [List.zip_cons_cons, List.lookup_cons]
      by_cases hn : n = name
      · subst hn
        obtain rfl : 0 = i := by simpa using hi
        simpa using hv
      · obtain ⟨j, hj, rfl⟩ : ∃ j, names.idxOf? name = some j ∧ j + 1 = i := by
          simpa [hn] using hi
        rw [beq_false_of_ne (Ne.symm hn)]
        exact ih hj hv

theorem lookup_assigned {bindings : List (String × (Content ⊕ List Content))} {name : String}
    {v : Content} (h : assignedValue? bindings name = some v) (fields : List (String × Content)) :
    (assigned bindings ++ fields).lookup name = some v := by
  unfold assignedValue? at h
  induction bindings with
  | nil => cases h
  | cons b bindings ih =>
    obtain ⟨n, w⟩ := b
    rw [List.findSome?_cons] at h
    by_cases hn : n = name
    · subst hn
      cases w with
      | inl w => simpa [assigned] using h
      | inr ws => exact ih (by simpa using h)
    · have hrest := ih (by simpa [hn] using h)
      cases w with
      | inl w => simpa [assigned, List.lookup_cons, beq_false_of_ne (Ne.symm hn)] using hrest
      | inr ws => exact hrest

/-! ## Operators -/

/-- A sequence of cells. -/
def ofCells (cs : List Cell) : Content := .cell (.items cs)

/-- The elements at which a predicate holds. It is given the position, too. -/
def filterBy (f : Content) (cs : List Cell) : List Cell :=
  (cs.zipIdx.filter fun c => (f.run [c.1, .number c.2]).isTrue).map Prod.fst

/-- Whether the keys of an outer and an inner element are equal and not null. -/
def sameKeys (k l : Content) (c d : Cell) : Bool :=
  !(k.run [c]).isNull && (k.run [c]).same (l.run [d])

/-- What an operator answers. One that is not listed returns its first argument. -/
def answer (name : String) : List Content → Content
  | [] => .cell .null
  | [v] => if name = "DefaultIfEmpty" then ofCells (orSingle .null v.elements) else v
  | [v, f] =>
      if name = "Where" then ofCells (filterBy f v.elements)
      else if name = "Select" then ofCells (v.elements.map fun c => f.run [c])
      else if name = "SelectMany" then ofCells (v.elements.flatMap fun c => (f.run [c]).elements)
      else if name = "Take" then ofCells (v.elements.take f.data.toInt.toNat)
      else v
  | [v, f, g] =>
      if name = "SelectMany" then
        ofCells (v.elements.flatMap fun c => (f.run [c]).elements.map fun d => g.run [c, d])
      else v
  | [v, w, k, l, f] =>
      if name = "GroupJoin" then
        ofCells (v.elements.map fun c => f.run [c, .items (w.elements.filter (sameKeys k l c))])
      else if name = "Join" then
        ofCells (v.elements.flatMap fun c =>
          (w.elements.filter (sameKeys k l c)).map fun d => f.run [c, d])
      else if name = "LeftJoin" then
        ofCells (v.elements.flatMap fun c =>
          (orSingle .null (w.elements.filter (sameKeys k l c))).map fun d => f.run [c, d])
      else v
  | v :: _ => v

end Content

section Tables

open Content

variable (database : String → List Cell)

/-- Operators on the tables of a database. -/
def tables : Interpretation Content where
  call _ name _ args := answer name args
  lambda := Content.lambda
  quote v := v
  member m target :=
    match target with
    | none => .cell .null
    | some v =>
        (v.field? m.name).getD
          (if m.name = "Count" then .cell (.number v.elements.length) else .cell .null)
  binary op v w :=
    match op with
    | .and => .cell (.bool (v.data.isTrue && w.data.isTrue))
    | .equal => .cell (.bool (v.data.same w.data))
    | .notEqual => .cell (.bool !(v.data.same w.data))
    | .greater => .cell (.bool (decide (w.data.toInt < v.data.toInt)))
    | .less => .cell (.bool (decide (v.data.toInt < w.data.toInt)))
    | _ => .cell .null
  unary _ v := v
  const value _ :=
    match value with
    | .bool b => .cell (.bool b)
    | .int n => .cell (.number n)
    | .reference name => ofCells (database name)
    | _ => .cell .null
  new _ names args := construct ((names.getD []).zip args)
  newWith _ names args bindings := construct (assigned bindings ++ (names.getD []).zip args)
  cond test v w := if test.data.isTrue then v else w
  placeholder _ := .cell .null

theorem tables_constructs : (tables database).Constructs where
  new {m _ names args _ v} hi hv := by
    have hfield : (construct (names.zip args)).field? m.name = some v :=
      (field?_construct _ _).trans (lookup_zip hi hv)
    simp [tables, hfield]
  newWith {m _ names args bindings v} h := by
    have hfield : (construct (assigned bindings ++ (names.getD []).zip args)).field? m.name =
        some v := (field?_construct _ _).trans (lookup_assigned h _)
    simp [tables, hfield]

theorem map_data_cells (cs : List Cell) : (cs.map Content.cell).map data = cs := by
  rw [List.map_map]
  exact List.map_id cs

/-- Cells that are kept by a condition on values. -/
theorem filter_cells (keep : Content → Bool) (cs : List Cell) :
    (cs.map Content.cell).filter keep = (cs.filter fun c => keep (.cell c)).map .cell :=
  List.filter_map

theorem orSingle_cells (c : Cell) (cs : List Cell) :
    orSingle (Content.cell c) (cs.map .cell) = (orSingle c cs).map .cell := by
  cases cs <;> rfl

/-- A predicate of the element only. -/
theorem filterBy_lambda₁ (f : (Fin 1 → Content) → Content) (cs : List Cell) :
    filterBy (.lambda 1 f) cs = cs.filter fun c => (f ![.cell c]).data.isTrue := by
  have hcells : cs.zipIdx.map Prod.fst = cs := List.zipIdx_map_fst 0 cs
  simp only [filterBy, run_lambda₁]
  conv_rhs => rw [← hcells, List.filter_map]
  rfl

/-- Filters and projections of tables are those of lists. -/
def tablesLists : (tables database).Lists where
  items v := v.elements.map .cell
  seq vs := ofCells (vs.map data)
  data v := .cell v.data
  holds v := v.data.isTrue
  isNull v := v.data.isNull
  same v w := v.data.same w.data
  items_seq vs := List.map_map
  data_of_mem {v x} hx := by
    obtain ⟨c, _, rfl⟩ := List.mem_map.mp hx
    rfl
  data_seq _ := rfl
  constructs := tables_constructs database
  quote _ := rfl
  asQueryable _ := rfl
  asEnumerable _ := rfl
  filter v f := by
    change ofCells (filterBy (.lambda 1 f) v.elements) = _
    rw [filterBy_lambda₁, filter_cells, map_data_cells]
  select v f := by
    change ofCells (v.elements.map fun c => (Content.lambda 1 f).run [c]) = _
    simp only [run_lambda₁, List.map_map]
    rfl
  both _ _ := rfl
  notNull v _ := congrArg not (Cell.same_null v.data)
  equals _ _ := rfl

/-- A member of a cell is a cell, and a construction of cells is one. -/
theorem tables_keepsData : (tablesLists database).KeepsData where
  member {m v} h := by
    obtain ⟨c, rfl⟩ : ∃ c, v = .cell c := ⟨_, h.symm⟩
    obtain ⟨d, hd⟩ : ∃ d, (tables database).member m (some (.cell c)) = .cell d := by
      simp only [tables]
      cases hfield : (Content.cell c).field? m.name with
      | none =>
        rw [Option.getD_none]
        split <;> exact ⟨_, rfl⟩
      | some w => exact field?_cell hfield
    rw [hd]
    rfl
  new {type names vs} h := by
    have hcells : ∀ field ∈ (names.getD []).zip vs, ∃ c, field.2 = .cell c := fun field hfield =>
      ⟨_, (h _ (List.of_mem_zip hfield).2).symm⟩
    obtain ⟨c, hc⟩ : ∃ c, (tables database).new type names vs = .cell c := construct_cells hcells
    rw [hc]
    rfl

/-- Joins of tables are those of lists, on keys that are equal and not null. -/
def tablesJoins : (tables database).Joins where
  toLists := tablesLists database
  missing := .cell .null
  matchKeys k l v w := sameKeys k l v.data w.data
  data_missing := rfl
  asQueryableOn _ _ := rfl
  selectMany v f := by
    change ofCells (v.elements.flatMap fun c => ((Content.lambda 1 f).run [c]).elements) = _
    simp only [run_lambda₁, tablesLists, List.flatMap_map, List.map_flatMap, map_data_cells]
    rfl
  selectManyPairs v f g := by
    change ofCells (v.elements.flatMap fun c =>
      ((Content.lambda 1 f).run [c]).elements.map fun d => (Content.lambda 2 g).run [c, d]) = _
    simp only [run_lambda₁, run_lambda₂, tablesLists, List.flatMap_map, List.map_flatMap,
      List.map_map]
    rfl
  defaultIfEmpty v := by
    change ofCells (orSingle .null v.elements) = _
    simp only [tablesLists, orSingle_cells, map_data_cells]
  groupJoin v w k l f := by
    change ofCells (v.elements.map fun c => (Content.lambda 2 f).run
      [c, .items (w.elements.filter (sameKeys k l c))]) = _
    simp only [run_lambda₂, tablesLists, filter_cells, map_data_cells]
    rw [List.map_map, List.map_map]
    rfl
  join v w k l f := by
    change ofCells (v.elements.flatMap fun c =>
      (w.elements.filter (sameKeys k l c)).map fun d => (Content.lambda 2 f).run [c, d]) = _
    simp only [run_lambda₂, tablesLists, filter_cells, List.flatMap_map, List.map_flatMap,
      List.map_map]
    rfl
  leftJoin v w k l f := by
    change ofCells (v.elements.flatMap fun c => (orSingle .null
      (w.elements.filter (sameKeys k l c))).map fun d => (Content.lambda 2 f).run [c, d]) = _
    simp only [run_lambda₂, tablesLists, filter_cells, orSingle_cells, List.flatMap_map,
      List.map_flatMap, List.map_map]
    rfl

end Tables

/-! ## A database -/

/-- Three customers, one without orders and one without a region, and their orders. -/
def shop (table : String) : List Cell :=
  if table = "DbSet<Customer>()" then
    [.record [("Id", .number 1), ("Region", .number 7)],
      .record [("Id", .number 2), ("Region", .null)],
      .record [("Id", .number 3), ("Region", .number 7)]]
  else if table = "DbSet<Order>()" then
    [.record [("Number", .number 10), ("CustomerId", .number 1), ("Region", .number 7)],
      .record [("Number", .number 11), ("CustomerId", .number 2), ("Region", .null)],
      .record [("Number", .number 12), ("CustomerId", .number 1), ("Region", .number 8)],
      .record [("Number", .number 13), ("CustomerId", .number 1), ("Region", .number 7)]]
  else []

/-- No parameter has a value. -/
def noValues : Env Content := fun _ => .cell .null

end QueryNormal
