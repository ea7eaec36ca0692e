/-!
# The context of a query

* `Context`: what the annotations of a query have said about it.
* `Effect`: what one annotation changes; `Effect.apply` carries it out.
* `NameSet`: a set of names, kept in order.
-/

namespace QueryNormal

/-- A set of names, in increasing order. -/
structure NameSet where
  names : List String
  sorted : names.Pairwise (· < ·)
deriving DecidableEq

namespace NameSet

/-- The set without a name. -/
def empty : NameSet := ⟨[], .nil⟩

instance : Inhabited NameSet := ⟨empty⟩

/-- Inserts a name at its place in an increasing list. -/
def insertName (name : String) : List String → List String
  | [] => [name]
  | n :: ns =>
      if name < n then name :: n :: ns
      else if name = n then n :: ns
      else n :: insertName name ns

theorem mem_insertName {name x : String} :
    ∀ {ns : List String}, x ∈ insertName name ns ↔ x = name ∨ x ∈ ns
  | [] => by simp [insertName]
  | n :: ns => by
      unfold insertName
      split
      · simp
      · split
        · subst_vars; simp
        · simp [@mem_insertName name x ns]; grind

theorem pairwise_insertName {name : String} :
    ∀ {ns : List String}, ns.Pairwise (· < ·) → (insertName name ns).Pairwise (· < ·)
  | [], _ => by simp [insertName]
  | n :: ns, h => by
      rw [List.pairwise_cons] at h
      unfold insertName
      split
      · rename_i hlt
        rw [List.pairwise_cons, List.pairwise_cons]
        refine ⟨fun a ha => ?_, h⟩
        rcases List.mem_cons.mp ha with rfl | ha
        · exact hlt
        · exact String.lt_trans hlt (h.1 a ha)
      · split
        · exact List.pairwise_cons.mpr h
        · rename_i hlt hne
          rw [List.pairwise_cons]
          refine ⟨fun a ha => ?_, pairwise_insertName h.2⟩
          rcases mem_insertName.mp ha with rfl | ha
          · exact Decidable.byContradiction fun hge =>
              hne (String.le_antisymm (String.not_lt.mp hge) (String.not_lt.mp hlt))
          · exact h.1 a ha

/-- The set with one more name. -/
def insert (s : NameSet) (name : String) : NameSet :=
  ⟨insertName name s.names, pairwise_insertName s.sorted⟩

/-- The set with more names. -/
def insertAll (s : NameSet) (names : List String) : NameSet := names.foldl insert s

/-- The set of the names of a list. -/
def ofList (names : List String) : NameSet := empty.insertAll names

end NameSet

/-- Whether entities of the result are tracked for changes. -/
inductive Tracking where
  | trackAll
  | noTracking
  | noTrackingWithIdentityResolution
deriving DecidableEq, Repr, Inhabited

/-- What the annotations of a query have said about it. -/
structure Context where
  tracking : Tracking
  /-- No query filter applies. -/
  ignoreFilters : Bool
  /-- The query filters that do not apply. -/
  ignoredFilters : Option NameSet
  /-- The tags, oldest first. -/
  tags : List String
  ignoreAutoIncludes : Bool
deriving DecidableEq

namespace Context

/-- The context in which nothing but the tracking has been said. -/
def ofTracking (tracking : Tracking) : Context := ⟨tracking, false, none, [], false⟩

instance : Inhabited Context := ⟨ofTracking .trackAll⟩

/-- Adds a tag. -/
def tagged (c : Context) (text : String) : Context := { c with tags := c.tags ++ [text] }

/-- Ignores every query filter and forgets the names of those that were ignored. -/
def ignoreAllFilters (c : Context) : Context :=
  { c with ignoredFilters := none, ignoreFilters := true }

/-- Ignores the named query filters too. No names change nothing. -/
def ignoreNamedFilters (c : Context) (names : List String) : Context :=
  if names.isEmpty then c
  else { c with ignoredFilters := some ((c.ignoredFilters.getD .empty).insertAll names) }

end Context

/-- What an annotation changes. -/
inductive Effect where
  | track (tracking : Tracking)
  | tag (text : String)
  | ignoreAllFilters
  | ignoreNamedFilters (names : List String)
  | ignoreAutoIncludes
deriving DecidableEq, Repr, Inhabited

/-- The context after the effect. -/
def Effect.apply : Effect → Context → Context
  | .track tracking, c => { c with tracking }
  | .tag text, c => c.tagged text
  | .ignoreAllFilters, c => c.ignoreAllFilters
  | .ignoreNamedFilters names, c => c.ignoreNamedFilters names
  | .ignoreAutoIncludes, c => { c with ignoreAutoIncludes := true }

end QueryNormal
