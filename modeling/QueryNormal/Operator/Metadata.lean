import QueryNormal.Method

/-!
# Operators that describe a query

* `Metadata`: tracking, tags, query filters and eager loading.
* `Hint`: how a parameter is sent.
-/

namespace QueryNormal

namespace Metadata

/-- A query of the first type parameter. -/
abbrev query : Ty := .queryable (.slot 0)

/-- An operator of the family. -/
def operator (name : String) (typeParams : Nat) (params : List Ty) (result : Ty) : Signature :=
  ⟨.metadata, name, typeParams, params, result, true⟩

/-- Entities of the result are tracked. -/
def asTracking : Signature := operator "AsTracking" 1 [query] query

/-- Entities of the result are not tracked. -/
def asNoTracking : Signature := operator "AsNoTracking" 1 [query] query

/-- Entities of the result are not tracked, but the same entity is the same object. -/
def asNoTrackingWithIdentityResolution : Signature :=
  operator "AsNoTrackingWithIdentityResolution" 1 [query] query

/-- Adds a tag. -/
def tagWith : Signature := operator "TagWith" 1 [query, .string] query

/-- Adds a tag that names a file and a line. -/
def tagWithCallSite : Signature := operator "TagWithCallSite" 1 [query, .string, .int] query

/-- Ignores every query filter. -/
def ignoreQueryFilters : Signature := operator "IgnoreQueryFilters" 1 [query] query

/-- Ignores the query filters of the given names. -/
def ignoreNamedQueryFilters : Signature :=
  operator "IgnoreNamedQueryFilters" 1 [query, .enumerable .string] query

/-- Ignores what is loaded by default. -/
def ignoreAutoIncludes : Signature := operator "IgnoreAutoIncludes" 1 [query] query

/-- Loads a navigation. -/
def includeNavigation : Signature :=
  operator "Include" 2 [query, .quoted (.func [.slot 0] (.slot 1))]
    (.includable (.slot 0) (.slot 1))

/-- Loads a navigation given by its path. -/
def includePath : Signature := operator "Include" 1 [query, .string] query

/-- Loads a navigation of the members of a loaded collection. -/
def thenIncludeMembers : Signature :=
  operator "ThenInclude" 3
    [.includable (.slot 0) (.enumerable (.slot 1)), .quoted (.func [.slot 1] (.slot 2))]
    (.includable (.slot 0) (.slot 2))

/-- Loads a navigation of a loaded reference. -/
def thenIncludeReference : Signature :=
  operator "ThenInclude" 3
    [.includable (.slot 0) (.slot 1), .quoted (.func [.slot 1] (.slot 2))]
    (.includable (.slot 0) (.slot 2))

/-- Loads a navigation under conditions of its own. -/
def notQuiteInclude : Signature :=
  operator "NotQuiteInclude" 2 [query, .quoted (.func [.slot 0] (.slot 1))]
    (.includable (.slot 0) (.slot 1))

/-- The eager-loading operators whose selector may order what it loads. -/
def loading : List Signature :=
  [includeNavigation, thenIncludeMembers, thenIncludeReference, notQuiteInclude]

/-- Every operator of the family, in declaration order. -/
def all : List Signature :=
  [asTracking, asNoTracking, asNoTrackingWithIdentityResolution, tagWith, tagWithCallSite,
    ignoreQueryFilters, ignoreNamedQueryFilters, ignoreAutoIncludes, includeNavigation, includePath,
    thenIncludeMembers, thenIncludeReference, notQuiteInclude]

end Metadata

namespace Hint

/-- The value is inlined as a constant. -/
def constant : Signature := ⟨.hint, "Constant", 1, [.slot 0], .slot 0, true⟩

/-- The value is sent as one parameter. -/
def parameter : Signature := ⟨.hint, "Parameter", 1, [.slot 0], .slot 0, true⟩

/-- A collection is sent as one parameter for each element. -/
def multipleParameters : Signature :=
  ⟨.relationalHint, "MultipleParameters", 1, [.slot 0], .slot 0, true⟩

/-- Every hint, in declaration order. -/
def all : List Signature := [constant, parameter, multipleParameters]

end Hint

end QueryNormal
