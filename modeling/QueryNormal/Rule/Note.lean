import QueryNormal.Operator.Metadata
import QueryNormal.Reduction

/-!
# Annotations

* `Note`: the operators that only say something about a query.
* `Note.effect`: what such an operator says, read off its constant arguments.

Reducing replaces an annotation by its source and carries out its effect on the context.
-/

namespace QueryNormal

/-- The operators that only say something about a query. -/
inductive Note where
  | asTracking
  | asNoTracking
  | asNoTrackingWithIdentityResolution
  | tagWith
  | tagWithCallSite
  | ignoreQueryFilters
  | ignoreNamedQueryFilters
  | ignoreAutoIncludes
deriving DecidableEq, Repr, Inhabited

namespace Note

/-- Every annotation. -/
def all : List Note :=
  [.asTracking, .asNoTracking, .asNoTrackingWithIdentityResolution, .tagWith, .tagWithCallSite,
    .ignoreQueryFilters, .ignoreNamedQueryFilters, .ignoreAutoIncludes]

/-- The operator that makes the annotation. -/
def signature : Note → Signature
  | .asTracking => Metadata.asTracking
  | .asNoTracking => Metadata.asNoTracking
  | .asNoTrackingWithIdentityResolution => Metadata.asNoTrackingWithIdentityResolution
  | .tagWith => Metadata.tagWith
  | .tagWithCallSite => Metadata.tagWithCallSite
  | .ignoreQueryFilters => Metadata.ignoreQueryFilters
  | .ignoreNamedQueryFilters => Metadata.ignoreNamedQueryFilters
  | .ignoreAutoIncludes => Metadata.ignoreAutoIncludes

/-- The annotation that the method makes. -/
def of? (m : Method) : Option Note := all.find? fun n => m.is n.signature

/-! ## Constant arguments -/

/-- A string constant. -/
def readString (m : Method) : Option Expr → Except Misuse String
  | some (.const (.string value) _) => .ok value
  | some e => .error (.notAString m e)
  | none => .error (.missingArgument m)

/-- An integer constant. -/
def readInt (m : Method) : Option Expr → Except Misuse Int
  | some (.const (.int value) _) => .ok value
  | some e => .error (.notAnInteger m e)
  | none => .error (.missingArgument m)

/-- The strings of a collection. -/
def readItems (m : Method) : List Literal → Except Misuse (List String)
  | [] => .ok []
  | .string value :: ls => do
      let values ← readItems m ls
      return value :: values
  | l :: _ => .error (.notAStringItem m l)

/-- A constant collection of strings; null is the empty one. -/
def readStrings (m : Method) : Option Expr → Except Misuse (List String)
  | some (.const .null _) => .ok []
  | some (.const (.list values) _) => readItems m values
  | some e => .error (.notACollection m e)
  | none => .error (.missingArgument m)

/-- What the annotation says, given the arguments after its source. -/
def effect (n : Note) (m : Method) (rest : List Expr) : Except Misuse Effect :=
  match n with
  | .asTracking => .ok (.track .trackAll)
  | .asNoTracking => .ok (.track .noTracking)
  | .asNoTrackingWithIdentityResolution => .ok (.track .noTrackingWithIdentityResolution)
  | .tagWith => do
      let tag ← readString m rest[0]?
      return .tag tag
  | .tagWithCallSite => do
      let file ← readString m rest[0]?
      let line ← readInt m rest[1]?
      return .tag ("File: " ++ file ++ ":" ++ toString line)
  | .ignoreQueryFilters => .ok .ignoreAllFilters
  | .ignoreNamedQueryFilters => do
      let names ← readStrings m rest[0]?
      return .ignoreNamedFilters names
  | .ignoreAutoIncludes => .ok .ignoreAutoIncludes

/-- Carries out what the annotation says. -/
def perform (n : Note) (m : Method) (rest : List Expr) : Reduction Unit :=
  match n.effect m rest with
  | .ok effect => Reduction.perform effect
  | .error cause => Reduction.misuse cause

end Note

end QueryNormal
