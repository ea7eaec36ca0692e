import QueryNormal.Expr.Walk
import QueryNormal.Session
import QueryNormal.Proofs.Alike
import QueryNormal.Proofs.Annotations
import QueryNormal.Proofs.Arity
import QueryNormal.Proofs.Distinct
import QueryNormal.Proofs.Failures
import QueryNormal.Proofs.FlatMembers
import QueryNormal.Proofs.Grouping
import QueryNormal.Proofs.Idempotence
import QueryNormal.Proofs.InMemory
import QueryNormal.Proofs.Misuse
import QueryNormal.Proofs.Nesting
import QueryNormal.Proofs.Overloads
import QueryNormal.Proofs.Preservation
import QueryNormal.Proofs.Projections
import QueryNormal.Proofs.Renaming
import QueryNormal.Proofs.Scope
import QueryNormal.Proofs.Shorthand
import QueryNormal.Proofs.Solvency
import QueryNormal.Proofs.StaticTypes
import QueryNormal.Proofs.Termination
import QueryNormal.Proofs.Untouched
import QueryNormal.Proofs.Visibility
import QueryNormal.Proofs.Weights
import QueryNormal.Proofs.Walks
import QueryNormal.Proofs.Gate
import QueryNormal.Proofs.Placeholders
import QueryNormal.Proofs.Arguments
import QueryNormal.Proofs.Conversions
import QueryNormal.Proofs.Readback
import QueryNormal.Proofs.Replacement
import QueryNormal.Proofs.Freshness
