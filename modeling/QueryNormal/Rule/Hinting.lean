import QueryNormal.Operator.Metadata
import QueryNormal.Reduction

/-!
# Hints

* `Mode.hinted?`: the mode that a hint asks for.
* `Mode.mark`: the placeholder that replaces a hint.
-/

namespace QueryNormal

namespace Mode

/-- The mode that a method asks for, if it is a hint. -/
def hinted? (m : Method) : Option Mode :=
  if m.is Hint.constant then some .constant
  else if m.is Hint.parameter then some .parameter
  else if m.is Hint.multipleParameters then some .multipleParameters
  else none

/-- Whether the provider can send a placeholder in the mode. -/
def supportedBy (mode : Mode) (provider : Provider) : Bool :=
  mode ≠ .constant || provider.constants

/-- The placeholder in the mode; a hint applies to nothing else. -/
def mark (mode : Mode) (m : Method) : Expr → Except Misuse Expr
  | .placeholder p => .ok (.placeholder { p with mode })
  | e => .error (.notAPlaceholder m e)

end Mode

end QueryNormal
