import RankOne.Site
import RankOne.Visibility

/-! What can be wrong with a term, a coefficient table or a system, and the one
message that reports it. -/
namespace RankOne

/-- The two numbers of a term whose size is limited. -/
inductive IdKind where
  | coefficientId
  | variableId
  deriving DecidableEq, Repr

def IdKind.name : IdKind → String
  | .coefficientId => "coefficient id"
  | .variableId => "variable id"

/-- The causes for which an operation is refused. -/
inductive Fault where
  | undefinedVisibility (tag : Nat)
  | oversizedId (kind : IdKind) (value maxValue : Nat)
  | unknownCoefficient (id tableSize : Nat)
  | unsetVisibility (site : Site)
  | undeclaredVariable (site : Site) (visibility : Visibility) (variableId declared : Nat)
  | duplicateHint (wire : Nat)
  | undeclaredHintWire (wire declared : Nat)
  | constrainedHintWire (wire constraintIndex : Nat)
  deriving DecidableEq, Repr

def Fault.message : Fault → String
  | undefinedVisibility tag => s!"visibility tag {tag} is not one of the defined visibilities"
  | oversizedId kind value maxValue =>
    s!"{kind.name} {value} does not fit the packed term (max is {maxValue})"
  | unknownCoefficient id tableSize =>
    s!"coefficient id {id} is out of range for a table of {tableSize} coefficients"
  | unsetVisibility site =>
    s!"{site.owner} has a term with unset visibility in its {site.operandName} operand"
  | undeclaredVariable site visibility variableId declared =>
    s!"{site.owner} refers to {visibility.title} variable {variableId} " ++
      s!"in its {site.operandName} operand, but only {declared} are declared"
  | duplicateHint wire => s!"wire {wire} already has a hint"
  | undeclaredHintWire wire declared =>
    s!"hint wire {wire} is not an internal wire (only {declared} are declared)"
  | constrainedHintWire wire constraintIndex =>
    s!"hint wire {wire} is also the output of constraint #{constraintIndex}"

/-- The visibility with the given tag, or the fault that there is none. -/
def Visibility.ofTag (tag : Nat) : Except Fault Visibility :=
  match Visibility.ofTag? tag with
  | some visibility => .ok visibility
  | none => .error (.undefinedVisibility tag)

end RankOne
