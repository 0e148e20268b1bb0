/-! Where a term stands in a system: in an operand of a constraint, or in an
input of a hint. -/
namespace RankOne

/-- The three sides of a constraint `left * right = output`. -/
inductive Operand where
  | left
  | right
  | output
  deriving DecidableEq, Repr

def Operand.all : List Operand := [.left, .right, .output]

def Operand.name : Operand → String
  | .left => "l"
  | .right => "r"
  | .output => "o"

/-- The place of a term. An input of a hint is known by the hint's wire only. -/
inductive Site where
  | constraint (index : Nat) (operand : Operand)
  | hint (wire : Nat)
  deriving DecidableEq, Repr

namespace Site

/-- The constraint or hint at the site, with its number. -/
def owner : Site → String
  | constraint index _ => s!"constraint #{index}"
  | hint wire => s!"hint #{wire}"

/-- The part of the owner that holds the term. -/
def operandName : Site → String
  | constraint _ operand => operand.name
  | hint _ => "input"

end Site
end RankOne
