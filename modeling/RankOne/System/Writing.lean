import RankOne.System.Basic
import RankOne.Text.Writer

/-! The text of a system, written into one buffer from the first line to the last. -/
namespace RankOne
open Writer (append separated)

def Term.write (t : Term) (coefficients : Array Int) : Writer := do
  let coefficient ← ofExcept (lookupCoefficient coefficients t.coefficientId)
  let visibility ← ofExcept (Visibility.ofTag t.tag)
  append (toString coefficient)
  append "*"
  append visibility.letter.toString
  append (toString t.variableId)

def LinearCombination.write (x : LinearCombination) (coefficients : Array Int) : Writer :=
  separated " + " (fun t _ => t.write coefficients) x.terms

def Constraint.write (c : Constraint) (coefficients : Array Int) : Writer := do
  append "L["
  c.left.write coefficients
  append "] * R["
  c.right.write coefficients
  append "] = O["
  c.output.write coefficients
  append "]"

def System.write (s : System) : Writer :=
  separated "\n"
    (fun c index => do
      append "R1C["
      append (toString index)
      append "]: "
      c.write s.coefficients.values)
    s.constraints.toList

end RankOne
