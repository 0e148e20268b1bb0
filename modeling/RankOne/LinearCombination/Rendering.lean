import RankOne.CoefficientTable
import RankOne.LinearCombination.Basic

/-! The text of a linear combination, with every coefficient id replaced by the
coefficient that it stands for. A combination has a text exactly when all its
coefficients are known. -/
namespace RankOne

/-- A term as `coefficient*variable`, where a letter in front of the variable tells its
visibility. -/
def Term.render (t : Term) (coefficients : Array Int) : Except Fault String := do
  let coefficient ← lookupCoefficient coefficients t.coefficientId
  return toString coefficient ++ "*" ++ t.visibility.letter.toString ++ toString t.variableId

/-- The terms in their order, joined by ` + `. The first unknown coefficient is reported. -/
def LinearCombination.render (x : LinearCombination) (coefficients : Array Int) :
    Except Fault String := do
  let summands ← x.terms.mapM (·.render coefficients)
  return " + ".intercalate summands

end RankOne
