import RankOne.System.Basic

/-! The text of a system: its constraints, one a line, each behind its index. -/
namespace RankOne.System

def renderLine (coefficients : Array Int) (index : Nat) (c : Constraint) : Except Fault String := do
  let text ← c.render coefficients
  return "R1C[" ++ toString index ++ "]: " ++ text

/-- The lines of all constraints. The first unknown coefficient in reading order is reported. -/
def render (s : System) : Except Fault String := do
  let lines ← s.indexedConstraints.mapM fun (c, index) =>
    renderLine s.coefficients.values index c
  return "\n".intercalate lines

end RankOne.System
