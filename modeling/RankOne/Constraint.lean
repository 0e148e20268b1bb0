import RankOne.LinearCombination.Canonical
import RankOne.LinearCombination.Rendering

/-! Rank-one constraints `left * right = output` between linear combinations. -/
namespace RankOne

@[ext] structure Constraint where
  left : LinearCombination
  right : LinearCombination
  output : LinearCombination
  deriving DecidableEq

namespace Constraint

def empty : Constraint := ⟨.empty, .empty, .empty⟩

def operand (c : Constraint) : Operand → LinearCombination
  | .left => c.left
  | .right => c.right
  | .output => c.output

/-- The sides in reading order, each with its name. -/
def operands (c : Constraint) : List (Operand × LinearCombination) :=
  Operand.all.map fun operand => (operand, c.operand operand)

def canonical (c : Constraint) : Constraint :=
  ⟨c.left.canonical, c.right.canonical, c.output.canonical⟩

/-- The internal variable that is the whole output, if it is one. -/
def soleInternalOutput? (c : Constraint) : Option Nat :=
  match c.output.terms with
  | [t] => if t.visibility = .internal then some t.variableId else none
  | _ => none

/-- The text `L[...] * R[...] = O[...]`. The first unknown coefficient in reading order
is reported. -/
def render (c : Constraint) (coefficients : Array Int) : Except Fault String := do
  let left ← c.left.render coefficients
  let right ← c.right.render coefficients
  let output ← c.output.render coefficients
  return "L[" ++ left ++ "] * R[" ++ right ++ "] = O[" ++ output ++ "]"

def inspect (c : Constraint) : String :=
  "R1C \x7b l: " ++ c.left.inspect ++ ", r: " ++ c.right.inspect ++ ", o: " ++ c.output.inspect ++
    " \x7d"

@[simp] theorem operand_canonical (c : Constraint) (operand : Operand) :
    c.canonical.operand operand = (c.operand operand).canonical := by
  cases operand <;> rfl

@[simp] theorem canonical_canonical (c : Constraint) : c.canonical.canonical = c.canonical := by
  simp [canonical]

@[simp] theorem canonical_comp_canonical : canonical ∘ canonical = canonical :=
  funext canonical_canonical

end Constraint
end RankOne
