import RankOne.LinearCombination.Canonical
import RankOne.Text.Hexadecimal

/-! Hints. A hint computes an internal wire by calling a function on the values of
linear combinations, where no constraint determines the wire. -/
namespace RankOne

@[ext] structure HintId where
  code : UInt32
  deriving DecidableEq, Repr

namespace HintId

instance : Ord HintId where
  compare a b := compare a.code b.code

/-- The text of an id: eight hexadecimal digits after `hint#`. -/
def text (id : HintId) : String := "hint#" ++ String.ofList (Text.Hexadecimal.digits 8 id.code.toNat)

def inspect (id : HintId) : String := "HintId(" ++ toString id.code.toNat ++ ")"

end HintId

/-- Computes `wire` by calling the function `id` on `inputs`, in call order. -/
@[ext] structure Hint where
  wire : Nat
  id : HintId
  inputs : List LinearCombination
  deriving DecidableEq

namespace Hint

def inputTerms (h : Hint) : List Term := h.inputs.flatMap LinearCombination.terms

def canonical (h : Hint) : Hint := { h with inputs := h.inputs.map LinearCombination.canonical }

def inspect (h : Hint) : String :=
  "Hint \x7b wire_id: " ++ toString h.wire ++ ", id: " ++ h.id.inspect ++ ", inputs: [" ++
    ", ".intercalate (h.inputs.map LinearCombination.inspect) ++ "] \x7d"

@[simp] theorem canonical_canonical (h : Hint) : h.canonical.canonical = h.canonical := by
  simp [canonical]

@[simp] theorem canonical_comp_canonical : canonical ∘ canonical = canonical :=
  funext canonical_canonical

end Hint
end RankOne
