import RankOne.LinearCombination.Canonical

/-! Growing a linear combination term by term, with sorting in between. -/
namespace RankOne.LinearCombination

inductive Edit where
  | push (t : Term)
  | extend (terms : List Term)
  | sort
  deriving DecidableEq

def edit (x : LinearCombination) : Edit → LinearCombination
  | .push t => x.push t
  | .extend terms => x.extend terms
  | .sort => x.canonical

def edits (x : LinearCombination) (es : List Edit) : LinearCombination := es.foldl edit x

/-- The terms that a step supplies. -/
def Edit.supplied : Edit → List Term
  | .push t => [t]
  | .extend terms => terms
  | .sort => []

end RankOne.LinearCombination
