import RankOne.System.Basic

/-! Changes to a finished system that keep no promise about it: debug links may be
left without their constraint or message, and a hint may stand under another wire. -/
namespace RankOne.System

def setCounts (s : System) (counts : Counts) : System := { s with counts := counts }

/-- Takes off the last constraint, and returns it; links to it stay. -/
def popConstraint (s : System) : Option Constraint × System :=
  (s.constraints.back?, { s with constraints := s.constraints.pop })

/-- Keeps only the first `length` debug messages; links to the others stay. -/
def truncateDebug (s : System) (length : Nat) : System :=
  { s with debugMessages := s.debugMessages.take length }

/-- Links a constraint to a debug message, and returns the entry that it was linked to before. -/
def linkDebug (s : System) (index entry : Nat) : Option Nat × System :=
  (s.debugLinks[index]?, { s with debugLinks := s.debugLinks.insert index entry })

/-- Stores a hint under a wire that need not be its own, and returns the one it replaces. -/
def putHint (s : System) (wire : Nat) (h : Hint) : Option Hint × System :=
  (s.hints[wire]?, { s with hints := s.hints.insert wire h })

def removeHint (s : System) (wire : Nat) : Option Hint × System :=
  (s.hints[wire]?, { s with hints := s.hints.erase wire })

def setCoefficients (s : System) (coefficients : CoefficientTable) : System :=
  { s with coefficients := coefficients }

end RankOne.System
