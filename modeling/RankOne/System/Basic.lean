import RankOne.Constraint
import RankOne.Hint
import RankOne.Message
import RankOne.Scope

/-! Systems of rank-one constraints. A system holds its constraints together with what
is needed to read them: the declared variables, the coefficients that terms refer to,
the hints by the wire they compute, and messages for whoever solves it. -/
namespace RankOne

@[ext] structure System where
  counts : Counts
  coefficients : CoefficientTable
  constraints : Array Constraint
  /-- Hints by the internal wire that they compute. -/
  hints : Std.ExtTreeMap Nat Hint
  /-- Messages to show once their wires are known. -/
  logs : Array Message
  /-- Messages about constraints that do not hold. -/
  debugMessages : Array Message
  /-- From the index of a constraint to the index of its debug message. -/
  debugLinks : Std.ExtTreeMap Nat Nat

namespace System

def empty (counts : Counts) (coefficients : CoefficientTable) : System where
  counts := counts
  coefficients := coefficients
  constraints := #[]
  hints := ∅
  logs := #[]
  debugMessages := #[]
  debugLinks := ∅

def variableCount (s : System) : Nat := s.counts.total

def scope (s : System) : Scope := ⟨s.counts, s.coefficients.size⟩

def indexedConstraints (s : System) : List (Constraint × Nat) := s.constraints.toList.zipIdx

/-- Appends a constraint. The index of the constraint is the number of those before it. -/
def addConstraint (s : System) (c : Constraint) : Nat × System :=
  (s.constraints.size, { s with constraints := s.constraints.push c })

def addConstraintWithDebug (s : System) (c : Constraint) (message : Message) : Nat × System :=
  (s.constraints.size,
    { s with
      constraints := s.constraints.push c
      debugMessages := s.debugMessages.push message
      debugLinks := s.debugLinks.insert s.constraints.size s.debugMessages.size })

/-- The message linked to the constraint with the given index. A link may lead nowhere. -/
def debugMessage? (s : System) (index : Nat) : Option Message :=
  s.debugLinks[index]?.bind fun entry => s.debugMessages[entry]?

def hint? (s : System) (wire : Nat) : Option Hint := s.hints[wire]?

def isHintWire (s : System) (wire : Nat) : Bool := s.hints.contains wire

/-- Registers a hint for its wire, which may have only one. -/
def addHint (s : System) (h : Hint) : Except Fault System :=
  if s.isHintWire h.wire then .error (.duplicateHint h.wire)
  else .ok { s with hints := s.hints.insert h.wire h }

def addLog (s : System) (message : Message) : System := { s with logs := s.logs.push message }

/-- Puts every side of every constraint and every input of every hint into canonical order. -/
def canonicalize (s : System) : System :=
  { s with
    constraints := s.constraints.map Constraint.canonical
    hints := s.hints.map fun _ h => h.canonical }

/-! ## Canonical order -/

@[simp] theorem hint?_canonicalize (s : System) (wire : Nat) :
    s.canonicalize.hint? wire = (s.hint? wire).map Hint.canonical := by
  simp [hint?, canonicalize]

@[simp] theorem isHintWire_canonicalize (s : System) (wire : Nat) :
    s.canonicalize.isHintWire wire = s.isHintWire wire := by
  simp [isHintWire, canonicalize]

@[simp] theorem canonicalize_canonicalize (s : System) :
    s.canonicalize.canonicalize = s.canonicalize := by
  refine System.ext rfl rfl ?_ (Std.ExtTreeMap.ext_getElem? fun wire => ?_) rfl rfl rfl <;>
    simp [canonicalize]

end System
end RankOne
