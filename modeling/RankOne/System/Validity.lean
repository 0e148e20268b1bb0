import RankOne.System.Basic

/-! Whether a system is well-formed, and if not, what is wrong first. Constraints are
looked at before hints, hints in the order of their wires, and the outputs of the
constraints last. -/
namespace RankOne.System

def constraintFault (scope : Scope) (index : Nat) (c : Constraint) : Option Fault :=
  c.operands.findSome? fun (operand, x) => scope.fault (.constraint index operand) x

/-- The first fault of the hint stored under a wire: the wire itself, then the inputs. -/
def hintFault (scope : Scope) (wire : Nat) (h : Hint) : Option Fault :=
  if scope.counts.internals ≤ wire then some (.undeclaredHintWire wire scope.counts.internals)
  else h.inputs.findSome? (scope.fault (.hint wire))

/-- The fault of a constraint whose whole output is a wire that a hint computes. -/
def outputFault (s : System) (index : Nat) (c : Constraint) : Option Fault :=
  match c.soleInternalOutput? with
  | some wire => if s.isHintWire wire then some (.constrainedHintWire wire index) else none
  | none => none

def firstConstraintFault (s : System) : Option Fault :=
  s.indexedConstraints.findSome? fun (c, index) => constraintFault s.scope index c

def firstHintFault (s : System) : Option Fault :=
  s.hints.toList.findSome? fun (wire, h) => hintFault s.scope wire h

def firstOutputFault (s : System) : Option Fault :=
  s.indexedConstraints.findSome? fun (c, index) => s.outputFault index c

/-- The first fault of a system. Outputs are looked at only where every term and hint is sound. -/
def fault? (s : System) : Option Fault :=
  (s.firstConstraintFault.or s.firstHintFault).or s.firstOutputFault

def validate (s : System) : Except Fault Unit :=
  match s.fault? with
  | some fault => .error fault
  | none => .ok ()

/-- A system in which every term is in scope, every hint computes a declared internal wire,
and no wire of a hint is the whole output of a constraint. -/
structure WellFormed (s : System) : Prop where
  operands : ∀ c ∈ s.constraints, ∀ operand, ∀ t ∈ (c.operand operand).terms, s.scope.Admits t
  inputs : ∀ (wire : Nat) (h : Hint), s.hints[wire]? = some h → ∀ t ∈ h.inputTerms, s.scope.Admits t
  wires : ∀ wire, wire ∈ s.hints → wire < s.counts.internals
  outputs : ∀ c ∈ s.constraints, ∀ t, c.output.terms = [t] → t.visibility = .internal →
    t.variableId ∉ s.hints

end RankOne.System
