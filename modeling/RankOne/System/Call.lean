import RankOne.System.Rendering
import RankOne.System.Validity

/-! Working on a system call by call. A call answers or is refused, may leave the
system changed, and records what it did. -/
namespace RankOne

inductive Record where
  /-- A hint was accepted although its function gets no inputs. -/
  | hintWithoutInputs (wire : Nat) (id : HintId)
  | canonicalizing (constraints hints : Nat)
  | validating (constraints hints : Nat)
  | valid (constraints hints coefficients : Nat)
  | rendering (constraints : Nat)
  deriving DecidableEq, Repr

def Record.line : Record → String
  | hintWithoutInputs wire id =>
    s!"WARN event hint has no inputs wire_id={wire} hint_id={id.text}"
  | canonicalizing constraints hints =>
    s!"DEBUG span canonicalize n_constraints={constraints} n_hints={hints}"
  | validating constraints hints =>
    s!"DEBUG span validate n_constraints={constraints} n_hints={hints}"
  | valid constraints hints coefficients =>
    s!"DEBUG event constraint system is valid n_constraints={constraints} n_hints={hints} " ++
      s!"n_coefficients={coefficients}"
  | rendering constraints => s!"DEBUG span render n_constraints={constraints}"

inductive Call where
  | addConstraint (c : Constraint)
  | addConstraintWithDebug (c : Constraint) (message : Message)
  | addHint (h : Hint)
  | addLog (message : Message)
  | canonicalize
  | validate
  | render
  deriving DecidableEq

/-- What a call that is not refused answers. -/
inductive Answer where
  | done
  | index (index : Nat)
  | text (text : String)
  deriving DecidableEq, Repr

structure Outcome where
  system : System
  answer : Except Fault Answer
  records : List Record

namespace System

/-- The effect of one call. A refused call leaves the system as it is. -/
def call (s : System) : Call → Outcome
  | .addConstraint c =>
    let (index, s) := s.addConstraint c
    ⟨s, .ok (.index index), []⟩
  | .addConstraintWithDebug c message =>
    let (index, s) := s.addConstraintWithDebug c message
    ⟨s, .ok (.index index), []⟩
  | .addHint h =>
    match s.addHint h with
    | .ok s => ⟨s, .ok .done, if h.inputs.isEmpty then [.hintWithoutInputs h.wire h.id] else []⟩
    | .error fault => ⟨s, .error fault, []⟩
  | .addLog message => ⟨s.addLog message, .ok .done, []⟩
  | .canonicalize =>
    ⟨s.canonicalize, .ok .done, [.canonicalizing s.constraints.size s.hints.size]⟩
  | .validate =>
    let start := Record.validating s.constraints.size s.hints.size
    match s.validate with
    | .ok () =>
      ⟨s, .ok .done, [start, .valid s.constraints.size s.hints.size s.coefficients.size]⟩
    | .error fault => ⟨s, .error fault, [start]⟩
  | .render => ⟨s, s.render.map .text, [.rendering s.constraints.size]⟩

/-- The effects of calls made one after another. -/
def run (s : System) : List Call → List Outcome
  | [] => []
  | c :: rest => s.call c :: (s.call c).system.run rest

/-- The system that a sequence of calls leaves. -/
def after (s : System) (calls : List Call) : System := calls.foldl (fun s c => (s.call c).system) s

def trace (s : System) (calls : List Call) : List Record := (s.run calls).flatMap Outcome.records

end System
end RankOne
