import Mathlib.Data.List.Induction
import RankOne.System.Call

/-! Histories of calls. The system that a history leaves is that of one call after another, and
each call of a run is made on what the calls before it left. -/
namespace RankOne

/-! ## Kinds of calls -/

namespace Call

/-- Whether the call appends a constraint. -/
def addsConstraint : Call → Bool
  | addConstraint _ | addConstraintWithDebug .. => true
  | _ => false

/-- Whether the call appends a message to the logs. -/
def addsLog : Call → Bool
  | addLog _ => true
  | _ => false

/-- The debug message that the call attaches to its constraint. -/
def debugMessage? : Call → Option Message
  | addConstraintWithDebug _ message => some message
  | _ => none

/-- The wire that the call names a hint for, whether or not the hint is accepted. -/
def hintWire? : Call → Option Nat
  | addHint h => some h.wire
  | _ => none

theorem debugMessage?_eq_some_iff {c : Call} {message : Message} :
    c.debugMessage? = some message ↔ ∃ added, c = .addConstraintWithDebug added message := by
  cases c <;> simp [debugMessage?]

theorem hintWire?_eq_some_iff {c : Call} {wire : Nat} :
    c.hintWire? = some wire ↔ ∃ h, c = .addHint h ∧ h.wire = wire := by
  cases c <;> simp [hintWire?]

end Call

namespace System

/-! ## One call -/

section

variable (s : System)

@[simp] theorem system_call_addConstraint (c : Constraint) :
    (s.call (.addConstraint c)).system = { s with constraints := s.constraints.push c } := rfl

@[simp] theorem system_call_addConstraintWithDebug (c : Constraint) (message : Message) :
    (s.call (.addConstraintWithDebug c message)).system =
      { s with
        constraints := s.constraints.push c
        debugMessages := s.debugMessages.push message
        debugLinks := s.debugLinks.insert s.constraints.size s.debugMessages.size } := rfl

@[simp] theorem system_call_addLog (message : Message) :
    (s.call (.addLog message)).system = { s with logs := s.logs.push message } := rfl

@[simp] theorem system_call_canonicalize : (s.call .canonicalize).system = s.canonicalize := rfl

@[simp] theorem system_call_render : (s.call .render).system = s := rfl

@[simp] theorem system_call_validate : (s.call .validate).system = s := by
  unfold call
  cases s.validate <;> rfl

/-- A hint is stored where its wire has none. -/
@[simp] theorem system_call_addHint (h : Hint) :
    (s.call (.addHint h)).system = { s with hints := s.hints.insertIfNew h.wire h } := by
  have hinsert : s.hints.insertIfNew h.wire h =
      if h.wire ∈ s.hints then s.hints else s.hints.insert h.wire h := by
    refine Std.ExtTreeMap.ext_getElem? fun wire => ?_
    rw [Std.ExtTreeMap.getElem?_insertIfNew]
    split <;> split <;> simp_all [Std.ExtTreeMap.getElem?_insert]
  by_cases hw : h.wire ∈ s.hints <;> simp [call, addHint, isHintWire, hw, hinsert]

theorem system_call_addHint_of_mem {h : Hint} (hw : h.wire ∈ s.hints) :
    (s.call (.addHint h)).system = s := by
  simp [call, addHint, isHintWire, hw]

theorem answer_call_addHint (h : Hint) :
    (s.call (.addHint h)).answer =
      if h.wire ∈ s.hints then .error (.duplicateHint h.wire) else .ok .done := by
  by_cases hw : h.wire ∈ s.hints <;> simp [call, addHint, isHintWire, hw]

/-- The calls that add a constraint answer its index, and no others answer an index. -/
theorem answer_call_eq_index_iff {c : Call} {index : Nat} :
    (s.call c).answer = .ok (.index index) ↔
      c.addsConstraint = true ∧ index = s.constraints.size := by
  cases c with
  | addConstraint | addConstraintWithDebug =>
    simp [call, addConstraint, addConstraintWithDebug, Call.addsConstraint, eq_comm]
  | addHint h =>
    rw [answer_call_addHint]
    split <;> simp [Call.addsConstraint]
  | addLog | canonicalize => simp [call, Call.addsConstraint]
  | validate =>
    unfold call
    cases s.validate <;> simp [Call.addsConstraint]
  | render =>
    unfold call
    cases s.render <;> simp [Call.addsConstraint, Except.map]

/-- A wire that has a hint keeps it when another hint is added. -/
theorem hint?_call_addHint (h : Hint) :
    (s.call (.addHint h)).system.hint? h.wire = (s.hint? h.wire).or (some h) := by
  simp only [hint?, system_call_addHint, Std.ExtTreeMap.getElem?_insertIfNew,
    Std.compare_eq_iff_eq, ← Std.ExtTreeMap.isSome_getElem?_iff_mem]
  cases s.hints[h.wire]? <;> simp

/-- A call that names no hint for a wire can only sort the inputs of the hint that is there. -/
theorem hint?_call_of_ne {c : Call} {wire : Nat} (hc : c.hintWire? ≠ some wire) :
    (s.call c).system.hint? wire =
      if c = .canonicalize then (s.hint? wire).map Hint.canonical else s.hint? wire := by
  cases c with
  | addHint h =>
    have hne : h.wire ≠ wire := fun heq => hc (congrArg some heq)
    simp [hint?, Std.ExtTreeMap.getElem?_insertIfNew, hne]
  | canonicalize => simp
  | addConstraint | addConstraintWithDebug | addLog | validate | render => simp [hint?]

end

/-! ## One call after another -/

@[simp] theorem after_nil (s : System) : s.after [] = s := rfl

@[simp] theorem after_cons (s : System) (c : Call) (rest : List Call) :
    s.after (c :: rest) = (s.call c).system.after rest := rfl

theorem after_append (s : System) (calls more : List Call) :
    s.after (calls ++ more) = (s.after calls).after more :=
  List.foldl_append

/-- Each outcome of a run is that of its call on the system that the calls before it left. -/
theorem getElem?_run (s : System) (calls : List Call) (i : Nat) :
    (s.run calls)[i]? = calls[i]?.map (s.after (calls.take i)).call := by
  induction calls generalizing s i with
  | nil => rfl
  | cons c rest ih =>
    cases i with
    | zero => rfl
    | succ i => exact ih (s.call c).system i

/-- What holds of a system with no history, and is kept by every call as it becomes part of the
history, holds after every history. -/
theorem after_induction {p : List Call → System → Prop} {s : System} (hstart : p [] s)
    (hcall : ∀ calls t c, p calls t → p (calls ++ [c]) (t.call c).system) (calls : List Call) :
    p calls (s.after calls) := by
  induction calls using List.reverseRecOn with
  | nil => exact hstart
  | append_singleton calls c ih =>
    rw [after_append]
    exact hcall calls (s.after calls) c ih

end System
end RankOne
