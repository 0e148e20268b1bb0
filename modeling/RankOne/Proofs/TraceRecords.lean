import RankOne.Proofs.Histories

/-! The trace of a history accounts for the system that the history leaves. Its warnings are about
the stored hints that have no inputs, one about each; all other records belong to calls that work
on the system as a whole, and tell the size of the system at the call. -/
namespace RankOne

/-- The wire and the function of the hint that the record warns about. -/
def Record.warning? : Record → Option (Nat × HintId)
  | hintWithoutInputs wire id => some (wire, id)
  | _ => none

namespace System

def warnings (records : List Record) : List (Nat × HintId) := records.filterMap Record.warning?

/-- A hint for the wire is stored that calls the function without inputs. -/
def HasEmptyHint (s : System) (wire : Nat) (id : HintId) : Prop :=
  ∃ h, s.hints[wire]? = some h ∧ h.id = id ∧ h.inputs = []

/-- The warnings are about the stored hints without inputs, one about each. -/
structure Accounts (records : List Record) (s : System) : Prop where
  nodup_wires : ((warnings records).map Prod.fst).Nodup
  mem_iff : ∀ wire id, (wire, id) ∈ warnings records ↔ s.HasEmptyHint wire id

/-- The records of a call that works on the whole system tell the size of the system, and those of a
validation also whether the system was found valid. Of the other calls, only one that adds a hint
without inputs has a record, unless it is refused. -/
structure Reports (s : System) (c : Call) (outcome : Outcome) : Prop where
  canonicalize : c = .canonicalize →
    outcome.records = [.canonicalizing s.constraints.size s.hints.size]
  validate : c = .validate →
    outcome.records = .validating s.constraints.size s.hints.size ::
      if outcome.answer = .ok .done then
        [.valid s.constraints.size s.hints.size s.coefficients.size]
      else []
  render : c = .render → outcome.records = [.rendering s.constraints.size]
  addHint : ∀ h, c = .addHint h →
    outcome.records =
      if outcome.answer = .ok .done ∧ h.inputs = [] then [.hintWithoutInputs h.wire h.id] else []
  others : c.addsConstraint = true ∨ c.addsLog = true → outcome.records = []

theorem HasEmptyHint.mem_hints {s : System} {wire : Nat} {id : HintId}
    (h : s.HasEmptyHint wire id) : wire ∈ s.hints := by
  obtain ⟨k, hk, -⟩ := h
  exact Std.ExtTreeMap.isSome_getElem?_iff_mem.mp (by simp [hk])

/-! ## One call -/

section

variable (s : System)

/-- Only a hint that is accepted and has no inputs is warned about. -/
theorem records_call_addHint (h : Hint) : (s.call (.addHint h)).records =
    if h.wire ∉ s.hints ∧ h.inputs = [] then [.hintWithoutInputs h.wire h.id] else [] := by
  by_cases hw : h.wire ∈ s.hints <;> by_cases hi : h.inputs = [] <;>
    simp [call, System.addHint, isHintWire, hw, hi]

theorem reports_call (c : Call) : s.Reports c (s.call c) := by
  refine ⟨fun hc => ?_, fun hc => ?_, fun hc => ?_, fun h hc => ?_, fun hc => ?_⟩
  · rw [hc]
    rfl
  · rw [hc]
    unfold call
    cases s.validate <;> rfl
  · rw [hc]
    rfl
  · rw [hc, records_call_addHint, answer_call_addHint]
    by_cases hw : h.wire ∈ s.hints <;> simp [hw]
  · cases c with
    | addConstraint | addConstraintWithDebug | addLog => rfl
    | addHint | canonicalize | validate | render => simp [Call.addsConstraint, Call.addsLog] at hc

theorem warnings_call_addHint (h : Hint) : warnings (s.call (.addHint h)).records =
    if h.wire ∉ s.hints ∧ h.inputs = [] then [(h.wire, h.id)] else [] := by
  rw [records_call_addHint]
  split <;> rfl

theorem warnings_call_of_hintWire?_eq_none {c : Call} (hc : c.hintWire? = none) :
    warnings (s.call c).records = [] := by
  cases c with
  | addHint => cases hc
  | addConstraint | addConstraintWithDebug | addLog | canonicalize | render => rfl
  | validate =>
    unfold call
    cases s.validate <;> rfl

theorem mem_warnings_call_iff {c : Call} {wire : Nat} {id : HintId} :
    (wire, id) ∈ warnings (s.call c).records ↔
      ∃ h, c = .addHint h ∧ h.wire = wire ∧ h.id = id ∧ h.inputs = [] ∧ wire ∉ s.hints := by
  cases hc : c.hintWire? with
  | none =>
    have hne : ∀ h, c ≠ .addHint h := by
      intro h heq
      rw [heq] at hc
      cases hc
    simp [warnings_call_of_hintWire?_eq_none s hc, hne]
  | some named =>
    obtain ⟨h, rfl, -⟩ := Call.hintWire?_eq_some_iff.mp hc
    rw [warnings_call_addHint]
    split <;> grind

theorem nodup_warnings_call (c : Call) : ((warnings (s.call c).records).map Prod.fst).Nodup := by
  cases hc : c.hintWire? with
  | none => simp [warnings_call_of_hintWire?_eq_none s hc]
  | some named =>
    obtain ⟨h, rfl, -⟩ := Call.hintWire?_eq_some_iff.mp hc
    rw [warnings_call_addHint]
    split <;> simp

/-- The stored hints without inputs are those from before the call and those it warns about. -/
theorem hasEmptyHint_call_iff {c : Call} {wire : Nat} {id : HintId} :
    (s.call c).system.HasEmptyHint wire id ↔
      s.HasEmptyHint wire id ∨ (wire, id) ∈ warnings (s.call c).records := by
  rw [mem_warnings_call_iff]
  by_cases hc : c.hintWire? = some wire
  · obtain ⟨h, rfl, rfl⟩ := Call.hintWire?_eq_some_iff.mp hc
    have hget := hint?_call_addHint s h
    simp only [hint?] at hget
    simp only [HasEmptyHint, hget, ← Std.ExtTreeMap.isSome_getElem?_iff_mem]
    cases s.hints[h.wire]? <;> simp
  · have hget := hint?_call_of_ne s hc
    simp only [hint?] at hget
    have hno : ¬ ∃ h, c = .addHint h ∧ h.wire = wire ∧ h.id = id ∧ h.inputs = [] ∧
        wire ∉ s.hints := by
      intro hwarned
      obtain ⟨h, rfl, rfl, -⟩ := hwarned
      exact hc rfl
    simp only [HasEmptyHint, hget, hno, or_false]
    split
    next =>
      -- Sorting the inputs of a hint does not change whether it has any.
      simp [Hint.canonical]
    next => rfl

end

/-! ## Histories -/

/-- A warning is recorded before the hint is stored, and no wire is warned about again. -/
theorem Accounts.call {records : List Record} {s : System} (h : Accounts records s) (c : Call) :
    Accounts (records ++ (s.call c).records) (s.call c).system := by
  have hwarnings : warnings (records ++ (s.call c).records) =
      warnings records ++ warnings (s.call c).records := List.filterMap_append
  have hmem : ∀ wire id, (wire, id) ∈ warnings (records ++ (s.call c).records) ↔
      (s.call c).system.HasEmptyHint wire id := by
    intro wire id
    rw [hwarnings, List.mem_append, h.mem_iff, hasEmptyHint_call_iff]
  refine ⟨?_, hmem⟩
  rw [hwarnings, List.map_append]
  refine List.nodup_append.mpr ⟨h.nodup_wires, nodup_warnings_call s c, ?_⟩
  intro _ hold _ hnew heq
  obtain ⟨⟨wire, id⟩, hid, rfl⟩ := List.mem_map.mp hold
  obtain ⟨⟨other, newId⟩, hnewId, rfl⟩ := List.mem_map.mp hnew
  -- A wire that was warned about has a hint, so another hint for it is refused without a warning.
  have hmem : wire ∈ s.hints := ((h.mem_iff wire id).mp hid).mem_hints
  obtain ⟨_, -, -, -, -, hfree⟩ := (mem_warnings_call_iff s).mp hnewId
  have heq : wire = other := heq
  exact hfree (heq ▸ hmem)

theorem run_append (s : System) (calls more : List Call) :
    s.run (calls ++ more) = s.run calls ++ (s.after calls).run more := by
  induction calls generalizing s with
  | nil => rfl
  | cons c rest ih => exact congrArg (s.call c :: ·) (ih (s.call c).system)

theorem trace_concat (s : System) (calls : List Call) (c : Call) :
    s.trace (calls ++ [c]) = s.trace calls ++ ((s.after calls).call c).records := by
  simp [trace, run_append, run]

theorem accounts_trace (counts : Counts) (coefficients : CoefficientTable) (calls : List Call) :
    Accounts ((empty counts coefficients).trace calls)
      ((empty counts coefficients).after calls) := by
  induction calls using List.reverseRecOn with
  | nil =>
    refine ⟨List.nodup_nil, fun wire id => ?_⟩
    simp [trace, run, warnings, HasEmptyHint, empty]
  | append_singleton calls c ih =>
    rw [trace_concat, after_append]
    exact ih.call c

/-- The warnings of a trace are about the hints without inputs that are stored in the end, one
about each. The other records are those of calls that work on the whole system: each of them records
the size of the system once, whether or not it is refused, and a validation that succeeds adds that
the system is valid. -/
theorem trace_accounts_for_system (counts : Counts) (coefficients : CoefficientTable)
    (calls : List Call) :
    let start := empty counts coefficients
    let s := start.after calls
    ((warnings (start.trace calls)).map Prod.fst).Nodup ∧
    (∀ (wire : Nat) (id : HintId), (wire, id) ∈ warnings (start.trace calls) ↔
      ∃ h, s.hints[wire]? = some h ∧ h.id = id ∧ h.inputs = []) ∧
    (∀ (i : Nat) (c : Call), calls[i]? = some c →
      ∃ outcome, (start.run calls)[i]? = some outcome ∧
        (start.after (calls.take i)).Reports c outcome) := by
  intro start s
  have haccounts := accounts_trace counts coefficients calls
  refine ⟨haccounts.nodup_wires, haccounts.mem_iff, fun i c hi => ?_⟩
  refine ⟨(start.after (calls.take i)).call c, ?_, reports_call _ c⟩
  rw [getElem?_run, hi]
  rfl

/-- A second hint for a wire is refused without a warning, and a hint with an input that has no
terms is not one without inputs. -/
example :
    let first : Call := .addHint ⟨0, ⟨7⟩, []⟩
    let duplicate : Call := .addHint ⟨0, ⟨8⟩, []⟩
    let other : Call := .addHint ⟨1, ⟨9⟩, [.empty]⟩
    (empty ⟨0, 0, 2⟩ .seeded).trace [first, duplicate, other, .validate] =
      [.hintWithoutInputs 0 ⟨7⟩, .validating 0 2, .valid 0 2 4] := by
  cbv

end System
end RankOne
