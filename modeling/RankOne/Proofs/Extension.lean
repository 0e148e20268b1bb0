import RankOne.Proofs.ReadingOrder
import RankOne.System.Edit

/-! Validation of a valid system to which a constraint or a hint is added. Only what was added can
be at fault, so it is looked at alone. Of the old system no more is needed than its declarations,
with its size and its hint wires for a constraint, and with its whole outputs for a hint. -/
namespace RankOne

/-! ## What is looked at -/

/-- The whole output of the constraint is the internal wire. -/
def Constraint.OutputIs (c : Constraint) (wire : Nat) : Prop :=
  ∃ t, c.output.terms = [t] ∧ t.visibility = .internal ∧ t.variableId = wire

/-- What is wrong with the term at a place of a constraint: its side, position and check. -/
def Constraint.TermFails (c : Constraint) (scope : Scope) (index : Nat) (place : List Nat)
    (fault : Fault) : Prop :=
  ∃ (operand : Operand) (position : Nat) (t : Term) (check : TermCheck),
    (c.operand operand).terms[position]? = some t ∧
      place = [operand.rank, position, check.rank] ∧
      scope.Violates (.constraint index operand) t check fault

/-- What is wrong with the term at a place of a hint: its input, position and check. -/
def Hint.TermFails (h : Hint) (scope : Scope) (place : List Nat) (fault : Fault) : Prop :=
  ∃ (input : Nat) (x : LinearCombination) (position : Nat) (t : Term) (check : TermCheck),
    h.inputs[input]? = some x ∧ x.terms[position]? = some t ∧
      place = [input, position, check.rank] ∧ scope.Violates (.hint h.wire) t check fault

namespace System

/-- The wire is the whole output of the constraint at the index. -/
def OutputAt (s : System) (index wire : Nat) : Prop :=
  ∃ c, s.constraints[index]? = some c ∧ c.OutputIs wire

/-- What validation answers once the constraint is added: its first fault of a term, else a fault
of its output. -/
inductive ConstraintVerdict (s : System) (c : Constraint) : Except Fault Unit → Prop
  | term {fault : Fault} (h : FoundFirst (c.TermFails s.scope s.constraints.size) fault) :
      ConstraintVerdict s c (.error fault)
  | output {wire : Nat}
      (hterms : ∀ place fault, ¬ c.TermFails s.scope s.constraints.size place fault)
      (h : c.OutputIs wire) (hmem : wire ∈ s.hints) :
      ConstraintVerdict s c (.error (.constrainedHintWire wire s.constraints.size))
  | sound (hterms : ∀ place fault, ¬ c.TermFails s.scope s.constraints.size place fault)
      (h : ∀ wire, c.OutputIs wire → wire ∉ s.hints) : ConstraintVerdict s c (.ok ())

/-- What validation answers once the hint is added: a fault of its wire, else its first fault of a
term, else the first constraint whose whole output is its wire. -/
inductive HintVerdict (s : System) (h : Hint) : Except Fault Unit → Prop
  | wire (hw : s.counts.internals ≤ h.wire) :
      HintVerdict s h (.error (.undeclaredHintWire h.wire s.counts.internals))
  | term {fault : Fault} (hw : h.wire < s.counts.internals)
      (hfirst : FoundFirst (h.TermFails s.scope) fault) : HintVerdict s h (.error fault)
  | output {index : Nat} (hw : h.wire < s.counts.internals)
      (hterms : ∀ place fault, ¬ h.TermFails s.scope place fault)
      (hindex : s.OutputAt index h.wire)
      (hleast : ∀ other, s.OutputAt other h.wire → index ≤ other) :
      HintVerdict s h (.error (.constrainedHintWire h.wire index))
  | sound (hw : h.wire < s.counts.internals)
      (hterms : ∀ place fault, ¬ h.TermFails s.scope place fault)
      (hfree : ∀ index, ¬ s.OutputAt index h.wire) : HintVerdict s h (.ok ())

/-- Systems that do not differ in what decides about the constraint: the declarations, its index and
whether the wire that is its whole output has a hint. -/
structure AlikeForConstraint (s t : System) (c : Constraint) : Prop where
  scope : s.scope = t.scope
  size : s.constraints.size = t.constraints.size
  hinted : ∀ wire, c.OutputIs wire → (wire ∈ s.hints ↔ wire ∈ t.hints)

/-- Systems that do not differ in what decides about the hint: the declarations, whether its wire
has a hint already and the constraints whose whole output is its wire. -/
structure AlikeForHint (s t : System) (h : Hint) : Prop where
  scope : s.scope = t.scope
  hinted : h.wire ∈ s.hints ↔ h.wire ∈ t.hints
  outputs : ∀ index, s.OutputAt index h.wire ↔ t.OutputAt index h.wire

/-! ## One more constraint -/

section

variable {s : System} {c : Constraint}

theorem faults_eq_none (hs : s.validate = .ok ()) :
    s.firstConstraintFault = none ∧ s.firstHintFault = none ∧ s.firstOutputFault = none := by
  have hnone : s.fault? = none := validate_eq_ok_iff.mp hs
  simp only [fault?, Option.or_eq_none_iff] at hnone
  exact ⟨hnone.1.1, hnone.1.2, hnone.2⟩

theorem indexedConstraints_addConstraint (s : System) (c : Constraint) :
    (s.addConstraint c).2.indexedConstraints =
      s.indexedConstraints ++ [(c, s.constraints.size)] := by
  simp [addConstraint, indexedConstraints, List.zipIdx_append]

/-- In a valid system, only the constraint that is added can be at fault. -/
theorem fault?_addConstraint (hs : s.validate = .ok ()) (c : Constraint) :
    (s.addConstraint c).2.fault? =
      (constraintFault s.scope s.constraints.size c).or (s.outputFault s.constraints.size c) := by
  have hadded := s.indexedConstraints_addConstraint c
  obtain ⟨hconstraints, hhints, houtputs⟩ := faults_eq_none hs
  have hterms : (s.addConstraint c).2.firstConstraintFault =
      constraintFault s.scope s.constraints.size c := by
    calc (s.addConstraint c).2.firstConstraintFault
        = (s.firstConstraintFault).or (constraintFault s.scope s.constraints.size c) := by
          rw [firstConstraintFault, hadded, List.findSome?_append, List.findSome?_singleton]
          rfl
      _ = constraintFault s.scope s.constraints.size c := by rw [hconstraints, Option.none_or]
  have hhint : (s.addConstraint c).2.firstHintFault = none := hhints
  have houtput : (s.addConstraint c).2.firstOutputFault = s.outputFault s.constraints.size c := by
    calc (s.addConstraint c).2.firstOutputFault
        = (s.firstOutputFault).or (s.outputFault s.constraints.size c) := by
          rw [firstOutputFault, hadded, List.findSome?_append, List.findSome?_singleton]
          rfl
      _ = s.outputFault s.constraints.size c := by rw [houtputs, Option.none_or]
  rw [fault?, hterms, hhint, houtput, Option.or_none]

theorem termFails_unique {scope : Scope} {index : Nat} {place : List Nat} {f g : Fault}
    (hf : c.TermFails scope index place f) (hg : c.TermFails scope index place g) : f = g := by
  obtain ⟨operand, position, t, check, ht, rfl, hf⟩ := hf
  obtain ⟨other, _, u, otherCheck, hu, hplace, hg⟩ := hg
  simp only [List.cons.injEq, and_true] at hplace
  obtain ⟨hoperand, rfl, hcheck⟩ := hplace
  obtain rfl := Operand.rank_injective hoperand
  obtain rfl := TermCheck.rank_injective hcheck
  obtain rfl := Option.some.inj (ht.symm.trans hu)
  exact hf.fault_unique hg

theorem constraintFault_eq_none_iff_termFails {scope : Scope} {index : Nat} :
    constraintFault scope index c = none ↔ ∀ place fault, ¬ c.TermFails scope index place fault :=
  (earliest_constraintFault scope index c).eq_none_iff

theorem constraintFault_eq_some_iff {scope : Scope} {index : Nat} {fault : Fault} :
    constraintFault scope index c = some fault ↔ FoundFirst (c.TermFails scope index) fault :=
  (earliest_constraintFault scope index c).eq_some_iff fun _ _ _ => termFails_unique

theorem outputFault_eq_some_iff_outputIs {index : Nat} {fault : Fault} :
    s.outputFault index c = some fault ↔
      ∃ wire, c.OutputIs wire ∧ wire ∈ s.hints ∧ fault = .constrainedHintWire wire index := by
  rw [outputFault_eq_some_iff]
  constructor
  · intro h
    obtain ⟨t, ht, hv, hmem, rfl⟩ := h
    exact ⟨t.variableId, ⟨t, ht, hv, rfl⟩, hmem, rfl⟩
  · intro h
    obtain ⟨_, ⟨t, ht, hv, rfl⟩, hmem, rfl⟩ := h
    exact ⟨t, ht, hv, hmem, rfl⟩

theorem outputFault_eq_none_iff_outputIs {index : Nat} :
    s.outputFault index c = none ↔ ∀ wire, c.OutputIs wire → wire ∉ s.hints := by
  rw [Option.eq_none_iff_forall_ne_some]
  constructor
  · intro h wire hwire hmem
    exact h _ (outputFault_eq_some_iff_outputIs.mpr ⟨wire, hwire, hmem, rfl⟩)
  · intro h fault hfault
    obtain ⟨wire, hwire, hmem, -⟩ := outputFault_eq_some_iff_outputIs.mp hfault
    exact h wire hwire hmem

theorem validate_addConstraint_iff (hs : s.validate = .ok ()) {answer : Except Fault Unit} :
    (s.addConstraint c).2.validate = answer ↔ s.ConstraintVerdict c answer := by
  cases answer with
  | error fault =>
    rw [validate_eq_error_iff, fault?_addConstraint hs, Option.or_eq_some_iff,
      constraintFault_eq_some_iff, constraintFault_eq_none_iff_termFails,
      outputFault_eq_some_iff_outputIs]
    constructor
    · intro h
      rcases h with hfirst | ⟨hterms, wire, hwire, hmem, rfl⟩
      · exact .term hfirst
      · exact .output hterms hwire hmem
    · intro h
      cases h with
      | term hfirst => exact .inl hfirst
      | output hterms hwire hmem => exact .inr ⟨hterms, _, hwire, hmem, rfl⟩
  | ok =>
    rw [validate_eq_ok_iff, fault?_addConstraint hs, Option.or_eq_none_iff,
      constraintFault_eq_none_iff_termFails, outputFault_eq_none_iff_outputIs]
    constructor
    · intro h
      exact .sound h.1 h.2
    · intro h
      cases h with
      | sound hterms hfree => exact ⟨hterms, hfree⟩

end

/-! ## One more hint -/

section

variable {s : System} {h : Hint}

theorem addHint_eq_ok (hfree : h.wire ∉ s.hints) :
    s.addHint h = .ok (s.putHint h.wire h).2 := by
  simp [addHint, putHint, isHintWire, hfree]

/-- Wherever the hint comes to stand among the others, it is the only one that can be at fault. -/
theorem firstHintFault_putHint (hs : s.validate = .ok ()) (h : Hint) :
    (s.putHint h.wire h).2.firstHintFault = hintFault s.scope h.wire h := by
  have hhints : s.firstHintFault = none := (faults_eq_none hs).2.1
  have hmem : ∀ x : Nat × Hint, x ∈ (s.hints.insert h.wire h).toList ↔
      x = (h.wire, h) ∨ x.1 ≠ h.wire ∧ x ∈ s.hints.toList := by
    intro x
    obtain ⟨wire, k⟩ := x
    simp only [Std.ExtTreeMap.mem_toList_iff_getElem?_eq_some, Std.ExtTreeMap.getElem?_insert,
      Std.compare_eq_iff_eq, Prod.mk.injEq]
    by_cases heq : h.wire = wire
    · simp [heq, eq_comm]
    · simp [heq, Ne.symm heq]
  refine findSome?_eq_of_forall_ne ((hmem (h.wire, h)).mpr (.inl rfl)) fun x hx hne => ?_
  obtain ⟨-, hold⟩ := ((hmem x).mp hx).resolve_left hne
  exact List.findSome?_eq_none_iff.mp hhints x hold

theorem earliest_hintInputs (h : Hint) (scope : Scope) :
    Earliest (h.TermFails scope) (h.inputs.findSome? (scope.fault (.hint h.wire))) := by
  have hinputs : Earliest _ (h.inputs.findSome? (scope.fault (.hint h.wire))) :=
    .findSome?_index (scope.earliest_fault (.hint h.wire))
  refine hinputs.congr fun place fault => ?_
  constructor
  · intro hfound
    obtain ⟨input, x, _, hx, rfl, position, t, check, ht, rfl, hfails⟩ := hfound
    exact ⟨input, x, position, t, check, hx, ht, rfl, hfails⟩
  · intro hfound
    obtain ⟨input, x, position, t, check, hx, ht, rfl, hfails⟩ := hfound
    exact ⟨input, x, _, hx, rfl, position, t, check, ht, rfl, hfails⟩

theorem hintTermFails_unique {scope : Scope} {place : List Nat} {f g : Fault}
    (hf : h.TermFails scope place f) (hg : h.TermFails scope place g) : f = g := by
  obtain ⟨input, x, position, t, check, hx, ht, rfl, hf⟩ := hf
  obtain ⟨_, y, _, u, otherCheck, hy, hu, hplace, hg⟩ := hg
  simp only [List.cons.injEq, and_true] at hplace
  obtain ⟨rfl, rfl, hcheck⟩ := hplace
  obtain rfl := TermCheck.rank_injective hcheck
  obtain rfl := Option.some.inj (hx.symm.trans hy)
  obtain rfl := Option.some.inj (ht.symm.trans hu)
  exact hf.fault_unique hg

theorem hintFault_eq_some_iff {scope : Scope} {fault : Fault} :
    hintFault scope h.wire h = some fault ↔
      scope.counts.internals ≤ h.wire ∧
          fault = .undeclaredHintWire h.wire scope.counts.internals ∨
        h.wire < scope.counts.internals ∧ FoundFirst (h.TermFails scope) fault := by
  unfold hintFault
  split
  next hw => simp [hw, Nat.not_lt.mpr hw, eq_comm]
  next hw =>
    rw [(earliest_hintInputs h scope).eq_some_iff fun _ _ _ => hintTermFails_unique]
    simp [hw, Nat.not_le.mp hw]

theorem hintFault_eq_none_iff_termFails {scope : Scope} :
    hintFault scope h.wire h = none ↔
      h.wire < scope.counts.internals ∧ ∀ place fault, ¬ h.TermFails scope place fault := by
  unfold hintFault
  split
  next hw => simp [Nat.not_lt.mpr hw]
  next hw =>
    rw [(earliest_hintInputs h scope).eq_none_iff]
    simp [Nat.not_le.mp hw]

/-- The wires that had hints before are no outputs in a valid system, so only the new one can be. -/
theorem fails_output_putHint_iff (hs : s.validate = .ok ()) {index : Nat} {fault : Fault} :
    (s.putHint h.wire h).2.Fails (.output index) fault ↔
      s.OutputAt index h.wire ∧ fault = .constrainedHintWire h.wire index := by
  have hwell : s.WellFormed := fault?_eq_none_iff.mp (validate_eq_ok_iff.mp hs)
  constructor
  · intro hfails
    cases hfails with
    | @output _ c t hc ho hv hmem =>
      have hold : t.variableId ∉ s.hints :=
        hwell.outputs c (Array.mem_of_getElem? hc) t ho hv
      have hnew : h.wire = t.variableId := by simpa [putHint, hold] using hmem
      rw [hnew]
      exact ⟨⟨c, hc, t, ho, hv, rfl⟩, rfl⟩
  · intro hfound
    obtain ⟨⟨c, hc, t, ho, hv, hwire⟩, rfl⟩ := hfound
    have hmem : t.variableId ∈ (s.putHint h.wire h).2.hints := by simp [putHint, hwire]
    rw [← hwire] at hmem ⊢
    exact .output hc ho hv hmem

theorem earliest_firstOutputFault_putHint (hs : s.validate = .ok ()) (h : Hint) :
    Earliest (fun place fault => ∃ index, place = [index] ∧ s.OutputAt index h.wire ∧
        fault = .constrainedHintWire h.wire index)
      (s.putHint h.wire h).2.firstOutputFault := by
  refine (earliest_firstOutputFault _).congr fun place fault => ?_
  simp only [fails_output_putHint_iff hs]

theorem firstOutputFault_putHint_eq_none_iff (hs : s.validate = .ok ()) :
    (s.putHint h.wire h).2.firstOutputFault = none ↔
      ∀ index, ¬ s.OutputAt index h.wire := by
  rw [(earliest_firstOutputFault_putHint hs h).eq_none_iff]
  constructor
  · intro hnone index houtput
    exact hnone _ _ ⟨index, rfl, houtput, rfl⟩
  · intro hnone place fault hfound
    obtain ⟨index, -, houtput, -⟩ := hfound
    exact hnone index houtput

theorem firstOutputFault_putHint_eq_some_iff (hs : s.validate = .ok ()) {fault : Fault} :
    (s.putHint h.wire h).2.firstOutputFault = some fault ↔
      ∃ index, s.OutputAt index h.wire ∧ (∀ other, s.OutputAt other h.wire → index ≤ other) ∧
        fault = .constrainedHintWire h.wire index := by
  have hle : ∀ m n : Nat, [m] ≤ [n] ↔ m ≤ n := by
    intro m n
    simp [cons_le_cons_iff, Nat.le_iff_lt_or_eq]
  rw [(earliest_firstOutputFault_putHint hs h).eq_some_iff]
  · constructor
    · intro hfirst
      obtain ⟨_, ⟨index, rfl, houtput, rfl⟩, hleast⟩ := hfirst
      refine ⟨index, houtput, fun other hother => ?_, rfl⟩
      exact (hle index other).mp (hleast _ _ ⟨other, rfl, hother, rfl⟩)
    · intro hfirst
      obtain ⟨index, houtput, hleast, rfl⟩ := hfirst
      refine ⟨[index], ⟨index, rfl, houtput, rfl⟩, fun place g hother => ?_⟩
      obtain ⟨other, rfl, hother, -⟩ := hother
      exact (hle index other).mpr (hleast other hother)
  · intro place f g hf hg
    obtain ⟨index, rfl, -, rfl⟩ := hf
    obtain ⟨other, hplace, -, rfl⟩ := hg
    rw [(List.cons.inj hplace).1]

theorem fault?_putHint (hs : s.validate = .ok ()) (h : Hint) :
    (s.putHint h.wire h).2.fault? =
      (hintFault s.scope h.wire h).or
        (s.putHint h.wire h).2.firstOutputFault := by
  have hconstraints : (s.putHint h.wire h).2.firstConstraintFault = none :=
    (faults_eq_none hs).1
  rw [fault?, hconstraints, Option.none_or, firstHintFault_putHint hs h]

theorem validate_putHint_iff (hs : s.validate = .ok ()) {answer : Except Fault Unit} :
    (s.putHint h.wire h).2.validate = answer ↔ s.HintVerdict h answer := by
  cases answer with
  | error fault =>
    rw [validate_eq_error_iff, fault?_putHint hs, Option.or_eq_some_iff, hintFault_eq_some_iff,
      hintFault_eq_none_iff_termFails, firstOutputFault_putHint_eq_some_iff hs]
    constructor
    · intro hfault
      rcases hfault with (⟨hw, rfl⟩ | ⟨hw, hfirst⟩) | ⟨⟨hw, hterms⟩, index, houtput, hleast, rfl⟩
      · exact .wire hw
      · exact .term hw hfirst
      · exact .output hw hterms houtput hleast
    · intro hverdict
      cases hverdict with
      | wire hw => exact .inl (.inl ⟨hw, rfl⟩)
      | term hw hfirst => exact .inl (.inr ⟨hw, hfirst⟩)
      | output hw hterms houtput hleast =>
        exact .inr ⟨⟨hw, hterms⟩, _, houtput, hleast, rfl⟩
  | ok =>
    rw [validate_eq_ok_iff, fault?_putHint hs, Option.or_eq_none_iff,
      hintFault_eq_none_iff_termFails, firstOutputFault_putHint_eq_none_iff hs]
    constructor
    · intro hnone
      exact .sound hnone.1.1 hnone.1.2 hnone.2
    · intro hverdict
      cases hverdict with
      | sound hw hterms hfree => exact ⟨⟨hw, hterms⟩, hfree⟩

end

/-! ## What the answer depends on -/

section

variable {s t : System} {answer : Except Fault Unit}

theorem AlikeForConstraint.constraintVerdict {c : Constraint} (hst : s.AlikeForConstraint t c)
    (h : s.ConstraintVerdict c answer) : t.ConstraintVerdict c answer := by
  cases h with
  | term hfirst =>
    rw [hst.scope, hst.size] at hfirst
    exact .term hfirst
  | output hterms houtput hmem =>
    rw [hst.scope, hst.size] at hterms
    rw [hst.size]
    exact .output hterms houtput ((hst.hinted _ houtput).mp hmem)
  | sound hterms hfree =>
    rw [hst.scope, hst.size] at hterms
    exact .sound hterms fun wire houtput hmem =>
      hfree wire houtput ((hst.hinted wire houtput).mpr hmem)

theorem AlikeForHint.hintVerdict {h : Hint} (hst : s.AlikeForHint t h)
    (hverdict : s.HintVerdict h answer) : t.HintVerdict h answer := by
  have hcounts : s.counts = t.counts := congrArg Scope.counts hst.scope
  cases hverdict with
  | wire hw =>
    rw [hcounts] at hw ⊢
    exact .wire hw
  | term hw hfirst =>
    rw [hcounts] at hw
    rw [hst.scope] at hfirst
    exact .term hw hfirst
  | output hw hterms houtput hleast =>
    rw [hcounts] at hw
    rw [hst.scope] at hterms
    exact .output hw hterms ((hst.outputs _).mp houtput)
      fun other hother => hleast other ((hst.outputs other).mpr hother)
  | sound hw hterms hfree =>
    rw [hcounts] at hw
    rw [hst.scope] at hterms
    exact .sound hw hterms fun index houtput => hfree index ((hst.outputs index).mpr houtput)

end

/-- Validation of a valid system with one more constraint or one more hint is validation of what
was added. Of the old system, the declarations matter. For a constraint, so do its index and whether
the wire that is its whole output has a hint. For a hint, so do the constraints whose whole output
is its wire. Nothing else does. -/
theorem validation_is_incremental {s : System} (hs : s.validate = .ok ()) :
    (∀ (c : Constraint) (answer : Except Fault Unit),
      (s.addConstraint c).2.validate = answer ↔ s.ConstraintVerdict c answer) ∧
    (∀ h : Hint, h.wire ∉ s.hints → ∃ extended, s.addHint h = .ok extended ∧
      ∀ answer, extended.validate = answer ↔ s.HintVerdict h answer) ∧
    (∀ t : System, t.validate = .ok () →
      (∀ c : Constraint, s.AlikeForConstraint t c →
        (t.addConstraint c).2.validate = (s.addConstraint c).2.validate) ∧
      (∀ h : Hint, h.wire ∉ s.hints → s.AlikeForHint t h → ∃ extended other,
        s.addHint h = .ok extended ∧ t.addHint h = .ok other ∧
          other.validate = extended.validate)) := by
  refine ⟨fun c answer => validate_addConstraint_iff hs, fun h hfree => ?_, fun t ht => ?_⟩
  · exact ⟨_, addHint_eq_ok hfree, fun answer => validate_putHint_iff hs⟩
  · refine ⟨fun c hst => ?_, fun h hfree hst => ?_⟩
    · have hverdict := (validate_addConstraint_iff hs).mp (Eq.refl (s.addConstraint c).2.validate)
      exact (validate_addConstraint_iff ht).mpr (hst.constraintVerdict hverdict)
    · have hverdict := (validate_putHint_iff hs).mp (Eq.refl (s.putHint h.wire h).2.validate)
      have hother : h.wire ∉ t.hints := fun hmem => hfree (hst.hinted.mpr hmem)
      exact ⟨_, _, addHint_eq_ok hfree, addHint_eq_ok hother,
        (validate_putHint_iff ht).mpr (hst.hintVerdict hverdict)⟩

/-- Wire 0 is the output of a constraint and wire 1 has a hint. A constraint with output wire 1 is
reported, and so is a hint for wire 0, which comes to stand before the other. A message and an input
of the old hint make no difference to the constraint, and another constraint none to the hint. -/
theorem validation_is_incremental_sample :
    let first : Term := .ofValues 1 0 .internal (by decide) (by decide)
    let second : Term := .ofValues 1 1 .internal (by decide) (by decide)
    let s : System :=
      { empty ⟨0, 0, 2⟩ .seeded with
        constraints := #[⟨.single second, .empty, .single first⟩]
        hints := (∅ : Std.ExtTreeMap Nat Hint).insert 1 ⟨1, ⟨7⟩, []⟩ }
    let t : System :=
      { s with
        logs := #[.empty]
        hints := (∅ : Std.ExtTreeMap Nat Hint).insert 1 ⟨1, ⟨8⟩, [.single first]⟩ }
    let c : Constraint := ⟨.empty, .empty, .single second⟩
    let h : Hint := ⟨0, ⟨9⟩, []⟩
    let u : System := { t with constraints := t.constraints.push ⟨.single second, .empty, .empty⟩ }
    s.validate = .ok () ∧ t.validate = .ok () ∧ s.AlikeForConstraint t c ∧
      s.ConstraintVerdict c (.error (.constrainedHintWire 1 1)) ∧
      (t.addConstraint c).2.validate = .error (.constrainedHintWire 1 1) ∧
      h.wire ∉ s.hints ∧ s.HintVerdict h (.error (.constrainedHintWire 0 0)) ∧
      u.validate = .ok () ∧ s.AlikeForHint u h ∧
      ∃ other, u.addHint h = .ok other ∧ other.validate = .error (.constrainedHintWire 0 0) := by
  intro first second s t c h u
  have hs : s.validate = .ok () := by decide
  have ht : t.validate = .ok () := by decide
  have hu : u.validate = .ok () := by decide
  obtain ⟨hconstraint, hhint, hsame⟩ := validation_is_incremental hs
  have hst : s.AlikeForConstraint t c := by
    refine ⟨rfl, rfl, fun wire _ => ?_⟩
    simp [s, t]
  have hc : (s.addConstraint c).2.validate = .error (.constrainedHintWire 1 1) := by decide
  have hfree : h.wire ∉ s.hints := by decide
  obtain ⟨extended, hok, hanswer⟩ := hhint h hfree
  have hh : extended.validate = .error (.constrainedHintWire 0 0) := by
    cases hok
    decide
  have hsu : s.AlikeForHint u h := by
    refine ⟨rfl, by decide, fun index => ?_⟩
    match index with
    | 0 => exact Iff.rfl
    | 1 => simp [OutputAt, Constraint.OutputIs, s, t, u]
    | _ + 2 => simp [OutputAt, s, t, u]
  obtain ⟨_, other, hok', hother, heq⟩ := (hsame u hu).2 h hfree hsu
  obtain rfl := Except.ok.inj (hok.symm.trans hok')
  exact ⟨hs, ht, hst, (hconstraint c _).mp hc, ((hsame t ht).1 c hst).trans hc, hfree,
    (hanswer _).mp hh, hu, hsu, other, hother, heq.trans hh⟩

end System
end RankOne
