import RankOne.System.Validity

/-! Validation accepts exactly the well-formed systems. Every scan is first described
by what it means that the scan finds nothing; the three scans together then amount to
the conditions on operands, inputs, wires and outputs. -/
namespace RankOne.System

theorem mem_operands_iff {c : Constraint} {operand : Operand} {x : LinearCombination} :
    (operand, x) ∈ c.operands ↔ x = c.operand operand := by
  constructor
  · intro h
    obtain ⟨_, _, heq⟩ := List.mem_map.mp h
    cases heq
    rfl
  · rintro rfl
    have hmem : operand ∈ Operand.all := by cases operand <;> decide
    exact List.mem_map.mpr ⟨operand, hmem, rfl⟩

theorem forall_mem_operands {c : Constraint} {p : LinearCombination → Prop} :
    (∀ x ∈ c.operands, p x.2) ↔ ∀ operand, p (c.operand operand) := by
  constructor
  · intro h operand
    exact h (operand, c.operand operand) (mem_operands_iff.mpr rfl)
  · intro h h hx
    obtain ⟨operand, x⟩ := h
    exact mem_operands_iff.mp hx ▸ h operand

theorem forall_mem_indexedConstraints {s : System} {p : Constraint → Prop} :
    (∀ x ∈ s.indexedConstraints, p x.1) ↔ ∀ c ∈ s.constraints, p c := by
  constructor
  · intro h c hc
    obtain ⟨i, hi, rfl⟩ := Array.getElem_of_mem hc
    exact h (s.constraints[i], i) (List.mk_mem_zipIdx_iff_getElem?.mpr (by simp [hi]))
  · intro h x hx
    have hget := List.mem_zipIdx_iff_getElem?.mp hx
    exact h x.1 (Array.mem_of_getElem? (by simpa using hget))

theorem constraintFault_eq_none_iff {scope : Scope} {index : Nat} {c : Constraint} :
    constraintFault scope index c = none ↔
      ∀ operand, ∀ t ∈ (c.operand operand).terms, scope.Admits t := by
  simp only [constraintFault, List.findSome?_eq_none_iff, Scope.fault_eq_none_iff]
  exact forall_mem_operands (p := fun x => ∀ t ∈ x.terms, scope.Admits t)

theorem hintFault_eq_none_iff {scope : Scope} {wire : Nat} {h : Hint} :
    hintFault scope wire h = none ↔
      wire < scope.counts.internals ∧ ∀ t ∈ h.inputTerms, scope.Admits t := by
  unfold hintFault
  split
  next hw => simp [Nat.not_lt.mpr hw]
  next hw =>
    simp only [List.findSome?_eq_none_iff, Scope.fault_eq_none_iff, Hint.inputTerms,
      List.mem_flatMap, forall_exists_index, and_imp, Nat.not_le.mp hw, true_and]
    constructor
    · intro hx t x hmem ht
      exact hx x hmem t ht
    · intro hx x hmem t ht
      exact hx t x hmem ht

theorem soleInternalOutput?_eq_some_iff {c : Constraint} {wire : Nat} :
    c.soleInternalOutput? = some wire ↔
      ∃ t, c.output.terms = [t] ∧ t.visibility = .internal ∧ t.variableId = wire := by
  unfold Constraint.soleInternalOutput?
  split
  next t ht => simp [ht]
  next hnot =>
    constructor
    · intro h
      cases h
    · intro h
      obtain ⟨t, ht, _⟩ := h
      exact absurd ht (hnot t)

theorem outputFault_eq_some_iff {s : System} {index : Nat} {c : Constraint} {fault : Fault} :
    s.outputFault index c = some fault ↔
      ∃ t, c.output.terms = [t] ∧ t.visibility = .internal ∧ t.variableId ∈ s.hints ∧
        fault = .constrainedHintWire t.variableId index := by
  unfold outputFault
  constructor
  · intro h
    split at h
    next wire hwire =>
      obtain ⟨t, ht, hv, rfl⟩ := soleInternalOutput?_eq_some_iff.mp hwire
      split at h
      next hmem => exact ⟨t, ht, hv, by simpa [isHintWire] using hmem, by simpa using h.symm⟩
      next => cases h
    next => cases h
  · intro h
    obtain ⟨t, ht, hv, hmem, rfl⟩ := h
    have hwire : c.soleInternalOutput? = some t.variableId :=
      soleInternalOutput?_eq_some_iff.mpr ⟨t, ht, hv, rfl⟩
    simp [hwire, isHintWire, hmem]

theorem outputFault_eq_none_iff {s : System} {index : Nat} {c : Constraint} :
    s.outputFault index c = none ↔
      ∀ t, c.output.terms = [t] → t.visibility = .internal → t.variableId ∉ s.hints := by
  rw [Option.eq_none_iff_forall_ne_some]
  constructor
  · intro h t ht hv hmem
    exact h _ (outputFault_eq_some_iff.mpr ⟨t, ht, hv, hmem, rfl⟩)
  · intro h fault hf
    obtain ⟨t, ht, hv, hmem, _⟩ := outputFault_eq_some_iff.mp hf
    exact h t ht hv hmem

theorem firstConstraintFault_eq_none_iff {s : System} :
    s.firstConstraintFault = none ↔
      ∀ c ∈ s.constraints, ∀ operand, ∀ t ∈ (c.operand operand).terms, s.scope.Admits t := by
  simp only [firstConstraintFault, List.findSome?_eq_none_iff, constraintFault_eq_none_iff]
  exact forall_mem_indexedConstraints
    (p := fun c => ∀ operand, ∀ t ∈ (c.operand operand).terms, s.scope.Admits t)

theorem firstHintFault_eq_none_iff {s : System} :
    s.firstHintFault = none ↔
      ∀ (wire : Nat) (h : Hint), s.hints[wire]? = some h →
        wire < s.counts.internals ∧ ∀ t ∈ h.inputTerms, s.scope.Admits t := by
  simp only [firstHintFault, List.findSome?_eq_none_iff, hintFault_eq_none_iff, Prod.forall,
    Std.ExtTreeMap.mem_toList_iff_getElem?_eq_some, scope]

theorem firstOutputFault_eq_none_iff {s : System} :
    s.firstOutputFault = none ↔
      ∀ c ∈ s.constraints, ∀ t, c.output.terms = [t] → t.visibility = .internal →
        t.variableId ∉ s.hints := by
  simp only [firstOutputFault, List.findSome?_eq_none_iff, outputFault_eq_none_iff]
  exact forall_mem_indexedConstraints (p := fun c => ∀ t, c.output.terms = [t] →
    t.visibility = .internal → t.variableId ∉ s.hints)

/-- A search through the whole system finds nothing exactly in a well-formed system. -/
theorem fault?_eq_none_iff {s : System} : s.fault? = none ↔ s.WellFormed := by
  simp only [fault?, Option.or_eq_none_iff, firstConstraintFault_eq_none_iff,
    firstHintFault_eq_none_iff, firstOutputFault_eq_none_iff]
  constructor
  · intro h
    obtain ⟨⟨hc, hh⟩, ho⟩ := h
    refine ⟨hc, fun wire h hget => (hh wire h hget).2, fun wire hmem => ?_, ho⟩
    obtain ⟨h, hget⟩ := Option.isSome_iff_exists.mp
      (Std.ExtTreeMap.isSome_getElem?_iff_mem.mpr hmem)
    exact (hh wire h hget).1
  · intro h
    obtain ⟨hc, hi, hw, ho⟩ := h
    refine ⟨⟨hc, fun wire h hget => ⟨hw wire ?_, hi wire h hget⟩⟩, ho⟩
    exact Std.ExtTreeMap.isSome_getElem?_iff_mem.mp (by simp [hget])

instance (s : System) : Decidable s.WellFormed := decidable_of_iff _ fault?_eq_none_iff

theorem validate_eq_ok_iff {s : System} : s.validate = .ok () ↔ s.fault? = none := by
  unfold validate
  cases s.fault? <;> simp

theorem validate_eq_error_iff {s : System} {fault : Fault} :
    s.validate = .error fault ↔ s.fault? = some fault := by
  unfold validate
  cases s.fault? <;> simp

/-- Validation is sound and complete: it accepts the well-formed systems and no others. -/
theorem validate_accepts_iff_wellFormed (s : System) : s.validate = .ok () ↔ s.WellFormed :=
  validate_eq_ok_iff.trans fault?_eq_none_iff

end RankOne.System
