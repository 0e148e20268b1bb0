import Mathlib.Algebra.BigOperators.Group.List.Basic
import Mathlib.Algebra.Ring.Defs
import RankOne.Proofs.CanonicalForm
import RankOne.Proofs.Reordering

/-! What a system means over a commutative ring. A linear combination has the sum of its terms as
its value, a constraint holds where the product of its left and right side is its output, and
neither depends on the order of the terms. -/
namespace RankOne

variable {R : Type*} [CommRing R]

/-! ## Values -/

/-- The product of the coefficient and the variable, where the coefficient is known. -/
def Term.value? (coefficients : Array Int) (assignment : Visibility → Nat → R) (t : Term) :
    Option R :=
  coefficients[t.coefficientId]?.map fun c : Int => (c : R) * assignment t.visibility t.variableId

/-- The sum of the values of the terms, where all of them are defined. -/
def LinearCombination.value? (coefficients : Array Int) (assignment : Visibility → Nat → R)
    (x : LinearCombination) : Option R :=
  (x.terms.mapM (Term.value? coefficients assignment)).map List.sum

/-- The values of the three sides. -/
def Constraint.values? (coefficients : Array Int) (assignment : Visibility → Nat → R)
    (c : Constraint) : Operand → Option R :=
  fun operand => (c.operand operand).value? coefficients assignment

/-- The values of the inputs, in call order. -/
def Hint.values? (coefficients : Array Int) (assignment : Visibility → Nat → R) (h : Hint) :
    List (Option R) :=
  h.inputs.map (LinearCombination.value? coefficients assignment)

/-- All sides have a value, and `left * right = output`. -/
def Constraint.Holds (coefficients : Array Int) (assignment : Visibility → Nat → R)
    (c : Constraint) : Prop :=
  ∃ l r o, c.values? coefficients assignment .left = some l ∧
    c.values? coefficients assignment .right = some r ∧
    c.values? coefficients assignment .output = some o ∧ l * r = o

namespace System

/-- The values of the sides of the constraints, by index. -/
def constraintValues (s : System) (assignment : Visibility → Nat → R) :
    Array (Operand → Option R) :=
  s.constraints.map (Constraint.values? s.coefficients.values assignment)

/-- The values of the inputs of the hints, by wire. -/
def hintValues (s : System) (assignment : Visibility → Nat → R) :
    Std.ExtTreeMap Nat (List (Option R)) :=
  s.hints.map fun _ h => h.values? s.coefficients.values assignment

/-- There is a constraint with the given index, and it holds. -/
def HoldsAt (s : System) (assignment : Visibility → Nat → R) (index : Nat) : Prop :=
  ∃ c, s.constraints[index]? = some c ∧ c.Holds s.coefficients.values assignment

end System

/-! ## Order does not matter -/

section

variable {coefficients : Array Int} {assignment : Visibility → Nat → R}

theorem LinearCombination.value?_cons (t : Term) (ts : List Term) :
    LinearCombination.value? coefficients assignment ⟨t :: ts⟩ =
      (t.value? coefficients assignment).bind fun a =>
        (LinearCombination.value? coefficients assignment ⟨ts⟩).map (a + ·) := by
  simp only [value?, List.mapM_cons]
  cases t.value? coefficients assignment with
  | none => rfl
  | some a =>
    cases ts.mapM (Term.value? coefficients assignment) with
    | none => rfl
    | some values => simp

/-- A value is missing exactly where a coefficient is unknown. -/
theorem LinearCombination.value?_eq_none_iff {x : LinearCombination} :
    x.value? coefficients assignment = none ↔
      ∃ t ∈ x.terms, coefficients.size ≤ t.coefficientId := by
  obtain ⟨ts⟩ := x
  induction ts with
  | nil => simp [value?]
  | cons t ts ih =>
    simp only [value?_cons, List.mem_cons, exists_eq_or_imp, ← ih]
    by_cases ht : coefficients.size ≤ t.coefficientId
    · simp [Term.value?, ht]
    · simp [Term.value?, ht, Nat.not_le.mp ht]

/-- The value depends on the terms and how often each occurs, and on nothing else. -/
theorem LinearCombination.Reordered.value?_eq {x y : LinearCombination} (h : x.Reordered y) :
    x.value? coefficients assignment = y.value? coefficients assignment := by
  obtain ⟨xs⟩ := x
  obtain ⟨ys⟩ := y
  change xs.Perm ys at h
  induction h with
  | nil => rfl
  | cons t _ ih => rw [value?_cons, value?_cons, ih]
  | swap s t ts =>
    simp only [value?_cons]
    cases s.value? coefficients assignment <;> cases t.value? coefficients assignment <;>
      cases value? coefficients assignment ⟨ts⟩ <;> simp [add_left_comm]
  | trans _ _ ih₁ ih₂ => exact ih₁.trans ih₂

theorem Constraint.Reordered.values?_eq {c d : Constraint} (h : c.Reordered d) :
    c.values? coefficients assignment = d.values? coefficients assignment :=
  funext fun operand => (h operand).value?_eq

theorem Constraint.Reordered.holds {c d : Constraint} (h : c.Reordered d)
    (hc : c.Holds coefficients assignment) : d.Holds coefficients assignment := by
  unfold Holds at hc ⊢
  rwa [← h.values?_eq]

theorem Hint.Reordered.values?_eq {h k : Hint} (hk : h.Reordered k) :
    h.values? coefficients assignment = k.values? coefficients assignment :=
  map_eq_map_of_forall₂ hk.inputs fun _ _ hxy => hxy.value?_eq

end

namespace System

section

variable {s t : System} {assignment : Visibility → Nat → R} (hst : s.Reordered t)

include hst

theorem Reordered.constraintValues_eq :
    s.constraintValues assignment = t.constraintValues assignment := by
  apply Array.toList_inj.mp
  rw [constraintValues, constraintValues, Array.toList_map, Array.toList_map, hst.coefficients]
  exact map_eq_map_of_forall₂ hst.constraints fun _ _ hcd => hcd.values?_eq

theorem Reordered.hintValues_eq : s.hintValues assignment = t.hintValues assignment := by
  apply Std.ExtTreeMap.ext_getElem?
  intro wire
  rw [hintValues, hintValues, Std.ExtTreeMap.getElem?_map, Std.ExtTreeMap.getElem?_map,
    hst.coefficients]
  exact map_eq_map_of_rel (hst.hints wire) fun _ _ hk => hk.values?_eq

theorem Reordered.holdsAt {index : Nat} (h : s.HoldsAt assignment index) :
    t.HoldsAt assignment index := by
  obtain ⟨c, hc, hholds⟩ := h
  obtain ⟨d, hd, hcd⟩ := hst.exists_constraint hc
  rw [hst.coefficients] at hholds
  exact ⟨d, hd, hcd.holds hholds⟩

end

/-! ## Canonical order -/

theorem isCanonical_of_mem_canonicalize {s : System} {c : Constraint}
    (hc : c ∈ s.canonicalize.constraints) (operand : Operand) :
    (c.operand operand).isCanonical = true := by
  obtain ⟨d, -, rfl⟩ := Array.mem_map.mp hc
  rw [Constraint.operand_canonical]
  exact LinearCombination.isCanonical_canonical _

theorem isCanonical_of_mem_inputs_canonicalize {s : System} {wire : Nat} {h : Hint}
    (hget : s.canonicalize.hint? wire = some h) {x : LinearCombination} (hx : x ∈ h.inputs) :
    x.isCanonical = true := by
  rw [hint?_canonicalize] at hget
  obtain ⟨k, -, rfl⟩ := Option.map_eq_some_iff.mp hget
  obtain ⟨y, -, rfl⟩ := List.mem_map.mp hx
  exact y.isCanonical_canonical

/-- Canonical order keeps the values of all sides and inputs, and with them which constraints hold;
it leaves every linear combination sorted, moves nothing but terms within one, and done again it
changes nothing. -/
theorem canonicalize_preserves_meaning (s : System) (assignment : Visibility → Nat → R) :
    s.canonicalize.constraintValues assignment = s.constraintValues assignment ∧
    s.canonicalize.hintValues assignment = s.hintValues assignment ∧
    (∀ index, s.canonicalize.HoldsAt assignment index ↔ s.HoldsAt assignment index) ∧
    (∀ c ∈ s.canonicalize.constraints, ∀ operand, (c.operand operand).isCanonical = true) ∧
    (∀ wire h, s.canonicalize.hint? wire = some h → ∀ x ∈ h.inputs, x.isCanonical = true) ∧
    s.Reordered s.canonicalize ∧
    s.canonicalize.canonicalize = s.canonicalize := by
  have hsorted := s.reordered_canonicalize
  refine ⟨hsorted.symm.constraintValues_eq, hsorted.symm.hintValues_eq, fun index => ?_,
    fun c hc => isCanonical_of_mem_canonicalize hc,
    fun wire h hget x hx => isCanonical_of_mem_inputs_canonicalize hget hx, hsorted,
    canonicalize_canonicalize s⟩
  exact ⟨hsorted.symm.holdsAt, hsorted.holdsAt⟩

end System
end RankOne
