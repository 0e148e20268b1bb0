import RankOne.Proofs.WellFormedness
import RankOne.System.Edit

/-! Parts of a valid system are valid, also where more is declared than the whole declares. What a
part may not do is to add anything that has to be declared; messages, links, functions of hints and
the values of coefficients play no role. -/
namespace RankOne

/-! ## Larger scopes -/

/-- No more variables of any visibility are declared, and the table is no longer. -/
structure Scope.Within (scope larger : Scope) : Prop where
  publics_le : scope.counts.publics ≤ larger.counts.publics
  secrets_le : scope.counts.secrets ≤ larger.counts.secrets
  internals_le : scope.counts.internals ≤ larger.counts.internals
  tableSize_le : scope.tableSize ≤ larger.tableSize

theorem Scope.Within.refl (scope : Scope) : scope.Within scope :=
  ⟨Nat.le_refl _, Nat.le_refl _, Nat.le_refl _, Nat.le_refl _⟩

/-- A term in scope stays so where more is declared. -/
theorem Scope.Admits.mono {scope larger : Scope} {t : Term} (h : scope.Admits t)
    (hle : scope.Within larger) : larger.Admits t where
  coefficient_lt := Nat.lt_of_lt_of_le h.coefficient_lt hle.tableSize_le
  visibility_ne := h.visibility_ne
  public_lt := fun hv => Nat.lt_of_lt_of_le (h.public_lt hv) hle.publics_le
  secret_lt := fun hv => Nat.lt_of_lt_of_le (h.secret_lt hv) hle.secrets_le
  internal_lt := fun hv => Nat.lt_of_lt_of_le (h.internal_lt hv) hle.internals_le

namespace System

/-- The constraints of a part are constraints of the whole, in any order, and its hints are hints of
the whole, which have the same wires and inputs. The part declares no less than the whole, and all
else is left open. -/
structure PartOf (part whole : System) : Prop where
  constraints : ∀ c ∈ part.constraints, c ∈ whole.constraints
  hints : ∀ (wire : Nat) (h : Hint), part.hints[wire]? = some h →
    ∃ k, whole.hints[wire]? = some k ∧ h.inputs = k.inputs
  scope : whole.scope.Within part.scope

theorem PartOf.mem_hints {part whole : System} (h : part.PartOf whole) {wire : Nat}
    (hwire : wire ∈ part.hints) : wire ∈ whole.hints := by
  rw [← Std.ExtTreeMap.isSome_getElem?_iff_mem, Option.isSome_iff_exists] at hwire ⊢
  obtain ⟨own, hown⟩ := hwire
  obtain ⟨k, hk, -⟩ := h.hints wire own hown
  exact ⟨k, hk⟩

theorem PartOf.wellFormed {part whole : System} (h : part.PartOf whole)
    (hwhole : whole.WellFormed) : part.WellFormed where
  operands := fun c hc operand t ht =>
    (hwhole.operands c (h.constraints c hc) operand t ht).mono h.scope
  inputs := by
    intro wire own hown t ht
    obtain ⟨k, hk, hinputs⟩ := h.hints wire own hown
    have hmem : t ∈ k.inputTerms := by
      rw [Hint.inputTerms, ← hinputs]
      exact ht
    exact (hwhole.inputs wire k hk t hmem).mono h.scope
  wires := fun wire hwire =>
    Nat.lt_of_lt_of_le (hwhole.wires wire (h.mem_hints hwire)) h.scope.internals_le
  outputs := fun c hc t ht hv hmem =>
    hwhole.outputs c (h.constraints c hc) t ht hv (h.mem_hints hmem)

theorem PartOf.validate_eq_ok {part whole : System} (h : part.PartOf whole)
    (hwhole : whole.validate = .ok ()) : part.validate = .ok () := by
  rw [validate_eq_ok_iff, fault?_eq_none_iff] at hwhole ⊢
  exact h.wellFormed hwhole

/-! ## Edits that leave a part -/

section

variable (s : System)

theorem PartOf.refl : s.PartOf s :=
  ⟨fun _ hc => hc, fun _ h hget => ⟨h, hget, rfl⟩, .refl s.scope⟩

theorem partOf_popConstraint : s.popConstraint.2.PartOf s where
  constraints := by
    intro c hc
    rw [popConstraint, ← Array.mem_toList_iff, Array.toList_pop] at hc
    exact Array.mem_toList_iff.mp ((List.dropLast_sublist _).subset hc)
  hints := (PartOf.refl s).hints
  scope := .refl s.scope

theorem partOf_removeHint (wire : Nat) : (s.removeHint wire).2.PartOf s where
  constraints := (PartOf.refl s).constraints
  hints := by
    intro other h hget
    rw [removeHint, Std.ExtTreeMap.getElem?_erase] at hget
    split at hget
    · cases hget
    · exact ⟨h, hget, rfl⟩
  scope := .refl s.scope

end

/-- Nothing makes a valid system invalid that only takes constraints or hints away, puts constraints
into another order, declares more or changes messages and their links. -/
theorem parts_of_valid_are_valid {s : System} (hs : s.validate = .ok ()) :
    (∀ part : System, part.PartOf s → part.validate = .ok ()) ∧
    s.popConstraint.2.validate = .ok () ∧
    (∀ wire, (s.removeHint wire).2.validate = .ok ()) ∧
    (∀ counts : Counts, s.scope.Within ⟨counts, s.coefficients.size⟩ →
      (s.setCounts counts).validate = .ok ()) ∧
    (∀ constraints : Array Constraint, constraints.Perm s.constraints →
      validate { s with constraints := constraints } = .ok ()) ∧
    (∀ index entry, (s.linkDebug index entry).2.validate = .ok ()) ∧
    (∀ length, (s.truncateDebug length).validate = .ok ()) := by
  have hpart : ∀ part : System, part.PartOf s → part.validate = .ok () :=
    fun part h => h.validate_eq_ok hs
  have hself := PartOf.refl s
  refine ⟨hpart, hpart _ s.partOf_popConstraint, fun wire => hpart _ (s.partOf_removeHint wire),
    fun counts hle => ?_, fun constraints hperm => ?_, fun index entry => ?_, fun length => ?_⟩
  · exact hpart _ ⟨hself.constraints, hself.hints, hle⟩
  · exact hpart _ ⟨fun c hc => hperm.mem_iff.mp hc, hself.hints, hself.scope⟩
  · exact hpart _ ⟨hself.constraints, hself.hints, hself.scope⟩
  · exact hpart _ ⟨hself.constraints, hself.hints, hself.scope⟩

/-- The part keeps the later constraint and the hint, now stored with another function, and declares
more variables and one more coefficient. -/
theorem parts_of_valid_are_valid_sample :
    let first : Term := .ofValues 1 0 .internal (by decide) (by decide)
    let second : Term := .ofValues 4 0 .public (by decide) (by decide)
    let earlier : Constraint := ⟨.single second, .empty, .single first⟩
    let later : Constraint := ⟨.empty, .single first, ⟨[first, second]⟩⟩
    let whole : System :=
      { empty ⟨1, 0, 2⟩ (CoefficientTable.seeded.add 5).2 with
        constraints := #[earlier, later]
        hints := (∅ : Std.ExtTreeMap Nat Hint).insert 1 ⟨1, ⟨7⟩, [.single first]⟩ }
    let part : System :=
      { empty ⟨1, 3, 4⟩ ((CoefficientTable.seeded.add 6).2.add 7).2 with
        constraints := #[later]
        hints := (∅ : Std.ExtTreeMap Nat Hint).insert 1 ⟨9, ⟨8⟩, [.single first]⟩
        logs := #[.empty] }
    whole.validate = .ok () ∧ part.PartOf whole ∧ part.validate = .ok () ∧
      (whole.removeHint 1).2.validate = .ok () := by
  intro first second earlier later whole part
  have hwhole : whole.validate = .ok () := validate_eq_ok_iff.mpr (by decide)
  have hscope : whole.scope.Within part.scope := by
    refine ⟨?_, ?_, ?_, ?_⟩ <;> decide
  have hpart : part.PartOf whole := by
    refine ⟨fun c hc => ?_, fun wire h hget => ?_, hscope⟩
    · have heq : c = later := by simpa [part] using hc
      simp [whole, heq]
    · by_cases hwire : wire = 1
      · have heq : ⟨9, ⟨8⟩, [.single first]⟩ = h := by simpa [part, hwire] using hget
        exact ⟨⟨1, ⟨7⟩, [.single first]⟩, by simp [whole, hwire], by rw [← heq]⟩
      · have hnone : part.hints[wire]? = none := by simp [part, Ne.symm hwire]
        rw [hnone] at hget
        cases hget
  obtain ⟨hparts, -, hremove, -⟩ := parts_of_valid_are_valid hwhole
  exact ⟨hwhole, hpart, hparts part hpart, hremove 1⟩

end System
end RankOne
