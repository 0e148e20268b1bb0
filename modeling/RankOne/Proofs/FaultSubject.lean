import RankOne.Proofs.ReadingOrder
import RankOne.Proofs.Reordering

/-! Reordering terms does not move the fault that validation reports. Every check looks at one
subject, such as a side of a constraint, and subjects are read one after the other; a reordering
keeps the faults of every subject, so it keeps which subject is the first faulty one. -/
namespace RankOne

/-! ## Subjects -/

/-- What a check looks at. -/
inductive Subject where
  | side (index : Nat) (operand : Operand)
  | wire (wire : Nat)
  | input (wire input : Nat)
  | output (index : Nat)
  deriving DecidableEq, Repr

def Check.subject : Check → Subject
  | term index operand _ _ => .side index operand
  | wire w => .wire w
  | input w i _ _ => .input w i
  | output index => .output index

/-- The place of a subject begins the places of its checks. -/
def Subject.place : Subject → List Nat
  | side index operand => [0, index, operand.rank]
  | wire w => [1, w, 0]
  | input w i => [1, w, 1, i]
  | output index => [2, index]

/-- Whether the check is one of a single term. -/
def Check.isOfTerm : Check → Bool
  | term .. | input .. => true
  | wire _ | output _ => false

/-- Whether the fault is one that a single term can have. -/
def Fault.isOfTerm : Fault → Bool
  | unknownCoefficient .. | unsetVisibility _ | undeclaredVariable .. => true
  | _ => false

theorem Subject.place_injective {a b : Subject} (h : a.place = b.place) : a = b := by
  cases a <;> cases b <;> simp [place] at h
  case side.side =>
    obtain ⟨rfl, ho⟩ := h
    rw [Operand.rank_injective ho]
  case wire.wire => rw [h]
  case input.input =>
    obtain ⟨rfl, rfl⟩ := h
    rfl
  case output.output => rw [h]

/-- Checks are made subject by subject. -/
theorem Check.subject_place_le {a b : Check} (h : a.place ≤ b.place) :
    a.subject.place ≤ b.subject.place := by
  cases a <;> cases b <;>
    simp [place, subject, Subject.place, cons_le_cons_iff] at h ⊢ <;> omega

theorem Scope.Violates.isOfTerm {scope : Scope} {site : Site} {t : Term} {check : TermCheck}
    {fault : Fault} (h : scope.Violates site t check fault) : fault.isOfTerm = true := by
  cases h <;> rfl

theorem System.Fails.isOfTerm_eq {s : System} {check : Check} {fault : Fault}
    (h : s.Fails check fault) : fault.isOfTerm = check.isOfTerm := by
  cases h with
  | term _ _ hviolates => exact hviolates.isOfTerm
  | wire => rfl
  | input _ _ _ hviolates => exact hviolates.isOfTerm
  | output => rfl

/-- A check that is not one of a term has its subject for itself. -/
theorem Check.eq_of_subject_eq {a b : Check} (ha : a.isOfTerm = false)
    (h : b.subject = a.subject) : b = a := by
  cases a <;> cases b <;> simp_all [isOfTerm, subject]

namespace System

/-- Validation stops at a check: it reports the fault of the first check that fails. -/
structure StopsAt (s : System) (check : Check) (fault : Fault) : Prop where
  reported : s.validate = .error fault
  fails : s.Fails check fault
  first : ∀ other g, s.Fails other g → check.place ≤ other.place

theorem validate_eq_error_iff_stopsAt {s : System} {fault : Fault} :
    s.validate = .error fault ↔ ∃ check, s.StopsAt check fault := by
  constructor
  · intro h
    obtain ⟨check, hfails, hfirst⟩ := fault?_eq_some_iff.mp (validate_eq_error_iff.mp h)
    exact ⟨check, h, hfails, hfirst⟩
  · rintro ⟨check, h⟩
    exact h.reported

theorem exists_stopsAt_of_fails {s : System} {check : Check} {fault : Fault}
    (h : s.Fails check fault) : ∃ first g, s.StopsAt first g := by
  cases hfault : s.fault? with
  | none =>
    have hnothing := s.earliest_fault?.eq_none_iff.mp hfault
    exact absurd ⟨check, rfl, h⟩ (hnothing check.place fault)
  | some g =>
    obtain ⟨first, hfirst⟩ :=
      validate_eq_error_iff_stopsAt.mp (validate_eq_error_iff.mpr hfault)
    exact ⟨first, g, hfirst⟩

theorem validate_eq_ok_iff_not_fails {s : System} :
    s.validate = .ok () ↔ ∀ check fault, ¬ s.Fails check fault := by
  constructor
  · intro h check fault hfails
    obtain ⟨first, g, hfirst⟩ := exists_stopsAt_of_fails hfails
    rw [hfirst.reported] at h
    cases h
  · intro h
    cases hvalidate : s.validate with
    | ok => rfl
    | error fault =>
      obtain ⟨check, hstops⟩ := validate_eq_error_iff_stopsAt.mp hvalidate
      exact absurd hstops.fails (h check fault)

/-! ## Faults of reordered systems -/

section

variable {s t : System} (hst : s.Reordered t) {check other : Check} {fault g : Fault}

include hst

/-- A reordering keeps the faults of every subject. -/
theorem Reordered.exists_fails (h : s.Fails check fault) :
    ∃ other : Check, other.subject = check.subject ∧ t.Fails other fault := by
  have hscope : s.scope = t.scope := by rw [scope, scope, hst.counts, hst.coefficients]
  cases h with
  | @term index c operand _ _ k _ hc hx hviolates =>
    obtain ⟨d, hd, hcd⟩ := hst.exists_constraint hc
    obtain ⟨position, hx⟩ := (hcd operand).exists_getElem? hx
    exact ⟨.term index operand position k, rfl, .term hd hx (hscope ▸ hviolates)⟩
  | @wire wire hw hle =>
    rw [hst.counts] at hle ⊢
    exact ⟨.wire wire, rfl, .wire (hst.mem_hints hw) hle⟩
  | @input wire _ input _ _ _ k _ hget hx hy hviolates =>
    obtain ⟨hint, hget, hhint⟩ := hst.exists_hint hget
    obtain ⟨x, hx, hxx⟩ := exists_getElem?_of_forall₂ hhint.inputs hx
    obtain ⟨position, hy⟩ := hxx.exists_getElem? hy
    exact ⟨.input wire input position k, rfl, .input hget hx hy (hscope ▸ hviolates)⟩
  | @output index c x hc ho hv hmem =>
    obtain ⟨d, hd, hcd⟩ := hst.exists_constraint hc
    -- A single term can stand in one order only.
    have hsole : d.output.terms = [x] := by
      apply List.perm_singleton.mp
      rw [← ho]
      exact (hcd .output).symm
    exact ⟨.output index, rfl, .output hd hsole hv (hst.mem_hints hmem)⟩

/-- Validation of a reordered system stops at the same subject. -/
theorem Reordered.subject_eq (hs : s.StopsAt check fault) (ht : t.StopsAt other g) :
    other.subject = check.subject := by
  obtain ⟨c, hc, hcfails⟩ := hst.exists_fails hs.fails
  obtain ⟨o, ho, hofails⟩ := hst.symm.exists_fails ht.fails
  apply Subject.place_injective
  apply le_antisymm
  · calc other.subject.place ≤ c.subject.place := Check.subject_place_le (ht.first c _ hcfails)
      _ = check.subject.place := by rw [hc]
  · calc check.subject.place ≤ o.subject.place := Check.subject_place_le (hs.first o _ hofails)
      _ = other.subject.place := by rw [ho]

theorem Reordered.exists_stopsAt (hs : s.StopsAt check fault) :
    ∃ other g, other.subject = check.subject ∧ t.StopsAt other g := by
  obtain ⟨c, -, hfails⟩ := hst.exists_fails hs.fails
  obtain ⟨other, g, hother⟩ := exists_stopsAt_of_fails hfails
  exact ⟨other, g, hst.subject_eq hs hother, hother⟩

theorem Reordered.validate_eq_ok (hs : s.validate = .ok ()) : t.validate = .ok () := by
  rw [validate_eq_ok_iff_not_fails] at hs ⊢
  intro check fault hfails
  obtain ⟨other, -, hother⟩ := hst.symm.exists_fails hfails
  exact hs other fault hother

/-- A fault that is not one of a term is reported again as it is. -/
theorem Reordered.validate_eq_error (hfault : fault.isOfTerm = false)
    (hs : s.validate = .error fault) : t.validate = .error fault := by
  obtain ⟨c, hc⟩ := validate_eq_error_iff_stopsAt.mp hs
  have hterm : c.isOfTerm = false := hc.fails.isOfTerm_eq ▸ hfault
  obtain ⟨o, ho, hofails⟩ := hst.exists_fails hc.fails
  obtain ⟨p, g, hp, hpstops⟩ := hst.exists_stopsAt hc
  obtain rfl := Check.eq_of_subject_eq hterm ho
  obtain rfl := Check.eq_of_subject_eq hterm hp
  rw [hofails.fault_unique hpstops.fails]
  exact hpstops.reported

/-- Where validation stops at a term, it stops again at a term of the same combination, and for a
fault that a term of this combination had before. -/
theorem Reordered.exists_stopsAt_term (hterm : check.isOfTerm = true)
    (hs : s.StopsAt check fault) :
    ∃ other g, other.subject = check.subject ∧ t.StopsAt other g ∧ g.isOfTerm = true ∧
      ∃ own : Check, own.subject = check.subject ∧ s.Fails own g := by
  obtain ⟨other, g, hsubject, hstops⟩ := hst.exists_stopsAt hs
  obtain ⟨own, hown, hfails⟩ := hst.symm.exists_fails hstops.fails
  have hown : own.subject = check.subject := hown.trans hsubject
  refine ⟨other, g, hsubject, hstops, ?_, own, hown, hfails⟩
  by_contra hg
  -- Then the check would be the one that was made before, and that is one of a term.
  have hother : other.isOfTerm = false := by
    rw [← hstops.fails.isOfTerm_eq]
    simpa using hg
  obtain rfl := Check.eq_of_subject_eq hother hsubject.symm
  simp [hother] at hterm

end

/-- Canonical order does not move the fault that validation reports. A fault of a hint's wire or of
an output is reported unchanged; a fault of a term is reported again for a term of the same side or
input, and it is one that the terms there had before. -/
theorem canonicalize_keeps_fault_subject (s : System) :
    (s.canonicalize.validate = .ok () ↔ s.validate = .ok ()) ∧
    (∀ wire declared, s.canonicalize.validate = .error (.undeclaredHintWire wire declared) ↔
      s.validate = .error (.undeclaredHintWire wire declared)) ∧
    (∀ wire index, s.canonicalize.validate = .error (.constrainedHintWire wire index) ↔
      s.validate = .error (.constrainedHintWire wire index)) ∧
    (∀ fault, s.validate = .error fault ∧ fault.isOfTerm = true ↔
      ∃ check, s.StopsAt check fault ∧ check.isOfTerm = true) ∧
    (∀ check fault, s.StopsAt check fault ∧ check.isOfTerm = true →
      ∃ other g, other.subject = check.subject ∧ s.canonicalize.StopsAt other g ∧
        g.isOfTerm = true ∧ ∃ own : Check, own.subject = check.subject ∧ s.Fails own g) := by
  have hsorted := s.reordered_canonicalize
  refine ⟨⟨hsorted.symm.validate_eq_ok, hsorted.validate_eq_ok⟩, ?_, ?_, ?_, ?_⟩
  · intro wire declared
    exact ⟨hsorted.symm.validate_eq_error rfl, hsorted.validate_eq_error rfl⟩
  · intro wire index
    exact ⟨hsorted.symm.validate_eq_error rfl, hsorted.validate_eq_error rfl⟩
  · intro fault
    constructor
    · rintro ⟨herror, hterm⟩
      obtain ⟨check, hstops⟩ := validate_eq_error_iff_stopsAt.mp herror
      exact ⟨check, hstops, hstops.fails.isOfTerm_eq ▸ hterm⟩
    · rintro ⟨check, hstops, hterm⟩
      exact ⟨hstops.reported, hstops.fails.isOfTerm_eq.trans hterm⟩
  · rintro check fault ⟨hstops, hterm⟩
    exact hsorted.exists_stopsAt_term hterm hstops

/-- Which of the faulty terms of a side is reported may change: the undeclared variable comes to
stand before the unset term. -/
example :
    let unset : Term := .ofValues 1 0 .unset (by decide) (by decide)
    let undeclared : Term := .ofValues 1 5 .internal (by decide) (by decide)
    let s : System :=
      { System.empty ⟨0, 0, 0⟩ .seeded with
        constraints := #[⟨⟨[unset, undeclared]⟩, .empty, .empty⟩] }
    s.fault? = some (.unsetVisibility (.constraint 0 .left)) ∧
      s.canonicalize.fault? = some (.undeclaredVariable (.constraint 0 .left) .internal 5 0) := by
  cbv

end System
end RankOne
